import Mathlib.Data.DFinsupp.WellFounded
import Mathlib.Data.Fintype.Basic

/-!
# Descending counts

A step that takes something from one of finitely many counts and adds only to later ones can be
taken only finitely often (`Descent.wellFounded`).
-/

namespace Descent

variable {n : Nat}

/-- `a` has less than `b` at some place and no more before it. -/
def Below (a b : Fin n → Nat) : Prop := ∃ i, (∀ j < i, a j ≤ b j) ∧ a i < b i

/-- At the first place where the two differ, `a` has less. -/
theorem Below.lex {a b : Fin n → Nat} (h : Below a b) : Pi.Lex (· < ·) (· < ·) a b := by
  obtain ⟨i, hle, hlt⟩ := h
  obtain ⟨first, hne, hmin⟩ :=
    WellFounded.has_min (wellFounded_lt (α := Fin n)) {j | a j ≠ b j} ⟨i, hlt.ne⟩
  have hbefore : ∀ j < first, a j = b j := by
    intro j hj
    by_contra hne
    exact hmin j hne hj
  refine ⟨first, hbefore, ?_⟩
  rcases lt_trichotomy first i with hfirst | rfl | hfirst
  · exact lt_of_le_of_ne (hle first hfirst) hne
  · exact hlt
  · exact absurd (hbefore i hfirst) hlt.ne

theorem wellFounded : WellFounded (Below : (Fin n → Nat) → (Fin n → Nat) → Prop) :=
  Subrelation.wf Below.lex (Pi.Lex.wellFounded (· < ·) fun _ => wellFounded_lt)

end Descent
