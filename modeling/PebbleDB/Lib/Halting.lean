import Mathlib.Algebra.Group.Action.Defs
import PebbleDB.Lib.Wp

/-!
# Planted exits

An exit that is planted into a computation to test it should end it where something else could have
ended it as well. `Limits` says how the states of a computation are run without the planted exits and
with a budget, and `Shadows` that the computation does the same without them, up to where one ends
it: there a budget that is just enough ends it, with the same outcome for what lasts. Budgets add up
along a sequence of computations.
-/

namespace EarlyExit

variable {ε σ α γ δ : Type}

theorem after_bind_of_ok {x : EStateM ε σ α} {f : α → EStateM ε σ γ} {a : α} {s t : σ}
    (h : x s = .ok a t) : after (x >>= f) s = after (f a) t := by
  rw [after, after, bind_of_ok h]

theorem after_of_ok {x : EStateM ε σ α} {a : α} {s t : σ} (h : x s = .ok a t) : after x s = t := by
  rw [after, h]

theorem after_of_error {x : EStateM ε σ α} {e : ε} {s t : σ} (h : x s = .error e t) :
    after x s = t := by
  rw [after, h]

/-- How states are run with a budget: what they have spent of it, where it has ended them, and which
exits are planted. -/
structure Limits (ε κ β σ : Type) where
  /-- the state with this budget, where nothing is planted -/
  limit : β → σ → σ
  ready : σ → Prop
  spent : σ → κ
  /-- the budget that ends a computation when it next spends something -/
  empty : β
  /-- the second state has the empty budget, and of the first one what lasts -/
  halted : σ → σ → Prop
  planted : ε → Prop

namespace Limits

variable {κ β : Type} (L : Limits ε κ β σ)

/-- With the empty budget nothing that lasts changes. -/
def Halts (x : EStateM ε σ α) : Prop := ∀ s t, L.halted s t → L.halted s (after x t)

section Halts

variable {L} {x : EStateM ε σ α} {f : α → EStateM ε σ γ}

/-- What comes behind the end of the budget does nothing. -/
theorem halted_bind {s t : σ} (h : L.halted s (after x t)) (hf : ∀ a, L.Halts (f a)) :
    L.halted s (after (x >>= f) t) := by
  cases hrun : x t with
  | ok a t' =>
    rw [after_of_ok hrun] at h
    rw [after_bind_of_ok hrun]
    exact hf a s t' h
  | error e t' =>
    rw [after_of_error hrun] at h
    rwa [after_of_error (bind_of_error hrun)]

theorem Halts.bind (hx : L.Halts x) (hf : ∀ a, L.Halts (f a)) : L.Halts (x >>= f) :=
  fun s t h => halted_bind (hx s t h) hf

end Halts

variable [AddMonoid κ] [AddAction κ β]

/-- A limited run returns the same, if its budget covers what was spent. -/
def Returned (x : EStateM ε σ α) (s : σ) (a : α) (s' : σ) : Prop :=
  L.ready s' ∧ ∃ k, L.spent s' = L.spent s + k ∧
    ∀ budget, x (L.limit (k +ᵥ budget) s) = .ok a (L.limit budget s')

/-- A limited run exits in the same way, or the exit is a planted one and the budget ends the
limited run. -/
def Exited (x : EStateM ε σ α) (s : σ) (e : ε) (s' : σ) : Prop :=
  ∃ k, L.spent s' = L.spent s + k ∧
    ((∀ budget, x (L.limit (k +ᵥ budget) s) = .error e (L.limit budget s')) ∨
      L.planted e ∧ L.halted s' (after x (L.limit (k +ᵥ L.empty) s)))

/-- The computation does with a budget what it does without one, up to a planted exit, where a budget
that ends there halts it. -/
structure Shadows (x : EStateM ε σ α) : Prop where
  runs : ∀ s, L.ready s → Wp x (L.Returned x s) (L.Exited x s) s
  halts : L.Halts x

variable {L} {x y : EStateM ε σ α} {f : α → EStateM ε σ γ}

/-- A computation that spends nothing. -/
theorem Returned.of_eq {s s' : σ} {a : α} (hready : L.ready s') (hspent : L.spent s' = L.spent s)
    (h : ∀ budget, x (L.limit budget s) = .ok a (L.limit budget s')) : L.Returned x s a s' := by
  refine ⟨hready, 0, hspent.trans (add_zero _).symm, fun budget => ?_⟩
  rw [zero_vadd]
  exact h budget

theorem Exited.of_eq {s s' : σ} {e : ε} (hspent : L.spent s' = L.spent s)
    (h : ∀ budget, x (L.limit budget s) = .error e (L.limit budget s')) : L.Exited x s e s' := by
  refine ⟨0, hspent.trans (add_zero _).symm, Or.inl fun budget => ?_⟩
  rw [zero_vadd]
  exact h budget

theorem Returned.bind {s t u : σ} {a : α} {c : γ} (hx : L.Returned x s a t)
    (hf : L.Returned (f a) t c u) : L.Returned (x >>= f) s c u := by
  obtain ⟨-, k, hk, hx⟩ := hx
  obtain ⟨hready, j, hj, hf⟩ := hf
  refine ⟨hready, k + j, by rw [hj, hk, add_assoc], fun budget => ?_⟩
  rw [add_vadd, bind_of_ok (hx _)]
  exact hf budget

theorem Returned.bind_exited {s t u : σ} {a : α} {e : ε} (hx : L.Returned x s a t)
    (hf : L.Exited (f a) t e u) : L.Exited (x >>= f) s e u := by
  obtain ⟨-, k, hk, hx⟩ := hx
  obtain ⟨j, hj, hf⟩ := hf
  refine ⟨k + j, by rw [hj, hk, add_assoc], hf.imp (fun hf budget => ?_) ?_⟩
  · rw [add_vadd, bind_of_ok (hx _)]
    exact hf budget
  · rintro ⟨hplanted, hhalted⟩
    rw [add_vadd, after_bind_of_ok (hx _)]
    exact ⟨hplanted, hhalted⟩

theorem Exited.bind {s t : σ} {e : ε} (hx : L.Exited x s e t) (hf : ∀ a, L.Halts (f a)) :
    L.Exited (x >>= f) s e t := by
  obtain ⟨k, hk, hx⟩ := hx
  exact ⟨k, hk, hx.imp (fun hx budget => bind_of_error (hx budget))
    fun ⟨hplanted, hhalted⟩ => ⟨hplanted, halted_bind hhalted hf⟩⟩

namespace Shadows

theorem bind (hx : L.Shadows x) (hf : ∀ a, L.Shadows (f a)) : L.Shadows (x >>= f) where
  runs s hready := by
    refine Wp.bind ((hx.runs s hready).mono (fun a t hreturned => ?_) fun e t hexited => ?_)
    · exact ((hf a).runs t hreturned.1).mono (fun _ _ h => hreturned.bind h)
        fun _ _ h => hreturned.bind_exited h
    · exact hexited.bind fun a => (hf a).halts
  halts := hx.halts.bind fun a => (hf a).halts

theorem pure (a : α) : L.Shadows (pure a : EStateM ε σ α) where
  runs _ hready := Wp.pure (.of_eq hready rfl fun _ => rfl)
  halts _ _ h := h

theorem throw (e : ε) : L.Shadows (throw e : EStateM ε σ α) where
  runs _ _ := Wp.throw (.of_eq rfl fun _ => rfl)
  halts _ _ h := h

theorem fromExcept (a : Except ε α) : L.Shadows (EarlyExit.fromExcept a : EStateM ε σ α) := by
  cases a with
  | ok a => exact .pure a
  | error e => exact .throw e

/-- What is read from the state does not depend on the budget. -/
theorem get_bind {g : σ → EStateM ε σ γ} (hview : ∀ s budget, g (L.limit budget s) = g s)
    (h : ∀ s, L.Shadows (g s)) : L.Shadows (get >>= g) where
  runs s hready := by
    have hget : ∀ t, (get >>= g) t = g t t := fun t => rfl
    refine Wp.bind (Wp.get (((h s).runs s hready).mono (fun a s' hreturned => ?_)
      fun e s' hexited => ?_))
    · obtain ⟨hready', k, hk, hreturned⟩ := hreturned
      refine ⟨hready', k, hk, fun budget => ?_⟩
      rw [hget, hview]
      exact hreturned budget
    · obtain ⟨k, hk, hexited⟩ := hexited
      refine ⟨k, hk, hexited.imp (fun hexited budget => ?_) fun ⟨hplanted, hhalted⟩ => ?_⟩
      · rw [hget, hview]
        exact hexited budget
      · rw [after, hget, hview, ← after]
        exact ⟨hplanted, hhalted⟩
  halts s t hhalted := (h t).halts s t hhalted

theorem map {g : α → γ} (hx : L.Shadows x) : L.Shadows (g <$> x) := by
  rw [map_eq_pure_bind]
  exact hx.bind fun a => .pure (g a)

theorem ite {p : Prop} [Decidable p] (hx : L.Shadows x) (hy : L.Shadows y) :
    L.Shadows (if p then x else y) := by
  split
  · exact hx
  · exact hy

/-- A change of the state that the budget has no part in. -/
theorem modify {g : σ → σ} (hready : ∀ s, L.ready s → L.ready (g s))
    (hspent : ∀ s, L.spent (g s) = L.spent s)
    (hlimit : ∀ budget s, g (L.limit budget s) = L.limit budget (g s))
    (hhalted : ∀ s t, L.halted s t → L.halted s (g t)) :
    L.Shadows (modify g : EStateM ε σ Unit) where
  runs s hs := Wp.modify (.of_eq (hready s hs) (hspent s) fun budget =>
    congrArg (EStateM.Result.ok ()) (hlimit budget s))
  halts := hhalted

end Shadows

end Limits

end EarlyExit
