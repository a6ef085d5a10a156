import Mathlib.Algebra.GroupWithZero.Nat
import Mathlib.Data.List.Forall2
import PebbleDB.Lib.SortedMap

/-!
# Overlays of sorted maps

`SortedMap.overlay` puts maps on top of each other: a key has the value of the first map that
binds it. The rest of the module is about reading a map in key order from some point on: what
is left is the bindings whose key satisfies a predicate, and going on means strengthening it.
-/

namespace SortedMap

variable {κ α : Type} [LinearOrder κ]

/-! ## Filtering -/

/-- The bindings that satisfy `p`. -/
def filter (p : κ × α → Bool) (m : SortedMap κ α) : SortedMap κ α :=
  ⟨m.entries.filter p, m.sorted.filter p⟩

theorem mem_entries_filter {p : κ × α → Bool} {m : SortedMap κ α} {k : κ} {v : α} :
    (m.filter p).get? k = some v ↔ m.get? k = some v ∧ p (k, v) = true := by
  rw [← mem_entries, filter, List.mem_filter, mem_entries]

theorem lookup_filter_entries (P : κ → Bool) (m : SortedMap κ α) (k : κ) :
    Raw.lookup k (m.entries.filter fun e => P e.1) = if P k then m.get? k else none :=
  Raw.lookup_filter P k m.entries

/-! ## Overlays -/

/-- The bindings of `m`, and those of `n` for the other keys. -/
def union (m n : SortedMap κ α) : SortedMap κ α :=
  m.entries.foldl (fun acc e => acc.insert e.1 e.2) n

/-- The maps on top of each other, the first one uppermost. -/
def overlay (ms : List (SortedMap κ α)) : SortedMap κ α := ms.foldr union ∅

theorem get?_foldl_insert (l : List (κ × α)) (hl : Raw.Sorted l) (n : SortedMap κ α) (k : κ) :
    (l.foldl (fun acc e => acc.insert e.1 e.2) n).get? k = (Raw.lookup k l).or (n.get? k) := by
  induction l generalizing n with
  | nil => simp [Raw.lookup]
  | cons e l ih =>
    rw [List.foldl_cons, ih hl.of_cons, get?_insert, Raw.lookup]
    by_cases hk : k = e.1
    · subst hk
      have hnone : Raw.lookup e.1 l = none :=
        Raw.lookup_eq_none_iff.mpr fun b hb => ne_of_gt (hl.head_lt b hb)
      simp [hnone]
    · simp [hk]

@[simp] theorem get?_union (m n : SortedMap κ α) (k : κ) :
    (m.union n).get? k = (m.get? k).or (n.get? k) := get?_foldl_insert m.entries m.sorted n k

/-- A key has the value of the first map that binds it. -/
theorem get?_overlay (ms : List (SortedMap κ α)) (k : κ) :
    (overlay ms).get? k = ms.findSome? (·.get? k) := by
  induction ms with
  | nil => rfl
  | cons m ms ih =>
    show (m.union (overlay ms)).get? k = _
    rw [get?_union, ih, List.findSome?_cons]
    cases m.get? k <;> rfl

theorem get?_overlay_eq_none_iff {ms : List (SortedMap κ α)} {k : κ} :
    (overlay ms).get? k = none ↔ ∀ m ∈ ms, m.get? k = none := by
  rw [get?_overlay, List.findSome?_eq_none_iff]

/-- The first map with the key decides. -/
theorem get?_overlay_of_first {before after : List (SortedMap κ α)} {m : SortedMap κ α} {k : κ}
    {v : α} (hbefore : ∀ n ∈ before, n.get? k = none) (hm : m.get? k = some v) :
    (overlay (before ++ m :: after)).get? k = some v := by
  rw [get?_overlay, List.findSome?_append, List.findSome?_eq_none_iff.mpr hbefore,
    List.findSome?_cons, hm]
  rfl

theorem length_insert_le (k : κ) (v : α) (l : List (κ × α)) :
    (Raw.insert k v l).length ≤ l.length + 1 := by
  induction l with
  | nil => exact Nat.le_refl _
  | cons a l ih =>
    rw [Raw.insert]
    split
    · exact Nat.le_refl _
    · split
      · simp
      · simpa using ih

theorem size_union_le (m n : SortedMap κ α) : (m.union n).size ≤ m.size + n.size := by
  have h : ∀ (l : List (κ × α)) (n : SortedMap κ α),
      (l.foldl (fun acc e => acc.insert e.1 e.2) n).size ≤ l.length + n.size := by
    intro l
    induction l with
    | nil => intro n; simp
    | cons e l ih =>
      intro n
      have h1 := ih (n.insert e.1 e.2)
      have h2 : (n.insert e.1 e.2).size ≤ n.size + 1 := length_insert_le e.1 e.2 n.entries
      rw [List.foldl_cons, List.length_cons]
      omega
  exact h m.entries n

theorem size_overlay_le (ms : List (SortedMap κ α)) :
    (overlay ms).size ≤ (ms.map size).sum := by
  induction ms with
  | nil => exact Nat.le_refl _
  | cons m ms ih =>
    have := size_union_le m (overlay ms)
    rw [List.map_cons, List.sum_cons]
    show (m.union (overlay ms)).size ≤ _
    omega

/-! ## Reading on from a point -/

section Rest

variable {m : SortedMap κ α} {P : κ → Bool} {k : κ} {v : α}

/-- What the first binding of the rest says about the map. -/
theorem head_filter_eq_some (h : (m.entries.filter fun e => P e.1).head? = some (k, v)) :
    m.get? k = some v ∧ P k = true ∧ ∀ k', P k' = true → m.get? k' ≠ none → k ≤ k' := by
  have hmem : (k, v) ∈ m.entries.filter fun e => P e.1 := List.mem_of_mem_head? h
  obtain ⟨hkv, hP⟩ := List.mem_filter.mp hmem
  refine ⟨mem_entries.mp hkv, hP, fun k' hP' hk' => ?_⟩
  obtain ⟨v', hv'⟩ := Option.ne_none_iff_exists'.mp hk'
  have hmem' : (k', v') ∈ m.entries.filter fun e => P e.1 :=
    List.mem_filter.mpr ⟨mem_entries.mpr hv', hP'⟩
  have hs := m.sorted.filter fun e => P e.1
  obtain ⟨rest, hrest⟩ := List.head?_eq_some_iff.mp h
  rw [hrest] at hmem' hs
  rcases List.mem_cons.mp hmem' with heq | hmem'
  · rw [Prod.mk.injEq] at heq
    exact heq.1.ge
  · exact (hs.head_lt _ hmem').le

theorem head_filter_eq_none (h : (m.entries.filter fun e => P e.1).head? = none) (k : κ)
    (hk : P k = true) : m.get? k = none := by
  have hnil := List.head?_eq_none_iff.mp h
  have := lookup_filter_entries P m k
  rw [hnil, if_pos hk] at this
  exact this.symm

/-- The rest splits at its least key. -/
theorem filter_eq_cons (hv : m.get? k = some v) (hP : P k = true)
    (hle : ∀ k', P k' = true → m.get? k' ≠ none → k ≤ k') :
    (m.entries.filter fun e => P e.1) =
      (k, v) :: m.entries.filter fun e => P e.1 && decide (k < e.1) := by
  have hrest : ∀ b ∈ m.entries.filter fun e => P e.1 && decide (k < e.1), k < b.1 := by
    intro b hb
    have := (List.mem_filter.mp hb).2
    simp only [Bool.and_eq_true, decide_eq_true_eq] at this
    exact this.2
  refine Raw.Sorted.ext (m.sorted.filter _)
    (List.Pairwise.cons hrest (m.sorted.filter _)) fun k' => ?_
  rw [lookup_filter_entries, Raw.lookup, Raw.lookup_filter (fun a => P a && decide (k < a))]
  by_cases hk : k' = k
  · simp [hk, hP, hv]
  · rw [if_neg hk]
    by_cases hP' : P k' = true
    · by_cases hlt : k < k'
      · simp [hP', hlt, get?]
      · have hnone : m.get? k' = none := by
          by_contra hne
          exact hk (le_antisymm (not_lt.mp hlt) (hle k' hP' hne))
        simp [hP', hlt, hnone]
    · simp [hP']

/-- Nothing is dropped from the rest by a key below all of it. -/
theorem filter_eq_filter_lt (hlt : ∀ k', P k' = true → m.get? k' ≠ none → k < k') :
    (m.entries.filter fun e => P e.1) =
      m.entries.filter fun e => P e.1 && decide (k < e.1) := by
  refine List.filter_congr fun e he => ?_
  by_cases hP : P e.1 = true
  · have hne : m.get? e.1 ≠ none := by
      rw [mem_entries.mp (show (e.1, e.2) ∈ m.entries from he)]
      exact Option.some_ne_none _
    simp [hP, hlt e.1 hP hne]
  · simp [hP]

/-- On a sorted list the bindings not below `t` are those after the leading smaller ones. -/
theorem filter_le_eq_drop {l : List (κ × α)} (hs : Raw.Sorted l) (t : κ) :
    (l.filter fun e => decide (t ≤ e.1)) =
      l.drop (l.takeWhile fun e => decide (e.1 < t)).length := by
  induction l with
  | nil => rfl
  | cons e l ih =>
    by_cases hlt : e.1 < t
    · rw [List.filter_cons_of_neg (by simpa using hlt), List.takeWhile_cons_of_pos (by simpa using hlt),
        ih hs.of_cons]
      rfl
    · rw [List.takeWhile_cons_of_neg (by simpa using hlt)]
      refine List.filter_eq_self.mpr fun b hb => ?_
      have hle : e.1 ≤ b.1 := by
        rcases List.mem_cons.mp hb with rfl | hb
        · exact le_rfl
        · exact (hs.head_lt b hb).le
      simpa using (not_lt.mp hlt).trans hle

end Rest

end SortedMap
