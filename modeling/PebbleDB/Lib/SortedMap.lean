import Mathlib.Algebra.GroupWithZero.Nat
import Mathlib.Order.Lattice
import Mathlib.Data.List.Basic
import Mathlib.Tactic.Common

/-!
# Sorted maps

A finite map held as the list of its bindings in strictly ascending key order, the order in
which an ordered map is iterated. The list is canonical: two maps with the same lookups are
equal (`SortedMap.ext_get?`), so an equation between maps is an equation between their
iterations. Everything computes by structural recursion on the list.
-/

namespace SortedMap.Raw

variable {κ α : Type} [LinearOrder κ]

/-- The bindings are in strictly ascending key order. -/
def Sorted (l : List (κ × α)) : Prop := l.Pairwise (fun a b => a.1 < b.1)

/-- The first binding of `k`. -/
def lookup (k : κ) : List (κ × α) → Option α
  | [] => none
  | (a, v) :: l => if k = a then some v else lookup k l

/-- Ordered insertion; an existing binding of `k` is overwritten in place. -/
def insert (k : κ) (v : α) : List (κ × α) → List (κ × α)
  | [] => [(k, v)]
  | (a, w) :: l =>
    if k < a then (k, v) :: (a, w) :: l
    else if k = a then (k, v) :: l
    else (a, w) :: insert k v l

theorem Sorted.of_cons {a : κ × α} {l : List (κ × α)} (h : Sorted (a :: l)) : Sorted l :=
  List.Pairwise.of_cons h

theorem Sorted.head_lt {a : κ × α} {l : List (κ × α)} (h : Sorted (a :: l)) :
    ∀ b ∈ l, a.1 < b.1 := fun _ hb => List.rel_of_pairwise_cons h hb

theorem Sorted.filter {l : List (κ × α)} (h : Sorted l) (p : κ × α → Bool) :
    Sorted (l.filter p) := List.Pairwise.filter p h

theorem Sorted.append_left {l m : List (κ × α)} (h : Sorted (l ++ m)) : Sorted l :=
  (List.pairwise_append.mp h).1

theorem Sorted.append_right {l m : List (κ × α)} (h : Sorted (l ++ m)) : Sorted m :=
  (List.pairwise_append.mp h).2.1

theorem Sorted.append_lt {l m : List (κ × α)} (h : Sorted (l ++ m)) :
    ∀ a ∈ l, ∀ b ∈ m, a.1 < b.1 := (List.pairwise_append.mp h).2.2

theorem mem_of_lookup {k : κ} {v : α} {l : List (κ × α)} (h : lookup k l = some v) :
    (k, v) ∈ l := by
  induction l with
  | nil => simp [lookup] at h
  | cons a l ih =>
    rw [lookup] at h
    split at h
    · rename_i heq
      cases h
      simp [heq]
    · exact List.mem_cons_of_mem _ (ih h)

theorem lookup_eq_none_iff {k : κ} {l : List (κ × α)} :
    lookup k l = none ↔ ∀ a ∈ l, a.1 ≠ k := by
  induction l with
  | nil => simp [lookup]
  | cons a l ih =>
    rw [lookup]
    split
    · rename_i heq
      simp [heq]
    · rename_i hne
      simp [ih, Ne.symm hne]

theorem Sorted.lookup_of_mem {k : κ} {v : α} {l : List (κ × α)} (hs : Sorted l)
    (h : (k, v) ∈ l) : lookup k l = some v := by
  induction l with
  | nil => simp at h
  | cons a l ih =>
    rw [lookup]
    rcases List.mem_cons.mp h with rfl | h
    · simp
    · have hlt := hs.head_lt _ h
      rw [if_neg (ne_of_gt hlt)]
      exact ih hs.of_cons h

theorem Sorted.mem_iff {k : κ} {v : α} {l : List (κ × α)} (hs : Sorted l) :
    (k, v) ∈ l ↔ lookup k l = some v := ⟨hs.lookup_of_mem, mem_of_lookup⟩

theorem lookup_append (k : κ) (l m : List (κ × α)) :
    lookup k (l ++ m) = (lookup k l).or (lookup k m) := by
  induction l with
  | nil => simp [lookup]
  | cons a l ih =>
    rw [List.cons_append, lookup, lookup]
    split <;> simp [ih]

theorem lookup_filter (p : κ → Bool) (k : κ) (l : List (κ × α)) :
    lookup k (l.filter fun a => p a.1) = if p k then lookup k l else none := by
  induction l with
  | nil => simp [lookup]
  | cons a l ih =>
    rw [List.filter_cons, lookup]
    by_cases hk : k = a.1
    · subst hk
      by_cases hp : p a.1 <;> simp [hp, lookup, ih]
    · by_cases hp : p a.1 <;> simp [hp, hk, lookup, ih]

theorem lookup_insert (k k' : κ) (v : α) (l : List (κ × α)) :
    lookup k' (insert k v l) = if k' = k then some v else lookup k' l := by
  induction l with
  | nil => simp [insert, lookup]
  | cons a l ih =>
    rw [insert]
    split
    · rw [lookup]
    · split
      · rename_i heq
        subst heq
        simp only [lookup]
        split <;> rfl
      · rename_i hne
        rw [lookup, ih, lookup]
        by_cases h : k' = a.1
        · rw [if_pos h, if_pos h, if_neg (by rintro rfl; exact hne h)]
        · rw [if_neg h, if_neg h]

theorem mem_insert {k : κ} {v : α} {l : List (κ × α)} {b : κ × α} (h : b ∈ insert k v l) :
    b = (k, v) ∨ b ∈ l := by
  induction l with
  | nil => simpa [insert] using h
  | cons a l ih =>
    rw [insert] at h
    split at h
    · simpa using h
    · split at h
      · rcases List.mem_cons.mp h with h | h
        · exact Or.inl h
        · exact Or.inr (List.mem_cons_of_mem _ h)
      · rcases List.mem_cons.mp h with h | h
        · exact Or.inr (h ▸ List.mem_cons_self)
        · exact (ih h).imp id (List.mem_cons_of_mem _)

theorem Sorted.insert {l : List (κ × α)} (hs : Sorted l) (k : κ) (v : α) :
    Sorted (Raw.insert k v l) := by
  induction l with
  | nil => exact List.pairwise_singleton _ _
  | cons a l ih =>
    rw [Raw.insert]
    split
    · rename_i hlt
      refine List.Pairwise.cons ?_ hs
      intro b hb
      rcases List.mem_cons.mp hb with rfl | hb
      · exact hlt
      · exact hlt.trans (hs.head_lt b hb)
    · split
      · rename_i heq
        refine List.Pairwise.cons ?_ hs.of_cons
        intro b hb
        exact heq ▸ hs.head_lt b hb
      · rename_i hnlt hne
        refine List.Pairwise.cons ?_ (ih hs.of_cons)
        intro b hb
        rcases mem_insert hb with rfl | hb
        · exact lt_of_le_of_ne (not_lt.mp hnlt) (Ne.symm hne)
        · exact hs.head_lt b hb

/-- A sum over the bindings grows at most by the new one. -/
theorem sum_map_insert_le (f : κ × α → Nat) (k : κ) (v : α) (l : List (κ × α)) :
    ((insert k v l).map f).sum ≤ (l.map f).sum + f (k, v) := by
  induction l with
  | nil => simp [insert]
  | cons binding l ih =>
    obtain ⟨a, w⟩ := binding
    rw [insert]
    split
    · simp only [List.map_cons, List.sum_cons]
      omega
    · split
      · simp only [List.map_cons, List.sum_cons]
        omega
      · simp only [List.map_cons, List.sum_cons]
        omega

/-- Inserting past the last key appends. -/
theorem insert_of_forall_lt {k : κ} {v : α} {l : List (κ × α)} (h : ∀ a ∈ l, a.1 < k) :
    insert k v l = l ++ [(k, v)] := by
  induction l with
  | nil => rfl
  | cons a l ih =>
    have ha : a.1 < k := h a List.mem_cons_self
    rw [insert, if_neg (not_lt.mpr ha.le), if_neg (ne_of_gt ha),
      ih fun b hb => h b (List.mem_cons_of_mem _ hb), List.cons_append]

/-- Two sorted lists with the same lookups are the same list. -/
theorem Sorted.ext {l m : List (κ × α)} (hl : Sorted l) (hm : Sorted m)
    (h : ∀ k, lookup k l = lookup k m) : l = m := by
  induction l generalizing m with
  | nil =>
    cases m with
    | nil => rfl
    | cons b m => simpa [lookup] using h b.1
  | cons a l ih =>
    cases m with
    | nil => simpa [lookup] using h a.1
    | cons b m =>
      -- each head is the least key of its list, so the two heads coincide
      have hab : a = b := by
        have ha : a ∈ b :: m := by
          refine mem_of_lookup (k := a.1) (v := a.2) ?_
          rw [← h]
          simp [lookup]
        have hb : b ∈ a :: l := by
          refine mem_of_lookup (k := b.1) (v := b.2) ?_
          rw [h]
          simp [lookup]
        rcases List.mem_cons.mp ha with ha | ha
        · exact ha
        · rcases List.mem_cons.mp hb with hb | hb
          · exact hb.symm
          · exact absurd (hm.head_lt a ha) (not_lt.mpr (hl.head_lt b hb).le)
      subst hab
      congr 1
      refine ih hl.of_cons hm.of_cons fun k => ?_
      by_cases hk : k = a.1
      · subst hk
        rw [lookup_eq_none_iff.mpr fun b hb => ne_of_gt (hl.head_lt b hb),
          lookup_eq_none_iff.mpr fun b hb => ne_of_gt (hm.head_lt b hb)]
      · simpa [lookup, hk] using h k

end SortedMap.Raw

open SortedMap in
/-- A finite map from `κ` to `α`: its bindings, in strictly ascending key order. -/
@[ext] structure SortedMap (κ α : Type) [LinearOrder κ] where
  entries : List (κ × α)
  sorted : Raw.Sorted entries
deriving DecidableEq

namespace SortedMap

variable {κ α β : Type} [LinearOrder κ]

instance : EmptyCollection (SortedMap κ α) := ⟨⟨[], List.Pairwise.nil⟩⟩

instance : Inhabited (SortedMap κ α) := ⟨∅⟩

/-- The value of a key. -/
def get? (m : SortedMap κ α) (k : κ) : Option α := Raw.lookup k m.entries

/-- The map with the key bound to the value. -/
def insert (m : SortedMap κ α) (k : κ) (v : α) : SortedMap κ α :=
  ⟨Raw.insert k v m.entries, m.sorted.insert k v⟩

/-- The map without the key. -/
def erase (m : SortedMap κ α) (k : κ) : SortedMap κ α :=
  ⟨m.entries.filter (fun a => decide (a.1 ≠ k)), m.sorted.filter _⟩

/-- The keys, in ascending order. -/
def keys (m : SortedMap κ α) : List κ := m.entries.map Prod.fst

/-- The number of keys. -/
def size (m : SortedMap κ α) : Nat := m.entries.length

/-- The smallest and the largest key. -/
def keyRange (m : SortedMap κ α) : Option (κ × κ) :=
  match m.keys.head?, m.keys.getLast? with
  | some smallest, some largest => some (smallest, largest)
  | _, _ => none

/-- The same keys with every value replaced by its image. -/
def map (f : α → β) (m : SortedMap κ α) : SortedMap κ β :=
  ⟨m.entries.map fun a => (a.1, f a.2), by
    rw [Raw.Sorted, List.pairwise_map]
    exact m.sorted⟩

/-- The map of a list of bindings, later ones over earlier ones. -/
def ofList (l : List (κ × α)) : SortedMap κ α :=
  l.foldl (fun m a => m.insert a.1 a.2) ∅

@[simp] theorem entries_empty : (∅ : SortedMap κ α).entries = [] := rfl

@[simp] theorem get?_empty (k : κ) : (∅ : SortedMap κ α).get? k = none := rfl

@[simp] theorem get?_insert (m : SortedMap κ α) (k k' : κ) (v : α) :
    (m.insert k v).get? k' = if k' = k then some v else m.get? k' :=
  Raw.lookup_insert k k' v m.entries

@[simp] theorem get?_erase (m : SortedMap κ α) (k k' : κ) :
    (m.erase k).get? k' = if k' = k then none else m.get? k' := by
  have h := Raw.lookup_filter (fun a => decide (a ≠ k)) k' m.entries
  simp only [decide_eq_true_eq] at h
  rw [get?, erase, h]
  by_cases hk : k' = k <;> simp [hk, get?]

theorem ext_get? {m n : SortedMap κ α} (h : ∀ k, m.get? k = n.get? k) : m = n :=
  SortedMap.ext (Raw.Sorted.ext m.sorted n.sorted h)

theorem mem_entries {m : SortedMap κ α} {k : κ} {v : α} :
    (k, v) ∈ m.entries ↔ m.get? k = some v := m.sorted.mem_iff

theorem mem_keys {m : SortedMap κ α} {k : κ} : k ∈ m.keys ↔ m.get? k ≠ none := by
  rw [Ne, get?, Raw.lookup_eq_none_iff, keys, List.mem_map]
  simp only [not_forall, ne_eq, not_not, exists_prop]

theorem mem_keys_of_get? {m : SortedMap κ α} {k : κ} {v : α} (h : m.get? k = some v) :
    k ∈ m.keys := mem_keys.mpr (by rw [h]; exact Option.some_ne_none v)

theorem get?_map (f : α → β) (m : SortedMap κ α) (k : κ) :
    (m.map f).get? k = (m.get? k).map f := by
  obtain ⟨l, hl⟩ := m
  simp only [get?, map]
  clear hl
  induction l with
  | nil => rfl
  | cons a l ih =>
    simp only [List.map_cons, Raw.lookup]
    split <;> simp [ih]

theorem keys_nodup (m : SortedMap κ α) : m.keys.Nodup := by
  rw [keys, List.Nodup, List.pairwise_map]
  exact m.sorted.imp ne_of_lt

theorem insert_entries_of_forall_lt {m : SortedMap κ α} {k : κ} {v : α}
    (h : ∀ a ∈ m.entries, a.1 < k) : (m.insert k v).entries = m.entries ++ [(k, v)] :=
  Raw.insert_of_forall_lt h

theorem sum_map_insert_le (f : κ × α → Nat) (m : SortedMap κ α) (k : κ) (v : α) :
    ((m.insert k v).entries.map f).sum ≤ (m.entries.map f).sum + f (k, v) :=
  Raw.sum_map_insert_le f k v m.entries

@[simp] theorem insert_entries_ne_nil (m : SortedMap κ α) (k : κ) (v : α) :
    (m.insert k v).entries ≠ [] := by
  intro h
  have hget := get?_insert m k k v
  rw [get?, h] at hget
  simp [Raw.lookup] at hget

/-- Reading a sorted list of bindings back one by one gives the map of that list. -/
theorem foldl_insert_entries (l : List (κ × α)) (m : SortedMap κ α)
    (h : Raw.Sorted (m.entries ++ l)) :
    (l.foldl (fun m a => m.insert a.1 a.2) m).entries = m.entries ++ l := by
  induction l generalizing m with
  | nil => simp
  | cons a l ih =>
    have hins : (m.insert a.1 a.2).entries = m.entries ++ [a] :=
      insert_entries_of_forall_lt fun b hb => h.append_lt b hb a List.mem_cons_self
    rw [List.foldl_cons, ih _ (by rw [hins]; simpa using h), hins]
    simp

theorem ofList_entries {l : List (κ × α)} (h : Raw.Sorted l) : (ofList l).entries = l := by
  rw [ofList, foldl_insert_entries _ _ (by simpa using h)]
  simp

theorem keys_sorted (m : SortedMap κ α) : m.keys.Pairwise (· < ·) := by
  rw [keys, List.pairwise_map]
  exact m.sorted

theorem keyRange_eq_none_iff {m : SortedMap κ α} : m.keyRange = none ↔ m = ∅ := by
  obtain ⟨l, hl⟩ := m
  constructor
  · intro h
    cases l with
    | nil => rfl
    | cons a l =>
      rw [keyRange, keys, List.map_cons, List.head?_cons,
        List.getLast?_eq_getLast_of_ne_nil (List.cons_ne_nil _ _)] at h
      cases h
  · intro h
    rw [h]
    rfl

/-- The key range is what its name says: two keys, and every key lies between them. -/
theorem keyRange_eq_some_iff {m : SortedMap κ α} {smallest largest : κ} :
    m.keyRange = some (smallest, largest) ↔
      smallest ∈ m.keys ∧ largest ∈ m.keys ∧ ∀ k ∈ m.keys, smallest ≤ k ∧ k ≤ largest := by
  have hs := m.keys_sorted
  rw [keyRange]
  generalize m.keys = l at hs
  constructor
  · intro h
    cases hhead : l.head? with
    | none => simp [hhead] at h
    | some first =>
      cases hlast : l.getLast? with
      | none => simp [hhead, hlast] at h
      | some last =>
        simp only [hhead, hlast, Option.some.injEq, Prod.mk.injEq] at h
        obtain ⟨rfl, rfl⟩ := h
        refine ⟨List.mem_of_mem_head? hhead, List.mem_of_mem_getLast? hlast, fun k hk => ?_⟩
        constructor
        · obtain ⟨rest, rfl⟩ := List.head?_eq_some_iff.mp hhead
          rcases List.mem_cons.mp hk with rfl | hk
          · exact le_rfl
          · exact (List.rel_of_pairwise_cons hs hk).le
        · obtain ⟨front, rfl⟩ := List.getLast?_eq_some_iff.mp hlast
          rcases List.mem_append.mp hk with hk | hk
          · exact ((List.pairwise_append.mp hs).2.2 k hk last (by simp)).le
          · rw [List.mem_singleton.mp hk]
  · rintro ⟨hsmallest, hlargest, hall⟩
    obtain ⟨first, rest, rfl⟩ := List.exists_cons_of_ne_nil (List.ne_nil_of_mem hsmallest)
    have hfirst : first = smallest := by
      refine le_antisymm ?_ (hall first (by simp)).1
      rcases List.mem_cons.mp hsmallest with heq | hmem
      · exact heq.ge
      · exact (List.rel_of_pairwise_cons hs hmem).le
    obtain ⟨front, last, hfront⟩ :=
      (List.eq_nil_or_concat (first :: rest)).resolve_left (List.cons_ne_nil _ _)
    rw [List.concat_eq_append] at hfront
    have hlast : last = largest := by
      rw [hfront] at hlargest hall hs
      refine le_antisymm (hall last (by simp)).2 ?_
      rcases List.mem_append.mp hlargest with hmem | hmem
      · exact ((List.pairwise_append.mp hs).2.2 _ hmem last (by simp)).le
      · exact (List.mem_singleton.mp hmem).le
    rw [hfront, List.getLast?_concat, ← hfront, List.head?_cons, hfirst, hlast]

end SortedMap
