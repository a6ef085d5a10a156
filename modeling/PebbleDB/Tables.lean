import PebbleDB.Db
import PebbleDB.Lib.Copies
import PebbleDB.ReadSpec

/-!
# The tables of a handle

A level holds its files in ascending id order, a reader visits them from the back. So the tables
of a handle are a leveled store in the sense of `Leveled`: what `get` finds in them is the first
copy of the key (`DbInner.reads_lookup`).
-/

namespace PebbleDB

open Leveled

/-- The table answers like the map of its entries. -/
def SSTable.Sound (sst : SSTable) : Prop := sst.Holds sst.entries

theorem SSTable.Holds.sound {sst : SSTable} {m : SortedMap String SSTableEntry}
    (h : sst.Holds m) : sst.Sound := by
  rw [SSTable.Sound, h.entries_eq]
  exact h

/-- A level and a table in it. -/
abbrev Placed := Nat × SSTable

/-- The tables of a handle with their levels. -/
abbrev DbInner.tables (db : DbInner) : List Placed := tablesFrom 0 db.levels

theorem mem_tablesFrom {levels : List (List SSTable)} {first : Nat} {t : Placed} :
    t ∈ tablesFrom first levels ↔
      ∃ i files, levels[i]? = some files ∧ t.1 = first + i ∧ t.2 ∈ files := by
  obtain ⟨level, sst⟩ := t
  induction levels generalizing first with
  | nil => simp [tablesFrom]
  | cons files levels ih =>
    rw [tablesFrom, List.mem_append, ih]
    constructor
    · rintro (h | ⟨i, files', hi, hlevel, hmem⟩)
      · obtain ⟨s, hs, heq⟩ := List.mem_map.mp h
        cases heq
        exact ⟨0, files, rfl, rfl, hs⟩
      · exact ⟨i + 1, files', hi, by simp only at hlevel ⊢; omega, hmem⟩
    · rintro ⟨i, files', hi, hlevel, hmem⟩
      cases i with
      | zero =>
        cases hi
        left
        exact List.mem_map.mpr ⟨sst, hmem, by rw [← show level = first from hlevel]⟩
      | succ i =>
        right
        exact ⟨i, files', hi, by simp only at hlevel ⊢; omega, hmem⟩

theorem DbInner.mem_tables {db : DbInner} {t : Placed} :
    t ∈ db.tables ↔ ∃ files, db.levels[t.1]? = some files ∧ t.2 ∈ files := by
  rw [DbInner.tables, mem_tablesFrom]
  constructor
  · rintro ⟨i, files, hi, hlevel, hmem⟩
    rw [Nat.zero_add] at hlevel
    exact ⟨files, hlevel ▸ hi, hmem⟩
  · rintro ⟨files, hi, hmem⟩
    exact ⟨t.1, files, hi, (Nat.zero_add _).symm, hmem⟩

/-! ## The order of a read -/

/-- The tables in the order of a read, with their levels. -/
def readFrom : Nat → List (List SSTable) → List Placed
  | _, [] => []
  | level, files :: levels =>
    files.reverse.map (fun sst => (level, sst)) ++ readFrom (level + 1) levels

theorem map_snd_readFrom (first : Nat) (levels : List (List SSTable)) :
    (readFrom first levels).map Prod.snd = readOrder levels := by
  induction levels generalizing first with
  | nil => rfl
  | cons files levels ih =>
    rw [readFrom, List.map_append, ih, List.map_map]
    simp [readOrder, Function.comp_def]

theorem mem_readFrom {first : Nat} {levels : List (List SSTable)} {t : Placed} :
    t ∈ readFrom first levels ↔ t ∈ tablesFrom first levels := by
  induction levels generalizing first with
  | nil => rfl
  | cons files levels ih =>
    rw [readFrom, tablesFrom, List.mem_append, List.mem_append, ih]
    simp

/-- In each level the files stand in ascending id order. -/
def Ascending (levels : List (List SSTable)) : Prop :=
  ∀ files ∈ levels, files.Pairwise fun a b => a.id < b.id

/-- A reader meets the tables in this order. -/
abbrev ReadOrdered (tables : List Placed) : Prop := InOrder Prod.fst (fun t => t.2.id) tables

theorem readOrdered_readFrom {levels : List (List SSTable)} (h : Ascending levels) (first : Nat) :
    ReadOrdered (readFrom first levels) := by
  induction levels generalizing first with
  | nil => exact List.Pairwise.nil
  | cons files levels ih =>
    refine List.pairwise_append.mpr ⟨?_, ih (fun f hf => h f (List.mem_cons_of_mem _ hf)) _, ?_⟩
    · rw [List.pairwise_map, List.pairwise_reverse]
      exact (h files List.mem_cons_self).imp fun hlt => Or.inr ⟨rfl, hlt⟩
    · intro s hs t ht
      obtain ⟨sst, -, rfl⟩ := List.mem_map.mp hs
      obtain ⟨i, _, -, hlevel, -⟩ := mem_tablesFrom.mp (mem_readFrom.mp ht)
      left
      simp only
      omega

/-! ## Copies -/

/-- The copies of a key in a set of tables. -/
abbrev copies (tables : Set Placed) (key : String) : Set (Copy SSTableEntry) :=
  copiesIn Prod.fst (fun t : Placed => t.2.id) (fun t => t.2.entries.get? key) tables

theorem copies_union (s t : Set Placed) (key : String) :
    copies (s ∪ t) key = copies s key ∪ copies t key := copiesIn_union s t

/-- What the loops of `get` find in the tables. -/
def lookup (levels : List (List SSTable)) (key : String) : Option SSTableEntry :=
  (readOrder levels).findSome? fun sst => sst.entries.get? key

theorem reads_tables {tables : List Placed} (h : ReadOrdered tables) (key : String) :
    Reads (copies {t | t ∈ tables} key)
      ((tables.map Prod.snd).findSome? fun sst => sst.entries.get? key) := by
  rw [List.findSome?_map]
  exact reads_findSome? h

/-- The loops of `get` find the first copy. -/
theorem reads_lookup {levels : List (List SSTable)} (h : Ascending levels) (key : String) :
    Reads (copies {t | t ∈ tablesFrom 0 levels} key) (lookup levels key) := by
  have hreads := reads_tables (readOrdered_readFrom h 0) key
  rw [map_snd_readFrom] at hreads
  simp only [mem_readFrom] at hreads
  exact hreads

/-- A table in front of all others has the first copy, if it has one. -/
theorem lookup_eq_some_of_first {levels : List (List SSTable)} (h : Ascending levels) {f : Placed}
    (hf : f ∈ tablesFrom 0 levels)
    (hfirst : ∀ t ∈ tablesFrom 0 levels, t = f ∨ f.1 < t.1 ∨ (f.1 = t.1 ∧ t.2.id < f.2.id))
    {key : String} {r : SSTableEntry} (hr : f.2.entries.get? key = some r) :
    lookup levels key = some r := by
  refine (reads_lookup h key).unique ⟨⟨f.1, f.2.id, r⟩, ⟨⟨f, hf, rfl, rfl, hr⟩, ?_⟩, rfl⟩
  rintro ⟨level, id, r'⟩ ⟨t, ht, rfl, rfl, hr'⟩
  have hr' : t.2.entries.get? key = some r' := hr'
  rcases hfirst t ht with rfl | hbefore
  · rw [hr, Option.some.injEq] at hr'
    exact Or.inl (by rw [hr'])
  · exact Or.inr hbefore

namespace DbInner

/-- The tables have ids of their own, below the next one, and stand in order. -/
structure Numbered (db : DbInner) : Prop where
  ascending : Ascending db.levels
  distinct : ∀ s ∈ db.tables, ∀ t ∈ db.tables, s.2.id = t.2.id → s = t
  below : ∀ t ∈ db.tables, t.2.id < db.nextSstId

/-- Every table answers like a map. -/
def Sound (db : DbInner) : Prop := ∀ t ∈ db.tables, t.2.Sound

theorem mem_readOrder {levels : List (List SSTable)} {sst : SSTable} :
    sst ∈ readOrder levels ↔ ∃ level, (level, sst) ∈ tablesFrom 0 levels := by
  rw [← map_snd_readFrom 0, List.mem_map]
  constructor
  · rintro ⟨⟨level, sst⟩, hmem, rfl⟩
    exact ⟨level, mem_readFrom.mp hmem⟩
  · rintro ⟨level, hmem⟩
    exact ⟨(level, sst), mem_readFrom.mpr hmem, rfl⟩

theorem Sound.tablesHold {db : DbInner} (h : db.Sound) :
    TablesHold (readOrder db.levels) ((readOrder db.levels).map SSTable.entries) := by
  rw [TablesHold, List.forall₂_map_right_iff, List.forall₂_same]
  intro sst hsst
  obtain ⟨level, hmem⟩ := mem_readOrder.mp hsst
  exact h _ hmem

/-- What a key reads as, given its entry in the memtable and its record in the tables. -/
def answer : Option MemtableEntry → Option SSTableEntry → Option String
  | some entry, _ => MemtableIterator.valueOf entry
  | none, record => record.bind SSTableEntry.value?

theorem get_eq_answer {db : DbInner} (h : db.Sound) (key : String) :
    db.get key = .ok (answer (db.memtable.get? key) (lookup db.levels key)) := by
  rw [get_eq h.tablesHold, get?_merged, List.findSome?_map]
  cases db.memtable.get? key with
  | some entry => rfl
  | none =>
    simp only [Option.map_none, Option.none_or, answer, lookup, Function.comp_def]
    cases (readOrder db.levels).findSome? fun sst => sst.entries.get? key <;> rfl

theorem getInner_eq_answer {db : DbInner} (h : db.Sound) (key : String) :
    db.getInner key = .ok (answer (db.memtable.get? key) (lookup db.levels key)) := by
  rw [getInner_eq h.tablesHold, get_eq_answer h]

end DbInner

end PebbleDB
