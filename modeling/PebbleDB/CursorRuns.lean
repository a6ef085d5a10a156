import PebbleDB.IterSpec

/-!
# Runs of cursor calls

A cursor is used by a sequence of `seek_to_first`, `seek` and `advance` calls, after which somebody
reads what is left. What that is depends on the records of the map and on the calls alone
(`CursorCall.left`), for a table cursor and for a merge as for every lawful cursor
(`LawfulCursor.run_at`).
-/

namespace PebbleDB

/-- The calls that move a cursor. -/
inductive CursorCall where
  | seekToFirst
  | seek (target : String)
  | advance
  deriving DecidableEq, Repr

namespace CursorCall

/-- The calls that find their place by themselves. -/
def Seeks : CursorCall → Prop
  | advance => False
  | _ => True

/-- What is left to be read of the records `all` after the call, when it was `l` before. -/
def left (all l : List (String × Option String)) : CursorCall → List (String × Option String)
  | seekToFirst => all
  | seek target => all.filter fun e => decide (target ≤ e.1)
  | advance => l.tail

/-- What is left after several calls. -/
def leftAfter (all l : List (String × Option String)) (calls : List CursorCall) :
    List (String × Option String) := calls.foldl (fun l call => call.left all l) l

theorem length_left_le {all l : List (String × Option String)} (h : l.length ≤ all.length)
    (call : CursorCall) : (call.left all l).length ≤ all.length := by
  cases call with
  | seekToFirst => exact Nat.le_refl _
  | seek target => exact List.length_filter_le _ _
  | advance =>
    rw [left, List.length_tail]
    omega

theorem length_leftAfter_le {all l : List (String × Option String)} (h : l.length ≤ all.length)
    (calls : List CursorCall) : (leftAfter all l calls).length ≤ all.length := by
  induction calls generalizing l with
  | nil => exact h
  | cons call calls ih => exact ih (length_left_le h call)

/-- Advancing leads nowhere from the end. -/
theorem leftAfter_replicate_advance (all : List (String × Option String)) (n : Nat) :
    leftAfter all [] (List.replicate n advance) = [] := by
  induction n with
  | zero => rfl
  | succ n ih => exact ih

end CursorCall

namespace StorageIterator

variable {σ : Type} [StorageIterator σ]

/-- The cursor behind a call. -/
def runCall (c : σ) : CursorCall → Res σ
  | .seekToFirst => seekToFirst c
  | .seek target => seek c target
  | .advance => advance c

/-- The cursor behind calls one after the other. -/
def runCalls (c : σ) : List CursorCall → Res σ
  | [] => .ok c
  | call :: calls => do
    let c ← runCall c call
    runCalls c calls

/-- `while it.valid() { out.push((it.key().unwrap(), it.value())); it.advance() }` -/
def readRestLoop : Nat → σ → Res (List (String × Option String))
  | 0, _ => .error .outOfFuel
  | fuel + 1, c =>
    if valid c then
      match key c with
      | none => .error .panic
      | some k => do
        let next ← advance c
        let rest ← readRestLoop fuel next
        return (k, value c) :: rest
    else .ok []

/-- All that is left to be read. -/
def readRest (c : σ) : Res (List (String × Option String)) := readRestLoop (bound c + 1) c

end StorageIterator

open StorageIterator

namespace LawfulCursor

variable {σ : Type} [StorageIterator σ] [LawfulCursor σ] {c : σ} {m : Records}
  {l : List (String × Option String)}

theorem run_at (h : At c m l) (call : CursorCall) :
    ∃ c', runCall c call = .ok c' ∧ At c' m (call.left m.entries l) := by
  cases call with
  | seekToFirst => exact seekToFirst_at (over_of_at h)
  | seek target => exact seek_at target (over_of_at h)
  | advance => exact advance_at h

theorem runCalls_at (h : At c m l) (calls : List CursorCall) :
    ∃ c', runCalls c calls = .ok c' ∧ At c' m (CursorCall.leftAfter m.entries l calls) := by
  induction calls generalizing c l with
  | nil => exact ⟨c, rfl, h⟩
  | cons call calls ih =>
    obtain ⟨c₁, hcall, hat₁⟩ := run_at h call
    obtain ⟨c₂, hcalls, hat₂⟩ := ih hat₁
    refine ⟨c₂, ?_, hat₂⟩
    rw [runCalls, hcall]
    exact hcalls

/-- A run that starts with a seek does not need a position. -/
theorem runCalls_over (h : Over c m) {first : CursorCall} (hfirst : first.Seeks)
    (calls : List CursorCall) :
    ∃ c', runCalls c (first :: calls) = .ok c' ∧
      At c' m (CursorCall.leftAfter m.entries [] (first :: calls)) := by
  obtain ⟨c₁, hcall, hat₁⟩ : ∃ c₁, runCall c first = .ok c₁ ∧ At c₁ m (first.left m.entries []) := by
    cases first with
    | seekToFirst => exact seekToFirst_at h
    | seek target => exact seek_at target h
    | advance => exact absurd hfirst id
  obtain ⟨c₂, hcalls, hat₂⟩ := runCalls_at hat₁ calls
  refine ⟨c₂, ?_, hat₂⟩
  rw [runCalls, hcall]
  exact hcalls

theorem readRestLoop_at (h : At c m l) {fuel : Nat} (hfuel : l.length < fuel) :
    readRestLoop fuel c = .ok l := by
  induction fuel generalizing c l with
  | zero => omega
  | succ fuel ih =>
    rw [readRestLoop, valid_eq h, key_eq h]
    cases l with
    | nil => rfl
    | cons e l =>
      obtain ⟨next, hnext, hat⟩ := advance_at h
      have hrest := ih hat (by rw [List.tail_cons]; rw [List.length_cons] at hfuel; omega)
      simp only [List.head?_cons, Option.isSome_some, if_true, Option.map_some, value_eq h,
        Option.bind_some, hnext, bind, Except.bind, hrest]
      rfl

theorem readRest_at (h : At c m l) (hlen : l.length ≤ m.entries.length) :
    readRest c = .ok l := by
  have hsize := size_le (over_of_at h)
  rw [SortedMap.size] at hsize
  exact readRestLoop_at h (by omega)

/-- Past the end every further `advance` stays there. -/
theorem invalid_after_advances (h : At c m l) (hinvalid : valid c = false) (n : Nat) :
    ∃ c', runCalls c (List.replicate n .advance) = .ok c' ∧ valid c' = false := by
  have hnil : l = [] := by
    rw [valid_eq h, Option.isSome_eq_false_iff, Option.isNone_iff_eq_none] at hinvalid
    exact List.head?_eq_none_iff.mp hinvalid
  subst hnil
  obtain ⟨c', hrun, hat⟩ := runCalls_at h (List.replicate n .advance)
  rw [CursorCall.leftAfter_replicate_advance] at hat
  exact ⟨c', hrun, valid_eq hat⟩

end LawfulCursor

/-! ## Table cursors -/

theorem SSTable.Holds.over {sst : SSTable} {entries : SortedMap String SSTableEntry}
    (h : sst.Holds entries) {it : SSTableIterator} (hit : it.sst = sst) :
    LawfulCursor.Over it (entries.map SSTableEntry.value?) := by
  obtain ⟨blocks, hstores, hflat⟩ := h
  refine ⟨blocks, hit ▸ hstores, ?_⟩
  rw [hflat]
  rfl

namespace SSTableIterator

/-- The cursor of a written and loaded table, after any calls of which the first is a seek, leaves
the records that these calls leave of the map, and at the end it stays invalid. -/
theorem readRest_runCalls [BloomSizing] {entries : SortedMap String SSTableEntry} {blockSize : Nat}
    {file : Bytes} (hfile : SSTable.writeSstableWithBlockSize entries blockSize = .ok file)
    (hlen : file.length < 2 ^ 32) {id : Nat} {path : String} {sst : SSTable}
    (hload : SSTable.load id path file = .ok sst) {first : CursorCall} (hfirst : first.Seeks)
    (calls : List CursorCall) :
    ∃ it, runCalls (new sst) (first :: calls) = .ok it ∧
      readRest it =
        .ok (CursorCall.leftAfter (recordsOf entries.entries) [] (first :: calls)) ∧
      (valid it = false → ∀ n, ∃ it', runCalls it (List.replicate n .advance) = .ok it' ∧
        valid it' = false) := by
  obtain ⟨sst', hload', hholds, -⟩ := SSTable.load_holds hfile (SSTable.offsetsFit_of_length_lt hlen)
    id path
  obtain rfl : sst' = sst := by
    rw [hload] at hload'
    exact (Except.ok.inj hload').symm
  have hover : LawfulCursor.Over (new sst') (entries.map SSTableEntry.value?) := hholds.over rfl
  obtain ⟨it, hrun, hat⟩ := LawfulCursor.runCalls_over hover hfirst calls
  refine ⟨it, hrun, LawfulCursor.readRest_at hat ?_, fun hinvalid n => ?_⟩
  · exact CursorCall.length_leftAfter_le (Nat.zero_le _) _
  · exact LawfulCursor.invalid_after_advances hat hinvalid n

/-- Three blocks of one record; the seek lands behind the end of the first one. -/
theorem readRest_runCalls_threeBlocks :
    ∃ file sst it, @SSTable.writeSstableWithBlockSize .ofSmall
        (SortedMap.ofList [("b", .tombstone), ("d", .value ""), ("a", .value "1")]) 0 = .ok file ∧
      SSTable.load 7 "t" file = .ok sst ∧
      runCalls (new sst) [.seek "c", .seek "aa", .advance] = .ok it ∧
      readRest it = .ok [("d", some "")] := by
  let _ : BloomSizing := .ofSmall
  obtain ⟨file, hfile, -⟩ := SSTable.load_writeSstable
    (SortedMap.ofList [("b", .tombstone), ("d", .value ""), ("a", .value "1")]) 0 7 "t"
  have hlen : file.length < 2 ^ 32 := by
    have hsize : (@SSTable.writeSstableWithBlockSize .ofSmall
        (SortedMap.ofList [("b", .tombstone), ("d", .value ""), ("a", .value "1")]) 0).map
          List.length = .ok 126 := by decide +kernel
    rw [hfile] at hsize
    rw [Except.ok.inj hsize]
    decide
  obtain ⟨sst, hload, -⟩ := SSTable.load_holds hfile (SSTable.offsetsFit_of_length_lt hlen)
    7 "t"
  obtain ⟨it, hrun, hread, -⟩ := readRest_runCalls hfile hlen hload
    (show (CursorCall.seek "c").Seeks from trivial) [.seek "aa", .advance]
  exact ⟨file, sst, it, hfile, hload, hrun, hread.trans (by decide +kernel)⟩

end SSTableIterator

/-! ## Merges -/

/-- The cursor is one over the given records, of a memtable or of a table that holds them. It may
stand anywhere. -/
inductive ChildIterator.ReadsFrom : ChildIterator → Records → Prop
  | memtable (memtable : SortedMap String MemtableEntry) (pos : Option Nat) :
      ReadsFrom (.memtable { MemtableIterator.new memtable with pos })
        (memtable.map MemtableIterator.valueOf)
  | sstable {it : SSTableIterator} {entries : SortedMap String SSTableEntry}
      (h : it.sst.Holds entries) : ReadsFrom (.sstable it) (entries.map SSTableEntry.value?)

theorem ChildIterator.ReadsFrom.over {child : ChildIterator} {m : Records}
    (h : child.ReadsFrom m) : LawfulCursor.Over child m := by
  cases h with
  | memtable memtable pos => exact (rfl : (MemtableIterator.new memtable).entries = _)
  | sstable h => exact h.over rfl

/-- The record of the first map with the key. -/
def FirstRecord (ms : List Records) (key : String) (record : Option String) : Prop :=
  ∃ before m after, ms = before ++ m :: after ∧ (∀ n ∈ before, n.get? key = none) ∧
    m.get? key = some record

theorem get?_overlay_eq_some_iff {ms : List Records} {key : String} {record : Option String} :
    (SortedMap.overlay ms).get? key = some record ↔ FirstRecord ms key record := by
  constructor
  · intro h
    rw [SortedMap.get?_overlay, List.findSome?_eq_some_iff] at h
    obtain ⟨before, m, after, hsplit, hm, hbefore⟩ := h
    exact ⟨before, m, after, hsplit, hbefore, hm⟩
  · rintro ⟨before, m, after, rfl, hbefore, hm⟩
    exact SortedMap.get?_overlay_of_first hbefore hm

namespace MergeIterator

/-- The merge that was built reads the records `all`: after any calls it leaves what these leave
of them. -/
def Serves (built : Res (MergeIterator ChildIterator)) (all : List (String × Option String)) :
    Prop :=
  ∃ merged, built = .ok merged ∧ ∀ calls, ∃ merged', runCalls merged calls = .ok merged' ∧
    readRest merged' = .ok (CursorCall.leftAfter all all calls)

theorem serves_build {children : List ChildIterator} {ms : List Records}
    (h : AllOver children ms) (keep : Bool) :
    Serves (build children keep) (shown keep (SortedMap.overlay ms)).entries := by
  obtain ⟨merged, hbuild, -, hat⟩ := build_at h keep
  refine ⟨merged, hbuild, fun calls => ?_⟩
  obtain ⟨merged', hrun, hat'⟩ := LawfulCursor.runCalls_at hat calls
  exact ⟨merged', hrun, LawfulCursor.readRest_at hat'
    (CursorCall.length_leftAfter_le (Nat.le_refl _) calls)⟩

/-- The two merges of some cursors read the ascending union of their records, in which the first
cursor with a key decides, one of them without the tombstones. -/
theorem serves_union {children : List ChildIterator} {ms : List Records}
    (h : List.Forall₂ ChildIterator.ReadsFrom children ms) :
    ∃ union, SortedMap.Raw.Sorted union ∧
      (∀ key record, (key, record) ∈ union ↔ FirstRecord ms key record) ∧
      Serves (newWithTombstones children) union ∧
      Serves (new children) (union.filter fun e => e.2.isSome) := by
  have hover : AllOver children ms := h.imp fun _ _ hchild => hchild.over
  refine ⟨(SortedMap.overlay ms).entries, (SortedMap.overlay ms).sorted, fun key record => ?_, ?_,
    ?_⟩
  · rw [SortedMap.mem_entries, get?_overlay_eq_some_iff]
  · have hserves := serves_build hover true
    simp only [shown, SortedMap.filter, Bool.true_or, List.filter_true] at hserves
    exact hserves
  · exact serves_build hover false

/-- A memtable above a written table, with a tombstone for one of the keys of the table. -/
theorem serves_union_two :
    ∃ file sst, @SSTable.writeSstable .ofSmall
        (SortedMap.ofList [("a", .value "1"), ("b", .value "2")]) = .ok file ∧
      SSTable.load 7 "t" file = .ok sst ∧
      ∃ union, Serves (new [.memtable (MemtableIterator.new (SortedMap.ofList [("a", .tombstone)])),
          .sstable (SSTableIterator.new sst)]) union ∧
        ("b", some "2") ∈ union ∧ ∀ record, ("a", record) ∉ union := by
  let _ : BloomSizing := .ofSmall
  obtain ⟨file, hfile, -⟩ := SSTable.load_writeSstable
    (SortedMap.ofList [("a", .value "1"), ("b", .value "2")]) defaultBlockSize 7 "t"
  have hlen : file.length < 2 ^ 32 := by
    have hsize : (@SSTable.writeSstable .ofSmall
        (SortedMap.ofList [("a", .value "1"), ("b", .value "2")])).map List.length = .ok 91 := by
      decide +kernel
    rw [SSTable.writeSstable, hfile] at hsize
    rw [Except.ok.inj hsize]
    decide
  obtain ⟨sst, hload, hholds, -⟩ := SSTable.load_holds hfile (SSTable.offsetsFit_of_length_lt hlen)
    7 "t"
  obtain ⟨union, -, hunion, -, hserves⟩ := serves_union
    (.cons (.memtable (SortedMap.ofList [("a", .tombstone)]) none)
      (.cons (@ChildIterator.ReadsFrom.sstable (SSTableIterator.new sst) _ hholds) .nil))
  refine ⟨file, sst, hfile, hload, _, hserves, ?_, fun record hrecord => ?_⟩
  · refine List.mem_filter.mpr ⟨(hunion _ _).mpr ⟨[_], _, [], rfl, ?_, ?_⟩, rfl⟩
    · simp only [List.mem_singleton, forall_eq]
      decide
    · decide
  · -- the tombstone comes first, and it is left out
    obtain ⟨hmem, hvalue⟩ := List.mem_filter.mp hrecord
    obtain ⟨before, m, after, hsplit, hbefore, hm⟩ := (hunion _ _).mp hmem
    cases before with
    | nil =>
      obtain ⟨rfl, -⟩ := List.cons.inj hsplit
      have hnone : (SortedMap.map MemtableIterator.valueOf
          (SortedMap.ofList [("a", MemtableEntry.tombstone)])).get? "a" = some none := by decide
      rw [hnone] at hm
      obtain rfl := Option.some.inj hm
      cases hvalue
    | cons n before =>
      obtain ⟨rfl, -⟩ := List.cons.inj hsplit
      have hnone := hbefore _ List.mem_cons_self
      revert hnone
      decide

end MergeIterator

end PebbleDB
