import PebbleDB.DbInner
import PebbleDB.IterSpec
import PebbleDB.WrappedTable

/-!
# What a handle reads

A handle is an overlay: the memtable on the tables in read order. `get` looks a key up in it
(`Overlays.get_eq`), a range lists the part of it inside the bounds
(`RangeIterator.collect_new`), so the two agree (`DbInner.range_eq_get`).
-/

namespace PebbleDB

/-! ## Ranges -/

namespace Bound

/-- The key is not excluded by this start bound. -/
def Starts (start : Bound) (key : String) : Prop :=
  match start with
  | .included first => first ≤ key
  | .excluded first => first < key
  | .unbounded => True

/-- The key is not excluded by this end bound. -/
def Ends (stop : Bound) (key : String) : Prop :=
  match stop with
  | .included last => key ≤ last
  | .excluded last => key < last
  | .unbounded => True

instance (start : Bound) (key : String) : Decidable (start.Starts key) := by
  unfold Starts
  split <;> infer_instance

instance (stop : Bound) (key : String) : Decidable (stop.Ends key) := by
  unfold Ends
  split <;> infer_instance

theorem Ends.of_le {stop : Bound} {k k' : String} (h : stop.Ends k') (hle : k ≤ k') :
    stop.Ends k := by
  cases stop with
  | included last => exact hle.trans h
  | excluded last => exact lt_of_le_of_lt hle h
  | unbounded => trivial

end Bound

namespace RangeIterator

variable {σ : Type} [StorageIterator σ] [LawfulCursor σ]

/-- The records that have a value. -/
def live (l : List (String × Option String)) : List (String × String) :=
  l.filterMap fun e => e.2.map (Prod.mk e.1)

/-- A new range stands on the first record at or after its start. -/
theorem new_at {merged : MergeIterator σ} {m : Records} {l : List (String × Option String)}
    (h : LawfulCursor.At merged m l) (hall : l = m.entries) (start stop : Bound) :
    ∃ it, new merged start stop = .ok it ∧ it.stop = stop ∧
      LawfulCursor.At it.merged m (m.entries.filter fun e => decide (start.Starts e.1)) := by
  have hover := LawfulCursor.over_of_at h
  cases start with
  | unbounded =>
    refine ⟨_, rfl, rfl, ?_⟩
    have hid : (m.entries.filter fun e => decide (Bound.unbounded.Starts e.1)) = m.entries :=
      List.filter_eq_self.mpr fun _ _ => decide_eq_true trivial
    rw [hid, ← hall]
    exact h
  | included key =>
    obtain ⟨merged', hok, hat⟩ := LawfulCursor.seek_at key hover
    refine ⟨⟨merged', stop⟩, ?_, rfl, hat⟩
    rw [new, show merged.seek key = .ok merged' from hok]
    rfl
  | excluded key =>
    obtain ⟨merged', hok, hat⟩ := LawfulCursor.seek_at key hover
    have hkey : merged'.key = _ := LawfulCursor.key_eq hat
    have hfilter : (fun e : String × Option String => decide (key ≤ e.1) && decide (key < e.1)) =
        fun e => decide (key < e.1) := by
      funext e
      by_cases hlt : key < e.1 <;> simp [hlt, le_of_lt]
    by_cases hstands : merged'.key = some key
    · obtain ⟨merged'', hok', hat'⟩ := LawfulCursor.advance_at hat
      refine ⟨⟨merged'', stop⟩, ?_, rfl, ?_⟩
      · rw [new, show merged.seek key = .ok merged' from hok]
        simp only [bind, Except.bind]
        rw [if_pos hstands, show merged'.advance = .ok merged'' from hok']
        rfl
      · rw [hstands] at hkey
        obtain ⟨⟨k, v⟩, hhead, rfl⟩ := Option.map_eq_some_iff.mp hkey.symm
        obtain ⟨hv, hP, hmin⟩ := SortedMap.head_filter_eq_some
          (P := fun a => decide (k ≤ a)) hhead
        rw [SortedMap.filter_eq_cons (P := fun a => decide (k ≤ a)) hv hP hmin, hfilter] at hat'
        exact hat'
    · refine ⟨⟨merged', stop⟩, ?_, rfl, ?_⟩
      · rw [new, show merged.seek key = .ok merged' from hok]
        simp only [bind, Except.bind]
        rw [if_neg hstands]
        rfl
      · -- no record has the excluded key, so the records from it on are those behind it
        rw [SortedMap.filter_eq_filter_lt (P := fun a => decide (key ≤ a)) (k := key),
          hfilter] at hat
        · exact hat
        · intro k hP hne
          have hle : key ≤ k := by simpa using hP
          refine lt_of_le_of_ne hle ?_
          rintro rfl
          obtain ⟨v, hv⟩ := Option.ne_none_iff_exists'.mp hne
          rw [SortedMap.filter_eq_cons (P := fun a => decide (key ≤ a)) hv hP
            fun k' hk' _ => by simpa using hk'] at hkey
          exact hstands hkey

theorem withinEnd_eq {it : RangeIterator σ} {m : Records} {l : List (String × Option String)}
    (h : LawfulCursor.At it.merged m l) :
    it.withinEnd = l.head?.any fun e => decide (it.stop.Ends e.1) := by
  have hkey : it.merged.key = _ := LawfulCursor.key_eq h
  rw [withinEnd, hkey]
  cases l with
  | nil => rfl
  | cons e l =>
    simp only [List.head?_cons, Option.map_some, Option.any_some]
    cases it.stop with
    | unbounded => exact (decide_eq_true trivial).symm
    | included last => exact decide_eq_decide.mpr Iff.rfl
    | excluded last => exact decide_eq_decide.mpr Iff.rfl

theorem valid_eq {it : RangeIterator σ} {m : Records} {l : List (String × Option String)}
    (h : LawfulCursor.At it.merged m l) :
    it.valid = l.head?.any fun e => decide (it.stop.Ends e.1) := by
  have hvalid : it.merged.valid = _ := LawfulCursor.valid_eq h
  rw [valid, hvalid, withinEnd_eq h]
  cases l <;> simp

/-- Collecting reads on up to the end bound. -/
theorem collectLoop_eq {it : RangeIterator σ} {m : Records} {l : List (String × Option String)}
    (h : LawfulCursor.At it.merged m l) (hlive : ∀ e ∈ l, e.2.isSome = true) {fuel : Nat}
    (hfuel : l.length < fuel) :
    collectLoop fuel it = .ok (live (l.takeWhile fun e => decide (it.stop.Ends e.1))) := by
  induction fuel generalizing it l with
  | zero => omega
  | succ fuel ih =>
    have hkey : it.merged.key = _ := LawfulCursor.key_eq h
    have hvalue : it.merged.value = _ := LawfulCursor.value_eq h
    have hrange := valid_eq h
    rw [collectLoop, next]
    cases l with
    | nil =>
      simp only [hrange]
      rfl
    | cons e l =>
      obtain ⟨k, v⟩ := e
      obtain ⟨v, rfl⟩ := Option.isSome_iff_exists.mp (hlive (k, v) List.mem_cons_self)
      simp only [List.head?_cons, Option.any_some] at hrange
      by_cases hends : it.stop.Ends k
      · obtain ⟨merged', hok, hat⟩ := LawfulCursor.advance_at h
        have hrest := @ih { it with merged := merged' } _ hat
          (fun e he => hlive e (List.mem_cons_of_mem _ he)) (by simpa using hfuel)
        have hadvance : it.advance = .ok { it with merged := merged' } := by
          rw [advance, show it.merged.advance = .ok merged' from hok]
          rfl
        simp only [hrange, hends, decide_true, if_true, key, value, hkey, hvalue, List.head?_cons,
          Option.map_some, Option.bind_some, hadvance, bind, Except.bind, pure, Except.pure]
        rw [hrest, List.takeWhile_cons_of_pos (by simpa using hends)]
        rfl
      · simp only [hrange, hends, decide_false, bind, Except.bind]
        rw [List.takeWhile_cons_of_neg (by simpa using hends)]
        rfl

theorem mem_live {l : List (String × Option String)} {k v : String} :
    (k, v) ∈ live l ↔ (k, some v) ∈ l := by
  simp only [live, List.mem_filterMap, Option.map_eq_some_iff, Prod.mk.injEq]
  constructor
  · rintro ⟨⟨a, b⟩, hmem, _, rfl, rfl, rfl⟩
    exact hmem
  · intro h
    exact ⟨(k, some v), h, v, rfl, rfl, rfl⟩

theorem sorted_live {l : List (String × Option String)} (h : SortedMap.Raw.Sorted l) :
    (live l).Pairwise fun a b => a.1 < b.1 := by
  rw [live, List.pairwise_filterMap]
  refine h.imp fun {a b} hlt x hx y hy => ?_
  obtain ⟨_, -, rfl⟩ := Option.map_eq_some_iff.mp hx
  obtain ⟨_, -, rfl⟩ := Option.map_eq_some_iff.mp hy
  exact hlt

/-- On records in key order the end bound cuts off a tail. -/
theorem takeWhile_ends {l : List (String × Option String)} (h : SortedMap.Raw.Sorted l)
    (stop : Bound) :
    (l.takeWhile fun e => decide (stop.Ends e.1)) = l.filter fun e => decide (stop.Ends e.1) := by
  induction l with
  | nil => rfl
  | cons e l ih =>
    by_cases hends : stop.Ends e.1
    · rw [List.takeWhile_cons_of_pos (by simpa using hends),
        List.filter_cons_of_pos (by simpa using hends), ih h.of_cons]
    · rw [List.takeWhile_cons_of_neg (by simpa using hends)]
      refine (List.filter_eq_nil_iff.mpr fun b hb hbends => ?_).symm
      rcases List.mem_cons.mp hb with rfl | hb
      · exact hends (by simpa using hbends)
      · exact hends (Bound.Ends.of_le (by simpa using hbends) (h.head_lt b hb).le)

/-- What a new range over a merge without tombstones collects. -/
theorem collect_new {merged : MergeIterator σ} {m : Records}
    (h : LawfulCursor.At merged m m.entries) (hlive : ∀ e ∈ m.entries, e.2.isSome = true)
    (start stop : Bound) :
    (new merged start stop >>= collect) = .ok (live ((m.entries.filter fun e =>
      decide (start.Starts e.1)).filter fun e => decide (stop.Ends e.1))) := by
  obtain ⟨it, hok, hstop, hat⟩ := new_at h rfl start stop
  have hsize : m.size ≤ it.bound := LawfulCursor.size_le (LawfulCursor.over_of_at hat)
  have hlen := List.length_filter_le (fun e => decide (start.Starts e.1)) m.entries
  rw [SortedMap.size] at hsize
  rw [hok, ← takeWhile_ends (m.sorted.filter _), ← hstop]
  exact collectLoop_eq hat (fun e he => hlive e (List.mem_of_mem_filter he)) (by omega)

end RangeIterator

/-! ## Handles -/

/-- A loaded table, of a file that `write_sstable` wrote with a filter that begins below
`2 ^ 32` (`SSTable.offsetsFit_iff`). -/
def SSTable.Written [BloomSizing] (sst : SSTable) : Prop :=
  ∃ entries file, SSTable.writeSstable entries = .ok file ∧ SSTable.OffsetsFit file ∧
    SSTable.load sst.id sst.path file = .ok sst

theorem SSTable.Written.holds [BloomSizing] {sst : SSTable} (h : sst.Written) :
    ∃ m, sst.Holds m := by
  obtain ⟨entries, file, hwrite, hfits, hload⟩ := h
  obtain ⟨sst', hload', hholds, -⟩ := SSTable.load_holds hwrite hfits sst.id sst.path
  rw [hload] at hload'
  cases hload'
  exact ⟨entries, hholds⟩

namespace DbInner

/-- The maps of the tables, in read order. -/
def TablesHold (tables : List SSTable) (ms : List (SortedMap String SSTableEntry)) : Prop :=
  List.Forall₂ SSTable.Holds tables ms

theorem exists_tablesHold {tables : List SSTable} (h : ∀ sst ∈ tables, ∃ m, sst.Holds m) :
    ∃ ms, TablesHold tables ms := by
  induction tables with
  | nil => exact ⟨[], List.Forall₂.nil⟩
  | cons sst tables ih =>
    obtain ⟨m, hm⟩ := h sst List.mem_cons_self
    obtain ⟨ms, hms⟩ := ih fun s hs => h s (List.mem_cons_of_mem _ hs)
    exact ⟨m :: ms, List.Forall₂.cons hm hms⟩

/-- The records of a memtable on top of those of the tables. -/
def merged (memtable : SortedMap String MemtableEntry)
    (ms : List (SortedMap String SSTableEntry)) : Records :=
  SortedMap.overlay (memtable.map MemtableIterator.valueOf :: ms.map (·.map SSTableEntry.value?))

theorem findEntry_eq {tables : List SSTable} {ms : List (SortedMap String SSTableEntry)}
    (h : TablesHold tables ms) (key : String) :
    findEntry key tables = .ok (ms.findSome? (·.get? key)) := by
  induction h with
  | nil => rfl
  | @cons sst m tables ms hm _ ih =>
    obtain ⟨found, hfound, himp⟩ := hm.bloomMightContain_eq key
    rw [findEntry, hfound, List.findSome?_cons]
    simp only [bind, Except.bind, hm.get_eq, ih]
    cases hget : m.get? key with
    | none =>
      simp only [ite_self]
    | some entry =>
      rw [if_pos (himp (by simp [hget]))]
      rfl

theorem findEntryInner_eq {tables : List SSTable} {ms : List (SortedMap String SSTableEntry)}
    (h : TablesHold tables ms) (key : String) :
    findEntryInner key tables = .ok (ms.findSome? (·.get? key)) := by
  induction h with
  | nil => rfl
  | @cons sst m tables ms hm _ ih =>
    rw [findEntryInner, List.findSome?_cons]
    simp only [bind, Except.bind, hm.get_eq, ih]
    cases m.get? key <;> rfl

theorem get?_merged (memtable : SortedMap String MemtableEntry)
    (ms : List (SortedMap String SSTableEntry)) (key : String) :
    (merged memtable ms).get? key = ((memtable.get? key).map MemtableIterator.valueOf).or
      ((ms.findSome? (·.get? key)).map SSTableEntry.value?) := by
  have hms : (ms.map (·.map SSTableEntry.value?)).findSome? (·.get? key) =
      (ms.findSome? (·.get? key)).map SSTableEntry.value? := by
    rw [List.findSome?_map, List.map_findSome?]
    congr 1
    funext m
    exact SortedMap.get?_map _ _ _
  rw [merged, SortedMap.get?_overlay, List.findSome?_cons, SortedMap.get?_map, hms]
  cases memtable.get? key <;> rfl

theorem entryValue_eq (entry : Option SSTableEntry) :
    entryValue entry = (entry.map SSTableEntry.value?).join := by
  rcases entry with _ | _ | _ <;> rfl

/-- A point read looks the key up in the overlay. -/
theorem get_eq {db : DbInner} {ms : List (SortedMap String SSTableEntry)}
    (h : TablesHold (readOrder db.levels) ms) (key : String) :
    db.get key = .ok ((merged db.memtable ms).get? key).join := by
  rw [DbInner.get, get?_merged, findEntry_eq h]
  rcases db.memtable.get? key with _ | _ | _
  · simp only [bind, Except.bind, pure, Except.pure, Option.map_none, Option.none_or]
    rw [entryValue_eq]
  · rfl
  · rfl

/-- Asking the filters first makes no difference. -/
theorem getInner_eq {db : DbInner} {ms : List (SortedMap String SSTableEntry)}
    (h : TablesHold (readOrder db.levels) ms) (key : String) : db.getInner key = db.get key := by
  rw [DbInner.get, DbInner.getInner, findEntry_eq h, findEntryInner_eq h]

theorem allOver_children {db : DbInner} {ms : List (SortedMap String SSTableEntry)}
    (h : TablesHold (readOrder db.levels) ms) :
    MergeIterator.AllOver (σ := ChildIterator)
      (.memtable (MemtableIterator.new db.memtable) ::
        (readOrder db.levels).map fun sst => .sstable (SSTableIterator.new sst))
      (db.memtable.map MemtableIterator.valueOf :: ms.map (·.map SSTableEntry.value?)) := by
  refine List.Forall₂.cons rfl ?_
  rw [List.forall₂_map_left_iff, List.forall₂_map_right_iff]
  refine h.imp fun sst m hm => ?_
  obtain ⟨blocks, hstores, hflat⟩ := hm
  refine ⟨blocks, hstores, ?_⟩
  rw [hflat]
  rfl

/-- A range lists the overlay between its bounds, without the tombstones. -/
theorem range_eq {db : DbInner} {ms : List (SortedMap String SSTableEntry)}
    (h : TablesHold (readOrder db.levels) ms) (start stop : Bound) :
    db.range start stop = .ok (RangeIterator.live (((MergeIterator.shown false
      (merged db.memtable ms)).entries.filter fun e => decide (start.Starts e.1)).filter
        fun e => decide (stop.Ends e.1))) := by
  obtain ⟨merged, hbuild, -, hat⟩ := MergeIterator.build_at (allOver_children h) false
  have hlive : ∀ e ∈ (MergeIterator.shown false (DbInner.merged db.memtable ms)).entries,
      e.2.isSome = true := fun e he => by simpa using (List.mem_filter.mp he).2
  rw [DbInner.range, rangeIterator, MergeIterator.new, hbuild]
  exact RangeIterator.collect_new hat hlive start stop

theorem mem_shown_iff {db : DbInner} {ms : List (SortedMap String SSTableEntry)}
    (h : TablesHold (readOrder db.levels) ms) {k v : String} :
    (k, some v) ∈ (MergeIterator.shown false (merged db.memtable ms)).entries ↔
      db.get k = .ok (some v) := by
  rw [SortedMap.mem_entries, MergeIterator.get?_shown, get_eq h]
  simp only [Option.isSome_some, Bool.or_true, and_true, Except.ok.injEq, Option.join_eq_some_iff]

theorem exists_range {db : DbInner} {ms : List (SortedMap String SSTableEntry)}
    (h : TablesHold (readOrder db.levels) ms) (start stop : Bound) :
    ∃ records, db.range start stop = .ok records ∧
      records.Pairwise (fun a b => a.1 < b.1) ∧
      ∀ k v, (k, v) ∈ records ↔ (start.Starts k ∧ stop.Ends k) ∧ db.get k = .ok (some v) := by
  refine ⟨_, range_eq h start stop, RangeIterator.sorted_live ?_, fun k v => ?_⟩
  · exact SortedMap.Raw.Sorted.filter (SortedMap.Raw.Sorted.filter (SortedMap.sorted _) _) _
  · rw [RangeIterator.mem_live, List.mem_filter, List.mem_filter, mem_shown_iff h]
    simp only [decide_eq_true_eq]
    tauto

/-- Collecting a range gives the pairs that `get` answers inside the bounds, each key once and in
ascending order; `scan` and `keys` are the unbounded case. -/
theorem range_eq_get [BloomSizing] (db : DbInner)
    (h : ∀ files ∈ db.levels, ∀ sst ∈ files, sst.Written) (start stop : Bound) :
    (∃ records, db.range start stop = .ok records ∧
      records.Pairwise (fun a b => a.1 < b.1) ∧
      ∀ k v, (k, v) ∈ records ↔ (start.Starts k ∧ stop.Ends k) ∧ db.get k = .ok (some v)) ∧
    (∃ records, db.scan = .ok records ∧ db.keys = .ok (records.map Prod.fst) ∧
      records.Pairwise (fun a b => a.1 < b.1) ∧
      ∀ k v, (k, v) ∈ records ↔ db.get k = .ok (some v)) := by
  obtain ⟨ms, hms⟩ : ∃ ms, TablesHold (readOrder db.levels) ms := by
    refine exists_tablesHold fun sst hsst => ?_
    obtain ⟨files, hfiles, hsst⟩ := List.mem_flatMap.mp hsst
    exact (h files hfiles sst (List.mem_reverse.mp hsst)).holds
  refine ⟨exists_range hms start stop, ?_⟩
  obtain ⟨records, hok, hsorted, hmem⟩ := exists_range hms .unbounded .unbounded
  refine ⟨records, hok, ?_, hsorted, fun k v => ?_⟩
  · rw [DbInner.keys, hok]
    rfl
  · rw [hmem]
    exact and_iff_right ⟨trivial, trivial⟩

/-- A tombstone in the memtable over a table with the key, read from behind an excluded start that
is a key itself. -/
theorem range_eq_get_hidden :
    ∃ sst, @SSTable.Written .ofSmall sst ∧ ∃ db : DbInner,
      db = ⟨SortedMap.ofList [("b", .tombstone)], [[sst]], 1, .default, .new none⟩ ∧
      ∃ records, db.range (.excluded "a") (.included "c") = .ok records ∧
        ∀ k v, (k, v) ∈ records ↔ ("a" < k ∧ k ≤ "c") ∧ db.get k = .ok (some v) := by
  obtain ⟨file, hwrite, -⟩ := @SSTable.load_writeSstable .ofSmall
    (SortedMap.ofList [("a", .value "1"), ("b", .value "2"), ("c", .value "3")])
    defaultBlockSize 0 "t"
  have hlen : file.length < 2 ^ 32 := by
    have hsize : (@SSTable.writeSstableWithBlockSize .ofSmall
        (SortedMap.ofList [("a", .value "1"), ("b", .value "2"), ("c", .value "3")])
          defaultBlockSize).map List.length = .ok 102 := by decide +kernel
    rw [hwrite] at hsize
    rw [Except.ok.inj hsize]
    decide
  have hfits := SSTable.offsetsFit_of_length_lt hlen
  obtain ⟨sst, hload, -, hid, hpath, -⟩ := @SSTable.load_holds .ofSmall _ _ _ hwrite hfits 0 "t"
  have hwritten : @SSTable.Written .ofSmall sst :=
    ⟨_, file, hwrite, hfits, by rw [hid, hpath]; exact hload⟩
  refine ⟨sst, hwritten, _, rfl, ?_⟩
  obtain ⟨⟨records, hok, -, hmem⟩, -⟩ := @range_eq_get .ofSmall
    ⟨SortedMap.ofList [("b", .tombstone)], [[sst]], 1, .default, .new none⟩
    (by simpa using hwritten) (.excluded "a") (.included "c")
  exact ⟨records, hok, hmem⟩

end DbInner

/-- A scan gives a key that `get` does not find. -/
theorem not_range_eq_get_wrapped : ∃ file sst,
    @SSTable.writeSstable .ofSmall (SSTable.Wrapping.short.records wrappingValue) = .ok file ∧
    SSTable.load 0 "t" file = .ok sst ∧ ∃ records,
      DbInner.scan ⟨∅, [[sst]], 1, .default, .new none⟩ = .ok records ∧
      ("", SSTable.Wrapping.short.value) ∈ records ∧
      DbInner.get ⟨∅, [[sst]], 1, .default, .new none⟩ "" = .ok none := by
  obtain ⟨file, sst, hwrite, hload, hmisread, -⟩ :=
    @SSTable.load_wrapped .short _ .ofSmall wraps_wrappingValue 0 "t"
  refine ⟨file, sst, hwrite, hload, _, hmisread.range_eq 1 .default (.new none),
    List.mem_singleton_self _, hmisread.get_eq 1 .default (.new none) ""⟩

end PebbleDB
