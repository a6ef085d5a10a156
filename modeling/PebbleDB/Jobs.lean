import PebbleDB.Writing

/-!
# What a compaction job writes

The loop of `execute_job` reads the merged records once, in key order, and writes them out in
pieces. So the files of a job are known before it runs (`CompactionJob.chunks`), and running the
loop is writing these files one after the other (`writeOutputs_eq`).
-/

namespace PebbleDB

open EarlyExit

theorem mergedEntry_value? (entry : SSTableEntry) : mergedEntry entry.value? = entry := by
  cases entry <;> rfl

/-! ## The records of a job -/

/-- Cut into pieces of at least `target` bytes, the last one aside. -/
def splitRecords (target : Nat) :
    Block → SortedMap String SSTableEntry → Nat → List (SortedMap String SSTableEntry)
  | [], current, _ => if current = ∅ then [] else [current]
  | (key, entry) :: rest, current, bytes =>
    if target ≤ bytes + recordSize key entry then
      current.insert key entry :: splitRecords target rest ∅ 0
    else splitRecords target rest (current.insert key entry) (bytes + recordSize key entry)

/-- The pieces put together are the records that went in. -/
theorem flatten_splitRecords (target : Nat) (l : Block)
    (current : SortedMap String SSTableEntry) (bytes : Nat)
    (h : SortedMap.Raw.Sorted (current.entries ++ l)) :
    ((splitRecords target l current bytes).map SortedMap.entries).flatten =
      current.entries ++ l := by
  induction l generalizing current bytes with
  | nil =>
    rw [splitRecords]
    split
    · rename_i hempty
      rw [hempty]
      rfl
    · simp
  | cons e l ih =>
    obtain ⟨key, entry⟩ := e
    have hinsert : (current.insert key entry).entries = current.entries ++ [(key, entry)] :=
      SortedMap.insert_entries_of_forall_lt fun b hb =>
        h.append_lt b hb (key, entry) List.mem_cons_self
    rw [splitRecords]
    split
    · rw [List.map_cons, List.flatten_cons, ih ∅ 0 h.append_right.of_cons, hinsert]
      simp
    · rw [ih _ _ (by rw [hinsert]; simpa using h), hinsert]
      simp

theorem splitRecords_ne_empty (target : Nat) (l : Block)
    (current : SortedMap String SSTableEntry) (bytes : Nat) :
    ∀ chunk ∈ splitRecords target l current bytes, chunk ≠ ∅ := by
  induction l generalizing current bytes with
  | nil =>
    intro chunk hchunk
    rw [splitRecords] at hchunk
    split at hchunk
    · exact absurd hchunk List.not_mem_nil
    · rename_i hne
      rwa [List.mem_singleton.mp hchunk]
  | cons e l ih =>
    obtain ⟨key, entry⟩ := e
    intro chunk hchunk
    rw [splitRecords] at hchunk
    split at hchunk
    · rcases List.mem_cons.mp hchunk with rfl | hchunk
      · exact fun hempty => SortedMap.insert_entries_ne_nil current key entry
          (congrArg SortedMap.entries hempty)
      · exact ih _ _ chunk hchunk
    · exact ih _ _ chunk hchunk

namespace CompactionJob

variable (job : CompactionJob)

/-- For each key the record of the first source that has it. -/
def records : SortedMap String SSTableEntry :=
  SortedMap.overlay (job.sources.map fun source => source.2.entries)

/-- The record is written, and not dropped. -/
def Keeps (entry : SSTableEntry) : Prop :=
  ¬ (job.dropTombstones = true ∧ entry = .tombstone)

instance (entry : SSTableEntry) : Decidable (job.Keeps entry) :=
  inferInstanceAs (Decidable (¬ _))

/-- The winning records that the outputs of the job hold. -/
def kept : SortedMap String SSTableEntry :=
  job.records.filter fun e => decide (job.Keeps e.2)

/-- The contents of the files that the job writes, in order. -/
def chunks : List (SortedMap String SSTableEntry) :=
  splitRecords job.targetFileSize job.kept.entries ∅ 0

theorem flatten_chunks : (job.chunks.map SortedMap.entries).flatten = job.kept.entries := by
  rw [chunks, flatten_splitRecords _ _ _ _ (by simpa using job.kept.sorted)]
  rfl

theorem chunks_ne_empty : ∀ chunk ∈ job.chunks, chunk ≠ ∅ := splitRecords_ne_empty _ _ _ _

/-- The keys of the pieces ascend from one piece to the next. -/
theorem pairwise_chunks : job.chunks.Pairwise fun a b =>
    ∀ k ∈ a.keys, ∀ k' ∈ b.keys, k < k' := by
  have hsorted : SortedMap.Raw.Sorted (job.chunks.map SortedMap.entries).flatten :=
    job.flatten_chunks ▸ job.kept.sorted
  have hpair := (List.pairwise_flatten.mp hsorted).2
  rw [List.pairwise_map] at hpair
  refine hpair.imp fun {a b} hab k hk k' hk' => ?_
  obtain ⟨e, he, rfl⟩ := List.mem_map.mp hk
  obtain ⟨e', he', rfl⟩ := List.mem_map.mp hk'
  exact hab e he e' he'

theorem get?_kept {key : String} {entry : SSTableEntry} :
    job.kept.get? key = some entry ↔ job.records.get? key = some entry ∧ job.Keeps entry := by
  rw [kept, SortedMap.mem_entries_filter]
  simp only [decide_eq_true_eq]

/-- A kept record is in one of the pieces, and nothing else is. -/
theorem exists_chunk_iff {key : String} {entry : SSTableEntry} :
    (∃ chunk ∈ job.chunks, chunk.get? key = some entry) ↔ job.kept.get? key = some entry := by
  rw [← SortedMap.mem_entries, ← flatten_chunks, List.mem_flatten]
  simp only [List.mem_map, exists_exists_and_eq_and, SortedMap.mem_entries]

end CompactionJob

/-! ## Which record is merged -/

theorem sourceLe_total (a b : Placed) : sourceLe a b ∨ sourceLe b a := by
  unfold sourceLe
  omega

theorem sourceLe_trans {a b c : Placed} (h : sourceLe a b) (h' : sourceLe b c) :
    sourceLe a c := by
  unfold sourceLe at *
  omega

instance : Std.Total sourceLe := ⟨sourceLe_total⟩

instance : IsTrans Placed sourceLe := ⟨fun _ _ _ => sourceLe_trans⟩

/-- The sources stand in the order of a read. -/
theorem readOrdered_sources (job : CompactionJob)
    (h : job.inputs.Pairwise fun a b => a.2.id ≠ b.2.id) : ReadOrdered job.sources := by
  have hsorted : job.sources.Pairwise sourceLe := List.pairwise_insertionSort _ _
  have hdistinct : job.sources.Pairwise fun a b => a.2.id ≠ b.2.id :=
    (List.perm_insertionSort _ _).symm.pairwise h fun hab => hab.symm
  refine hsorted.imp₂ (fun {a b} hle hne => ?_) hdistinct
  rcases hle with hlt | ⟨heq, hle⟩
  · exact Or.inl hlt
  · exact Or.inr ⟨heq, lt_of_le_of_ne hle (Ne.symm hne)⟩

/-- The merged record of a key is the one that a reader of the inputs alone would find. -/
theorem CompactionJob.reads_records (job : CompactionJob)
    (h : job.inputs.Pairwise fun a b => a.2.id ≠ b.2.id) (key : String) :
    Leveled.Reads (copies {t | t ∈ job.inputs} key) (job.records.get? key) := by
  have hreads := reads_tables (readOrdered_sources job h) key
  rw [List.findSome?_map] at hreads
  rw [CompactionJob.records, SortedMap.get?_overlay, List.findSome?_map]
  simp only [CompactionJob.sources, List.mem_insertionSort] at hreads
  exact hreads

/-! ## The loop -/

/-- The records of the job among those that are left of the merge. -/
def keptOf (job : CompactionJob) (l : List (String × Option String)) : Block :=
  (l.map fun e => (e.1, mergedEntry e.2)).filter fun e => decide (job.Keeps e.2)

theorem keptOf_records (job : CompactionJob) :
    keptOf job (job.records.map SSTableEntry.value?).entries = job.kept.entries := by
  rw [keptOf, SortedMap.map, List.map_map, CompactionJob.kept, SortedMap.filter]
  congr 1
  refine (List.map_congr_left fun e _ => ?_).trans (List.map_id _)
  rw [Function.comp_apply, mergedEntry_value?]
  rfl

/-- The merge of a job shows its records. -/
theorem newWithTombstones_eq (job : CompactionJob) (h : ∀ input ∈ job.inputs, input.2.Sound) :
    ∃ merged, MergeIterator.newWithTombstones
        (job.sources.map fun source => SSTableIterator.new source.2) = .ok merged ∧
      LawfulCursor.At merged (job.records.map SSTableEntry.value?)
        (job.records.map SSTableEntry.value?).entries := by
  have hover : MergeIterator.AllOver
      (job.sources.map fun source => SSTableIterator.new source.2)
      (job.sources.map fun source => source.2.entries.map SSTableEntry.value?) := by
    rw [MergeIterator.AllOver, List.forall₂_map_left_iff, List.forall₂_map_right_iff,
      List.forall₂_same]
    intro source hsource
    obtain ⟨blocks, hstores, hflat⟩ := h source ((List.mem_insertionSort _).mp hsource)
    refine ⟨blocks, hstores, ?_⟩
    rw [hflat]
    rfl
  obtain ⟨merged, hok, -, hat⟩ := MergeIterator.build_at hover true
  have hmap : MergeIterator.shown true (SortedMap.overlay
      (job.sources.map fun source => source.2.entries.map SSTableEntry.value?)) =
        job.records.map SSTableEntry.value? := by
    refine SortedMap.ext_get? fun key => Option.ext fun v => ?_
    rw [MergeIterator.get?_shown, Bool.true_or, SortedMap.get?_map, CompactionJob.records,
      SortedMap.get?_overlay, SortedMap.get?_overlay, List.findSome?_map, List.findSome?_map,
      List.map_findSome?]
    simp only [and_true, Function.comp_def, SortedMap.get?_map]
  rw [hmap] at hat
  exact ⟨merged, hok, hat⟩

section Loop

variable [BloomSizing]

/-- The files of one level, written one after the other. -/
def writeAll (level : Nat) : List (SortedMap String SSTableEntry) → OpM (List SSTable)
  | [] => pure []
  | chunk :: chunks => do
    let sst ← writeLevelFile level chunk
    let rest ← writeAll level chunks
    return sst :: rest

/-- The end of `writeOutputs`, after the loop. -/
def finishOutputs (job : CompactionJob) (st : MergeState) : OpM (List SSTable) :=
  if st.current = ∅ then
    return st.outputs
  else do
    let sst ← writeLevelFile job.outputLevel st.current
    return st.outputs ++ [sst]

theorem mergeLoop_eq (job : CompactionJob) {merged : MergeIterator SSTableIterator} {m : Records}
    {l : List (String × Option String)} (h : LawfulCursor.At merged m l) {fuel : Nat}
    (hfuel : l.length < fuel) (st : MergeState) :
    (mergeLoop job fuel merged st >>= finishOutputs job) = do
      let rest ← writeAll job.outputLevel
        (splitRecords job.targetFileSize (keptOf job l) st.current st.currentBytes)
      return st.outputs ++ rest := by
  induction fuel generalizing merged l st with
  | zero => omega
  | succ fuel ih =>
    have hvalid : merged.valid = l.head?.isSome := LawfulCursor.valid_eq h
    have hkey : merged.key = l.head?.map Prod.fst := LawfulCursor.key_eq h
    have hvalue : merged.value = l.head?.bind Prod.snd := LawfulCursor.value_eq h
    rw [mergeLoop]
    cases l with
    | nil =>
      rw [if_neg (by simp [hvalid]), pure_bind, finishOutputs]
      show _ = writeAll _ (splitRecords job.targetFileSize [] _ _) >>= _
      rw [splitRecords]
      split
      · simp [writeAll]
      · simp [writeAll]
    | cons e l =>
      obtain ⟨key, value⟩ := e
      obtain ⟨merged', hadvance, hat⟩ := LawfulCursor.advance_at h
      have hadvance : merged.advance = .ok merged' := hadvance
      have hrest := ih (l := l) hat (by simpa using hfuel)
      have hkey : merged.key = some key := hkey
      have hvalue : merged.value = value := hvalue
      rw [if_pos (by simp [hvalid]), hkey, hvalue]
      dsimp only
      rw [hadvance]
      show (pure merged' >>= _) >>= _ = _
      rw [pure_bind]
      by_cases hkeep : job.Keeps (mergedEntry value)
      · have hkept : keptOf job ((key, value) :: l) = (key, mergedEntry value) :: keptOf job l := by
          rw [keptOf, List.map_cons, List.filter_cons_of_pos (by simpa using hkeep)]
          rfl
        rw [if_neg hkeep, hkept, splitRecords]
        split
        · simp only [bind_assoc, hrest, writeAll, pure_bind, List.append_assoc,
            List.singleton_append]
        · rw [hrest]
      · have hkept : keptOf job ((key, value) :: l) = keptOf job l := by
          rw [keptOf, List.map_cons, List.filter_cons_of_neg (by simpa using hkeep)]
          rfl
        rw [if_pos (not_not.mp hkeep), hkept, hrest]

/-- Running the loop of a job is writing its pieces. -/
theorem writeOutputs_eq (job : CompactionJob) (h : ∀ input ∈ job.inputs, input.2.Sound) :
    writeOutputs job = writeAll job.outputLevel job.chunks := by
  obtain ⟨merged, hok, hat⟩ := newWithTombstones_eq job h
  have hsize : (job.records.map SSTableEntry.value?).entries.length ≤ merged.bound :=
    LawfulCursor.size_le (LawfulCursor.over_of_at hat)
  rw [writeOutputs, hok]
  show pure merged >>= _ = _
  rw [pure_bind]
  show mergeLoop job _ merged ⟨[], ∅, 0⟩ >>= finishOutputs job = _
  rw [mergeLoop_eq job hat (by omega), keptOf_records, CompactionJob.chunks]
  simp

end Loop

end PebbleDB
