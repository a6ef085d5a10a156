import PebbleDB.Coherence

/-!
# The files of a finished job

What the outputs of a job hold, by key and by size (`executeJob_outputs`): put together they are the
winning records of the inputs in key order, and each file but the last is cut off at the first
record with which it reaches the target size.
-/

namespace PebbleDB

open EarlyExit Leveled

/-- The sum of the `record_size`s. -/
def totalSize (records : Block) : Nat := (records.map fun e => recordSize e.1 e.2).sum

theorem totalSize_append (l l' : Block) : totalSize (l ++ l') = totalSize l + totalSize l' := by
  rw [totalSize, List.map_append, List.sum_append]
  rfl

/-- Large enough, and not without its last record. -/
def CutAt (target : Nat) (records : Block) : Prop :=
  target ≤ totalSize records ∧ (1 < records.length → totalSize records.dropLast < target)

theorem mem_dropLast_cons {α : Type} {a b : α} {l : List α} (h : b ∈ (a :: l).dropLast) :
    b = a ∨ b ∈ l.dropLast := by
  cases l with
  | nil => cases h
  | cons c l => exact List.mem_cons.mp h

/-- Every piece but the last is cut where it reaches the target. -/
theorem cutAt_splitRecords (target : Nat) (l : Block) (current : SortedMap String SSTableEntry)
    (hs : SortedMap.Raw.Sorted (current.entries ++ l))
    (hcurrent : current = ∅ ∨ totalSize current.entries < target) :
    ∀ chunk ∈ (splitRecords target l current (totalSize current.entries)).dropLast,
      CutAt target chunk.entries := by
  induction l generalizing current with
  | nil =>
    intro chunk hchunk
    rw [splitRecords] at hchunk
    split at hchunk <;> cases hchunk
  | cons e l ih =>
    obtain ⟨key, entry⟩ := e
    have hinsert : (current.insert key entry).entries = current.entries ++ [(key, entry)] :=
      SortedMap.insert_entries_of_forall_lt fun b hb =>
        hs.append_lt b hb (key, entry) List.mem_cons_self
    have hsize : totalSize current.entries + recordSize key entry =
        totalSize (current.insert key entry).entries := by
      rw [hinsert, totalSize_append]
      rfl
    rw [splitRecords, hsize]
    split
    · rename_i hreached
      intro chunk hchunk
      rcases mem_dropLast_cons hchunk with rfl | hchunk
      · refine ⟨hreached, fun hlen => ?_⟩
        rw [hinsert, List.dropLast_concat]
        rcases hcurrent with rfl | hlt
        · rw [hinsert] at hlen
          exact absurd hlen (lt_irrefl 1)
        · exact hlt
      · exact ih ∅ hs.append_right.of_cons (Or.inl rfl) chunk hchunk
    · rename_i hbelow
      exact ih _ (by rw [hinsert]; simpa using hs) (Or.inr (not_le.mp hbelow))

/-- The record of the input with the lowest level and, within it, the highest id that has the
key. -/
def Wins (inputs : List Placed) (key : String) (entry : SSTableEntry) : Prop :=
  ∃ input ∈ inputs, input.2.entries.get? key = some entry ∧
    ∀ other ∈ inputs, key ∈ other.2.entries.keys →
      input.1 < other.1 ∨ (input.1 = other.1 ∧ other.2.id ≤ input.2.id)

theorem eq_of_id_eq {inputs : List Placed} (h : inputs.Pairwise fun a b => a.2.id ≠ b.2.id)
    {a b : Placed} (ha : a ∈ inputs) (hb : b ∈ inputs) (heq : a.2.id = b.2.id) : a = b := by
  by_contra hne
  have hsymm : Std.Symm fun x y : Placed => x.2.id ≠ y.2.id := ⟨fun _ _ hxy => hxy.symm⟩
  exact h.forall ha hb hne heq

theorem CompactionJob.get?_records_iff (job : CompactionJob)
    (h : job.inputs.Pairwise fun a b => a.2.id ≠ b.2.id) {key : String} {entry : SSTableEntry} :
    job.records.get? key = some entry ↔ Wins job.inputs key entry := by
  have hreads := job.reads_records h key
  constructor
  · intro hentry
    rw [hentry] at hreads
    obtain ⟨a, htop, hrecord⟩ := hreads
    obtain ⟨input, hinput, hlevel, hid, hget⟩ := htop.mem
    refine ⟨input, hinput, hrecord ▸ hget, fun other hother hkey => ?_⟩
    obtain ⟨r, hr⟩ := Option.ne_none_iff_exists'.mp (SortedMap.mem_keys.mp hkey)
    rcases htop.first ⟨other.1, other.2.id, r⟩ ⟨other, hother, rfl, rfl, hr⟩ with heq | hbefore
    · rw [← heq] at hlevel hid
      exact Or.inr ⟨hlevel, hid.ge⟩
    · rw [Before, ← hlevel, ← hid] at hbefore
      exact hbefore.imp id fun h => ⟨h.1, h.2.le⟩
  · rintro ⟨input, hinput, hget, hfirst⟩
    refine hreads.unique ⟨⟨input.1, input.2.id, entry⟩, ⟨⟨input, hinput, rfl, rfl, hget⟩, ?_⟩, rfl⟩
    rintro ⟨level, id, r⟩ ⟨other, hother, rfl, rfl, hr⟩
    dsimp only at hr ⊢
    rcases hfirst other hother (SortedMap.mem_keys_of_get? hr) with hlt | ⟨heq, hle⟩
    · exact Or.inr (Or.inl hlt)
    · rcases hle.lt_or_eq with hlt | hid
      · exact Or.inr (Or.inr ⟨heq, hlt⟩)
      · obtain rfl := eq_of_id_eq h hother hinput hid
        rw [hget, Option.some.injEq] at hr
        exact Or.inl (by rw [hr])

/-- Put together, the files of the job are the winning records that it keeps. -/
theorem CompactionJob.mem_flatten_chunks (job : CompactionJob)
    (h : job.inputs.Pairwise fun a b => a.2.id ≠ b.2.id) {key : String} {entry : SSTableEntry} :
    (key, entry) ∈ (job.chunks.map SortedMap.entries).flatten ↔
      Wins job.inputs key entry ∧ ¬ (job.dropTombstones = true ∧ entry = .tombstone) := by
  rw [job.flatten_chunks, SortedMap.mem_entries, job.get?_kept, job.get?_records_iff h]
  rfl

theorem CompactionJob.cutAt_chunks (job : CompactionJob) :
    ∀ chunk ∈ job.chunks.dropLast, CutAt job.targetFileSize chunk.entries :=
  cutAt_splitRecords job.targetFileSize job.kept.entries ∅ (by simpa using job.kept.sorted)
    (Or.inl rfl)

/-- What is known of the outputs of a job. -/
structure OutputSpec (job : CompactionJob) (outs : List SSTable) : Prop where
  mem_iff : ∀ key entry, (key, entry) ∈ (outs.map fun o => o.entries.entries).flatten ↔
    Wins job.inputs key entry ∧ ¬ (job.dropTombstones = true ∧ entry = .tombstone)
  ascending : (outs.map fun o => o.entries.entries).flatten.Pairwise fun a b => a.1 < b.1
  nonempty : ∀ o ∈ outs, o.entries ≠ ∅
  apart : outs.Pairwise fun a b => ∀ k ∈ a.entries.keys, ∀ k' ∈ b.entries.keys, k < k'
  sizes : ∀ o ∈ outs.dropLast, job.targetFileSize ≤ totalSize o.entries.entries ∧
    (1 < o.entries.size → totalSize o.entries.entries.dropLast < job.targetFileSize)

theorem OutputSpec.of_chunks {job : CompactionJob} {outs : List SSTable}
    (h : job.inputs.Pairwise fun a b => a.2.id ≠ b.2.id)
    (hchunks : outs.map SSTable.entries = job.chunks) : OutputSpec job outs := by
  have hentries : (outs.map fun o => o.entries.entries) = job.chunks.map SortedMap.entries := by
    rw [← hchunks, List.map_map]
    rfl
  refine ⟨fun key entry => ?_, ?_, fun o ho => ?_, ?_, fun o ho => ?_⟩
  · rw [hentries]
    exact job.mem_flatten_chunks h
  · rw [hentries, job.flatten_chunks]
    exact job.kept.sorted
  · exact job.chunks_ne_empty _ (hchunks ▸ List.mem_map_of_mem ho)
  · have hpair := job.pairwise_chunks
    rw [← hchunks, List.pairwise_map] at hpair
    exact hpair
  · refine job.cutAt_chunks _ ?_
    rw [← hchunks, ← List.map_dropLast]
    exact List.mem_map_of_mem ho

theorem OutputSpec.of_holds {job : CompactionJob} {outs : List SSTable}
    (h : job.inputs.Pairwise fun a b => a.2.id ≠ b.2.id)
    (hholds : List.Forall₂ SSTable.Holds outs job.chunks) : OutputSpec job outs := by
  refine .of_chunks h ?_
  rw [← List.forall₂_eq_eq_eq, List.forall₂_map_left_iff]
  exact hholds.imp fun _ _ h => h.entries_eq

/-- The outputs of a job that returns, with distinct inputs and files within the limits of the
format, hold the winning records in key order, cut where they reach the target size. -/
theorem executeJob_outputs [BloomSizing] (job : CompactionJob)
    (hdistinct : job.inputs.Pairwise fun a b => a.2.id ≠ b.2.id)
    (hsound : ∀ input ∈ job.inputs, input.2.Sound) (hlevel : job.outputLevel < 2 ^ 32)
    (w w' : World) (hok : executeJob job w = .ok () w') (hfits : w'.disk.Fits) :
    ∃ outs, JobDone job outs w w' ∧ OutputSpec job outs := by
  obtain ⟨outs, hdone⟩ := (wp_executeJob hlevel hsound w).ok_of_eq hok
  exact ⟨outs, hdone, .of_holds hdistinct (hdone.complete.holds hfits)⟩

/-- The job that merges the two files into files of one record each. -/
def twoFilesJob : CompactionJob := ⟨twoFiles.inner.tables, 1, true, 5⟩

theorem executeJob_outputs_twoFiles : ∃ w' outs,
    @executeJob .ofSmall twoFilesJob twoFiles = .ok () w' ∧ w'.inner.sstCount = 2 ∧
      JobDone twoFilesJob outs twoFiles w' ∧ OutputSpec twoFilesJob outs := by
  have hrun : check (@executeJob .ofSmall twoFilesJob) twoFiles
      (fun _ w' => decide (w'.disk.Fits ∧ w'.inner.sstCount = 2)) = true := by decide +kernel
  obtain ⟨_, w', hok, htest⟩ := exists_of_check hrun
  obtain ⟨hfits, hcount⟩ := of_decide_eq_true htest
  have hdistinct : twoFilesJob.inputs.Pairwise fun a b => a.2.id ≠ b.2.id := by decide +kernel
  have hsound : ∀ input ∈ twoFilesJob.inputs, input.2.Sound := fun input hinput =>
    sound_of_mem_twoTables (mem_tables_twoFiles hinput).2
  obtain ⟨outs, hdone, hspec⟩ := @executeJob_outputs .ofSmall twoFilesJob hdistinct hsound
    (show 1 < 2 ^ 32 by decide) twoFiles w' hok hfits
  exact ⟨w', outs, hok, hcount, hdone, hspec⟩

end PebbleDB
