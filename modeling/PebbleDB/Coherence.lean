import PebbleDB.JobReads

/-!
# Coherent handles

A handle is coherent if its tables answer like maps, stand in order, and disagree within a level
below the first only where a level above hides it. A job keeps a handle coherent and changes no
read (`Coherent.applied`). Disjoint key ranges make a handle coherent (`RangesApart.shadowed`), so
a planned job and a full compaction change no `get` (`compaction_preserves_get`).
-/

namespace PebbleDB

open EarlyExit Leveled

/-! ## Outputs -/

section Outputs

variable {job : CompactionJob} {outs : List SSTable}

theorem sound_of_holds {chunks : List (SortedMap String SSTableEntry)}
    (h : List.Forall₂ SSTable.Holds outs chunks) : ∀ o ∈ outs, o.Sound := by
  induction h with
  | nil => exact fun _ ho => absurd ho List.not_mem_nil
  | cons hhead _ ih =>
    intro o ho
    rcases List.mem_cons.mp ho with rfl | ho
    · exact hhead.sound
    · exact ih o ho

theorem ne_empty_of_holds {chunks : List (SortedMap String SSTableEntry)}
    (h : List.Forall₂ SSTable.Holds outs chunks) (hchunks : ∀ chunk ∈ chunks, chunk ≠ ∅) :
    ∀ o ∈ outs, o.entries ≠ ∅ := by
  induction h with
  | nil => exact fun _ ho => absurd ho List.not_mem_nil
  | cons hhead _ ih =>
    intro o ho
    rcases List.mem_cons.mp ho with rfl | ho
    · rw [hhead.entries_eq]
      exact hchunks _ List.mem_cons_self
    · exact ih (fun chunk hchunk => hchunks chunk (List.mem_cons_of_mem _ hchunk)) o ho

theorem exists_entry_iff {chunks : List (SortedMap String SSTableEntry)}
    (h : List.Forall₂ SSTable.Holds outs chunks) {key : String} {r : SSTableEntry} :
    (∃ o ∈ outs, o.entries.get? key = some r) ↔ ∃ chunk ∈ chunks, chunk.get? key = some r := by
  induction h with
  | nil => simp
  | cons hhead _ ih => rw [List.exists_mem_cons_iff, List.exists_mem_cons_iff, ih, hhead.entries_eq]

/-- All outputs together hold the kept records of the job. -/
theorem exists_output_iff (h : List.Forall₂ SSTable.Holds outs job.chunks) {key : String}
    {r : SSTableEntry} :
    (∃ o ∈ outs, o.entries.get? key = some r) ↔ job.kept.get? key = some r := by
  rw [exists_entry_iff h, job.exists_chunk_iff]

/-- The first outputs hold kept records of the job. -/
theorem get?_kept_of_take {n : Nat} (h : List.Forall₂ SSTable.Holds outs (job.chunks.take n))
    {o : SSTable} (ho : o ∈ outs) {key : String} {r : SSTableEntry}
    (hr : o.entries.get? key = some r) : job.kept.get? key = some r := by
  obtain ⟨chunk, hchunk, hget⟩ := (exists_entry_iff h).mp ⟨o, ho, hr⟩
  exact job.exists_chunk_iff.mp ⟨chunk, List.mem_of_mem_take hchunk, hget⟩

end Outputs

theorem NewIds.injective {first next : Nat} {outs : List SSTable} (h : NewIds first next outs)
    {a b : SSTable} (ha : a ∈ outs) (hb : b ∈ outs) (heq : a.id = b.id) : a = b := by
  have hforward : outs.Pairwise fun a b => a.id = b.id → a = b :=
    h.ascending.imp fun hlt heq => absurd heq hlt.ne
  have hback : outs.Pairwise fun a b => b.id = a.id → b = a :=
    h.ascending.imp fun hlt heq => absurd heq.symm hlt.ne
  exact hforward.forall_of_forall_of_flip (fun _ _ _ => rfl) hback ha hb heq

/-! ## The invariant -/

/-- A handle whose tables hold what they should and whose newer records come first for every key. -/
structure Coherent (db : DbInner) : Prop where
  numbered : db.Numbered
  sound : db.Sound
  shadowed : ∀ key, Shadowed (copies {t | t ∈ db.tables} key)

theorem DbInner.mem_tables_congr {db db' : DbInner} (h : db'.levels = db.levels) :
    db'.tables = db.tables := congrArg (tablesFrom 0) h

/-- Only the tables and the bound on their ids matter. -/
theorem Coherent.of_levels_eq {db db' : DbInner} (h : Coherent db)
    (hlevels : db'.levels = db.levels) (hnext : db.nextSstId ≤ db'.nextSstId) : Coherent db' := by
  have htables := DbInner.mem_tables_congr hlevels
  refine ⟨⟨hlevels ▸ h.numbered.ascending, ?_, ?_⟩, ?_, ?_⟩
  · rw [htables]
    exact h.numbered.distinct
  · rw [htables]
    exact fun t ht => (h.numbered.below t ht).trans_le hnext
  · unfold DbInner.Sound
    rw [htables]
    exact h.sound
  · rw [htables]
    exact h.shadowed

/-- The tables after the update: the outputs in the place of the inputs. -/
theorem setOf_mem_tables_applyJob {db : DbInner} {job : CompactionJob} {outs : List SSTable}
    (hdb : db.Numbered) (hfit : Fitting db job) :
    {t | t ∈ (db.applyJob job outs).tables} =
      {t | t ∈ db.tables} \ {t | t ∈ job.inputs} ∪ placed job.outputLevel outs := by
  ext t
  simp only [Set.mem_ofPred_eq, mem_tables_applyJob, Set.mem_union, Set.mem_sdiff, placed]
  refine or_congr (and_congr_right fun ht => ⟨fun hne hin => hne t hin rfl, ?_⟩) Iff.rfl
  intro hnot input hinput heq
  exact hnot (hdb.distinct input (hfit.mem_tables hinput) t ht heq ▸ hinput)

theorem Numbered.applied {db db' : DbInner} {job : CompactionJob} {outs : List SSTable}
    (hdb : db.Numbered) (hlevels : db'.levels = (db.applyJob job outs).levels)
    (hnext : db.nextSstId ≤ db'.nextSstId) (hids : NewIds db.nextSstId db'.nextSstId outs) :
    db'.Numbered := by
  have hnew : ∀ t ∈ db.tables, ∀ o ∈ outs, t.2.id < o.id := fun t ht o ho =>
    (hdb.below t ht).trans_le (hids.fresh o ho)
  have htables := DbInner.mem_tables_congr hlevels
  refine ⟨hlevels ▸ ascending_applyJob hdb.ascending job hnew hids.ascending, ?_, ?_⟩
  · rw [htables]
    intro s hs t ht heq
    rcases mem_tables_applyJob.mp hs with ⟨hs, -⟩ | ⟨hslevel, hs⟩
    · rcases mem_tables_applyJob.mp ht with ⟨ht, -⟩ | ⟨-, ht⟩
      · exact hdb.distinct s hs t ht heq
      · have := hnew s hs t.2 ht
        omega
    · rcases mem_tables_applyJob.mp ht with ⟨ht, -⟩ | ⟨htlevel, ht⟩
      · have := hnew t ht s.2 hs
        omega
      · exact Prod.ext (hslevel.trans htlevel.symm) (hids.injective hs ht heq)
  · rw [htables]
    intro t ht
    rcases mem_tables_applyJob.mp ht with ⟨ht, -⟩ | ⟨-, ht⟩
    · exact (hdb.below t ht).trans_le hnext
    · exact hids.below t.2 ht

/-- A finished job, and one cut off behind the update of the handle, leave it coherent and with
the same reads. -/
theorem Coherent.applied {w w' : World} {job : CompactionJob} {outs : List SSTable}
    (hdb : Coherent w.inner) (hfit : Fitting w.inner job) (hdata : Applied job outs w.inner w'.inner)
    (hcomplete : Complete job w w' outs) (hnext : w.inner.nextSstId ≤ w'.inner.nextSstId)
    (hfits : w'.disk.Fits) :
    Coherent w'.inner ∧ ∀ key, w'.inner.get key = w.inner.get key := by
  have hholds := hcomplete.holds hfits
  have htables := DbInner.mem_tables_congr hdata.levels
  have hset := @setOf_mem_tables_applyJob w.inner job outs hdb.numbered hfit
  have hdone := fun key => hfit.done hdb.numbered (fun r => exists_output_iff hholds)
    (hdb.shadowed key)
  have hnumbered := Numbered.applied hdb.numbered hdata.levels hnext hcomplete.ids
  have hsound : w'.inner.Sound := by
    intro t ht
    rw [htables] at ht
    rcases mem_tables_applyJob.mp ht with ⟨ht, -⟩ | ⟨-, ht⟩
    · exact hdb.sound t ht
    · exact sound_of_holds hholds t.2 ht
  refine ⟨⟨hnumbered, hsound, fun key => ?_⟩, fun key => ?_⟩
  · rw [htables, hset]
    exact (hdone key).1
  · rw [DbInner.get_eq_answer hsound, DbInner.get_eq_answer hdb.sound, hdata.memtable]
    have hreads' := reads_lookup hnumbered.ascending key
    change Reads (copies {t | t ∈ w'.inner.tables} key) _ at hreads'
    rw [htables, hset] at hreads'
    have hvalue := (hdone key).2 (reads_lookup hdb.numbered.ascending key) hreads'
    cases w.inner.memtable.get? key with
    | some entry => rfl
    | none => exact congrArg Except.ok hvalue

/-! ## Disjoint key ranges -/

/-- In each level below the first the key ranges of the files are disjoint. -/
def DbInner.RangesApart (db : DbInner) : Prop :=
  ∀ s ∈ db.tables, ∀ t ∈ db.tables, s ≠ t → s.1 = t.1 → 0 < s.1 → ∀ lo hi lo' hi',
    s.2.keyRange = some (lo, hi) → t.2.keyRange = some (lo', hi') → hi < lo' ∨ hi' < lo

/-- Two files of one such level have no key in common. -/
theorem DbInner.RangesApart.eq_of_mem {db : DbInner} (h : db.RangesApart) (hsound : db.Sound)
    {s t : Placed} (hs : s ∈ db.tables) (ht : t ∈ db.tables) (hlevel : s.1 = t.1) (hpos : 0 < s.1)
    {key : String} (hks : key ∈ s.2.entries.keys) (hkt : key ∈ t.2.entries.keys) : s = t := by
  by_contra hne
  obtain ⟨file, hfile, hlo, hhi⟩ := exists_metaOf (hsound s hs) hks
  obtain ⟨file', hfile', hlo', hhi'⟩ := exists_metaOf (hsound t ht) hkt
  obtain ⟨-, -, hrange, -⟩ := metaOf_eq_some hfile
  obtain ⟨-, -, hrange', -⟩ := metaOf_eq_some hfile'
  rcases h s hs t ht hne hlevel hpos _ _ _ _ hrange hrange' with hlt | hlt
  · exact absurd (hlo'.trans hhi) (not_le.mpr hlt)
  · exact absurd (hlo.trans hhi') (not_le.mpr hlt)

theorem DbInner.RangesApart.shadowed {db : DbInner} (h : db.RangesApart) (hsound : db.Sound)
    (key : String) : Shadowed (copies {t | t ∈ db.tables} key) := by
  intro a ha b hb hlevel hpos hne
  obtain ⟨s, hs, hslevel, -, hsr⟩ := ha
  obtain ⟨t, ht, htlevel, -, htr⟩ := hb
  have heq : s = t := h.eq_of_mem hsound hs ht (by omega) (by omega)
    (SortedMap.mem_keys_of_get? hsr) (SortedMap.mem_keys_of_get? htr)
  rw [heq, htr, Option.some.injEq] at hsr
  exact absurd hsr.symm hne

/-- An input of the job has the key, and no new table does. -/
structure Drops (job : CompactionJob) (w w' : World) (key : String) : Prop where
  input : ∃ i ∈ job.inputs, key ∈ i.2.entries.keys
  gone : ∀ t ∈ w'.inner.tables, t ∉ w.inner.tables → key ∉ t.2.entries.keys

section Compaction

variable {w w' : World} {job : CompactionJob}

theorem exists_jobDone [BloomSizing] (hsound : w.inner.Sound) (hfit : Fitting w.inner job)
    (hrun : executeJob job w = .ok () w') : ∃ outs, JobDone job outs w w' :=
  (wp_executeJob hfit.target_lt (fun i hi => hsound i (hfit.mem_tables hi)) w).ok_of_eq hrun

/-- What a job drops is newer in every table that it leaves in place. -/
theorem newer_of_drops (hnumbered : w.inner.Numbered) (hsound : w.inner.Sound)
    (hapart : w.inner.RangesApart) (hfit : Fitting w.inner job) {outs : List SSTable}
    (hdone : JobDone job outs w w') (hfits : w'.disk.Fits) {key : String}
    (hdrops : Drops job w w' key) {t i : Placed} (ht : t ∈ w'.inner.tables)
    (hkt : key ∈ t.2.entries.keys) (hi : i ∈ job.inputs) (hki : key ∈ i.2.entries.keys) :
    t.1 < i.1 := by
  have htables := DbInner.mem_tables_congr hdone.data.levels
  have hholds := hdone.complete.holds hfits
  have htw : t ∈ w.inner.tables := by
    by_contra hnew
    exact hdrops.gone t ht hnew hkt
  have hnot : t ∉ job.inputs := by
    intro hin
    rw [htables] at ht
    rcases mem_tables_applyJob.mp ht with ⟨-, hne⟩ | ⟨-, ho⟩
    · exact hne t hin rfl
    · have := hnumbered.below t htw
      have := hdone.complete.ids.fresh t.2 ho
      omega
  rcases hfit.apart key i hi hki t htw hnot hkt with ⟨hlt, -⟩ | ⟨heq, hpos⟩ | ⟨-, hbelow⟩
  · exact hlt
  · exact absurd (hapart.eq_of_mem hsound htw (hfit.mem_tables hi) heq hpos hkt hki ▸ hi) hnot
  · -- the record of the key was left out, so it is a tombstone that the job may drop
    obtain ⟨c, -, hrecord⟩ := @Fitting.merge w.inner job key [] hfit hnumbered i hi hki fun o ho =>
      absurd ho List.not_mem_nil
    have hdropped : ¬ job.Keeps c.record := by
      intro hkeeps
      obtain ⟨o, ho, hor⟩ := (exists_output_iff hholds).mpr
        (job.get?_kept.mpr ⟨hrecord, hkeeps⟩)
      refine hdrops.gone (job.outputLevel, o) ?_ ?_ (SortedMap.mem_keys_of_get? hor)
      · rw [htables]
        exact mem_tables_applyJob.mpr (Or.inr ⟨rfl, ho⟩)
      · intro hold
        have hlt : o.id < w.inner.nextSstId := hnumbered.below _ hold
        have := hdone.complete.ids.fresh o ho
        omega
    have := hfit.deepest (not_not.mp hdropped).1 key t htw hnot hkt
    omega

/-- A finished job of a plan and a finished full compaction change no `get`. What a planned job
drops is newer in every table that stays. -/
theorem compaction_preserves_get [BloomSizing] (hnumbered : w.inner.Numbered) (hsound : w.inner.Sound)
    (hapart : w.inner.RangesApart) :
    (∀ config plan job w', pickCompaction w.inner.fileMetas config = .ok (some plan) →
      w.inner.planJob plan = .ok job → executeJob job w = .ok () w' → w'.disk.Fits →
      (∀ key, w'.inner.get key = w.inner.get key) ∧
      ∀ key, Drops job w w' key → ∀ t ∈ w'.inner.tables, key ∈ t.2.entries.keys →
        ∀ i ∈ job.inputs, key ∈ i.2.entries.keys → t.1 < i.1) ∧
    (∀ w', compactFull w = .ok () w' → w'.disk.Fits →
      ∀ key, w'.inner.get key = w.inner.get key) := by
  have hcoherent : Coherent w.inner := ⟨hnumbered, hsound, hapart.shadowed hsound⟩
  have hjob : ∀ job w', Fitting w.inner job → executeJob job w = .ok () w' → w'.disk.Fits →
      ∀ key, w'.inner.get key = w.inner.get key := by
    intro job w' hfit hrun hfits
    obtain ⟨outs, hdone⟩ := exists_jobDone hsound hfit hrun
    have hframe : w.Frame w' := (along_executeJob job w).ok_of_eq hrun
    exact (hcoherent.applied hfit hdone.data hdone.complete hframe.nextSstId hfits).2
  constructor
  · intro config plan job w' hplan hplanned hrun hfits
    have hfit := Fitting.of_plan hnumbered hsound hplan hplanned
    obtain ⟨outs, hdone⟩ := exists_jobDone hsound hfit hrun
    exact ⟨hjob job w' hfit hrun hfits, fun key hdrops t ht hkt i hi hki =>
      newer_of_drops hnumbered hsound hapart hfit hdone hfits hdrops ht hkt hi hki⟩
  · intro w' hrun hfits
    have hrun : (if w.inner.sstCount ≤ 1 then pure () else executeJob
        ⟨w.inner.tables, 1, true, 2 ^ 64 - 1⟩ : OpM Unit) w = .ok () w' := hrun
    split at hrun
    · cases hrun
      exact fun _ => rfl
    · exact hjob _ w' (.of_all rfl rfl) hrun hfits

end Compaction

/-- A table as a handle gets it back from a file it has written. -/
def writtenTable [BloomSizing] (level id : Nat) (entries : SortedMap String SSTableEntry) :
    Res SSTable := do
  let file ← SSTable.writeSstable entries
  SSTable.load id (sstableFileName level id) file

theorem exists_file_of_writtenTable [BloomSizing] {level id : Nat}
    {entries : SortedMap String SSTableEntry} {sst : SSTable}
    (h : writtenTable level id entries = .ok sst) : SSTable.writeSstable entries = .ok sst.data ∧
      SSTable.load sst.id sst.path sst.data = .ok sst := by
  rw [writtenTable] at h
  cases hfile : SSTable.writeSstable entries with
  | error e =>
    rw [hfile] at h
    cases h
  | ok file =>
    rw [hfile] at h
    have hload : SSTable.load id (sstableFileName level id) file = .ok sst := h
    obtain ⟨hid, hpath, hdata⟩ := SSTable.load_eq_ok hload
    rw [hid, hpath, hdata]
    exact ⟨rfl, hload⟩

theorem sound_of_writtenTable [BloomSizing] {level id : Nat}
    {entries : SortedMap String SSTableEntry} {sst : SSTable}
    (h : writtenTable level id entries = .ok sst) (hfits : SSTable.OffsetsFit sst.data) : sst.Sound := by
  obtain ⟨hfile, hload⟩ := exists_file_of_writtenTable h
  obtain ⟨sst', hload', hholds, -⟩ := SSTable.load_holds hfile hfits sst.id sst.path
  rw [hload] at hload'
  cases hload'
  exact hholds.sound

/-- Two files of level zero that overlap, the newer one with a tombstone. -/
def twoTables : List SSTable :=
  [@writtenTable .ofSmall 0 0 (.ofList [("a", .value "1"), ("b", .value "2")]),
    @writtenTable .ofSmall 0 1 (.ofList [("a", .tombstone), ("c", .value "3")])].filterMap
      Except.toOption

theorem exists_written_of_mem_twoTables {sst : SSTable} (h : sst ∈ twoTables) :
    ∃ level id entries, @writtenTable .ofSmall level id entries = .ok sst := by
  rw [twoTables] at h
  obtain ⟨r, hr, hok⟩ := List.mem_filterMap.mp h
  cases r with
  | error e => cases hok
  | ok table =>
    cases hok
    rcases List.mem_cons.mp hr with hr | hr
    · exact ⟨_, _, _, hr.symm⟩
    · exact ⟨_, _, _, (List.mem_singleton.mp hr).symm⟩

theorem sound_of_mem_twoTables {sst : SSTable} (h : sst ∈ twoTables) : sst.Sound := by
  have hsize : ∀ sst ∈ twoTables, sst.fileSize < 2 ^ 32 := by decide +kernel
  obtain ⟨_, _, _, hwritten⟩ := exists_written_of_mem_twoTables h
  exact @sound_of_writtenTable .ofSmall _ _ _ _ hwritten (SSTable.offsetsFit_of_length_lt (hsize sst h))

/-- A handle with two files in level zero that are due for compaction. -/
def twoFiles : World where
  inner := ⟨∅, [twoTables], 2, { DbOptions.default with l0CompactionThreshold := 0 }, .new none⟩
  disk := ⟨∅, [], ⟨fun _ names => names, fun _ _ => .refl _⟩, fun _ => false, none⟩

theorem mem_tables_twoFiles {t : Placed} (ht : t ∈ twoFiles.inner.tables) :
    t.1 = 0 ∧ t.2 ∈ twoTables := by
  obtain ⟨i, files, hfiles, hlevel, ht⟩ := mem_tablesFrom.mp ht
  have hi : i < [twoTables].length := (List.getElem?_eq_some_iff.mp hfiles).1
  obtain rfl : i = 0 := Nat.lt_one_iff.mp hi
  obtain rfl : twoTables = files := Option.some.inj hfiles
  exact ⟨hlevel, ht⟩

theorem coherent_twoFiles : Coherent twoFiles.inner ∧ twoFiles.inner.RangesApart := by
  have hsound : twoFiles.inner.Sound := fun t ht =>
    sound_of_mem_twoTables (mem_tables_twoFiles ht).2
  have hapart : twoFiles.inner.RangesApart := by
    intro s hs t ht _ _ hpos
    exact absurd (mem_tables_twoFiles hs).1 hpos.ne'
  exact ⟨⟨⟨by unfold Ascending; decide +kernel, by decide +kernel, by decide +kernel⟩, hsound,
    hapart.shadowed hsound⟩, hapart⟩

/-- Merging the two files drops the tombstone, and `get` does not see it. -/
theorem compaction_preserves_get_twoFiles : ∃ job w',
    @executeJob .ofSmall job twoFiles = .ok () w' ∧ w'.inner.sstCount = 1 ∧
      w'.inner.get "a" = twoFiles.inner.get "a" ∧ w'.inner.get "c" = .ok (some "3") := by
  obtain ⟨hcoherent, hapart⟩ := coherent_twoFiles
  have hplan : pickCompaction twoFiles.inner.fileMetas ⟨1, 2, 1⟩ =
      .ok (some ⟨0, [1, 0], [], true⟩) := by decide +kernel
  have hrun : check (@executeJob .ofSmall ⟨planInputs ⟨0, [1, 0], [], true⟩ 1 0
      twoFiles.inner.levels, 1, true, DbOptions.default.targetFileSize⟩) twoFiles
      (fun _ w' => decide (w'.disk.Fits ∧ w'.inner.sstCount = 1 ∧
        w'.inner.get "c" = .ok (some "3"))) = true := by decide +kernel
  obtain ⟨_, w', hok, htest⟩ := exists_of_check hrun
  obtain ⟨hfits, hcount, hget⟩ := of_decide_eq_true htest
  have hpreserves := (@compaction_preserves_get twoFiles .ofSmall hcoherent.numbered
    hcoherent.sound hapart).1 _ _ _ w' hplan rfl hok hfits
  exact ⟨_, w', hok, hcount, hpreserves.1 "a", hget⟩

end PebbleDB
