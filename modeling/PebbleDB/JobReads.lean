import PebbleDB.JobRun
import PebbleDB.Plans

/-!
# A compaction job changes no read

The inputs of a job are chosen so that a table left in place is above them or below the outputs,
for every key they have in common (`Fitting`). Then per key the job is a merge in the sense of
`Leveled.Merge` (`Fitting.merge`), and so `get` gives the same answers before and after it, also
while inputs and outputs are there together.
-/

namespace PebbleDB

open EarlyExit Leveled

/-! ## The tables after a job -/

/-- The files that a job leaves, level by level, up to its output level. -/
def retained (db : DbInner) (job : CompactionJob) : List (List SSTable) :=
  let levels := db.levels.map fun files => files.filter fun sst =>
    ¬ job.inputs.any fun input => input.2.id = sst.id
  ({ db with levels }.ensureLevel job.outputLevel).levels

theorem applyJob_levels (db : DbInner) (job : CompactionJob) (outs : List SSTable) :
    (db.applyJob job outs).levels = (retained db job).modify job.outputLevel fun files =>
      sortById (files ++ outs) := rfl

theorem outputLevel_lt_retained (db : DbInner) (job : CompactionJob) :
    job.outputLevel < (retained db job).length := by
  simp only [retained, DbInner.ensureLevel, List.length_append, List.length_replicate]
  omega

/-- A level of what is left: files of that level of the handle, or nothing. -/
theorem retained_eq_some {db : DbInner} {job : CompactionJob} {level : Nat}
    {files : List SSTable} (h : (retained db job)[level]? = some files) :
    (∃ files', db.levels[level]? = some files' ∧ files = files'.filter fun sst =>
      ¬ job.inputs.any fun input => input.2.id = sst.id) ∨ files = [] := by
  rw [retained, DbInner.ensureLevel, List.getElem?_append] at h
  split at h
  · rw [List.getElem?_map, Option.map_eq_some_iff] at h
    obtain ⟨files', hfiles', heq⟩ := h
    exact Or.inl ⟨files', hfiles', heq.symm⟩
  · exact Or.inr (List.eq_of_mem_replicate (List.mem_of_getElem? h))

theorem mem_retained {db : DbInner} {job : CompactionJob} {t : Placed} :
    (∃ files, (retained db job)[t.1]? = some files ∧ t.2 ∈ files) ↔
      t ∈ db.tables ∧ ∀ input ∈ job.inputs, input.2.id ≠ t.2.id := by
  have hkept : ∀ sst : SSTable, (decide (¬ job.inputs.any fun input =>
      decide (input.2.id = sst.id)) = true) ↔ ∀ input ∈ job.inputs, input.2.id ≠ sst.id := by
    intro sst
    simp
  rw [DbInner.mem_tables]
  constructor
  · rintro ⟨files, hfiles, hmem⟩
    rcases retained_eq_some hfiles with ⟨files', hfiles', rfl⟩ | rfl
    · obtain ⟨hmem, hnot⟩ := List.mem_filter.mp hmem
      exact ⟨⟨files', hfiles', hmem⟩, (hkept t.2).mp hnot⟩
    · exact absurd hmem List.not_mem_nil
  · rintro ⟨⟨files, hfiles, hmem⟩, hnot⟩
    refine ⟨files.filter fun sst => ¬ job.inputs.any fun input => input.2.id = sst.id, ?_,
      List.mem_filter.mpr ⟨hmem, (hkept t.2).mpr hnot⟩⟩
    rw [retained, DbInner.ensureLevel, List.getElem?_append_left, List.getElem?_map, hfiles]
    · rfl
    · rw [List.length_map]
      exact (List.getElem?_eq_some_iff.mp hfiles).1

/-- The tables after the update of the handle. -/
theorem mem_tables_applyJob {db : DbInner} {job : CompactionJob} {outs : List SSTable}
    {t : Placed} :
    t ∈ (db.applyJob job outs).tables ↔
      (t ∈ db.tables ∧ ∀ input ∈ job.inputs, input.2.id ≠ t.2.id) ∨
        (t.1 = job.outputLevel ∧ t.2 ∈ outs) := by
  rw [← mem_retained, DbInner.mem_tables, applyJob_levels, List.getElem?_modify]
  simp only [Option.map_eq_map, Option.map_eq_some_iff]
  constructor
  · rintro ⟨_, ⟨files, hfiles, rfl⟩, hmem⟩
    split at hmem
    · rename_i hlevel
      rw [sortById, List.mem_insertionSort, List.mem_append] at hmem
      rcases hmem with hmem | hmem
      · exact Or.inl ⟨files, hfiles, hmem⟩
      · exact Or.inr ⟨hlevel.symm, hmem⟩
    · exact Or.inl ⟨files, hfiles, hmem⟩
  · rintro (⟨files, hfiles, hmem⟩ | ⟨hlevel, hmem⟩)
    · refine ⟨_, ⟨files, hfiles, rfl⟩, ?_⟩
      split
      · rw [sortById, List.mem_insertionSort, List.mem_append]
        exact Or.inl hmem
      · exact hmem
    · rw [hlevel]
      refine ⟨_, ⟨_, List.getElem?_eq_getElem (outputLevel_lt_retained db job), rfl⟩, ?_⟩
      rw [if_pos rfl, sortById, List.mem_insertionSort, List.mem_append]
      exact Or.inr hmem

theorem DbInner.Numbered.pairwise {db : DbInner} (h : db.Numbered) :
    db.tables.Pairwise fun s t => s.2.id ≠ t.2.id := by
  have hall : ∀ (levels : List (List SSTable)) (first : Nat), Ascending levels →
      (∀ s ∈ tablesFrom first levels, ∀ t ∈ tablesFrom first levels, s.2.id = t.2.id → s = t) →
      (tablesFrom first levels).Pairwise fun s t => s.2.id ≠ t.2.id := by
    intro levels
    induction levels with
    | nil => exact fun _ _ _ => List.Pairwise.nil
    | cons files levels ih =>
      intro first hasc hdistinct
      refine List.pairwise_append.mpr ⟨?_, ?_, ?_⟩
      · rw [List.pairwise_map]
        exact (hasc files List.mem_cons_self).imp fun hlt => ne_of_lt hlt
      · refine ih _ (fun f hf => hasc f (List.mem_cons_of_mem _ hf)) fun s hs t ht => ?_
        exact hdistinct s (List.mem_append_right _ hs) t (List.mem_append_right _ ht)
      · intro s hs t ht heq
        obtain ⟨sst, -, rfl⟩ := List.mem_map.mp hs
        have hst := hdistinct (first, sst) (List.mem_append_left _ hs) t
          (List.mem_append_right _ ht) heq
        obtain ⟨i, _, -, hlevel, -⟩ := mem_tablesFrom.mp ht
        rw [← hst] at hlevel
        simp only at hlevel
        omega
  exact hall db.levels 0 h.ascending h.distinct

/-- The update keeps the files of each level in order. -/
theorem ascending_applyJob {db : DbInner} (h : Ascending db.levels) (job : CompactionJob)
    {outs : List SSTable} (hbelow : ∀ t ∈ db.tables, ∀ o ∈ outs, t.2.id < o.id)
    (houts : outs.Pairwise fun a b => a.id < b.id) : Ascending (db.applyJob job outs).levels := by
  have hretained : ∀ (level : Nat) (files : List SSTable), (retained db job)[level]? = some files →
      files.Pairwise fun a b => a.id < b.id := by
    intro level files hfiles
    rcases retained_eq_some hfiles with ⟨files', hfiles', rfl⟩ | rfl
    · exact (h files' (List.mem_of_getElem? hfiles')).filter _
    · exact List.Pairwise.nil
  rw [applyJob_levels]
  intro files hmem
  obtain ⟨level, hlevel⟩ := List.getElem?_of_mem hmem
  rw [List.getElem?_modify] at hlevel
  simp only [Option.map_eq_map, Option.map_eq_some_iff] at hlevel
  obtain ⟨files, hfiles, rfl⟩ := hlevel
  split
  · -- the outputs are newer than what is left of the level, so they belong at its end
    have hsorted : (files ++ outs).Pairwise fun a b => a.id < b.id := by
      refine List.pairwise_append.mpr ⟨hretained level files hfiles, houts, fun sst hsst o ho => ?_⟩
      have hleft : (level, sst) ∈ db.tables ∧ _ := mem_retained.mp ⟨files, hfiles, hsst⟩
      exact hbelow (level, sst) hleft.1 o ho
    rw [sortById, (hsorted.imp fun hlt => hlt.le).insertionSort_eq]
    exact hsorted
  · exact hretained level files hfiles

/-- Tables in one level. -/
def placed (level : Nat) (outs : List SSTable) : Set Placed := {t | t.1 = level ∧ t.2 ∈ outs}

/-- The inputs of a job, as it is planned, among the tables of the handle. -/
structure Fitting (db : DbInner) (job : CompactionJob) : Prop where
  sub : job.inputs.Sublist db.tables
  target_pos : 0 < job.outputLevel
  target_lt : job.outputLevel < 2 ^ 32
  /-- Where a table that stays shares a key with an input, it is above the input and the target, or
  in the level of the input but not in level zero, or below both. -/
  apart : ∀ key, ∀ i ∈ job.inputs, key ∈ i.2.entries.keys → ∀ t ∈ db.tables, t ∉ job.inputs →
    key ∈ t.2.entries.keys →
    (t.1 < i.1 ∧ t.1 < job.outputLevel) ∨ (t.1 = i.1 ∧ 0 < t.1) ∨
      (i.1 < t.1 ∧ job.outputLevel < t.1)
  /-- Tombstones are dropped only above the last table with a key. -/
  deepest : job.dropTombstones = true → ∀ key, ∀ t ∈ db.tables, t ∉ job.inputs →
    key ∈ t.2.entries.keys → t.1 ≤ job.outputLevel

namespace Fitting

variable {db : DbInner} {job : CompactionJob}

theorem pairwise (h : Fitting db job) (hdb : db.Numbered) :
    job.inputs.Pairwise fun a b => a.2.id ≠ b.2.id := hdb.pairwise.sublist h.sub

theorem mem_tables (h : Fitting db job) {t : Placed} (ht : t ∈ job.inputs) : t ∈ db.tables :=
  h.sub.subset ht

/-- The job of a plan. -/
theorem of_plan (hdb : db.Numbered) (hsound : db.Sound) {config : LevelConfig}
    {plan : CompactionPlan} (hplan : pickCompaction db.fileMetas config = .ok (some plan))
    (hjob : db.planJob plan = .ok job) : Fitting db job := by
  obtain ⟨lo, hi, hpicks⟩ := pickCompaction_eq_some hplan
  obtain ⟨hinputs, hlevel, hdrop, -⟩ := db.planJob_eq_ok hjob
  have hmem : ∀ t ∈ db.tables, (t ∈ job.inputs ↔ Wanted plan (plan.level + 1) t) := by
    intro t ht
    rw [hinputs, List.mem_filter, decide_eq_true_eq, and_iff_right ht]
  refine ⟨hinputs ▸ List.filter_sublist, by omega, by rw [hlevel]; exact hpicks.level_lt, ?_, ?_⟩
  · intro key i hi' hkeyi t ht hnot hkeyt
    rw [hlevel]
    have hiT : i ∈ db.tables := by
      rw [hinputs] at hi'
      exact List.mem_of_mem_filter hi'
    obtain ⟨file, hfile, hlo, hhi⟩ := exists_metaOf (hsound t ht) hkeyt
    obtain ⟨hid, hflevel, -, -⟩ := metaOf_eq_some hfile
    have hfileIn : file ∈ db.fileMetas := DbInner.mem_fileMetas.mpr ⟨t, ht, hfile⟩
    rcases (hmem i hiT).mp hi' with ⟨hilevel, hiin⟩ | ⟨-, hilevel, -⟩
    · obtain ⟨file', hfile', hid', -, hlo', hhi'⟩ := hpicks.inputs _ hiin
      -- the meta with the id of the input is its own
      obtain ⟨s, hs, hsfile⟩ := DbInner.mem_fileMetas.mp hfile'
      obtain rfl : s = i := hdb.distinct s hs i hiT
        ((metaOf_eq_some hsfile).1.symm.trans hid')
      have hrange := mem_range_of_metaOf (hsound s hs) hsfile hkeyi
      rcases lt_trichotomy t.1 plan.level with hlt | heq | hgt
      · exact Or.inl ⟨by omega, by omega⟩
      · refine Or.inr (Or.inl ⟨by omega, Nat.pos_of_ne_zero fun hzero => hnot ?_⟩)
        refine (hmem t ht).mpr (Or.inl ⟨heq, ?_⟩)
        rw [← hid]
        exact hpicks.zero (by omega) file hfileIn (by omega)
      · refine Or.inr (Or.inr ⟨by omega, ?_⟩)
        by_contra hle
        have htlevel : t.1 = plan.level + 1 := by omega
        refine hnot ((hmem t ht).mpr (Or.inr ⟨by omega, htlevel, ?_⟩))
        exact (hpicks.overlaps _).mpr ⟨file, hfileIn, hid, by omega,
          (hlo.trans hrange.2).trans hhi', (hlo'.trans hrange.1).trans hhi⟩
    · rcases lt_trichotomy t.1 (plan.level + 1) with hlt | heq | hgt
      · exact Or.inl ⟨by omega, hlt⟩
      · exact Or.inr (Or.inl ⟨by omega, by omega⟩)
      · exact Or.inr (Or.inr ⟨by omega, hgt⟩)
  · intro htrue key t ht _ hkeyt
    obtain ⟨file, hfile, -, -⟩ := exists_metaOf (hsound t ht) hkeyt
    have := hpicks.deepest (hdrop ▸ htrue) file (DbInner.mem_fileMetas.mpr ⟨t, ht, hfile⟩)
    have := (metaOf_eq_some hfile).2.1
    omega

/-- The job of `compact_full` leaves no table in place. -/
theorem of_all (htables : job.inputs = db.tables) (hlevel : job.outputLevel = 1) :
    Fitting db job where
  sub := htables ▸ List.Sublist.refl _
  target_pos := by omega
  target_lt := by omega
  apart := fun _ _ _ _ _ ht hnot => absurd (htables ▸ ht) hnot
  deepest := fun _ _ _ ht hnot => absurd (htables ▸ ht) hnot

/-! ### The job as a merge of copies -/

variable {key : String} {outs : List SSTable}

/-- For a key of the inputs the job is a merge, however many outputs are written. -/
theorem merge (h : Fitting db job) (hdb : db.Numbered) {input : Placed} (hinput : input ∈ job.inputs)
    (hkey : key ∈ input.2.entries.keys)
    (houts : ∀ o ∈ outs, ∀ r, o.entries.get? key = some r → job.kept.get? key = some r) :
    ∃ t, Merge (copies {t | t ∈ db.tables} key) (copies {t | t ∈ job.inputs} key)
        (copies (placed job.outputLevel outs) key) job.outputLevel t ∧
      job.records.get? key = some t.record := by
  have hreads := job.reads_records (h.pairwise hdb) key
  cases hrecord : job.records.get? key with
  | none =>
    rw [hrecord] at hreads
    obtain ⟨r, hr⟩ := Option.ne_none_iff_exists'.mp (SortedMap.mem_keys.mp hkey)
    have hmem : (⟨input.1, input.2.id, r⟩ : Copy SSTableEntry) ∈
        copies {t | t ∈ job.inputs} key := ⟨input, hinput, rfl, rfl, hr⟩
    exact absurd (hreads ▸ hmem) (Set.notMem_empty _)
  | some r =>
    rw [hrecord] at hreads
    obtain ⟨t, htop, hrec⟩ := hreads
    refine ⟨t, ⟨copiesIn_mono fun s hs => h.mem_tables hs, htop, h.target_pos, ?_, ?_, ?_⟩, ?_⟩
    · rintro o ⟨s, ⟨hlevel, -⟩, hs, -⟩
      rw [← hs, hlevel]
    · rintro o ⟨s, ⟨-, hs⟩, -, -, ho⟩
      have hkept := (job.get?_kept.mp (houts s.2 hs _ ho)).1
      rw [hrecord, Option.some.injEq] at hkept
      rw [hrec, ← hkept]
    · rintro i ⟨s, hs, hslevel, -, hsr⟩ c ⟨u, hu, hulevel, huid, hur⟩ hnot
      have hunot : u ∉ job.inputs := fun hmem => hnot ⟨u, hmem, hulevel, huid, hur⟩
      have hskey : key ∈ s.2.entries.keys := SortedMap.mem_keys_of_get? hsr
      have hukey : key ∈ u.2.entries.keys := SortedMap.mem_keys_of_get? hur
      have hapart := h.apart key s hs hskey u hu hunot hukey
      rw [hslevel, hulevel] at hapart
      exact hapart
    · rw [hrec]

/-- A key that no input has is in no output either. -/
theorem copies_outputs_eq_empty (hnone : ∀ input ∈ job.inputs, key ∉ input.2.entries.keys)
    (houts : ∀ o ∈ outs, ∀ r, o.entries.get? key = some r → job.kept.get? key = some r) :
    copies {t | t ∈ job.inputs} key = ∅ ∧ copies (placed job.outputLevel outs) key = ∅ := by
  have hrecords : job.records.get? key = none := by
    rw [CompactionJob.records, SortedMap.get?_overlay_eq_none_iff]
    intro m hm
    obtain ⟨source, hsource, rfl⟩ := List.mem_map.mp hm
    have hnot := hnone source ((List.mem_insertionSort _).mp hsource)
    rwa [SortedMap.mem_keys, not_not] at hnot
  constructor
  · refine Set.eq_empty_of_forall_notMem ?_
    rintro c ⟨t, ht, -, -, hr⟩
    exact hnone t ht (SortedMap.mem_keys_of_get? hr)
  · refine Set.eq_empty_of_forall_notMem ?_
    rintro c ⟨t, ⟨-, ht⟩, -, -, hr⟩
    have hkept := (job.get?_kept.mp (houts t.2 ht _ hr)).1
    rw [hrecords] at hkept
    cases hkept

/-- With the outputs on top of the tables, whether all or only the first of them, a read finds
the same record. -/
theorem union (h : Fitting db job) (hdb : db.Numbered)
    (houts : ∀ o ∈ outs, ∀ r, o.entries.get? key = some r → job.kept.get? key = some r)
    (hs : Shadowed (copies {t | t ∈ db.tables} key)) :
    Shadowed (copies ({t | t ∈ db.tables} ∪ placed job.outputLevel outs) key) ∧
      ∀ {r r'}, Reads (copies {t | t ∈ db.tables} key) r →
        Reads (copies ({t | t ∈ db.tables} ∪ placed job.outputLevel outs) key) r' → r' = r := by
  rw [copies_union]
  by_cases hin : ∃ input ∈ job.inputs, key ∈ input.2.entries.keys
  · obtain ⟨input, hinput, hkey⟩ := hin
    obtain ⟨t, hmerge, -⟩ := h.merge hdb hinput hkey houts
    exact ⟨hmerge.shadowed_union hs, fun hr hr' => hmerge.reads_union hs hr hr'⟩
  · push Not at hin
    rw [(copies_outputs_eq_empty hin houts).2, Set.union_empty]
    exact ⟨hs, fun hr hr' => hr'.unique hr⟩

/-- With all outputs in the place of the inputs, a read finds the same value. -/
theorem done (h : Fitting db job) (hdb : db.Numbered)
    (houts : ∀ r, (∃ o ∈ outs, o.entries.get? key = some r) ↔ job.kept.get? key = some r)
    (hs : Shadowed (copies {t | t ∈ db.tables} key)) :
    Shadowed (copies ({t | t ∈ db.tables} \ {t | t ∈ job.inputs} ∪
        placed job.outputLevel outs) key) ∧
      ∀ {r r'}, Reads (copies {t | t ∈ db.tables} key) r →
        Reads (copies ({t | t ∈ db.tables} \ {t | t ∈ job.inputs} ∪
          placed job.outputLevel outs) key) r' →
        r'.bind SSTableEntry.value? = r.bind SSTableEntry.value? := by
  have houts' : ∀ o ∈ outs, ∀ r, o.entries.get? key = some r → job.kept.get? key = some r :=
    fun o ho r hr => (houts r).mp ⟨o, ho, hr⟩
  have hdiff : copies ({t | t ∈ db.tables} \ {t | t ∈ job.inputs}) key =
      copies {t | t ∈ db.tables} key \ copies {t | t ∈ job.inputs} key :=
    copiesIn_diff hdb.distinct fun t ht => h.mem_tables ht
  rw [copies_union, hdiff]
  by_cases hin : ∃ input ∈ job.inputs, key ∈ input.2.entries.keys
  · obtain ⟨input, hinput, hkey⟩ := hin
    obtain ⟨t, hmerge, hrecord⟩ := h.merge hdb hinput hkey houts'
    have hdrops : Drops SSTableEntry.value? (copies {t | t ∈ db.tables} key)
        (copies {t | t ∈ job.inputs} key) (copies (placed job.outputLevel outs) key)
        job.outputLevel t := by
      intro hempty
      have hnot : ¬ job.Keeps t.record := fun hkeeps => by
        obtain ⟨o, ho, hor⟩ := (houts t.record).mpr (job.get?_kept.mpr ⟨hrecord, hkeeps⟩)
        have hmem : (⟨job.outputLevel, o.id, t.record⟩ : Copy SSTableEntry) ∈
            copies (placed job.outputLevel outs) key :=
          ⟨(job.outputLevel, o), ⟨rfl, ho⟩, rfl, rfl, hor⟩
        exact absurd (hempty ▸ hmem) (Set.notMem_empty _)
      obtain ⟨hdrop, htomb⟩ := not_not.mp hnot
      refine ⟨by rw [htomb]; rfl, ?_⟩
      rintro c ⟨u, hu, hulevel, huid, hur⟩ hcnot
      rw [← hulevel]
      exact h.deepest hdrop key u hu (fun hmem => hcnot ⟨u, hmem, hulevel, huid, hur⟩)
        (SortedMap.mem_keys_of_get? hur)
    exact ⟨hmerge.shadowed_done hdrops hs, fun hr hr' => hmerge.reads_done hdrops hs hr hr'⟩
  · push Not at hin
    obtain ⟨hI, hO⟩ := copies_outputs_eq_empty hin houts'
    rw [hO, hI, Set.union_empty, Set.sdiff_empty]
    exact ⟨hs, fun hr hr' => by rw [hr'.unique hr]⟩

end Fitting

end PebbleDB
