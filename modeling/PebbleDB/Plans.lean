import PebbleDB.Tables

/-!
# What a plan picks

A plan of `pick_compaction` names files by id. `Picks` says which files these are: its inputs lie
in one level and in a range of keys, its overlaps are all files of the next level that meet this
range. `plan_job` turns the ids back into the tables (`planInputs_eq`).
-/

namespace PebbleDB

/-! ## The metas of the tables -/

/-- The meta of a table, unless it has no key range. -/
def metaOf (t : Placed) : Option FileMeta :=
  t.2.keyRange.map fun (smallest, largest) => ⟨t.2.id, t.1, smallest, largest, t.2.fileSize⟩

theorem fileMetasFrom_eq (first : Nat) (levels : List (List SSTable)) :
    DbInner.fileMetasFrom first levels = (tablesFrom first levels).filterMap metaOf := by
  induction levels generalizing first with
  | nil => rfl
  | cons files levels ih =>
    rw [DbInner.fileMetasFrom, tablesFrom, ih, List.filterMap_append, List.filterMap_map]
    rfl

theorem DbInner.mem_fileMetas {db : DbInner} {file : FileMeta} :
    file ∈ db.fileMetas ↔ ∃ t ∈ db.tables, metaOf t = some file := by
  rw [DbInner.fileMetas, fileMetasFrom_eq, List.mem_filterMap]

theorem metaOf_eq_some {t : Placed} {file : FileMeta} (h : metaOf t = some file) :
    file.id = t.2.id ∧ file.level = t.1 ∧
      t.2.keyRange = some (file.smallest, file.largest) ∧ file.size = t.2.fileSize := by
  obtain ⟨⟨smallest, largest⟩, hrange, rfl⟩ := Option.map_eq_some_iff.mp h
  exact ⟨rfl, rfl, hrange, rfl⟩

/-- A table with a key has a meta, and its range holds the key. -/
theorem exists_metaOf {t : Placed} (h : t.2.Sound) {key : String} (hkey : key ∈ t.2.entries.keys) :
    ∃ file, metaOf t = some file ∧ file.smallest ≤ key ∧ key ≤ file.largest := by
  have hrange := h.keyRange_eq
  cases hkeys : t.2.entries.keyRange with
  | none =>
    rw [SortedMap.keyRange_eq_none_iff.mp hkeys] at hkey
    exact absurd hkey List.not_mem_nil
  | some range =>
    obtain ⟨smallest, largest⟩ := range
    have hall := (SortedMap.keyRange_eq_some_iff.mp hkeys).2.2 key hkey
    refine ⟨⟨t.2.id, t.1, smallest, largest, t.2.fileSize⟩, ?_, hall.1, hall.2⟩
    rw [metaOf, hrange, hkeys]
    rfl

/-- The keys of a table lie in the range of its meta. -/
theorem mem_range_of_metaOf {t : Placed} (h : t.2.Sound) {file : FileMeta}
    (hfile : metaOf t = some file) {key : String} (hkey : key ∈ t.2.entries.keys) :
    file.smallest ≤ key ∧ key ≤ file.largest := by
  obtain ⟨file', hfile', hle⟩ := exists_metaOf h hkey
  rw [hfile] at hfile'
  cases hfile'
  exact hle

/-! ## Picking -/

theorem mem_ids {files : List FileMeta} {id : Nat} :
    id ∈ ids files ↔ ∃ file ∈ files, file.id = id := by
  rw [ids, List.mem_insertionSort, List.mem_map]

theorem mem_overlapping {files : List FileMeta} {level : Nat} {smallest largest : String}
    {file : FileMeta} :
    file ∈ overlapping files level smallest largest ↔
      file ∈ files ∧ file.level = level ∧ file.smallest ≤ largest ∧ smallest ≤ file.largest := by
  rw [overlapping, List.mem_filter]
  simp only [Bool.and_eq_true, decide_eq_true_eq, and_assoc]

theorem mem_of_minById {files : List FileMeta} {file : FileMeta} (h : minById files = some file) :
    file ∈ files := by
  induction files generalizing file with
  | nil => cases h
  | cons first files ih =>
    rw [minById] at h
    split at h
    · rename_i best hbest
      split at h
      · exact Option.some.inj h ▸ List.mem_cons_self
      · exact Option.some.inj h ▸ List.mem_cons_of_mem _ (ih hbest)
    · exact Option.some.inj h ▸ List.mem_cons_self

/-- The range covers the files. -/
theorem unionRange_eq_ok {files : List FileMeta} {lo hi : String}
    (h : unionRange files = .ok (lo, hi)) :
    files ≠ [] ∧ ∀ file ∈ files, lo ≤ file.smallest ∧ file.largest ≤ hi := by
  rw [unionRange] at h
  split at h
  · rename_i smallest largest hmin hmax
    cases h
    refine ⟨?_, fun file hfile => ⟨?_, ?_⟩⟩
    · rintro rfl
      cases hmin
    · exact (List.min?_eq_some_iff.mp hmin).2 _ (List.mem_map_of_mem hfile)
    · exact (List.max?_eq_some_iff.mp hmax).2 _ (List.mem_map_of_mem hfile)
  · cases h

/-- The files a plan names, among all files: `lo` and `hi` bound the keys of the inputs. -/
structure Picks (files : List FileMeta) (plan : CompactionPlan) (lo hi : String) : Prop where
  level_lt : plan.level + 1 < 2 ^ 32
  inputs_ne_nil : plan.inputs ≠ []
  inputs : ∀ id ∈ plan.inputs, ∃ file ∈ files, file.id = id ∧ file.level = plan.level ∧
    lo ≤ file.smallest ∧ file.largest ≤ hi
  /-- Level zero is merged as a whole. -/
  zero : plan.level = 0 → ∀ file ∈ files, file.level = 0 → file.id ∈ plan.inputs
  overlaps : ∀ id, id ∈ plan.overlaps ↔ ∃ file ∈ files, file.id = id ∧
    file.level = plan.level + 1 ∧ file.smallest ≤ hi ∧ lo ≤ file.largest
  deepest : plan.dropTombstones = true → ∀ file ∈ files, file.level ≤ plan.level + 1

theorem mem_ids_overlapping {files : List FileMeta} {level id : Nat} {lo hi : String} :
    id ∈ ids (overlapping files level lo hi) ↔ ∃ file ∈ files, file.id = id ∧
      file.level = level ∧ file.smallest ≤ hi ∧ lo ≤ file.largest := by
  rw [mem_ids]
  simp only [mem_overlapping]
  constructor
  · rintro ⟨file, ⟨hfile, hrest⟩, hid⟩
    exact ⟨file, hfile, hid, hrest⟩
  · rintro ⟨file, hfile, hid, hrest⟩
    exact ⟨file, ⟨hfile, hrest⟩, hid⟩

theorem nextLevel_eq_ok {level next : Nat} (h : nextLevel level = .ok next) :
    next = level + 1 ∧ level + 1 < 2 ^ 32 := by
  rw [nextLevel] at h
  split at h
  · exact ⟨(Except.ok.inj h).symm, ‹_›⟩
  · cases h

/-- The loop over the levels gives none, or a plan for one of them. -/
theorem pickLevel_eq_some {files : List FileMeta} {config : LevelConfig} {deepest : Nat}
    {levels : List Nat} (hpos : ∀ level ∈ levels, 0 < level)
    (hdeepest : ∀ file ∈ files, file.level ≤ deepest) {plan : CompactionPlan}
    (h : pickLevel files config deepest levels = .ok (some plan)) :
    ∃ lo hi, Picks files plan lo hi := by
  induction levels with
  | nil => cases h
  | cons level levels ih =>
    have ih := ih fun l hl => hpos l (List.mem_cons_of_mem _ hl)
    rw [pickLevel] at h
    split at h
    · exact ih h
    · cases hsum : sumU64 ((files.filter fun file => decide (file.level = level)).map
          FileMeta.size) with
      | error e =>
        rw [hsum] at h
        cases h
      | ok size =>
        rw [hsum] at h
        simp only [bind, Except.bind] at h
        split at h
        · exact ih h
        · split at h
          · cases h
          · rename_i input hinput
            cases hnext : nextLevel level with
            | error e =>
              rw [hnext] at h
              cases h
            | ok next =>
              rw [hnext] at h
              cases h
              obtain ⟨rfl, hlt⟩ := nextLevel_eq_ok hnext
              obtain ⟨hmem, hlevel⟩ := List.mem_filter.mp (mem_of_minById hinput)
              have hlevel : input.level = level := by simpa using hlevel
              refine ⟨input.smallest, input.largest, hlt, List.cons_ne_nil _ _, ?_, ?_, ?_, ?_⟩
              · intro id hid
                obtain rfl := List.mem_singleton.mp hid
                exact ⟨input, hmem, rfl, hlevel, le_rfl, le_rfl⟩
              · rintro rfl
                exact absurd (hpos 0 List.mem_cons_self) (lt_irrefl 0)
              · exact fun id => mem_ids_overlapping
              · intro hdrop file hfile
                have hle : deepest ≤ level + 1 := by simpa using hdrop
                exact (hdeepest file hfile).trans hle

/-- What a plan is made of. -/
theorem pickCompaction_eq_some {files : List FileMeta} {config : LevelConfig}
    {plan : CompactionPlan} (h : pickCompaction files config = .ok (some plan)) :
    ∃ lo hi, Picks files plan lo hi := by
  rw [pickCompaction] at h
  split at h
  · cases h
  · rename_i deepest hmax
    have hdeepest : ∀ file ∈ files, file.level ≤ deepest := fun file hfile =>
      (List.max?_eq_some_iff.mp hmax).2 _ (List.mem_map_of_mem hfile)
    dsimp only at h
    split at h
    · cases hrange : unionRange (files.filter fun file => decide (file.level = 0)) with
      | error e =>
        rw [hrange] at h
        cases h
      | ok range =>
        obtain ⟨lo, hi⟩ := range
        rw [hrange] at h
        cases h
        obtain ⟨hne, hcovers⟩ := unionRange_eq_ok hrange
        have hzero : ∀ file, file ∈ files.filter (fun file => decide (file.level = 0)) ↔
            file ∈ files ∧ file.level = 0 := fun file => by
          rw [List.mem_filter, decide_eq_true_eq]
        refine ⟨lo, hi, (by decide : 0 + 1 < 2 ^ 32), ?_, ?_, ?_, ?_, ?_⟩
        · obtain ⟨file, hfile⟩ := List.exists_mem_of_ne_nil _ hne
          exact List.ne_nil_of_mem (mem_ids.mpr ⟨file, hfile, rfl⟩)
        · intro id hid
          obtain ⟨file, hfile, rfl⟩ := mem_ids.mp hid
          exact ⟨file, ((hzero file).mp hfile).1, rfl, ((hzero file).mp hfile).2,
            hcovers file hfile⟩
        · exact fun _ file hfile hlevel => mem_ids.mpr ⟨file, (hzero file).mpr ⟨hfile, hlevel⟩, rfl⟩
        · exact fun id => mem_ids_overlapping
        · intro hdrop file hfile
          have hle : deepest ≤ 1 := by simpa using hdrop
          exact (hdeepest file hfile).trans hle
    · exact pickLevel_eq_some (fun level hlevel => (List.mem_range'_1.mp hlevel).1) hdeepest h

theorem nextLevel_eq_error {level : Nat} {e : Exit} (h : nextLevel level = .error e) :
    e = .panic := by
  rw [nextLevel] at h
  split at h
  · cases h
  · exact (Except.error.inj h).symm

theorem unionRange_eq_error {files : List FileMeta} {e : Exit} (h : unionRange files = .error e) :
    e = .panic := by
  rw [unionRange] at h
  split at h
  · cases h
  · exact (Except.error.inj h).symm

/-! ### When nothing is picked -/

/-- The sizes of the files of one level. -/
def levelSizes (files : List FileMeta) (level : Nat) : List Nat :=
  (files.filter fun file => decide (file.level = level)).map FileMeta.size

/-- The size of the level can be summed up and is within its budget. -/
structure WithinBudget (files : List FileMeta) (config : LevelConfig) (level : Nat) : Prop where
  capacity : (levelSizes files level).sum ≤ config.levelCapacity level
  fits : (levelSizes files level).sum < 2 ^ 64

theorem WithinBudget.of_no_file {files : List FileMeta} {config : LevelConfig} {level : Nat}
    (h : files.filter (fun file => decide (file.level = level)) = []) :
    WithinBudget files config level := by
  constructor <;> simp [levelSizes, h]

/-- The outcomes of the loop over the levels. -/
inductive LevelChoice (files : List FileMeta) (config : LevelConfig) (levels : List Nat) :
    Res (Option CompactionPlan) → Prop where
  | overflow : LevelChoice files config levels (.error .panic)
  | within (h : ∀ level ∈ levels, WithinBudget files config level) :
      LevelChoice files config levels (.ok none)
  | full (plan : CompactionPlan) (hmem : plan.level ∈ levels)
      (hcapacity : config.levelCapacity plan.level < 2 ^ 64 - 1) :
      LevelChoice files config levels (.ok (some plan))

theorem LevelChoice.cons {files : List FileMeta} {config : LevelConfig} {level : Nat}
    {levels : List Nat} {r : Res (Option CompactionPlan)} (h : LevelChoice files config levels r)
    (hlevel : WithinBudget files config level) : LevelChoice files config (level :: levels) r := by
  cases h with
  | overflow => exact .overflow
  | within h => exact .within (List.forall_mem_cons.mpr ⟨hlevel, h⟩)
  | full plan hmem hcapacity => exact .full plan (List.mem_cons_of_mem _ hmem) hcapacity

theorem pickLevel_choice (files : List FileMeta) (config : LevelConfig) (deepest : Nat)
    (levels : List Nat) :
    LevelChoice files config levels (pickLevel files config deepest levels) := by
  induction levels with
  | nil => exact .within fun _ h => absurd h List.not_mem_nil
  | cons level levels ih =>
    rw [pickLevel]
    split
    · exact ih.cons (.of_no_file ‹_›)
    · rw [sumU64]
      split
      · rename_i hfits
        simp only [bind, Except.bind]
        split
        · exact ih.cons ⟨‹_›, hfits⟩
        · rename_i hfull
          split
          · exact .overflow
          · rename_i input _
            cases hnext : nextLevel level with
            | error e =>
              obtain rfl := nextLevel_eq_error hnext
              exact .overflow
            | ok next =>
              exact .full _ List.mem_cons_self (by show config.levelCapacity level < _; omega)
      · exact .overflow

/-- The outcomes of a choice. -/
inductive Choice (files : List FileMeta) (config : LevelConfig) :
    Res (Option CompactionPlan) → Prop where
  | overflow : Choice files config (.error .panic)
  | within (hzero : (levelSizes files 0).length < max config.l0CompactionThreshold 1)
      (h : ∀ level, 0 < level → WithinBudget files config level) : Choice files config (.ok none)
  | full (plan : CompactionPlan)
      (hcapacity : plan.level = 0 ∨ 0 < plan.level ∧
        config.levelCapacity plan.level < 2 ^ 64 - 1) : Choice files config (.ok (some plan))

theorem pickCompaction_choice (files : List FileMeta) (config : LevelConfig) :
    Choice files config (pickCompaction files config) := by
  rw [pickCompaction]
  split
  · rename_i hnone
    have hempty : files = [] := by simpa using hnone
    refine .within ?_ fun level _ => .of_no_file (by rw [hempty]; rfl)
    rw [levelSizes, hempty]
    exact lt_max_of_lt_right Nat.one_pos
  · rename_i deepest hmax
    have hdeepest : ∀ file ∈ files, file.level ≤ deepest := fun file hfile =>
      (List.max?_eq_some_iff.mp hmax).2 _ (List.mem_map_of_mem hfile)
    dsimp only
    split
    · cases hrange : unionRange (files.filter fun file => decide (file.level = 0)) with
      | error e =>
        obtain rfl := unionRange_eq_error hrange
        exact .overflow
      | ok range => exact .full _ (Or.inl rfl)
    · rename_i hzero
      have hchoice := pickLevel_choice files config deepest (List.range' 1 deepest)
      revert hchoice
      generalize pickLevel files config deepest (List.range' 1 deepest) = r
      intro hchoice
      cases hchoice with
      | overflow => exact .overflow
      | within h =>
        refine .within ?_ fun level hpos => ?_
        · rw [levelSizes, List.length_map]
          exact lt_max_of_lt_left (not_le.mp hzero)
        · rcases le_or_gt level deepest with hle | hgt
          · exact h level (List.mem_range'_1.mpr ⟨hpos, by omega⟩)
          · refine .of_no_file (List.filter_eq_nil_iff.mpr fun file hfile => ?_)
            have := hdeepest file hfile
            simp only [decide_eq_true_eq]
            omega
      | full plan hmem hcapacity =>
        exact .full plan (Or.inr ⟨(List.mem_range'_1.mp hmem).1, hcapacity⟩)

theorem pickCompaction_eq_error {files : List FileMeta} {config : LevelConfig} {e : Exit}
    (h : pickCompaction files config = .error e) : e = .panic := by
  have hchoice := pickCompaction_choice files config
  rw [h] at hchoice
  cases hchoice
  rfl

/-! ## The tables of a plan -/

/-- The table is an input of the job for the plan. -/
def Wanted (plan : CompactionPlan) (next : Nat) (t : Placed) : Prop :=
  (t.1 = plan.level ∧ t.2.id ∈ plan.inputs) ∨
    (t.1 ≠ plan.level ∧ t.1 = next ∧ t.2.id ∈ plan.overlaps)

instance (plan : CompactionPlan) (next : Nat) : DecidablePred (Wanted plan next) :=
  fun _ => inferInstanceAs (Decidable (_ ∨ _))

theorem planLevel_eq (plan : CompactionPlan) (next level : Nat) (files : List SSTable) :
    planLevel plan next level files =
      (files.map fun sst => (level, sst)).filter fun t => decide (Wanted plan next t) := by
  rw [planLevel, List.filter_map]
  split
  · rename_i hlevel
    congr 1
    refine List.filter_congr fun sst _ => ?_
    simp [Wanted, hlevel]
  · rename_i hlevel
    split
    · rename_i hnext
      subst hnext
      congr 1
      refine List.filter_congr fun sst _ => ?_
      simp [Wanted, hlevel]
    · rename_i hnext
      symm
      rw [List.map_eq_nil_iff, List.filter_eq_nil_iff]
      intro sst _
      simp [Wanted, hlevel, hnext]

theorem planInputs_eq (plan : CompactionPlan) (next first : Nat) (levels : List (List SSTable)) :
    planInputs plan next first levels =
      (tablesFrom first levels).filter fun t => decide (Wanted plan next t) := by
  induction levels generalizing first with
  | nil => rfl
  | cons files levels ih =>
    rw [planInputs, tablesFrom, List.filter_append, planLevel_eq, ih]

/-- The job of a plan. -/
theorem DbInner.planJob_eq_ok {db : DbInner} {plan : CompactionPlan} {job : CompactionJob}
    (h : db.planJob plan = .ok job) :
    job.inputs = db.tables.filter (fun t => decide (Wanted plan (plan.level + 1) t)) ∧
      job.outputLevel = plan.level + 1 ∧ job.dropTombstones = plan.dropTombstones ∧
      job.targetFileSize = db.options.targetFileSize := by
  rw [DbInner.planJob] at h
  cases hnext : nextLevel plan.level with
  | error e =>
    rw [hnext] at h
    cases h
  | ok next =>
    rw [hnext] at h
    cases h
    obtain ⟨rfl, -⟩ := nextLevel_eq_ok hnext
    exact ⟨planInputs_eq _ _ _ _, rfl, rfl, rfl⟩

theorem DbInner.planJob_eq_error {db : DbInner} {plan : CompactionPlan} {e : Exit}
    (h : db.planJob plan = .error e) : e = .panic := by
  rw [DbInner.planJob] at h
  cases hnext : nextLevel plan.level with
  | error e' =>
    obtain rfl := nextLevel_eq_error hnext
    rw [hnext] at h
    exact (Except.error.inj h).symm
  | ok next =>
    rw [hnext] at h
    cases h

end PebbleDB
