import PebbleDB.Coherence
import PebbleDB.Exits
import PebbleDB.Lib.Descent

/-!
# Compaction terminates within the budgets

A job takes a file from its level and adds files to the next one only, and a level from number 65
on is never over budget: its capacity is the largest size there is. So the numbers of files in the
first 65 levels descend with every turn of `compact_pending` (`below_levelCounts`), whatever the
sizes do, and the loop comes to an end, where no level is over budget.
-/

namespace PebbleDB

open EarlyExit

/-! ## Capacities -/

namespace LevelConfig

/-- The saturating product of the capacities, in closed form. -/
theorem min_grow_iterate (config : LevelConfig) (hpos : 0 < config.levelSizeMultiplier)
    (capacity n : Nat) :
    min (config.grow^[n] capacity) (2 ^ 64 - 1) =
      min (capacity * config.levelSizeMultiplier ^ n) (2 ^ 64 - 1) := by
  induction n with
  | zero => simp
  | succ n ih =>
    rw [Function.iterate_succ_apply', grow, pow_succ config.levelSizeMultiplier n,
      ← Nat.mul_assoc capacity]
    generalize config.grow^[n] capacity = x at ih
    generalize capacity * config.levelSizeMultiplier ^ n = y at ih
    generalize config.levelSizeMultiplier = m at hpos
    rw [min_assoc, min_self]
    rcases lt_or_ge x (2 ^ 64 - 1) with hx | hx
    · have hxy : x = y := by omega
      rw [hxy]
    · have hy : 2 ^ 64 - 1 ≤ y := by omega
      rw [min_eq_right (hx.trans (Nat.le_mul_of_pos_right x hpos)),
        min_eq_right (hy.trans (Nat.le_mul_of_pos_right y hpos))]

theorem min_levelCapacity (l0 multiplier size n : Nat) :
    min ((new l0 multiplier size).levelCapacity n) (2 ^ 64 - 1) =
      min (max size 1 * max multiplier 2 ^ (n - 1)) (2 ^ 64 - 1) :=
  min_grow_iterate _ (by simp [new]) _ _

/-- From level 65 on the capacity is the largest size. -/
theorem le_levelCapacity (l0 multiplier size : Nat) {n : Nat} (hn : 65 ≤ n) :
    2 ^ 64 - 1 ≤ (new l0 multiplier size).levelCapacity n := by
  have hclosed := min_levelCapacity l0 multiplier size n
  have hpow : 2 ^ 64 ≤ max size 1 * max multiplier 2 ^ (n - 1) := by
    calc 2 ^ 64 ≤ 2 ^ (n - 1) := Nat.pow_le_pow_right (by decide) (by omega)
      _ ≤ max multiplier 2 ^ (n - 1) := Nat.pow_le_pow_left (le_max_right _ _) _
      _ ≤ max size 1 * max multiplier 2 ^ (n - 1) :=
        Nat.le_mul_of_pos_left _ (lt_max_of_lt_right Nat.one_pos)
  rw [min_eq_right (by omega : 2 ^ 64 - 1 ≤ max size 1 * max multiplier 2 ^ (n - 1))] at hclosed
  exact min_eq_right_iff.mp hclosed

end LevelConfig

/-! ## Levels -/

namespace DbInner

/-- The files of a level; a level that is missing has none. -/
def level (db : DbInner) (n : Nat) : List SSTable := db.levels[n]?.getD []

/-- The bytes of the files of a level. -/
def levelSize (db : DbInner) (n : Nat) : Nat := ((db.level n).map SSTable.fileSize).sum

/-- Every table answers like a map that is not empty. -/
def Filled (db : DbInner) : Prop := ∀ t ∈ db.tables, t.2.Sound ∧ t.2.entries ≠ ∅

theorem mem_tables_iff_mem_level {db : DbInner} {t : Placed} :
    t ∈ db.tables ↔ t.2 ∈ db.level t.1 := by
  rw [mem_tables, level]
  cases db.levels[t.1]? with
  | none => simp
  | some files => simp

end DbInner

theorem keyRange_ne_none {sst : SSTable} (h : sst.Sound) (hne : sst.entries ≠ ∅) :
    sst.keyRange ≠ none := by
  rw [h.keyRange_eq]
  exact fun hnone => hne (SortedMap.keyRange_eq_none_iff.mp hnone)

theorem le_level_of_mem_fileMetasFrom {first : Nat} {levels : List (List SSTable)}
    {file : FileMeta} (h : file ∈ DbInner.fileMetasFrom first levels) : first ≤ file.level := by
  rw [fileMetasFrom_eq, List.mem_filterMap] at h
  obtain ⟨t, ht, hfile⟩ := h
  obtain ⟨i, _, -, hlevel, -⟩ := mem_tablesFrom.mp ht
  have := (metaOf_eq_some hfile).2.1
  omega

theorem map_size_levelMetas {first : Nat} {files : List SSTable}
    (h : ∀ sst ∈ files, sst.keyRange ≠ none) :
    (DbInner.levelMetas first files).map FileMeta.size = files.map SSTable.fileSize := by
  induction files with
  | nil => rfl
  | cons sst files ih =>
    obtain ⟨range, hrange⟩ := Option.ne_none_iff_exists'.mp (h sst List.mem_cons_self)
    have ih := ih fun s hs => h s (List.mem_cons_of_mem _ hs)
    rw [DbInner.levelMetas] at ih ⊢
    rw [List.filterMap_cons, hrange]
    simp only [Option.map_some, List.map_cons, ih]

/-- The metas of a level have the sizes of its files. -/
theorem levelSizes_fileMetasFrom {levels : List (List SSTable)} {first : Nat} (n : Nat)
    (h : ∀ t ∈ tablesFrom first levels, t.2.keyRange ≠ none) :
    levelSizes (DbInner.fileMetasFrom first levels) (first + n) =
      (levels[n]?.getD []).map SSTable.fileSize := by
  induction levels generalizing first n with
  | nil => rfl
  | cons files levels ih =>
    have hhead : ∀ file ∈ DbInner.levelMetas first files, file.level = first := by
      intro file hfile
      obtain ⟨sst, -, hsst⟩ := List.mem_filterMap.mp hfile
      obtain ⟨_, -, rfl⟩ := Option.map_eq_some_iff.mp hsst
      rfl
    rw [DbInner.fileMetasFrom, levelSizes, List.filter_append]
    cases n with
    | zero =>
      rw [List.filter_eq_self.mpr fun file hfile => by simpa using hhead file hfile,
        List.filter_eq_nil_iff.mpr fun file hfile => ?_, List.append_nil]
      · refine map_size_levelMetas fun sst hsst => ?_
        exact h (first, sst) (List.mem_append_left _ (List.mem_map_of_mem hsst))
      · have := le_level_of_mem_fileMetasFrom hfile
        simp only [decide_eq_true_eq]
        omega
    | succ n =>
      rw [List.filter_eq_nil_iff.mpr fun file hfile => ?_, List.nil_append]
      · have hrest := @ih (first + 1) n fun t ht => h t (List.mem_append_right _ ht)
        rw [levelSizes, Nat.add_assoc, Nat.add_comm 1 n] at hrest
        exact hrest
      · have := hhead file hfile
        simp only [decide_eq_true_eq]
        omega

theorem DbInner.Filled.levelSizes_eq {db : DbInner} (h : db.Filled) (n : Nat) :
    levelSizes db.fileMetas n = (db.level n).map SSTable.fileSize := by
  have hsizes := @levelSizes_fileMetasFrom db.levels 0 n fun t ht =>
    keyRange_ne_none (h t ht).1 (h t ht).2
  rw [Nat.zero_add] at hsizes
  exact hsizes

/-! ## One job -/

theorem level_congr {db db' : DbInner} (h : db'.levels = db.levels) (n : Nat) :
    db'.level n = db.level n := by
  rw [DbInner.level, DbInner.level, h]

/-- A level that is not the output level only loses the inputs. -/
theorem level_applyJob {db : DbInner} {job : CompactionJob} {outs : List SSTable} {n : Nat}
    (hn : n ≠ job.outputLevel) :
    (db.applyJob job outs).level n = (db.level n).filter fun sst =>
      ¬ job.inputs.any fun input => input.2.id = sst.id := by
  rw [DbInner.level, applyJob_levels, List.getElem?_modify, DbInner.level]
  simp only [if_neg (Ne.symm hn), Option.map_eq_map, Option.map_id']
  rw [retained, DbInner.ensureLevel, List.getElem?_append]
  split
  · rw [List.getElem?_map]
    cases db.levels[n]? <;> rfl
  · rename_i hlen
    rw [List.length_map] at hlen
    rw [List.getElem?_eq_none (not_lt.mp hlen), List.getElem?_replicate]
    split <;> rfl

/-- The tables are as they were, or the outputs of a finished job on sound inputs. -/
theorem DbInner.Filled.applied {w w' : World} {job : CompactionJob} {outs : List SSTable}
    (h : w.inner.Filled) (hdata : Applied job outs w.inner w'.inner)
    (hcomplete : Complete job w w' outs) (hfits : w'.disk.Fits) : w'.inner.Filled := by
  have hholds := hcomplete.holds hfits
  have hne := ne_empty_of_holds hholds job.chunks_ne_empty
  intro t ht
  rw [DbInner.mem_tables_congr hdata.levels] at ht
  rcases mem_tables_applyJob.mp ht with ⟨ht, -⟩ | ⟨-, ho⟩
  · exact h t ht
  · exact ⟨sound_of_holds hholds t.2 ho, hne t.2 ho⟩

/-- The numbers of files in the levels that can be over budget. -/
def levelCounts (db : DbInner) (n : Fin 65) : Nat := (db.level n).length

/-- A planned job takes a file from its level and adds none before the next. -/
theorem below_levelCounts {db db' : DbInner} {options : DbOptions} {plan : CompactionPlan}
    {job : CompactionJob} {outs : List SSTable}
    (hpick : pickCompaction db.fileMetas options.levelConfig = .ok (some plan))
    (hplan : db.planJob plan = .ok job)
    (hlevels : db'.levels = (db.applyJob job outs).levels) :
    Descent.Below (levelCounts db') (levelCounts db) := by
  obtain ⟨lo, hi, hpicks⟩ := pickCompaction_eq_some hpick
  obtain ⟨hinputs, hout, -, -⟩ := db.planJob_eq_ok hplan
  have hlt : plan.level < 65 := by
    have hchoice := pickCompaction_choice db.fileMetas options.levelConfig
    rw [hpick] at hchoice
    cases hchoice with
    | full _ hcapacity =>
      rcases hcapacity with hzero | ⟨-, hcapacity⟩
      · omega
      · by_contra hge
        have hle := LevelConfig.le_levelCapacity options.l0CompactionThreshold
          options.levelSizeMultiplier options.targetLevelSize (not_lt.mp hge)
        exact absurd hcapacity (not_lt.mpr hle)
  have hkept : ∀ n, n ≤ plan.level → db'.level n = (db.level n).filter fun sst =>
      ¬ job.inputs.any fun input => input.2.id = sst.id := fun n hn => by
    rw [level_congr hlevels, level_applyJob (by omega)]
  refine ⟨⟨plan.level, hlt⟩, fun n hn => ?_, ?_⟩
  · have hn : n.val < plan.level := hn
    rw [levelCounts, levelCounts, hkept n (by omega)]
    exact List.length_filter_le _ _
  · obtain ⟨id, hid⟩ := List.exists_mem_of_ne_nil _ hpicks.inputs_ne_nil
    obtain ⟨file, hfile, rfl, hlevel, -⟩ := hpicks.inputs id hid
    obtain ⟨t, ht, htfile⟩ := DbInner.mem_fileMetas.mp hfile
    obtain ⟨htid, htlevel, -⟩ := metaOf_eq_some htfile
    have hinput : t ∈ job.inputs := by
      rw [hinputs, List.mem_filter]
      exact ⟨ht, decide_eq_true (Or.inl ⟨by omega, htid ▸ hid⟩)⟩
    have hmem : t.2 ∈ db.level plan.level := by
      rw [← hlevel, htlevel]
      exact DbInner.mem_tables_iff_mem_level.mp ht
    show (db'.level plan.level).length < (db.level plan.level).length
    rw [hkept plan.level le_rfl, List.length_filter_lt_length_iff_exists]
    refine ⟨t.2, hmem, ?_⟩
    simp only [decide_eq_true_eq, not_not, List.any_eq_true]
    exact ⟨t, hinput, rfl⟩

/-! ## The loop -/

section Loop

variable [BloomSizing]

/-- What a planned job that is done leaves, for the loop to go on with. -/
theorem DbInner.Filled.next {w w' : World} {plan : CompactionPlan} {job : CompactionJob}
    (h : w.inner.Filled)
    (hpick : pickCompaction w.inner.fileMetas w.inner.options.levelConfig = .ok (some plan))
    (hplan : w.inner.planJob plan = .ok job) (hrun : executeJob job w = .ok () w') :
    ∃ outs, JobDone job outs w w' := by
  obtain ⟨lo, hi, hpicks⟩ := pickCompaction_eq_some hpick
  obtain ⟨hinputs, hout, -, -⟩ := w.inner.planJob_eq_ok hplan
  refine (wp_executeJob ?_ ?_ w).ok_of_eq hrun
  · rw [hout]
    exact hpicks.level_lt
  · intro input hinput
    rw [hinputs] at hinput
    exact (h input (List.mem_of_mem_filter hinput)).1

theorem ends_planned {w : World} {plan : CompactionPlan} {job : CompactionJob}
    (h : w.inner.Filled)
    (hpick : pickCompaction w.inner.fileMetas w.inner.options.levelConfig = .ok (some plan))
    (hplan : w.inner.planJob plan = .ok job) : Exits EndsIfFits (executeJob job) := by
  obtain ⟨lo, hi, hpicks⟩ := pickCompaction_eq_some hpick
  obtain ⟨hinputs, hout, -, -⟩ := w.inner.planJob_eq_ok hplan
  refine ends_executeJob (by rw [hout]; exact hpicks.level_lt) fun input hinput => ?_
  rw [hinputs] at hinput
  exact (h input (List.mem_of_mem_filter hinput)).1

/-- Enough turns bring the loop to an end. -/
theorem exists_fuel (w : World) (h : w.inner.Filled) :
    ∃ fuel, ∀ w', compactPending fuel w = .error .outOfFuel w' → ¬ w'.disk.Fits := by
  induction w using (InvImage.wf (fun w : World => levelCounts w.inner)
    Descent.wellFounded).induction with
  | _ w ih =>
    by_cases hnext : ∃ plan job w₁,
        pickCompaction w.inner.fileMetas w.inner.options.levelConfig = .ok (some plan) ∧
          w.inner.planJob plan = .ok job ∧ executeJob job w = .ok () w₁ ∧ w₁.disk.Fits
    · obtain ⟨plan, job, w₁, hpick, hplan, hrun, hfits⟩ := hnext
      obtain ⟨outs, hdone⟩ := h.next hpick hplan hrun
      obtain ⟨fuel, hfuel⟩ := ih w₁ (below_levelCounts hpick hplan hdone.data.levels)
        (h.applied hdone.data hdone.complete hfits)
      refine ⟨fuel + 1, fun w' hw' => ?_⟩
      have hturn := turn_compactPending fuel w
      generalize compactPending (fuel + 1) w = r at hw' hturn
      cases hturn with
      | rest _ => cases hw'
      | overflow => cases hw'
      | failed plan' job' e w₂ hpick' hplan' hrun' =>
        cases hw'
        rw [hpick] at hpick'
        cases hpick'
        rw [hplan] at hplan'
        cases hplan'
        rw [hrun] at hrun'
        cases hrun'
      | next plan' job' w₂ hpick' hplan' hrun' =>
        rw [hpick] at hpick'
        cases hpick'
        rw [hplan] at hplan'
        cases hplan'
        rw [hrun] at hrun'
        cases hrun'
        exact hfuel w' hw'
    · -- one turn is enough: the loop ends in it, or in a file that does not fit
      refine ⟨1, fun w' hw' hfits => ?_⟩
      have hturn := turn_compactPending 0 w
      generalize compactPending (0 + 1) w = r at hw' hturn
      cases hturn with
      | rest _ => cases hw'
      | overflow => cases hw'
      | failed plan job e w₂ hpick hplan hrun =>
        cases hw'
        exact (ends_planned h hpick hplan w).exit_of_eq hrun hfits rfl
      | next plan job w₂ hpick hplan hrun =>
        cases hw'
        exact hnext ⟨plan, job, w', hpick, hplan, hrun, hfits⟩

/-- Where the loop returns, nothing is left to pick. -/
theorem compactPending_eq_ok {fuel : Nat} {w w' : World} (h : w.inner.Filled)
    (hrun : compactPending fuel w = .ok () w') (hfits : w'.disk.Fits) :
    w'.inner.Filled ∧ w'.inner.options = w.inner.options ∧
      pickCompaction w'.inner.fileMetas w'.inner.options.levelConfig = .ok none := by
  induction fuel generalizing w with
  | zero => cases hrun
  | succ fuel ih =>
    have hturn := turn_compactPending fuel w
    generalize compactPending (fuel + 1) w = r at hrun hturn
    cases hturn with
    | rest hpick =>
      cases hrun
      exact ⟨h, rfl, hpick⟩
    | overflow => cases hrun
    | failed _ _ _ _ _ _ _ => cases hrun
    | next plan job w₁ hpick hplan hdone =>
      obtain ⟨outs, hjob⟩ := h.next hpick hplan hdone
      have hframe : w₁.Frame w' := (along_compactPending fuel w₁).ok_of_eq hrun
      have hframe₁ : w.Frame w₁ := (along_executeJob job w).ok_of_eq hdone
      have hfilled := h.applied hjob.data hjob.complete (hframe.disk.fits hfits)
      obtain ⟨hfilled', hoptions, hpick'⟩ := ih hfilled hrun
      exact ⟨hfilled', hoptions.trans hframe₁.options, hpick'⟩

/-- The loop of `compact_pending` comes to an end, and when it returns level zero has fewer files
than the threshold and every other level is at most as large as its capacity. -/
theorem compactPending_within_budgets (w : World) (h : w.inner.Filled) :
    (∃ fuel, ∀ w', compactPending fuel w = .error .outOfFuel w' → ¬ w'.disk.Fits) ∧
    ∀ fuel w', compactPending fuel w = .ok () w' → w'.disk.Fits →
      (w'.inner.level 0).length < max w.inner.options.l0CompactionThreshold 1 ∧
      ∀ n, 1 ≤ n → w'.inner.levelSize n ≤
        min (max w.inner.options.targetLevelSize 1 *
          max w.inner.options.levelSizeMultiplier 2 ^ (n - 1)) (2 ^ 64 - 1) := by
  refine ⟨exists_fuel w h, fun fuel w' hrun hfits => ?_⟩
  obtain ⟨hfilled, hoptions, hpick⟩ := compactPending_eq_ok h hrun hfits
  have hchoice := pickCompaction_choice w'.inner.fileMetas w'.inner.options.levelConfig
  rw [hpick, hoptions] at hchoice
  cases hchoice with
  | within hzero hall =>
    constructor
    · rw [hfilled.levelSizes_eq, List.length_map] at hzero
      rw [DbOptions.levelConfig, LevelConfig.new] at hzero
      simpa using hzero
    · intro n hn
      obtain ⟨hcapacity, hlt⟩ := hall n hn
      rw [hfilled.levelSizes_eq] at hcapacity hlt
      rw [← LevelConfig.min_levelCapacity w.inner.options.l0CompactionThreshold]
      exact le_min hcapacity (Nat.le_sub_one_of_lt hlt)

end Loop

/-- With every threshold at zero one file is left, in the next level. -/
theorem compactPending_within_budgets_twoFiles : ∃ w',
    @compactPending .ofSmall 2 twoFiles = .ok () w' ∧ w'.inner.sstCount = 1 ∧
      (w'.inner.level 0).length < 1 ∧ w'.inner.levelSize 1 ≤ 8 * 1024 * 1024 := by
  have hfilled : twoFiles.inner.Filled := by
    intro t ht
    have hne : ∀ sst ∈ twoTables, sst.entries ≠ ∅ := by decide +kernel
    have hmem := (mem_tables_twoFiles ht).2
    exact ⟨sound_of_mem_twoTables hmem, hne t.2 hmem⟩
  have hrun : check (@compactPending .ofSmall 2) twoFiles (fun _ w' =>
      decide (w'.disk.Fits ∧ w'.inner.sstCount = 1)) = true := by decide +kernel
  obtain ⟨_, w', hok, htest⟩ := exists_of_check hrun
  obtain ⟨hfits, hcount⟩ := of_decide_eq_true htest
  obtain ⟨hzero, hsize⟩ := (@compactPending_within_budgets .ofSmall twoFiles hfilled).2 2 w' hok hfits
  exact ⟨w', hok, hcount, hzero, (hsize 1 le_rfl).trans (by decide +kernel)⟩

/-- The budget of level one is not restored. -/
theorem not_compactPending_within_budgets_wrapped : ∃ file sst,
    @SSTable.writeSstable .ofSmall (SSTable.Wrapping.short.records wrappingValue) = .ok file ∧
    SSTable.load 0 "t" file = .ok sst ∧ sst.entries ≠ ∅ ∧
    ∃ w : World, w.inner = ⟨∅, [[], [sst]], 1, .default, .new none⟩ ∧
      @compactPending .ofSmall 1 w = .ok () w ∧
      min (max w.inner.options.targetLevelSize 1) (2 ^ 64 - 1) < w.inner.levelSize 1 := by
  obtain ⟨file, sst, hwrite, hload, hmisread, -⟩ :=
    @SSTable.load_wrapped .short _ .ofSmall wraps_wrappingValue 0 "t"
  refine ⟨file, sst, hwrite, hload, ?_, ⟨⟨∅, [[], [sst]], 1, .default, .new none⟩, twoFiles.disk⟩, rfl,
    ?_, ?_⟩
  · rw [hmisread.entries_eq]
    exact fun hempty => by cases congrArg SortedMap.entries hempty
  · have hmetas : DbInner.fileMetas ⟨∅, [[], [sst]], 1, .default, .new none⟩ = [] := by
      simp only [DbInner.fileMetas, DbInner.fileMetasFrom, hmisread.levelMetas_eq]
      rfl
    refine @compactPending_of_none .ofSmall 0 _ ?_
    rw [hmetas]
    rfl
  · have hsize : DbInner.levelSize ⟨∅, [[], [sst]], 1, .default, .new none⟩ 1 =
        sst.data.length := Nat.add_zero _
    rw [hsize]
    exact lt_trans (show min (max DbOptions.default.targetLevelSize 1) (2 ^ 64 - 1) < 2 ^ 32 by
      decide) hmisread.size

end PebbleDB
