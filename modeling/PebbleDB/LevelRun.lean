import Mathlib.Order.Bounds.Basic
import PebbleDB.CrashRun
import PebbleDB.JobFiles
import PebbleDB.QuietCalls

/-!
# The levels over a run

A job merges all files of its output level that meet the keys of its inputs. So a file that stays
there has all its keys on one side of the outputs (`Issued.side`), and the files of a level below the
first stay apart over every run in which no call fails, reopenings included (`levels_of_run`).
-/

namespace PebbleDB

open EarlyExit

/-! ## Tables apart -/

/-- Every key of the one is smaller than every key of the other. -/
def SSTable.Before (a b : SSTable) : Prop :=
  ∀ k ∈ a.entries.keys, ∀ k' ∈ b.entries.keys, k < k'

/-- In each level below the first the tables lie side by side. -/
def Apart (tables : Set Placed) : Prop :=
  ∀ s ∈ tables, ∀ t ∈ tables, s ≠ t → s.1 = t.1 → 0 < s.1 → s.2.Before t.2 ∨ t.2.Before s.2

theorem Apart.rangesApart {db : DbInner} (h : Apart {t | t ∈ db.tables}) (hsound : db.Sound) :
    db.RangesApart := by
  intro s hs t ht hne hlevel hpos lo hi lo' hi' hrange hrange'
  rw [(hsound s hs).keyRange_eq, SortedMap.keyRange_eq_some_iff] at hrange
  rw [(hsound t ht).keyRange_eq, SortedMap.keyRange_eq_some_iff] at hrange'
  exact (h s hs t ht hne hlevel hpos).imp (fun hst => hst hi hrange.2.1 lo' hrange'.1)
    fun hts => hts hi' hrange'.2.1 lo hrange.1

section Planned

variable {db : DbInner} {plan : CompactionPlan} {job : CompactionJob} {lo hi : String}

/-- The keys of an input are in the range of the plan, or the input is a file of the output level that
meets this range. -/
theorem Picks.input_range (hpicks : Picks db.fileMetas plan lo hi)
    (hjob : db.planJob plan = .ok job) (hdb : db.Numbered) (hsound : db.Sound) {i : Placed}
    (hi' : i ∈ job.inputs) : (∀ k ∈ i.2.entries.keys, lo ≤ k ∧ k ≤ hi) ∨
      (i.1 = job.outputLevel ∧ ∃ a ∈ i.2.entries.keys, ∃ b ∈ i.2.entries.keys, a ≤ hi ∧ lo ≤ b) := by
  obtain ⟨hinputs, houtput, -, -⟩ := db.planJob_eq_ok hjob
  rw [hinputs, List.mem_filter, decide_eq_true_eq] at hi'
  obtain ⟨hiT, hwanted⟩ := hi'
  -- the meta with the id of the input is its own
  have hmeta : ∀ file ∈ db.fileMetas, file.id = i.2.id → metaOf i = some file := by
    intro file hfile hid
    obtain ⟨s, hs, hsfile⟩ := DbInner.mem_fileMetas.mp hfile
    obtain rfl : s = i := hdb.distinct s hs i hiT ((metaOf_eq_some hsfile).1.symm.trans hid)
    exact hsfile
  rcases hwanted with ⟨-, hid⟩ | ⟨-, hlevel, hid⟩
  · obtain ⟨file, hfile, heq, -, hlo, hhi⟩ := hpicks.inputs _ hid
    refine Or.inl fun k hk => ?_
    have hrange := mem_range_of_metaOf (hsound i hiT) (hmeta file hfile heq) hk
    exact ⟨hlo.trans hrange.1, hrange.2.trans hhi⟩
  · obtain ⟨file, hfile, heq, -, hlo, hhi⟩ := (hpicks.overlaps _).mp hid
    obtain ⟨-, -, hrange, -⟩ := metaOf_eq_some (hmeta file hfile heq)
    rw [(hsound i hiT).keyRange_eq, SortedMap.keyRange_eq_some_iff] at hrange
    exact Or.inr ⟨hlevel.trans houtput.symm, _, hrange.1, _, hrange.2.1, hlo, hhi⟩

/-- A file that stays in the output level misses the range of the plan. -/
theorem Picks.left_range (hpicks : Picks db.fileMetas plan lo hi)
    (hjob : db.planJob plan = .ok job) (hsound : db.Sound) {t : Placed} (ht : t ∈ db.tables)
    (hnot : t ∉ job.inputs) (hlevel : t.1 = job.outputLevel) :
    (∀ k ∈ t.2.entries.keys, hi < k) ∨ ∀ k ∈ t.2.entries.keys, k < lo := by
  obtain ⟨hinputs, houtput, -, -⟩ := db.planJob_eq_ok hjob
  by_cases hkeys : ∃ key, key ∈ t.2.entries.keys
  swap
  · exact Or.inl fun k hk => absurd ⟨k, hk⟩ hkeys
  obtain ⟨key, hkey⟩ := hkeys
  obtain ⟨file, hfile, -, -⟩ := exists_metaOf (hsound t ht) hkey
  obtain ⟨hid, hflevel, -, -⟩ := metaOf_eq_some hfile
  have hbounds := fun k hk => @mem_range_of_metaOf t (hsound t ht) file hfile k hk
  have hmiss : hi < file.smallest ∨ file.largest < lo := by
    by_contra hmeets
    rw [not_or, not_lt, not_lt] at hmeets
    refine hnot ?_
    rw [hinputs, List.mem_filter, decide_eq_true_eq]
    refine ⟨ht, Or.inr ⟨by omega, by omega, (hpicks.overlaps _).mpr ⟨file, ?_, hid, by omega,
      hmeets.1, hmeets.2⟩⟩⟩
    exact DbInner.mem_fileMetas.mpr ⟨t, ht, hfile⟩
  exact hmiss.imp (fun hlt k hk => hlt.trans_le (hbounds k hk).1)
    fun hlt k hk => (hbounds k hk).2.trans_lt hlt

end Planned

/-- The files that a job leaves in its output level have all their keys on one side of the inputs. -/
theorem Issued.side {db : DbInner} {job : CompactionJob} (hissued : Issued db job)
    (hdb : db.Numbered) (hsound : db.Sound) (hapart : Apart {t | t ∈ db.tables}) {t : Placed}
    (ht : t ∈ db.tables) (hnot : t ∉ job.inputs) (hlevel : t.1 = job.outputLevel) :
    (∀ i ∈ job.inputs, i.2.Before t.2) ∨ ∀ i ∈ job.inputs, t.2.Before i.2 := by
  have hfit := hissued.fitting hdb hsound
  cases hissued with
  | full => exact absurd ht hnot
  | planned config plan job hplan hjob =>
    obtain ⟨lo, hi, hpicks⟩ := pickCompaction_eq_some hplan
    have hbeside : ∀ i ∈ job.inputs, i.1 = job.outputLevel → i.2.Before t.2 ∨ t.2.Before i.2 :=
      fun i hi' hilevel => hapart i (hfit.mem_tables hi') t ht (fun heq => hnot (heq ▸ hi'))
        (hilevel.trans hlevel.symm) (hilevel ▸ hfit.target_pos)
    rcases hpicks.left_range hjob hsound ht hnot hlevel with hmiss | hmiss
    · refine Or.inl fun i hi' k hk k' hk' => ?_
      rcases hpicks.input_range hjob hdb hsound hi' with hrange | ⟨hilevel, a, ha, -, -, hle, -⟩
      · exact (hrange k hk).2.trans_lt (hmiss k' hk')
      · rcases hbeside i hi' hilevel with hside | hside
        · exact hside k hk k' hk'
        · exact absurd (hside k' hk' a ha) (not_lt.mpr (hle.trans (hmiss k' hk').le))
    · refine Or.inr fun i hi' k' hk' k hk => ?_
      rcases hpicks.input_range hjob hdb hsound hi' with hrange | ⟨hilevel, -, -, b, hb, -, hle⟩
      · exact (hmiss k' hk').trans_le (hrange k hk).1
      · rcases hbeside i hi' hilevel with hside | hside
        · exact absurd (hside b hb k' hk') (not_lt.mpr ((hmiss k' hk').le.trans hle))
        · exact hside k' hk' k hk

/-- The outputs in the place of the inputs lie apart. -/
theorem Apart.merged {db : DbInner} {job : CompactionJob} {outs : List SSTable}
    (hapart : Apart {t | t ∈ db.tables}) (hdb : db.Numbered) (hsound : db.Sound)
    (hissued : Issued db job) (houts : OutputSpec job outs) :
    Apart ({t | t ∈ db.tables} \ {t | t ∈ job.inputs} ∪ placed job.outputLevel outs) := by
  have hkeys : ∀ o ∈ outs, ∀ k ∈ o.entries.keys, ∃ i ∈ job.inputs, k ∈ i.2.entries.keys := by
    intro o ho k hk
    obtain ⟨e, he, rfl⟩ := List.mem_map.mp hk
    obtain ⟨⟨i, hi, hget, -⟩, -⟩ := (houts.mem_iff e.1 e.2).mp
      (List.mem_flatten.mpr ⟨_, List.mem_map_of_mem ho, he⟩)
    exact ⟨i, hi, SortedMap.mem_keys_of_get? hget⟩
  have hside : ∀ t ∈ {t | t ∈ db.tables} \ {t | t ∈ job.inputs}, t.1 = job.outputLevel →
      ∀ o ∈ outs, t.2.Before o ∨ o.Before t.2 := by
    rintro t ⟨ht, hnot⟩ hlevel o ho
    rcases hissued.side hdb hsound hapart ht hnot hlevel with hside | hside
    · refine Or.inr fun k hk k' hk' => ?_
      obtain ⟨i, hi, hki⟩ := hkeys o ho k hk
      exact hside i hi k hki k' hk'
    · refine Or.inl fun k hk k' hk' => ?_
      obtain ⟨i, hi, hki⟩ := hkeys o ho k' hk'
      exact hside i hi k hk k' hki
  rintro s (hs | ⟨hslevel, hs⟩) t (ht | ⟨htlevel, ht⟩) hne heq hpos
  · exact hapart s hs.1 t ht.1 hne heq hpos
  · exact hside s hs (heq.trans htlevel) t.2 ht
  · exact (hside t ht (heq.symm.trans hslevel) s.2 hs).symm
  · have hforward : outs.Pairwise fun a b => a ≠ b → a.Before b ∨ b.Before a :=
      houts.apart.imp fun hab _ => Or.inl hab
    have hback : outs.Pairwise fun a b => b ≠ a → b.Before a ∨ a.Before b :=
      houts.apart.imp fun hab _ => Or.inr hab
    exact hforward.forall_of_forall_of_flip (fun _ _ hne => absurd rfl hne) hback hs ht
      fun hsame => hne (Prod.ext heq hsame)

/-! ## What the calls keep -/

/-- The directory has the tables of the handle and no others, and they lie apart. -/
structure Tidy (m : Contents) (w : World) : Prop where
  mirrored : Mirrored w ∅
  answers : Answers w.inner m
  apart : Apart {t | t ∈ w.inner.tables}

/-- The parts of a call that return keep it. -/
theorem tidy_rules [BloomSizing] : CallRules (fun _ => True) Tidy fun _ _ => True where
  ready h := h.mirrored.ready
  answers h := h.answers
  exit _ := trivial
  job := by
    intro m w job h hissued
    have hready := h.mirrored.ready
    have hfit := hissued.fitting hready.numbered hready.sound
    refine ((wp_executeJob hfit.target_lt (fun i hi => hready.sound i (hfit.mem_tables hi)) w).and
      (along_executeJob job w)).mono ?_ fun _ _ _ _ => trivial
    rintro _ w' ⟨⟨outs, hdone⟩, hframe⟩ hfits
    have houts : OutputSpec job outs :=
      .of_holds (hfit.pairwise hready.numbered) (hdone.complete.holds hfits)
    have hpreserved := hready.applied hfit hdone.data hdone.complete hframe hfits
    refine ⟨(h.mirrored.jobDone hfit hdone hframe hfits).1, h.answers.of_preserved hpreserved, ?_⟩
    rw [DbInner.mem_tables_congr hdone.data.levels, setOf_mem_tables_applyJob hready.numbered hfit]
    exact h.apart.merged hready.numbered hready.sound hissued houts
  flush := by
    intro m w h _
    have hready := h.mirrored.ready
    refine ((wp_flushTable w).and (along_flushTable w)).mono ?_ fun _ _ _ _ => trivial
    rintro _ w' ⟨⟨sst, hdone⟩, hframe⟩ hfits
    refine ⟨(h.mirrored.flushDone hdone hframe hfits).1,
      h.answers.of_preserved (hready.flushDone hdone hfits), fun s hs t ht hne hlevel hpos => ?_⟩
    -- the new table is in level zero
    have hmem := fun t => (hdone.flushed hfits).mem_tables hready.zero (t := t)
    rcases (hmem s).mp hs with hs | rfl
    · rcases (hmem t).mp ht with ht | rfl
      · exact h.apart s hs t ht hne hlevel hpos
      · exact absurd (hlevel ▸ hpos) (lt_irrefl 0)
    · exact absurd hpos (lt_irrefl 0)
  log := by
    intro m w record key entry h _ _
    refine ((wp_logRecord record key entry w).and (along_logRecord _ _ _ w)).mono ?_
      fun _ _ _ _ => Or.inl trivial
    rintro _ w' ⟨hlogged, hframe⟩ -
    have hready := h.mirrored.ready
    refine ⟨h.mirrored.logged hlogged hframe, (Holding.logged ⟨hready, h.answers⟩ hlogged).2, ?_⟩
    rw [hlogged.sameTables]
    exact h.apart

/-! ## Runs -/

/-- What is left of a handle that is dropped: its tables, apart, and no marker. -/
structure Shelved (dir : Dir) (tables : Set Placed) : Prop where
  files : TableFiles (settled dir) tables
  marker : settled dir mergePendingFile = none
  sound : ∀ t ∈ tables, t.2.Sound
  apart : Apart tables

theorem Tidy.shelved {m : Contents} {w : World} (h : Tidy m w) :
    Shelved w.disk.dir {t | t ∈ w.inner.tables} := by
  have htables := h.mirrored.tables
  rw [Set.union_empty] at htables
  exact ⟨htables, h.mirrored.marker, h.mirrored.ready.sound, h.apart⟩

/-- Opening finds these tables, whatever is in the log. -/
theorem Shelved.open_ok {disk disk' : Disk} {tables : Set Placed} {options : DbOptions} {db : DbInner}
    (h : Shelved disk.dir tables) (hfails : ∀ name, disk.unlinkFails name = false)
    (hopen : openWithOptions options disk = .ok db disk') : ∃ m, Tidy m ⟨db, disk'⟩ := by
  obtain ⟨pending, recovery, hopens, -, -, -, hdir⟩ :=
    (wp_openWithOptions options disk h.files.distinctIds).ok_of_eq hopen
  have hframe : disk.Frame disk' := (along_openWithOptions options disk).ok_of_eq hopen
  have hlog : recover ((settled disk.dir walFile).getD []) = .ok recovery := by
    rw [← contentOf_merged]
    exact hopens.log
  obtain ⟨levels, next, hopens', hloaded, hset⟩ :=
    h.files.opens (fun name _ _ => hfails name) h.marker hlog
  obtain ⟨rfl, -, rfl, rfl⟩ := hopens'.unique hopens
  have hmerged : settled (merged disk.dir none) = settled disk.dir := by
    have hdrop : merged disk.dir none = disk.dir.drop isTmp :=
      Dir.drop_eq_self fun _ hgoes => Bool.noConfusion hgoes
    rw [hdrop, TableFiles.settled_drop_isTmp]
  obtain ⟨htables, hmarker⟩ := TableFiles.cutLog (hmerged.symm ▸ h.files)
    (hmerged.symm ▸ h.marker) recovery
  rw [← hdir] at htables hmarker
  have hset : {t | t ∈ db.tables} = tables := hset
  have hsound : db.Sound := fun t ht => h.sound t (hset ▸ ht)
  have hapart : Apart {t | t ∈ db.tables} := hset ▸ h.apart
  have hready : Ready db := ⟨⟨⟨hloaded.ascending, fun s hs t ht =>
    h.files.distinct s (hset ▸ hs) t (hset ▸ ht), hloaded.below⟩, hsound,
    (hapart.rangesApart hsound).shadowed hsound⟩, hloaded.zero⟩
  obtain ⟨m, hanswers⟩ := hready.exists_answers
  refine ⟨m, ⟨hready, ?_, fun t ht => ?_, fun t ht => ?_, hmarker, fun name => ?_⟩, hanswers, hapart⟩
  · rw [Set.union_empty, hset]
    exact htables
  · exact absurd ht (Set.notMem_empty t)
  · exact absurd ht (Set.notMem_empty t)
  · rw [hframe.unlinkFails]
    exact hfails name

namespace System

/-- A step in which no call fails and the process does not stop: an opening or a call returns, or
the handle is dropped. -/
inductive Advances [BloomSizing] : System → System → Prop where
  | opens (disk : Disk) (listing : Listing) (options : DbOptions) (db : DbInner) (disk' : Disk)
      (h : openWithOptions options (disk.under listing none) = .ok db disk') :
      Advances (closed disk) (opened ⟨db, disk'⟩)
  | returns (w : World) (listing : Listing) (fuel : Nat) (call : Call) (existed : Option Bool)
      (w' : World) (h : call.run fuel (w.under listing none) = .ok existed w') :
      Advances (opened w) (opened w')
  | drops (w : World) : Advances (opened w) (closed w.disk)

/-- What holds between such steps. -/
def InOrder : System → Prop
  | opened w => ∃ m, Tidy m w
  | closed disk => (∃ tables, Shelved disk.dir tables) ∧ ∀ name, disk.unlinkFails name = false

variable [BloomSizing] {s s' : System}

/-- The file operations so far stay on record. -/
theorem Advances.fits (h : Advances s s') (hfits : s'.disk.Fits) : s.disk.Fits := by
  cases h with
  | opens disk listing options db disk' hrun =>
    exact ((along_openWithOptions options (disk.under listing none)).ok_of_eq hrun).fits hfits
  | returns w listing fuel call existed w' hrun =>
    exact ((along_call fuel call (w.under listing none)).ok_of_eq hrun).disk.fits hfits
  | drops w => exact hfits

theorem InOrder.step (h : s.InOrder) (hstep : Advances s s') (hfits : s'.disk.Fits) :
    s'.InOrder := by
  cases hstep with
  | opens disk listing options db disk' hrun =>
    obtain ⟨⟨tables, hshelved⟩, hfails⟩ := h
    exact @Shelved.open_ok (disk.under listing none) _ _ _ _ hshelved hfails hrun
  | returns w listing fuel call existed w' hrun =>
    obtain ⟨m, htidy⟩ := h
    have htidy : Tidy m (w.under listing none) := by
      obtain ⟨⟨hready, htables, hunknown, hbelow, hmarker, hfails⟩, hanswers, hapart⟩ := htidy
      exact ⟨⟨hready, htables, hunknown, hbelow, hmarker, hfails⟩, hanswers, hapart⟩
    exact ⟨_, ((tidy_rules.wp_call fuel call (fun _ _ => trivial) htidy).ok_of_eq hrun hfits).2⟩
  | drops w =>
    obtain ⟨m, htidy⟩ := h
    exact ⟨⟨_, htidy.shelved⟩, htidy.mirrored.fails⟩

theorem InOrder.run (h : s.InOrder) (hrun : Relation.ReflTransGen Advances s s')
    (hfits : s'.disk.Fits) : s'.InOrder := by
  induction hrun with
  | refl => exact h
  | tail _ hstep ih => exact (ih (hstep.fits hfits)).step hstep hfits

end System

/-- The ids of the tables are distinct and below the next one, the key ranges within each level below
the first are disjoint, and each is that of the keys in the table. -/
structure LevelsSound (db : DbInner) : Prop where
  distinct : db.tables.Pairwise fun s t => s.2.id ≠ t.2.id
  below : ∀ t ∈ db.tables, t.2.id < db.nextSstId
  apart : db.RangesApart
  exact : ∀ t ∈ db.tables, ∀ smallest largest, t.2.keyRange = some (smallest, largest) ↔
    IsLeast {key | key ∈ t.2.entries.keys} smallest ∧
      IsGreatest {key | key ∈ t.2.entries.keys} largest

theorem Tidy.levelsSound {m : Contents} {w : World} (h : Tidy m w) : LevelsSound w.inner := by
  have hready := h.mirrored.ready
  refine ⟨hready.numbered.pairwise, hready.numbered.below, h.apart.rangesApart hready.sound,
    fun t ht smallest largest => ?_⟩
  rw [(hready.sound t ht).keyRange_eq, SortedMap.keyRange_eq_some_iff]
  constructor
  · rintro ⟨hsmallest, hlargest, hall⟩
    exact ⟨⟨hsmallest, fun k hk => (hall k hk).1⟩, hlargest, fun k hk => (hall k hk).2⟩
  · rintro ⟨⟨hsmallest, hlower⟩, hlargest, hupper⟩
    exact ⟨hsmallest, hlargest, fun k hk => ⟨hlower hk, hupper hk⟩⟩

theorem inOrder_empty {disk : Disk} (hempty : disk.dir = ∅)
    (hfails : ∀ name, disk.unlinkFails name = false) : (System.closed disk).InOrder := by
  have hnone : ∀ name, settled disk.dir name = none := by
    intro name
    rw [hempty, settled]
    exact ite_self none
  refine ⟨⟨∅, ⟨?_, ?_, ?_, ?_, ?_, fun name hne => absurd (hnone name) hne⟩, hnone _, ?_, ?_⟩, hfails⟩
  all_goals exact fun t ht => absurd ht (Set.notMem_empty t)

/-- As long as no call fails, the levels of every handle are sound, if the files fit and can be
removed. -/
theorem levels_of_run [BloomSizing] {disk : Disk} (hempty : disk.dir = ∅)
    (hfails : ∀ name, disk.unlinkFails name = false) {w : World}
    (hrun : Relation.ReflTransGen System.Advances (.closed disk) (.opened w))
    (hfits : w.disk.Fits) : LevelsSound w.inner := by
  obtain ⟨m, htidy⟩ := (inOrder_empty hempty hfails).run hrun hfits
  exact htidy.levelsSound

/-- Two writes go down to level one, and the tables are found there side by side. -/
theorem levels_of_run_reopened : ∃ disk w, w.inner.levels.map List.length = [0, 2] ∧
    Relation.ReflTransGen (@System.Advances .ofSmall) (.closed disk) (.opened w) ∧
    LevelsSound w.inner := by
  let listing := emptyDisk.listing
  let options : DbOptions := { DbOptions.default with flushThreshold := 1, l0CompactionThreshold := 1 }
  have hrun : check (openWithOptions options) (emptyDisk.under listing none) (fun db disk₁ =>
      check (@Call.run .ofSmall 3 (.set "b" "1")) (World.under ⟨db, disk₁⟩ listing none) (fun _ w₂ =>
        check (@Call.run .ofSmall 3 (.set "a" "2")) (w₂.under listing none) (fun _ w₃ =>
          check (openWithOptions .default) (w₃.disk.under listing none) (fun db disk₄ =>
            decide (disk₄.Fits ∧ db.levels.map List.length = [0, 2]))))) = true := by
    decide +kernel
  obtain ⟨db, disk₁, hopen, htest⟩ := exists_of_check hrun
  obtain ⟨existed, w₂, hset, htest⟩ := exists_of_check htest
  obtain ⟨existed', w₃, hset', htest⟩ := exists_of_check htest
  obtain ⟨db', disk₄, hreopen, htest⟩ := exists_of_check htest
  obtain ⟨hfits, hlevels⟩ := of_decide_eq_true htest
  have hrun : Relation.ReflTransGen (@System.Advances .ofSmall) (.closed emptyDisk)
      (.opened ⟨db', disk₄⟩) := by
    let _ : BloomSizing := .ofSmall
    have hopened := Relation.ReflTransGen.single (System.Advances.opens _ _ _ _ _ hopen)
    have hfilled := (hopened.tail (.returns _ _ _ _ _ _ hset)).tail (.returns _ _ _ _ _ _ hset')
    exact (hfilled.tail (.drops w₃)).tail (.opens _ _ _ _ _ hreopen)
  exact ⟨emptyDisk, _, hlevels, hrun, @levels_of_run .ofSmall _ rfl (fun _ => rfl) _ hrun hfits⟩

/-- Two writes and a flush that leave the table in level zero. -/
theorem exists_run_wrapped [BloomSizing] {v : String} (hv : SSTable.Wrapping.short.Wraps v)
    {disk : Disk} (hopen : openWithOptions .default (emptyDisk.under emptyDisk.listing none) =
      .ok ⟨∅, [[]], 0, .default, .new none⟩ disk) :
    ∃ w sst, Relation.ReflTransGen System.Advances (.closed emptyDisk) (.opened w) ∧
      w.inner = ⟨∅, [[sst]], 1, .default, .new none⟩ ∧ sst.Misread .short := by
  obtain ⟨w₁, hw₁⟩ : ∃ w₁ : World, w₁ = ⟨⟨∅, [[]], 0, .default, .new none⟩, disk⟩ := ⟨_, rfl⟩
  have hquiet₁ : (w₁.under emptyDisk.listing none).Quiet := by rw [hw₁]; exact ⟨rfl, rfl⟩
  obtain ⟨w₂, hset₂, hquiet₂, hinner₂⟩ := hquiet₁.set_eq 1
    (by decide +kernel : (WalRecord.set "" SSTable.Wrapping.short.value).totalLenOverflows = false)
    (by rw [hw₁]; exact show 1 < 1024 by decide)
  have hsum : (WalRecord.set "a" v).totalLenOverflows = false := hv.totalLenOverflows_eq
  have hquiet₂ : (w₂.under emptyDisk.listing none).Quiet := ⟨hquiet₂.fault, rfl⟩
  obtain ⟨w₃, hset₃, hquiet₃, hinner₃⟩ := hquiet₂.set_eq 1 hsum
    (by rw [World.under, hinner₂, hw₁]; exact show 2 < 1024 by decide)
  have hinner₃ : w₃.inner = ⟨(SortedMap.insert ∅ "" (.value SSTable.Wrapping.short.value)).insert "a"
      (.value v), [[]], 0, .default, .new none⟩ := by
    rw [hinner₃, World.under, hinner₂, hw₁]
    rfl
  have hquiet₃ : (w₃.under emptyDisk.listing none).Quiet := ⟨hquiet₃.fault, rfl⟩
  obtain ⟨file, sst, hwrite, hload, hmisread, -⟩ :=
    SSTable.load_wrapped hv 0 (sstableFileName 0 0)
  have hpick : pickCompaction (DbInner.fileMetas ⟨∅, [[sst]], 1, .default, .new none⟩)
      DbOptions.default.levelConfig = .ok none := by
    rw [DbInner.fileMetas, DbInner.fileMetasFrom, hmisread.levelMetas_eq]
    rfl
  have hunder : (w₃.under emptyDisk.listing none).inner = w₃.inner := rfl
  have hnext : w₃.inner.nextSstId = 0 := by rw [hinner₃]
  have hmap : w₃.inner.memtable.map toSstEntry = SSTable.Wrapping.short.records v := by
    rw [hinner₃]
    rfl
  obtain ⟨w₄, hflush, hinner₄⟩ := hquiet₃.flush_eq 0
    (by rw [hunder, hinner₃]; exact fun hempty => by cases congrArg SortedMap.entries hempty)
    (by rw [hunder, hmap]; exact hwrite) (by rw [hunder, hnext]; decide)
    (by rw [hunder, hnext]; exact hload)
    (by rw [hunder, hinner₃]; rfl : _ = _) hpick
  refine ⟨w₄, sst, ?_, hinner₄, hmisread⟩
  refine .tail (.tail (.tail (.single (.opens _ _ _ _ _ hopen)) (.returns _ emptyDisk.listing 1
    (.set "" SSTable.Wrapping.short.value) none w₂ ?_)) (.returns _ emptyDisk.listing 1 (.set "a" v) none w₃ ?_))
    (.returns _ emptyDisk.listing 1 .flush none w₄ ?_)
  · rw [← hw₁]
    exact returns_none hset₂
  · exact returns_none hset₃
  · exact returns_none hflush

/-- In this run no call fails, but the table has no key range. -/
theorem not_levelsSound_wrapped : ∃ disk w, disk.dir = ∅ ∧
    (∀ name, disk.unlinkFails name = false) ∧
    Relation.ReflTransGen (@System.Advances .ofSmall) (.closed disk) (.opened w) ∧
    ¬ LevelsSound w.inner := by
  have hopened : check (openWithOptions .default) (emptyDisk.under emptyDisk.listing none)
      (fun _ _ => true) = true := by decide +kernel
  obtain ⟨db, disk, hopen, -⟩ := exists_of_check hopened
  obtain rfl := open_empty rfl hopen
  obtain ⟨w, sst, hrun, hinner, hmisread⟩ := @exists_run_wrapped .ofSmall _ wraps_wrappingValue _ hopen
  refine ⟨emptyDisk, w, rfl, fun _ => rfl, hrun, fun hsound => ?_⟩
  have hmem : (0, sst) ∈ w.inner.tables := by
    rw [hinner]
    exact List.mem_singleton_self _
  have hkeys : {key | key ∈ sst.entries.keys} = {""} := by
    rw [hmisread.entries_eq]
    ext key
    exact List.mem_singleton
  have hrange := (hsound.exact _ hmem "" "").mpr
    (by rw [hkeys]; exact ⟨isLeast_singleton, isGreatest_singleton⟩)
  rw [hmisread.keyRange_eq] at hrange
  cases hrange

end PebbleDB
