import Mathlib.Algebra.BigOperators.Group.List.Basic
import PebbleDB.Metrics

/-!
# The numbers add up

A job replaces its inputs among the files of the handle by its outputs, and a flush adds one file.
So over any calls that return, the size of all tables grows by what `flush` and the jobs have written
and shrinks by what the jobs have read, as `stats` reports these numbers (`meteredRun_exact`). A `get`
counts each table that it looks at once, and looks at no table behind the first that has the key
(`get_counts`).
-/

namespace PebbleDB

open EarlyExit

/-! ## The files of a handle -/

/-- What a sublist of a list without duplicate keys has, the filter for its keys finds. -/
theorem filter_of_sublist {α β : Type} [DecidableEq β] {f : α → β} {s l : List α}
    (h : s.Sublist l) (hl : l.Pairwise fun a b => f a ≠ f b) :
    l.filter (fun a => f a ∈ s.map f) = s := by
  induction h with
  | slnil => rfl
  | @cons s l a h ih =>
    obtain ⟨ha, hl⟩ := List.pairwise_cons.mp hl
    have hnot : f a ∉ s.map f := by
      intro hmem
      obtain ⟨b, hb, heq⟩ := List.mem_map.mp hmem
      exact ha b (h.subset hb) heq.symm
    rw [List.filter_cons_of_neg (by simpa using hnot)]
    exact ih hl
  | @cons_cons s l a h ih =>
    obtain ⟨ha, hl⟩ := List.pairwise_cons.mp hl
    have hrest : l.filter (fun b => f b ∈ (a :: s).map f) = l.filter (fun b => f b ∈ s.map f) := by
      refine List.filter_congr fun b hb => ?_
      simp [(ha b hb).symm]
    rw [List.filter_cons_of_pos (by simp), hrest, ih hl]

theorem map_snd_tablesFrom (first : Nat) (levels : List (List SSTable)) :
    (tablesFrom first levels).map Prod.snd = levels.flatten := by
  induction levels generalizing first with
  | nil => rfl
  | cons files levels ih => simp [tablesFrom, ih]

theorem perm_flatten_modify {α : Type} {lists : List (List α)} {i : Nat} (h : i < lists.length)
    {f : List α → List α} {added : List α} (hf : ∀ list, (f list).Perm (list ++ added)) :
    (lists.modify i f).flatten.Perm (lists.flatten ++ added) := by
  induction lists generalizing i with
  | nil => exact absurd h (Nat.not_lt_zero i)
  | cons list lists ih =>
    cases i with
    | zero =>
      rw [List.modify_zero_cons, List.flatten_cons, List.flatten_cons]
      refine ((hf list).append_right _).trans ?_
      rw [List.append_assoc, List.append_assoc]
      exact List.perm_append_comm.append_left list
    | succ i =>
      rw [List.modify_succ_cons, List.flatten_cons, List.flatten_cons, List.append_assoc]
      exact (ih (Nat.lt_of_succ_lt_succ h)).append_left list

/-- The files after a job, and its inputs, are the files before it, and its outputs. -/
theorem perm_applyJob {db : DbInner} {job : CompactionJob} (hdb : db.Numbered)
    (hsub : job.inputs.Sublist db.tables) (outs : List SSTable) :
    ((db.applyJob job outs).levels.flatten ++ job.inputs.map Prod.snd).Perm
      (db.levels.flatten ++ outs) := by
  let isInput : SSTable → Bool := fun sst => job.inputs.any fun input => input.2.id = sst.id
  have hkept : (retained db job).flatten = db.levels.flatten.filter fun sst => ¬ isInput sst := by
    simp only [retained, DbInner.ensureLevel, List.flatten_append, List.filter_flatten]
    simp [isInput]
  have hinputs : db.levels.flatten.filter isInput = job.inputs.map Prod.snd := by
    rw [← map_snd_tablesFrom 0, List.filter_map]
    congr 1
    refine (List.filter_congr fun t _ => ?_).trans
      (filter_of_sublist (f := fun t : Placed => t.2.id) hsub hdb.pairwise)
    rw [Bool.eq_iff_iff]
    simp [isInput]
  have hadded : (db.applyJob job outs).levels.flatten.Perm
      ((db.levels.flatten.filter fun sst => ¬ isInput sst) ++ outs) := by
    rw [applyJob_levels, ← hkept]
    exact perm_flatten_modify (outputLevel_lt_retained db job) fun files =>
      List.perm_insertionSort _ _
  have hsplit : ((db.levels.flatten.filter fun sst => ¬ isInput sst) ++
      db.levels.flatten.filter isInput).Perm db.levels.flatten := by
    refine List.perm_append_comm.trans ?_
    simpa using List.filter_append_perm isInput db.levels.flatten
  rw [← hinputs]
  refine (hadded.append_right _).trans ?_
  rw [List.append_assoc]
  refine (List.perm_append_comm.append_left _).trans ?_
  rw [← List.append_assoc]
  exact hsplit.append_right outs

/-! ## What a job and a flush do to the sums -/

namespace Metered

/-- The files of the handle. -/
def files (m : Metered) : List SSTable := m.world.inner.levels.flatten

/-- The bytes of these files. -/
def size (files : List SSTable) : Nat := (files.map SSTable.fileSize).sum

theorem size_append (files files' : List SSTable) : size (files ++ files') = size files + size files' := by
  simp [size]

theorem size_perm {files files' : List SSTable} (h : files.Perm files') : size files = size files' :=
  (h.map SSTable.fileSize).sum_nat

/-- The numbers add up between two states with this many flushes in between. -/
structure Accounted (flushes : Nat) (m m' : Metered) : Prop where
  bytes : size m'.files + m'.metrics.bytesRead + m.metrics.bytesFlushed + m.metrics.bytesWritten =
    size m.files + m.metrics.bytesRead + m'.metrics.bytesFlushed + m'.metrics.bytesWritten
  number : m'.files.length + m'.metrics.inputFiles + m.metrics.outputFiles =
    m.files.length + m.metrics.inputFiles + m'.metrics.outputFiles + flushes
  jobs : m'.metrics.compactions + m.metrics.fullCompactions + m.metrics.compactionsByLevel.sum =
    m.metrics.compactions + m'.metrics.fullCompactions + m'.metrics.compactionsByLevel.sum

namespace Accounted

variable {m m₁ m' : Metered} {n n' : Nat}

theorem refl (m : Metered) : Accounted 0 m m := ⟨rfl, rfl, rfl⟩

theorem trans (h : Accounted n m m₁) (h' : Accounted n' m₁ m') : Accounted (n + n') m m' := by
  obtain ⟨hbytes, hnumber, hjobs⟩ := h
  obtain ⟨hbytes', hnumber', hjobs'⟩ := h'
  exact ⟨by omega, by omega, by omega⟩

/-- Only the log and the memtable have changed. -/
theorem of_eq (hfiles : m'.files = m.files) (hmetrics : m'.metrics = m.metrics) :
    Accounted 0 m m' := by
  refine ⟨?_, ?_, ?_⟩
  · rw [hfiles, hmetrics]
  · rw [hfiles, hmetrics, Nat.add_zero]
  · rw [hmetrics]

end Accounted

theorem sum_countLevel (counts : List Nat) (index : Nat) :
    (Metrics.countLevel counts index).sum = counts.sum + 1 := by
  have hmodify : ∀ (l : List Nat) (i : Nat), i < l.length →
      (l.modify i (· + 1)).sum = l.sum + 1 := by
    intro l
    induction l with
    | nil => exact fun i h => absurd h (Nat.not_lt_zero i)
    | cons a l ih =>
      intro i h
      cases i with
      | zero => simp only [List.modify_zero_cons, List.sum_cons]; omega
      | succ i =>
        simp only [List.modify_succ_cons, List.sum_cons, ih i (Nat.lt_of_succ_lt_succ h)]
        omega
  rw [Metrics.countLevel, hmodify]
  · simp
  · simp only [List.length_append, List.length_replicate]
    omega

/-- A job is recorded with its outcome. -/
theorem Accounted.job {m m' : Metered} {job : CompactionJob} {outs : List SSTable}
    {outcome : JobOutcome} (hdb : m.world.inner.Numbered)
    (hsub : job.inputs.Sublist m.world.inner.tables)
    (happlied : Applied job outs m.world.inner m'.world.inner)
    (houtcome : outcome = ⟨(job.inputs.map fun input => input.2.fileSize).sum,
      (outs.map SSTable.fileSize).sum, job.inputs.length, outs.length⟩)
    (level : Option Nat) (hmetrics : m'.metrics = m.metrics.record level outcome) :
    Accounted 0 m m' := by
  have hperm : (m'.files ++ job.inputs.map Prod.snd).Perm (m.files ++ outs) := by
    rw [files, happlied.levels]
    exact perm_applyJob hdb hsub outs
  have hsize := size_perm hperm
  have hlength := hperm.length_eq
  rw [size_append, size_append] at hsize
  rw [List.length_append, List.length_append, List.length_map] at hlength
  have hread : size (job.inputs.map Prod.snd) = outcome.bytesRead := by
    rw [houtcome, size, List.map_map]
    rfl
  have hwritten : size outs = outcome.bytesWritten := by rw [houtcome, size]
  have hinput : job.inputs.length = outcome.inputFiles := by rw [houtcome]
  have houtput : outs.length = outcome.outputFiles := by rw [houtcome]
  cases level with
  | none =>
    refine ⟨?_, ?_, ?_⟩ <;> rw [hmetrics] <;> simp only [Metrics.record] <;> omega
  | some level =>
    have hsum := sum_countLevel m.metrics.compactionsByLevel level
    refine ⟨?_, ?_, ?_⟩ <;> rw [hmetrics] <;> simp only [Metrics.record] <;> omega

/-! ## The operations -/

section Parts

variable {m : Metered}

theorem along_plain {α : Type} {x : OpM α} (h : Along (fun w w' => w.inner.SameData w'.inner) x) :
    Along (fun m m' : Metered => m.world.inner.SameData m'.world.inner ∧ m'.metrics = m.metrics)
      (plain x) := .onPart h fun _ _ hdata => ⟨hdata, rfl⟩

theorem along_data_hit (point : FaultPoint) :
    Along (fun w w' => w.inner.SameData w'.inner) (hit point) := fun w =>
  (wp_passed point w).mono (fun _ _ h => h.data) fun _ _ h => h.data

theorem along_data_onDisk {α : Type} (x : DiskM α) :
    Along (fun w w' => w.inner.SameData w'.inner) (onDisk x) := fun w =>
  Wp.onPart ((Wp.self x w.disk).mono (fun _ _ _ => .refl _) fun _ _ _ => .refl _)

/-- The files so far fit if those at the end do. -/
theorem assume_fits {α : Type} {x : MeterM α} {y : OpM α} {ok : α → Metered → Prop}
    (hprojects : Projects Metered.world x y) (halong : Along World.Frame y)
    (h : m.world.disk.Fits →
      Wp x (fun a m' => m'.world.disk.Fits → ok a m') (fun _ _ => True) m) :
    Wp x (fun a m' => m'.world.disk.Fits → ok a m') (fun _ _ => True) m := by
  refine (((Wp.self x m).and (hprojects m))).mono ?_ fun _ _ _ => trivial
  rintro a m' ⟨hx, hy⟩ hfits
  have hframe := (halong m.world).ok_of_eq hy
  exact (h (hframe.disk.fits hfits)).ok_of_eq hx hfits

/-- What an operation that has returned leaves: a handle that is ready, and numbers that add up. -/
structure Kept (n : Nat) (m m' : Metered) : Prop where
  ready : Ready m'.world.inner
  accounted : Accounted n m m'

theorem Kept.trans {m₁ m' : Metered} {n n' : Nat} (h : Kept n m m₁) (h' : Kept n' m₁ m') :
    Kept (n + n') m m' := ⟨h'.ready, h.accounted.trans h'.accounted⟩

end Parts

section Operations

variable [BloomSizing] {m : Metered}

/-- The outcome of a job on sound inputs tells what it has put in their place. -/
theorem wp_executeJob {job : CompactionJob} (hlevel : job.outputLevel < 2 ^ 32)
    (hsound : ∀ input ∈ job.inputs, input.2.Sound) (w : World) :
    Wp (executeJob job)
      (fun outcome w' => ∃ outs, Applied job outs w.inner w'.inner ∧
        outcome = ⟨(job.inputs.map fun input => input.2.fileSize).sum,
          (outs.map SSTable.fileSize).sum, job.inputs.length, outs.length⟩)
      (fun _ _ => True) w := by
  rw [executeJob, writeOutputs_eq job hsound]
  refine Wp.bind ((wp_writeAll hlevel job.chunks w).mono ?_ fun _ _ _ => trivial)
  rintro outs w₁ ⟨hdata₁, -, -⟩
  refine Wp.bind ((along_data_hit _ w₁).mono (fun _ w₂ hdata₂ => ?_) fun _ _ _ => trivial)
  refine Wp.bind ((along_data_onDisk _ w₂).mono (fun _ w₃ hdata₃ => ?_) fun _ _ _ => trivial)
  refine Wp.bind ((wp_deleteInputs job.inputs w₃).mono (fun _ w₄ h₄ => ?_) fun _ _ _ => trivial)
  refine Wp.bind ((along_data_hit _ w₄).mono (fun _ w₅ hdata₅ => ?_) fun _ _ _ => trivial)
  refine Wp.bind ((along_data_hit _ w₅).mono (fun _ w₆ hdata₆ => ?_) fun _ _ _ => trivial)
  have hdata : w.inner.SameData w₆.inner :=
    ((((hdata₁.trans hdata₂).trans hdata₃).trans h₄.1).trans hdata₅).trans hdata₆
  refine Wp.bind ((wp_applyJob job outs w₆).mono (fun _ w₇ h₇ => ?_) fun _ _ h => h.elim)
  have happlied : Applied job outs w.inner w₇.inner :=
    ⟨h₇.1.memtable.trans hdata.memtable, h₇.1.levels.trans (applyJob_levels_congr job outs hdata.levels)⟩
  refine Wp.bind ((along_data_hit _ w₇).mono (fun _ w₈ hdata₈ => ?_) fun _ _ _ => trivial)
  refine Wp.bind ((along_data_onDisk _ w₈).mono (fun _ w₉ hdata₉ => ?_) fun _ _ _ => trivial)
  have hdata' := hdata₈.trans hdata₉
  exact Wp.pure ⟨outs, ⟨hdata'.memtable.trans happlied.memtable,
    hdata'.levels.trans happlied.levels⟩, rfl⟩

/-- A job that is recorded. -/
theorem wp_record {job : CompactionJob} (hready : Ready m.world.inner)
    (hissued : Issued m.world.inner job) (level : Option Nat) :
    Wp (plain (executeJob job) >>= fun outcome => count fun metrics => metrics.record level outcome)
      (fun _ m' => m'.world.disk.Fits → Kept 0 m m') (fun _ _ => True) m := by
  have hfit := hissued.fitting hready.numbered hready.sound
  have hjob := wp_job hready hissued
  rw [executeJob_eq] at hjob
  have hdone := wp_executeJob hfit.target_lt
    (fun input hinput => hready.sound input (hfit.mem_tables hinput)) m.world
  refine Wp.bind (Wp.onPart ((hjob.of_map.and hdone).mono ?_ fun _ _ _ => trivial))
  rintro outcome w' ⟨hpreserved, outs, happlied, houtcome⟩
  have haccounted : Accounted 0 m ⟨w', m.metrics.record level outcome, m.counters⟩ :=
    .job hready.numbered hfit.sub happlied houtcome level rfl
  exact Wp.modify fun hfits => ⟨(hpreserved hfits).ready, haccounted⟩

theorem wp_compactPending (fuel : Nat) (hready : Ready m.world.inner) :
    Wp (compactPending fuel) (fun _ m' => m'.world.disk.Fits → Kept 0 m m')
      (fun _ _ => True) m := by
  induction fuel generalizing m with
  | zero => exact Wp.throw trivial
  | succ fuel ih =>
    rw [compactPending]
    refine Wp.bind (Wp.get (Wp.bind (Wp.fromExcept (fun picked hpick => ?_) fun _ _ => trivial)))
    cases picked with
    | none => exact Wp.pure fun _ => ⟨hready, .refl m⟩
    | some plan =>
      refine Wp.bind (Wp.fromExcept (fun job hplan => ?_) fun _ _ => trivial)
      rw [← bind_assoc]
      refine Wp.bind ((wp_record hready (.planned _ plan job hpick hplan) _).mono ?_
        fun _ _ _ => trivial)
      intro _ m₁ hkept
      refine assume_fits (projects_compactPending fuel) (along_compactPending fuel) fun hfits => ?_
      exact (ih (hkept hfits).ready).mono (fun _ m' h hfits' => (hkept hfits).trans (h hfits'))
        fun _ _ _ => trivial

theorem wp_compactFull (hready : Ready m.world.inner) :
    Wp compactFull (fun _ m' => m'.world.disk.Fits → Kept 0 m m') (fun _ _ => True) m := by
  rw [compactFull]
  refine Wp.bind (Wp.get (Wp.ite (fun _ => Wp.pure fun _ => ⟨hready, .refl m⟩) fun _ => ?_))
  exact wp_record hready .full none

/-- `flush` of a memtable that is not empty, up to the compaction it starts. -/
def flushTable : MeterM Unit := do
  let m ← EStateM.get
  let sst ← plain (writeLevelFile 0 (m.world.inner.memtable.map toSstEntry))
  plain (hit .beforeWalTruncation)
  plain (onDisk (Disk.perform (.setLen walFile 0)))
  plain (hit .afterWalTruncation)
  count fun metrics => { metrics with bytesFlushed := metrics.bytesFlushed + sst.fileSize }
  plain (hit .beforeMetadataUpdate)
  plain (update fun db => { db with levels := db.levels.modify 0 fun files => files ++ [sst],
                                    memtable := ∅ })
  plain (hit .afterMetadataUpdate)

theorem flush_eq (fuel : Nat) :
    flush fuel = (do
      let m ← EStateM.get
      if m.world.inner.memtable = ∅ then pure () else flushTable >>= fun _ => compactPending fuel) := by
  rw [flush]
  funext m
  show (if m.world.inner.memtable = ∅ then _ else _ : MeterM Unit) m =
    (if m.world.inner.memtable = ∅ then _ else _ : MeterM Unit) m
  split
  · rfl
  · simp only [flushTable, bind_assoc]
    rfl

theorem projects_flushTable : Projects Metered.world flushTable PebbleDB.flushTable := by
  rw [flushTable, PebbleDB.flushTable]
  refine .get_bind fun m => .bind (projects_plain _) fun sst => ?_
  refine .bind (projects_plain _) fun _ => .bind (projects_plain _) fun _ =>
    .bind (projects_plain _) fun _ => .modify_bind (fun _ => rfl) ?_
  exact .bind (projects_plain _) fun _ => .bind (projects_plain _) fun _ => projects_plain _

/-- The flushed table is counted with its size. -/
theorem accounted_flushTable (hzero : m.world.inner.levels ≠ []) :
    Wp flushTable (fun _ m' => Accounted 1 m m') (fun _ _ => True) m := by
  rw [flushTable]
  refine Wp.bind (Wp.get (Wp.bind (Wp.onPart ((wp_writeLevelFile (by decide) _).mono
    (fun sst w₁ hwrote => ?_) fun _ _ _ => trivial))))
  refine Wp.bind ((along_plain (along_data_hit _) _).mono (fun _ m₂ h₂ => ?_) fun _ _ _ => trivial)
  refine Wp.bind ((along_plain (along_data_onDisk _) _).mono (fun _ m₃ h₃ => ?_)
    fun _ _ _ => trivial)
  refine Wp.bind ((along_plain (along_data_hit _) _).mono (fun _ m₄ h₄ => ?_) fun _ _ _ => trivial)
  have hlevels₄ : m₄.world.inner.levels = m.world.inner.levels :=
    h₄.1.levels.trans (h₃.1.levels.trans (h₂.1.levels.trans hwrote.data.levels))
  have hmetrics₄ : m₄.metrics = m.metrics := h₄.2.trans (h₃.2.trans h₂.2)
  refine Wp.bind (Wp.modify ?_)
  refine Wp.bind ((along_plain (along_data_hit _) _).mono (fun _ m₅ h₅ => ?_) fun _ _ _ => trivial)
  refine Wp.bind (Wp.onPart (Wp.modify ?_))
  refine (along_plain (along_data_hit _) _).mono (fun _ m' h' => ?_) fun _ _ _ => trivial
  have hlevels : m'.world.inner.levels = m.world.inner.levels.modify 0 fun files => files ++ [sst] := by
    rw [h'.1.levels, ← hlevels₄, ← h₅.1.levels]
  have hmetrics : m'.metrics = { m.metrics with
      bytesFlushed := m.metrics.bytesFlushed + sst.fileSize } := by
    rw [h'.2, ← hmetrics₄]
    exact h₅.2
  have hperm : m'.files.Perm (m.files ++ [sst]) := by
    rw [files, hlevels]
    exact perm_flatten_modify (List.length_pos_of_ne_nil hzero) fun files => .refl _
  have hsize := size_perm hperm
  have hlength := hperm.length_eq
  have hsst : size [sst] = sst.fileSize := by simp [size]
  rw [size_append, hsst] at hsize
  rw [List.length_append, List.length_singleton] at hlength
  refine ⟨?_, ?_, ?_⟩ <;> rw [hmetrics] <;> dsimp only <;> omega

theorem wp_flush (fuel : Nat) (hready : Ready m.world.inner) :
    Wp (flush fuel) (fun _ m' => m'.world.disk.Fits → ∃ n ≤ 1, Kept n m m') (fun _ _ => True) m := by
  rw [flush_eq]
  refine Wp.bind (Wp.get (Wp.ite (fun _ => Wp.pure fun _ => ⟨0, by omega, hready, .refl m⟩)
    fun hne => ?_))
  refine Wp.bind (((accounted_flushTable hready.zero).and (projects_flushTable m)).mono ?_
    fun _ _ _ => trivial)
  rintro _ m₁ ⟨haccounted, hrun⟩
  have hkept : m₁.world.disk.Fits → Kept 1 m m₁ := by
    intro hfits
    obtain ⟨sst, hdone⟩ := (wp_flushTable m.world).ok_of_eq hrun
    exact ⟨(hready.flushDone hdone hfits).ready, haccounted⟩
  refine assume_fits (projects_compactPending fuel) (along_compactPending fuel) fun hfits => ?_
  exact (wp_compactPending fuel (hkept hfits).ready).mono
    (fun _ m' h hfits' => ⟨1, le_rfl, (hkept hfits).trans (h hfits')⟩) fun _ _ _ => trivial

theorem wp_writeRecord (fuel : Nat) (record : WalRecord) (key : String) (entry : MemtableEntry)
    (hready : Ready m.world.inner) :
    Wp (writeRecord fuel record key entry)
      (fun _ m' => m'.world.disk.Fits → ∃ n ≤ 1, Kept n m m') (fun _ _ => True) m := by
  rw [writeRecord]
  refine Wp.bind (Wp.onPart ((wp_logRecord record key entry m.world).mono (fun _ w₁ hlogged => ?_)
    fun _ _ _ => trivial))
  have hkept : Kept 0 m { m with world := w₁ } :=
    ⟨hlogged.ready hready, .of_eq (by rw [files, files, hlogged.levels]) rfl⟩
  refine Wp.bind (Wp.get (Wp.ite (fun _ => ?_) fun _ => Wp.pure fun _ => ⟨0, by omega, hkept⟩))
  refine (wp_flush fuel hkept.ready).mono (fun _ m' h hfits => ?_) fun _ _ _ => trivial
  obtain ⟨n, hn, hflushed⟩ := h hfits
  exact ⟨n, hn, Nat.zero_add n ▸ hkept.trans hflushed⟩

/-- A call flushes the memtable at most once. -/
theorem wp_run (fuel : Nat) (call : Call) (hready : Ready m.world.inner) :
    Wp (run fuel call) (fun _ m' => m'.world.disk.Fits → ∃ n ≤ 1, Kept n m m')
      (fun _ _ => True) m := by
  have hnone : ∀ {x : MeterM Unit}, Wp x (fun _ m' => m'.world.disk.Fits → Kept 0 m m')
      (fun _ _ => True) m →
      Wp x (fun _ m' => m'.world.disk.Fits → ∃ n ≤ 1, Kept n m m') (fun _ _ => True) m :=
    fun h => h.mono (fun _ _ h hfits => ⟨0, by omega, h hfits⟩) fun _ _ _ => trivial
  cases call with
  | set key value => exact Wp.map (wp_writeRecord fuel _ _ _ hready)
  | delete key =>
    refine Wp.map (Wp.bind (Wp.get (Wp.bind (Wp.fromExcept (fun existed _ => ?_)
      fun _ _ => trivial))))
    exact Wp.bind ((wp_writeRecord fuel _ _ _ hready).mono (fun _ m' h => Wp.pure h)
      fun _ _ _ => trivial)
  | flush => exact Wp.map (wp_flush fuel hready)
  | compact => exact Wp.map (hnone (wp_compactPending fuel hready))
  | compactFull => exact Wp.map (hnone (wp_compactFull hready))

end Operations

end Metered

/-! ## The reads -/

/-- The tables a read looks at: the first that has the key, and those before it. -/
def visited (key : String) (tables : List SSTable) : List SSTable :=
  tables.take ((tables.findIdx fun sst => (sst.entries.get? key).isSome) + 1)

/-- The filter of the table says that it does not have the key. -/
def rejects (key : String) (sst : SSTable) : Bool := sst.bloomMightContain key = .ok false

/-- The counters after a look at these tables. -/
def AtomicCounters.look (counters : AtomicCounters) (key : String) (tables : List SSTable) :
    AtomicCounters :=
  { counters with
    bloomRejects := counters.bloomRejects + .ofNat (tables.countP (rejects key))
    blockReads := counters.blockReads + .ofNat (tables.countP fun sst => !rejects key sst) }

/-- The counters after a read of the handle. -/
def AtomicCounters.read (counters : AtomicCounters) (key : String) (db : DbInner) :
    AtomicCounters :=
  match db.memtable.get? key with
  | some (.value _) => { counters with memtableHits := counters.memtableHits + 1 }
  | some .tombstone => counters
  | none => counters.look key (visited key (readOrder db.levels))

theorem not_rejects {key : String} {sst : SSTable} (hsound : sst.Sound)
    (hentry : sst.entries.get? key ≠ none) : rejects key sst = false := by
  obtain ⟨found, hfound, himp⟩ := SSTable.Holds.bloomMightContain_eq hsound key
  rw [himp hentry] at hfound
  simp [rejects, hfound]

theorem visited_cons_of_some {key : String} {sst : SSTable} {entry : SSTableEntry}
    (hentry : sst.entries.get? key = some entry) (tables : List SSTable) :
    visited key (sst :: tables) = [sst] := by
  simp [visited, List.findIdx_cons, hentry]

theorem visited_cons_of_none {key : String} {sst : SSTable}
    (hentry : sst.entries.get? key = none) (tables : List SSTable) :
    visited key (sst :: tables) = sst :: visited key tables := by
  simp [visited, List.findIdx_cons, hentry]

theorem look_nil (counters : AtomicCounters) (key : String) :
    counters.look key [] = counters := by
  simp [AtomicCounters.look]

theorem look_cons_of_rejects {key : String} {sst : SSTable} (h : rejects key sst = true)
    (counters : AtomicCounters) (tables : List SSTable) :
    counters.look key (sst :: tables) = AtomicCounters.look
      { counters with bloomRejects := counters.bloomRejects + 1 } key tables := by
  simp [AtomicCounters.look, h, UInt64.ofNat_add, UInt64.add_assoc, UInt64.add_comm 1]

theorem look_cons_of_not_rejects {key : String} {sst : SSTable} (h : rejects key sst = false)
    (counters : AtomicCounters) (tables : List SSTable) :
    counters.look key (sst :: tables) = AtomicCounters.look
      { counters with blockReads := counters.blockReads + 1 } key tables := by
  simp [AtomicCounters.look, h, UInt64.ofNat_add, UInt64.add_assoc, UInt64.add_comm 1]

namespace Metered

/-- The loop over the tables finds what the loop without the counters finds. -/
theorem findEntry_eq {key : String} {tables : List SSTable}
    (hsound : ∀ sst ∈ tables, sst.Sound) (m : Metered) :
    findEntry key tables m = .ok (tables.findSome? fun sst => sst.entries.get? key)
      { m with counters := m.counters.look key (visited key tables) } := by
  induction tables generalizing m with
  | nil =>
    rw [findEntry, visited, List.take_nil, look_nil]
    rfl
  | cons sst tables ih =>
    have hsst : sst.Holds sst.entries := hsound sst List.mem_cons_self
    have hrest := ih fun t ht => hsound t (List.mem_cons_of_mem _ ht)
    obtain ⟨found, hfound, himp⟩ := hsst.bloomMightContain_eq key
    rw [findEntry, bind_of_ok (fromExcept_ok hfound m), List.findSome?_cons]
    cases found with
    | false =>
      have hnone : sst.entries.get? key = none := by
        by_contra hne
        cases himp hne
      have hrejects : rejects key sst = true := by simp [rejects, hfound]
      rw [visited_cons_of_none hnone, look_cons_of_rejects hrejects, hnone]
      exact (bind_of_ok rfl).trans (hrest _)
    | true =>
      have hrejects : rejects key sst = false := by simp [rejects, hfound]
      refine (bind_of_ok rfl).trans ((bind_of_ok (fromExcept_ok (hsst.get_eq key) _)).trans ?_)
      cases hentry : sst.entries.get? key with
      | some entry =>
        rw [visited_cons_of_some hentry, look_cons_of_not_rejects hrejects, look_nil]
        rfl
      | none =>
        rw [visited_cons_of_none hentry, look_cons_of_not_rejects hrejects]
        exact hrest _

/-- A `get` gives what it gives without the counters, and counts either the hit in the memtable or
each table up to the first that has the key, once. -/
theorem get_counts {m : Metered} (hsound : m.world.inner.Sound) (key : String) : ∃ value,
    m.world.inner.get key = .ok value ∧
      get key m = .ok value { m with counters := m.counters.read key m.world.inner } ∧
      ∀ sst ∈ readOrder m.world.inner.levels, sst.entries.get? key ≠ none →
        rejects key sst = false := by
  have htables : ∀ sst ∈ readOrder m.world.inner.levels, sst.Sound := by
    intro sst hsst
    obtain ⟨level, hmem⟩ := DbInner.mem_readOrder.mp hsst
    exact hsound _ hmem
  have hrejects : ∀ sst ∈ readOrder m.world.inner.levels, sst.entries.get? key ≠ none →
      rejects key sst = false := fun sst hsst => not_rejects (htables sst hsst)
  rw [DbInner.get, get, bind_of_ok (rfl : EStateM.get m = .ok m m), AtomicCounters.read]
  cases hmem : m.world.inner.memtable.get? key with
  | some entry =>
    cases entry with
    | value v => exact ⟨some v, rfl, rfl, hrejects⟩
    | tombstone => exact ⟨none, rfl, rfl, hrejects⟩
  | none =>
    dsimp only
    rw [bind_of_ok (findEntry_eq htables m), DbInner.findEntry_eq hsound.tablesHold]
    refine ⟨_, rfl, ?_, hrejects⟩
    rw [List.findSome?_map]
    rfl

/-- The newer table has no `b`, the older one does. -/
theorem get_counts_twoFiles :
    get "b" ⟨twoFiles, {}, {}⟩ = .ok (some "2") ⟨twoFiles, {}, ⟨0, 1, 1⟩⟩ ∧
      ∀ sst ∈ readOrder twoFiles.inner.levels, sst.entries.get? "b" ≠ none →
        rejects "b" sst = false := by
  have hvalue : twoFiles.inner.get "b" = .ok (some "2") := by decide +kernel
  have hcounters : AtomicCounters.read {} "b" twoFiles.inner = ⟨0, 1, 1⟩ := by decide +kernel
  obtain ⟨value, hget, hcounted, hrejects⟩ :=
    get_counts (m := ⟨twoFiles, {}, {}⟩) coherent_twoFiles.1.sound "b"
  obtain rfl := Except.ok.inj (hget.symm.trans hvalue)
  rw [hcounters] at hcounted
  exact ⟨hcounted, hrejects⟩

/-- A read changes only the counters. -/
def Uncounted (m m' : Metered) : Prop := m'.world = m.world ∧ m'.metrics = m.metrics

theorem Uncounted.refl (m : Metered) : Uncounted m m := ⟨rfl, rfl⟩

theorem Uncounted.trans {m m₁ m' : Metered} (h : Uncounted m m₁) (h' : Uncounted m₁ m') :
    Uncounted m m' := ⟨h'.1.trans h.1, h'.2.trans h.2⟩

theorem along_bump (f : AtomicCounters → AtomicCounters) : Along Uncounted (bump f) :=
  .modify fun _ => ⟨rfl, rfl⟩

theorem along_findEntry (key : String) (tables : List SSTable) :
    Along Uncounted (findEntry key tables) := by
  induction tables with
  | nil => exact .pure .refl none
  | cons sst tables ih =>
    refine .bind .trans (.fromExcept .refl _) fun maybe => ?_
    cases maybe with
    | false => exact .bind .trans (along_bump _) fun _ => ih
    | true =>
      refine .bind .trans (along_bump _) fun _ => .bind .trans (.fromExcept .refl _) fun entry => ?_
      cases entry with
      | some entry => exact .pure .refl _
      | none => exact ih

theorem along_get (key : String) : Along Uncounted (get key) := by
  refine .bind .trans (.get .refl) fun m => ?_
  cases m.world.inner.memtable.get? key with
  | none => exact .bind .trans (along_findEntry _ _) fun _ => .pure .refl _
  | some entry =>
    cases entry with
    | value v => exact .bind .trans (along_bump _) fun _ => .pure .refl _
    | tombstone => exact .pure .refl _

/-! ## What the statistics say -/

theorem totalSstSize_eq (m : Metered) : m.stats.totalSstSize = size m.files := by
  have hperm := (List.perm_insertionSort (fun a b : Nat × Nat => a.1 ≤ b.1)
    (m.files.map fun sst => (sst.id, sst.fileSize))).map Prod.snd
  show ((sstSizes m.world.inner.levels).map Prod.snd).sum = _
  rw [sstSizes, show m.world.inner.levels.flatten = m.files from rfl, hperm.sum_nat, List.map_map,
    size]
  rfl

theorem sstCount_eq (m : Metered) : m.stats.sstCount = m.files.length := by
  rw [files, List.length_flatten]
  rfl

theorem sum_levelStats (first : Nat) (levels : List (List SSTable)) :
    ((levelStats first levels).map LevelStats.bytes).sum = size levels.flatten ∧
      ((levelStats first levels).map LevelStats.files).sum = levels.flatten.length := by
  induction levels generalizing first with
  | nil => exact ⟨rfl, rfl⟩
  | cons files levels ih =>
    obtain ⟨hbytes, hfiles⟩ := ih (first + 1)
    rw [levelStats, List.flatten_cons]
    by_cases hnil : files = []
    · rw [if_pos hnil, hnil, List.nil_append]
      exact ⟨hbytes, hfiles⟩
    · rw [if_neg hnil, List.map_cons, List.map_cons, List.sum_cons, List.sum_cons, hbytes, hfiles,
        size_append, List.length_append]
      exact ⟨rfl, rfl⟩

theorem files_pos_of_mem_levelStats {first : Nat} {levels : List (List SSTable)} {level : LevelStats}
    (h : level ∈ levelStats first levels) : 0 < level.files := by
  induction levels generalizing first with
  | nil => cases h
  | cons files levels ih =>
    rw [levelStats] at h
    by_cases hnil : files = []
    · rw [if_pos hnil] at h
      exact ih h
    · rw [if_neg hnil] at h
      rcases List.mem_cons.mp h with rfl | h
      · exact List.length_pos_of_ne_nil hnil
      · exact ih h

/-- What the log takes for the entries of a memtable, each in a record of its own. -/
def loggedBytes (memtable : SortedMap String MemtableEntry) : Nat :=
  (memtable.entries.map fun record => 17 + entryBytes record).sum

theorem loggedBytes_eq (memtable : SortedMap String MemtableEntry) :
    loggedBytes memtable = 17 * memtable.size + memtableBytes memtable := by
  rw [loggedBytes, List.sum_map_add, List.map_const', List.sum_replicate_nat, Nat.mul_comm,
    SortedMap.size, memtableBytes]

theorem loggedBytes_replayRecord_le (memtable : SortedMap String MemtableEntry)
    (record : WalRecord) :
    loggedBytes (replayRecord memtable record) ≤ loggedBytes memtable + record.encode.length := by
  rw [record.length_encode]
  cases record with
  | set key value =>
    refine (SortedMap.sum_map_insert_le _ memtable key (.value value)).trans_eq ?_
    simp only [loggedBytes, entryBytes, WalRecord.lengths, Nat.add_assoc]
  | delete key => exact SortedMap.sum_map_insert_le _ memtable key .tombstone

theorem loggedBytes_foldl_le (records : List WalRecord) (memtable : SortedMap String MemtableEntry) :
    loggedBytes (records.foldl replayRecord memtable) ≤
      loggedBytes memtable + (encodeAll records).length := by
  induction records generalizing memtable with
  | nil => exact Nat.le_add_right _ _
  | cons record records ih =>
    have hrecord := loggedBytes_replayRecord_le memtable record
    have hrest := ih (replayRecord memtable record)
    rw [List.foldl_cons, encodeAll, List.flatMap_cons, List.length_append, ← encodeAll]
    omega

/-- A record of the log takes 17 bytes besides its texts, and each key of the memtable has one. -/
theorem memtableBytes_replay_le (records : List WalRecord) :
    17 * (replay records).size + memtableBytes (replay records) ≤ (encodeAll records).length := by
  rw [← loggedBytes_eq]
  exact (loggedBytes_foldl_le records ∅).trans_eq (Nat.zero_add _)

theorem sum_countedLevels (counts : List Nat) :
    ((countedLevels counts).map Prod.snd).sum = counts.sum := by
  have hall : ∀ (counts : List Nat) (first : Nat),
      ((((counts.zipIdx first).filter fun x => 0 < x.1).map fun x => (x.2, x.1)).map
        Prod.snd).sum = counts.sum := by
    intro counts
    induction counts with
    | nil => exact fun _ => rfl
    | cons n counts ih =>
      intro first
      rw [List.zipIdx_cons, List.sum_cons, ← ih (first + 1)]
      by_cases hzero : n = 0
      · rw [List.filter_cons_of_neg (by simp [hzero]), hzero, Nat.zero_add]
      · rw [List.filter_cons_of_pos (by simp; omega), List.map_cons, List.map_cons, List.sum_cons]
  exact hall counts 0

end Metered

/-- What `stats` reports of a handle that has only been opened: the counters are at zero, the levels
that it lists have files, and the log has a record for every entry of the memtable. -/
structure DbStats.Opened (stats : DbStats) : Prop where
  hits : stats.memtableHits = 0
  rejects : stats.bloomRejects = 0
  reads : stats.blockReads = 0
  compactions : stats.compactionsCompleted = 0
  full : stats.fullCompactions = 0
  amplification : stats.writeAmplification = none
  level_bytes : stats.totalSstSize = (stats.levels.map LevelStats.bytes).sum
  level_files : stats.sstCount = (stats.levels.map LevelStats.files).sum
  filled : ∀ level ∈ stats.levels, 0 < level.files
  log : 17 * stats.memtableEntries + stats.memtableBytes ≤ stats.walSize

/-- What `stats` reports of a handle that was opened with this size and number of tables and has
flushed so many memtables. -/
structure DbStats.Exact (stats : DbStats) (size number flushes : Nat) : Prop where
  bytes : stats.totalSstSize + stats.compactionBytesRead =
    size + stats.bytesFlushed + stats.compactionBytesWritten
  tables : stats.sstCount + stats.compactionInputFiles =
    number + flushes + stats.compactionOutputFiles
  jobs : stats.compactionsCompleted =
    stats.fullCompactions + (stats.compactionsByLevel.map Prod.snd).sum
  level_bytes : stats.totalSstSize = (stats.levels.map LevelStats.bytes).sum
  level_files : stats.sstCount = (stats.levels.map LevelStats.files).sum

/-- Calls on a handle that return, and reads of it in between. -/
inductive MeteredRun [BloomSizing] : Metered → List Call → Metered → Prop where
  | nil (m : Metered) : MeteredRun m [] m
  | call {m m₁ m' : Metered} {fuel : Nat} {call : Call} {calls : List Call}
      {existed : Option Bool} (h : Metered.run fuel call m = .ok existed m₁)
      (hrest : MeteredRun m₁ calls m') : MeteredRun m (call :: calls) m'
  | get {m m₁ m' : Metered} {key : String} {value : Option String} {calls : List Call}
      (h : Metered.get key m = .ok value m₁) (hrest : MeteredRun m₁ calls m') :
      MeteredRun m calls m'

namespace Metered

variable [BloomSizing] {m m' : Metered} {c : Contents} {calls : List Call}

theorem frame_of_run (hrun : MeteredRun m calls m') : m.world.Frame m'.world := by
  induction hrun with
  | nil m => exact .refl _
  | call h _ ih => exact ((along_call _ _ _).ok_of_eq ((projects_call _ _).ok h)).trans ih
  | get h _ ih =>
    obtain ⟨hworld, -⟩ := (along_get _ _).ok_of_eq h
    rwa [hworld] at ih

/-- The calls have their effects, and the numbers add up. -/
theorem kept_of_run (hrun : MeteredRun m calls m') (hholding : Holding c m.world)
    (hfits : m'.world.disk.Fits) :
    Holding (calls.foldl (fun c call => call.apply c) c) m'.world ∧
      ∃ n ≤ calls.length, Accounted n m m' := by
  induction hrun generalizing c with
  | nil m => exact ⟨hholding, 0, le_rfl, .refl m⟩
  | @call m m₁ m' fuel call calls existed h hrest ih =>
    have hfits₁ := (frame_of_run hrest).disk.fits hfits
    obtain ⟨n, hn, hkept⟩ := (wp_run fuel call hholding.1).ok_of_eq h hfits₁
    obtain ⟨-, hholding₁⟩ := (holding_rules.wp_call fuel call (fun _ _ => trivial)
      hholding).ok_of_eq ((projects_call fuel call).ok h) hfits₁
    obtain ⟨hholding', n', hn', haccounted⟩ := ih hholding₁ hfits
    refine ⟨hholding', n + n', ?_, hkept.accounted.trans haccounted⟩
    rw [List.length_cons]
    omega
  | get h hrest ih =>
    obtain ⟨hworld, hmetrics⟩ := (along_get _ _).ok_of_eq h
    obtain ⟨hholding', n, hn, haccounted⟩ := ih (hworld ▸ hholding) hfits
    refine ⟨hholding', n, hn, ?_⟩
    have hsame := Accounted.of_eq (show files _ = files _ by rw [files, files, hworld]) hmetrics
    exact Nat.zero_add n ▸ hsame.trans haccounted

end Metered

/-- Over any calls that return, `stats` reports numbers that add up, and the calls do what they do
without the counting. -/
theorem meteredRun_exact [BloomSizing] {w : World} {c : Contents} {calls : List Call} {m : Metered}
    (hrun : MeteredRun ⟨w, {}, {}⟩ calls m) (hholding : Holding c w) (hfits : m.world.disk.Fits) :
    Holding (calls.foldl (fun c call => call.apply c) c) m.world ∧
      ∃ flushes ≤ calls.length,
        m.stats.Exact (w.inner.levels.flatten.map SSTable.fileSize).sum w.inner.sstCount flushes := by
  obtain ⟨hholding', n, hn, hbytes, hnumber, hjobs⟩ := Metered.kept_of_run hrun hholding hfits
  have hsize := Metered.totalSstSize_eq m
  have hcount := Metered.sstCount_eq m
  have hstart := Metered.sstCount_eq ⟨w, {}, {}⟩
  obtain ⟨hlevelBytes, hlevelFiles⟩ := Metered.sum_levelStats 0 m.world.inner.levels
  dsimp only at hbytes hnumber hjobs
  refine ⟨hholding', n, hn, ?_, ?_, ?_, ?_, ?_⟩
  · show m.stats.totalSstSize + m.metrics.bytesRead =
      Metered.size (Metered.files ⟨w, {}, {}⟩) + m.metrics.bytesFlushed + m.metrics.bytesWritten
    omega
  · show m.stats.sstCount + m.metrics.inputFiles =
      (Metered.stats ⟨w, {}, {}⟩).sstCount + n + m.metrics.outputFiles
    omega
  · show m.metrics.compactions = m.metrics.fullCompactions +
      ((Metered.countedLevels m.metrics.compactionsByLevel).map Prod.snd).sum
    rw [Metered.sum_countedLevels]
    simpa using hjobs
  · exact hsize.trans hlevelBytes.symm
  · exact hcount.trans hlevelFiles.symm

/-- The calls one after the other, each with this bound. -/
def Metered.runCalls [BloomSizing] (fuel : Nat) : List Call → MeterM Unit
  | [] => pure ()
  | call :: calls => do
    let _ ← Metered.run fuel call
    runCalls fuel calls

theorem Metered.run_of_runCalls [BloomSizing] {fuel : Nat} {calls : List Call} {m m' : Metered}
    (h : runCalls fuel calls m = .ok () m') : MeteredRun m calls m' := by
  induction calls generalizing m with
  | nil =>
    cases h
    exact .nil _
  | cons call calls ih =>
    have hbind : EStateM.bind (Metered.run fuel call) (fun _ => runCalls fuel calls) m = .ok () m' := h
    rw [EStateM.bind] at hbind
    split at hbind
    · rename_i hrun
      exact .call hrun (ih hbind)
    · cases hbind

/-- Two memtables are flushed and the two tables are merged. -/
theorem meteredRun_exact_merge : ∃ m,
    @MeteredRun .ofSmall ⟨⟨⟨∅, [[]], 0, .default, .new none⟩, emptyDisk⟩, {}, {}⟩
      [.set "a" "1", .flush, .set "b" "2", .flush, .compactFull] m ∧
    m.stats.sstCount = 1 ∧ m.stats.compactionInputFiles = 2 ∧
    ∃ flushes ≤ 5, m.stats.Exact 0 0 flushes := by
  let _ : BloomSizing := .ofSmall
  have hrun : check (Metered.runCalls 1
      [.set "a" "1", .flush, .set "b" "2", .flush, .compactFull])
      ⟨⟨⟨∅, [[]], 0, .default, .new none⟩, emptyDisk⟩, {}, {}⟩ (fun _ m =>
        decide (m.world.disk.Fits ∧ m.stats.sstCount = 1 ∧ m.stats.compactionInputFiles = 2)) =
        true := by decide +kernel
  obtain ⟨_, m', hcalls, htest⟩ := exists_of_check hrun
  obtain ⟨hfits, hcount, hinput⟩ := of_decide_eq_true htest
  have hmetered := Metered.run_of_runCalls hcalls
  have hready := ready_empty .default (.new none)
  obtain ⟨c, hanswers⟩ := hready.exists_answers
  exact ⟨m', hmetered, hcount, hinput, (meteredRun_exact hmetered ⟨hready, hanswers⟩ hfits).2⟩

end PebbleDB
