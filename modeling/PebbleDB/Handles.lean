import PebbleDB.Coherence
import PebbleDB.Exits

/-!
# What the calls of a handle do to its reads

However a job (`wp_job`) or the writing of the memtable (`wp_flushTable`) ends, `get` answers as
before; logging a record that is cut off has changed the answer for its key, or has not
(`wp_logRecord`). A handle is fit for this if it is coherent and has a level zero (`Ready`).
-/

namespace PebbleDB

open EarlyExit Leveled

/-- A coherent handle with a level zero, to which `flush` adds its file. -/
structure Ready (db : DbInner) : Prop extends Coherent db where
  zero : db.levels ≠ []

/-- The handle is still ready, and every `get` gives the same. -/
structure Preserved (db db' : DbInner) : Prop where
  ready : Ready db'
  get_eq : ∀ key, db'.get key = db.get key

theorem get_congr {db db' : DbInner} (h : db.SameData db') (key : String) :
    db'.get key = db.get key := by
  rw [DbInner.get, DbInner.get, h.memtable, h.levels]

theorem Ready.of_sameData {db db' : DbInner} (h : Ready db) (hdata : db.SameData db')
    (hnext : db.nextSstId ≤ db'.nextSstId) : Preserved db db' :=
  ⟨⟨h.toCoherent.of_levels_eq hdata.levels hnext, hdata.levels ▸ h.zero⟩, get_congr hdata⟩

/-! ## Compaction -/

section Compaction

variable {w w' : World} {job : CompactionJob} {outs : List SSTable}

/-- A job that a handle runs: the one of a plan, or the one of `compact_full`. -/
inductive Issued (db : DbInner) : CompactionJob → Prop where
  | planned (config : LevelConfig) (plan : CompactionPlan) (job : CompactionJob)
      (hplan : pickCompaction db.fileMetas config = .ok (some plan))
      (hjob : db.planJob plan = .ok job) : Issued db job
  | full : Issued db ⟨db.tables, 1, true, 2 ^ 64 - 1⟩

theorem Issued.fitting {db : DbInner} (hdb : db.Numbered) (hsound : db.Sound)
    (h : Issued db job) : Fitting db job := by
  cases h with
  | planned config plan job hplan hjob => exact .of_plan hdb hsound hplan hjob
  | full => exact .of_all rfl rfl

theorem applyJob_levels_ne_nil (db : DbInner) (job : CompactionJob) (outs : List SSTable) :
    (db.applyJob job outs).levels ≠ [] := by
  rw [applyJob_levels, ne_eq, List.modify_eq_nil_iff]
  intro hnil
  have := outputLevel_lt_retained db job
  rw [hnil] at this
  exact absurd this (Nat.not_lt_zero _)

theorem Ready.applied (h : Ready w.inner) (hfit : Fitting w.inner job)
    (hdata : Applied job outs w.inner w'.inner) (hcomplete : Complete job w w' outs)
    (hframe : w.Frame w') (hfits : w'.disk.Fits) : Preserved w.inner w'.inner := by
  obtain ⟨hcoherent, hget⟩ :=
    h.toCoherent.applied hfit hdata hcomplete hframe.nextSstId hfits
  exact ⟨⟨hcoherent, hdata.levels ▸ applyJob_levels_ne_nil _ _ _⟩, hget⟩

/-- Nothing that a job is cut off in has changed a read. -/
theorem Ready.of_jobExit (h : Ready w.inner) (hfit : Fitting w.inner job)
    (hexit : JobExit job w w') (hframe : w.Frame w') (hfits : w'.disk.Fits) :
    Preserved w.inner w'.inner := by
  cases hexit with
  | writing hdata _ => exact h.of_sameData hdata hframe.nextSstId
  | marked outs hdata _ _ => exact h.of_sameData hdata hframe.nextSstId
  | applied outs hdata hcomplete _ => exact h.applied hfit hdata hcomplete hframe hfits

variable [BloomSizing]

theorem wp_job (h : Ready w.inner) (hissued : Issued w.inner job) :
    Wp (executeJob job) (fun _ w' => w'.disk.Fits → Preserved w.inner w'.inner)
      (fun _ w' => w'.disk.Fits → Preserved w.inner w'.inner) w := by
  have hfit := hissued.fitting h.numbered h.sound
  have hsound : ∀ input ∈ job.inputs, input.2.Sound := fun input hinput =>
    h.sound input (hfit.mem_tables hinput)
  refine ((wp_executeJob hfit.target_lt hsound w).and (along_executeJob job w)).mono ?_ ?_
  · intro _ w' hdone hfits
    obtain ⟨⟨outs, hdone⟩, hframe⟩ := hdone
    exact h.applied hfit hdone.data hdone.complete hframe hfits
  · intro _ w' hexit hfits
    exact h.of_jobExit hfit hexit.1 hexit.2 hfits

end Compaction

/-! ## Flushing -/

/-- The memtable has become a table in level zero. -/
structure Flushed (db db' : DbInner) (sst : SSTable) : Prop where
  memtable : db'.memtable = ∅
  levels : db'.levels = db.levels.modify 0 fun files => files ++ [sst]
  holds : sst.Holds (db.memtable.map toSstEntry)
  fresh : db.nextSstId ≤ sst.id
  below : sst.id < db'.nextSstId

namespace Flushed

variable {db db' : DbInner} {sst : SSTable}

theorem mem_tables (h : Flushed db db' sst) (hzero : db.levels ≠ []) {t : Placed} :
    t ∈ db'.tables ↔ t ∈ db.tables ∨ t = (0, sst) := by
  obtain ⟨files, levels, hlevels⟩ := List.exists_cons_of_ne_nil hzero
  have hlevels' : db'.levels = (files ++ [sst]) :: levels := by rw [h.levels, hlevels]; rfl
  rw [DbInner.tables, DbInner.tables, hlevels, hlevels', tablesFrom, tablesFrom]
  simp only [List.map_append, List.map_cons, List.map_nil, List.append_assoc, List.mem_append,
    List.mem_cons, List.not_mem_nil, or_false]
  tauto

theorem ready (h : Flushed db db' sst) (hdb : Ready db) : Ready db' := by
  have hmem := fun t => h.mem_tables hdb.zero (t := t)
  have hset : {t | t ∈ db'.tables} = {t | t ∈ db.tables} ∪ {(0, sst)} := Set.ext hmem
  refine ⟨⟨⟨?_, ?_, ?_⟩, ?_, fun key => ?_⟩, ?_⟩
  · obtain ⟨files, levels, hlevels⟩ := List.exists_cons_of_ne_nil hdb.zero
    have hlevels' : db'.levels = (files ++ [sst]) :: levels := by rw [h.levels, hlevels]; rfl
    have hasc := hdb.numbered.ascending
    rw [hlevels] at hasc
    rw [hlevels']
    intro fs hfs
    rcases List.mem_cons.mp hfs with rfl | hfs
    · refine List.pairwise_append.mpr ⟨hasc files List.mem_cons_self, List.pairwise_singleton _ _,
        fun s hs t ht => ?_⟩
      rw [List.mem_singleton.mp ht]
      refine (hdb.numbered.below (0, s) ?_).trans_le h.fresh
      rw [DbInner.mem_tables, hlevels]
      exact ⟨files, rfl, hs⟩
    · exact hasc fs (List.mem_cons_of_mem _ hfs)
  · intro s hs t ht heq
    rcases (hmem s).mp hs with hs | rfl
    · rcases (hmem t).mp ht with ht | rfl
      · exact hdb.numbered.distinct s hs t ht heq
      · exact absurd heq ((hdb.numbered.below s hs).trans_le h.fresh).ne
    · rcases (hmem t).mp ht with ht | rfl
      · exact absurd heq.symm ((hdb.numbered.below t ht).trans_le h.fresh).ne
      · rfl
  · intro t ht
    rcases (hmem t).mp ht with ht | rfl
    · exact (hdb.numbered.below t ht).trans (h.fresh.trans_lt h.below)
    · exact h.below
  · intro t ht
    rcases (hmem t).mp ht with ht | rfl
    · exact hdb.sound t ht
    · exact h.holds.sound
  · rw [hset, copies_union]
    refine (hdb.shadowed key).union_zero ?_
    intro o ho
    obtain ⟨t, rfl, hlevel, -⟩ := ho
    exact hlevel.symm
  · rw [h.levels, ne_eq, List.modify_eq_nil_iff]
    exact hdb.zero

/-- The new table is read in the place of the memtable. -/
theorem get_eq (h : Flushed db db' sst) (hdb : Ready db) (key : String) :
    db'.get key = db.get key := by
  have hready := h.ready hdb
  have hset : {t | t ∈ db'.tables} = {t | t ∈ db.tables} ∪ {(0, sst)} :=
    Set.ext fun t => h.mem_tables hdb.zero
  have hreads := reads_lookup hdb.numbered.ascending key
  have hreads' := reads_lookup hready.numbered.ascending key
  change Reads (copies {t | t ∈ db'.tables} key) _ at hreads'
  rw [hset, copies_union] at hreads'
  rw [DbInner.get_eq_answer hready.sound, DbInner.get_eq_answer hdb.sound, h.memtable,
    SortedMap.get?_empty]
  have hentry : sst.entries.get? key = (db.memtable.get? key).map toSstEntry := by
    rw [h.holds.entries_eq, SortedMap.get?_map]
  cases hmem : db.memtable.get? key with
  | none =>
    rw [hmem] at hentry
    have hempty : copies {(0, sst)} key = ∅ := copiesIn_singleton_none hentry
    rw [hempty, Set.union_empty] at hreads'
    rw [hreads'.unique hreads]
  | some entry =>
    rw [hmem] at hentry
    have hsingle : copies {(0, sst)} key = {⟨0, sst.id, toSstEntry entry⟩} :=
      copiesIn_singleton_some hentry
    rw [hsingle] at hreads'
    have htop : Top (copies {t | t ∈ db.tables} key ∪ {⟨0, sst.id, toSstEntry entry⟩})
        ⟨0, sst.id, toSstEntry entry⟩ := by
      refine Top.of_newest rfl fun a ha _ => ?_
      obtain ⟨t, ht, -, hid, -⟩ := ha
      rw [← hid]
      exact (hdb.numbered.below t ht).trans_le h.fresh
    have hfirst : Reads _ (some (toSstEntry entry)) := ⟨_, htop, rfl⟩
    have heq := hreads'.unique hfirst
    rw [heq]
    cases entry <;> rfl

end Flushed

theorem settled_truncate (dir : Dir) :
    settled ((FileOp.setLen walFile 0).apply dir) =
      Function.update (settled dir) walFile (some []) := by
  rw [FileOp.apply, List.take_zero, Nat.zero_sub, List.replicate_zero, List.append_nil]
  exact settled_insert fixed_names.2.2.1 []

section Calls

variable [BloomSizing]

/-- `flush` of a memtable that is not empty, up to the compaction it starts. -/
def flushTable : OpM Unit := do
  let w ← get
  let sst ← writeLevelFile 0 (w.inner.memtable.map toSstEntry)
  hit .beforeWalTruncation
  onDisk (Disk.perform (.setLen walFile 0))
  hit .afterWalTruncation
  hit .beforeMetadataUpdate
  update fun db => { db with levels := db.levels.modify 0 fun files => files ++ [sst],
                             memtable := ∅ }
  hit .afterMetadataUpdate

theorem flush_eq (fuel : Nat) :
    flush fuel = (do
      let w ← get
      if w.inner.memtable = ∅ then pure () else flushTable >>= fun _ => compactPending fuel) := by
  rw [flush]
  funext w
  show (if w.inner.memtable = ∅ then _ else _ : OpM Unit) w =
    (if w.inner.memtable = ∅ then _ else _ : OpM Unit) w
  split
  · rfl
  · simp only [flushTable, bind_assoc]
    rfl

/-- A flushed memtable: its file is there, the log is empty, the handle knows the table. -/
structure FlushDone (w w' : World) (sst : SSTable) : Prop where
  memtable : w'.inner.memtable = ∅
  levels : w'.inner.levels = w.inner.levels.modify 0 fun files => files ++ [sst]
  wrote : ∃ w₁, Wrote 0 (w.inner.memtable.map toSstEntry) w w₁ sst ∧ w₁.Frame w' ∧
    w'.files = Function.update w₁.files walFile (some [])

/-- Where `flushTable` can be cut off. -/
inductive FlushExit (w w' : World) : Prop where
  | writing (data : w.inner.SameData w'.inner)
      (files : w'.files = w.files ∨ FileAdded 0 (w.inner.memtable.map toSstEntry) w w')
  | written (sst : SSTable) (w₁ : World)
      (wrote : Wrote 0 (w.inner.memtable.map toSstEntry) w w₁ sst)
      (data : w.inner.SameData w'.inner) (frame : w₁.Frame w')
      (files : w'.files = w₁.files ∨ w'.files = Function.update w₁.files walFile (some []))
  | flushed (sst : SSTable) (done : FlushDone w w' sst)

theorem wp_flushTable (w : World) :
    Wp flushTable (fun _ w' => ∃ sst, FlushDone w w' sst) (fun _ w' => FlushExit w w') w := by
  rw [flushTable]
  refine Wp.bind (Wp.get (Wp.bind ((wp_writeLevelFile (by decide) w).mono ?_
    fun e w' h => .writing h.data h.files)))
  intro sst w₁ hwrote
  refine Wp.bind ((wp_passed _ w₁).mono (fun _ w₂ hpass₂ => ?_) fun _ w' hpass =>
    .written sst w₁ hwrote (hwrote.data.trans hpass.data) hpass.frame (Or.inl hpass.files))
  have hdata₂ := hwrote.data.trans hpass₂.data
  -- the log is cut as a whole
  have hcut : Wp (Disk.perform (.setLen walFile 0))
      (fun _ disk => settled disk.dir = Function.update w₁.files walFile (some []))
      (fun _ disk => settled disk.dir = w₁.files ∨
        settled disk.dir = Function.update w₁.files walFile (some [])) w₂.disk := by
    have hdir : settled ((FileOp.setLen walFile 0).apply w₂.disk.dir) =
        Function.update w₁.files walFile (some []) := by rw [settled_truncate, hpass₂.disk]
    refine Disk.wp_perform (fun stop _ => hdir) fun cut _ => ?_
    cases cut with
    | zero => exact Or.inl hpass₂.files
    | succ cut => exact Or.inr hdir
  refine Wp.bind (Wp.onPart ((hcut.and (Disk.along_perform _ w₂.disk)).mono ?_ ?_))
  case refine_2 =>
    intro _ disk h
    exact .written sst w₁ hwrote ⟨hdata₂.memtable, hdata₂.levels⟩
      (hpass₂.frame.trans ⟨h.2, rfl, rfl, le_rfl, le_rfl⟩) h.1
  intro _ disk₃ h
  obtain ⟨w₃, hw₃⟩ : ∃ w₃ : World, w₃ = { w₂ with disk := disk₃ } := ⟨_, rfl⟩
  rw [← hw₃]
  have hfiles₃ : w₃.files = Function.update w₁.files walFile (some []) := by rw [hw₃]; exact h.1
  have hframe₃ : w₁.Frame w₃ := by
    rw [hw₃]
    exact hpass₂.frame.trans ⟨h.2, rfl, rfl, le_rfl, le_rfl⟩
  have hdata₃ : w.inner.SameData w₃.inner := by rw [hw₃]; exact hdata₂
  clear hw₃ h
  refine Wp.bind ((wp_passed _ w₃).mono (fun _ w₄ hpass₄ => ?_) fun _ w' hpass =>
    .written sst w₁ hwrote (hdata₃.trans hpass.data) (hframe₃.trans hpass.frame)
      (Or.inr (hpass.files.trans hfiles₃)))
  have hdata₄ := hdata₃.trans hpass₄.data
  have hframe₄ := hframe₃.trans hpass₄.frame
  have hfiles₄ := hpass₄.files.trans hfiles₃
  refine Wp.bind ((wp_passed _ w₄).mono (fun _ w₅ hpass₅ => ?_) fun _ w' hpass =>
    .written sst w₁ hwrote (hdata₄.trans hpass.data) (hframe₄.trans hpass.frame)
      (Or.inr (hpass.files.trans hfiles₄)))
  have hdata₅ := hdata₄.trans hpass₅.data
  have hframe₅ := hframe₄.trans hpass₅.frame
  have hfiles₅ := hpass₅.files.trans hfiles₄
  have hdone : ∀ w₆ w' : World, w₆ = { w₅ with inner := { w₅.inner with
      levels := w₅.inner.levels.modify 0 fun files => files ++ [sst], memtable := ∅ } } →
      w₆.Passed w' → FlushDone w w' sst := by
    intro w₆ w' hw₆ hpass
    have hframe₆ : w₅.Frame w₆ := by
      rw [hw₆]
      exact ⟨Disk.Frame.refl _, rfl, rfl, le_rfl, le_rfl⟩
    refine ⟨?_, ?_, w₁, hwrote, (hframe₅.trans hframe₆).trans hpass.frame, ?_⟩
    · rw [hpass.data.memtable, hw₆]
    · rw [hpass.data.levels, hw₆, hdata₅.levels]
    · rw [hpass.files, hw₆]
      exact hfiles₅
  refine Wp.bind (Wp.modify ?_)
  exact (wp_passed _ _).mono (fun _ w' hpass => ⟨sst, hdone _ w' rfl hpass⟩)
    fun _ w' hpass => .flushed sst (hdone _ w' rfl hpass)

theorem FlushDone.flushed {w w' : World} {sst : SSTable} (h : FlushDone w w' sst)
    (hfits : w'.disk.Fits) : Flushed w.inner w'.inner sst := by
  obtain ⟨w₁, hwrote, hframe, -⟩ := h.wrote
  refine ⟨h.memtable, h.levels, hwrote.holds (hframe.disk.fits hfits), hwrote.id.ge, ?_⟩
  have := hwrote.id
  have := hwrote.nextSstId
  have := hframe.nextSstId
  omega

theorem Ready.flushDone {w w' : World} {sst : SSTable} (h : Ready w.inner)
    (hdone : FlushDone w w' sst) (hfits : w'.disk.Fits) : Preserved w.inner w'.inner :=
  have hflushed := hdone.flushed hfits
  ⟨hflushed.ready h, hflushed.get_eq h⟩

theorem Ready.of_flushExit {w w' : World} (h : Ready w.inner) (hexit : FlushExit w w')
    (hframe : w.Frame w') (hfits : w'.disk.Fits) : Preserved w.inner w'.inner := by
  cases hexit with
  | writing hdata _ => exact h.of_sameData hdata hframe.nextSstId
  | written _ _ _ hdata _ _ => exact h.of_sameData hdata hframe.nextSstId
  | flushed sst hdone => exact h.flushDone hdone hfits

theorem along_flushTable : Along World.Frame flushTable := by
  refine .bind .trans (.get .refl) fun w => .bind .trans (along_writeLevelFile _ _) fun sst => ?_
  refine .bind .trans (along_hit _) fun _ => .bind .trans (along_onDisk (Disk.along_perform _))
    fun _ => .bind .trans (along_hit _) fun _ => .bind .trans (along_hit _) fun _ => ?_
  refine .bind .trans (along_update ?_ ?_ ?_) fun _ => along_hit _
  · exact fun _ => rfl
  · exact fun _ => rfl
  · exact fun _ => Nat.le_refl _

end Calls

/-! ## Writing a record -/

/-- `writeRecord` up to the flush it starts. -/
def logRecord (record : WalRecord) (key : String) (entry : MemtableEntry) : OpM Unit := do
  hit .beforeWalAppend
  appendRecord record
  hit .afterWalAppend
  hit .afterWalFsync
  update fun db => { db with memtable := db.memtable.insert key entry }
  hit .afterMemtableUpdate

theorem writeRecord_eq [BloomSizing] (fuel : Nat) (record : WalRecord) (key : String)
    (entry : MemtableEntry) :
    writeRecord fuel record key entry = logRecord record key entry >>= fun _ => (do
      let w ← get
      if w.inner.options.flushThreshold ≤ w.inner.memtable.size then flush fuel else pure ()) := by
  simp only [writeRecord, logRecord, bind_assoc]

/-- The log with these bytes at its end. -/
def appended (files : String → Option Bytes) (data : Bytes) : String → Option Bytes :=
  Function.update files walFile (some ((files walFile).getD [] ++ data))

theorem settled_append (dir : Dir) (data : Bytes) :
    settled ((FileOp.append walFile data).apply dir) = appended (settled dir) data := by
  rw [FileOp.apply, settled_insert fixed_names.2.2.1, appended, FileOp.contentOf,
    settled_of_not_tmp fixed_names.2.2.1]

/-- The record is in the log and in the memtable. -/
structure Logged (record : WalRecord) (key : String) (entry : MemtableEntry) (w w' : World) :
    Prop where
  memtable : w'.inner.memtable = w.inner.memtable.insert key entry
  levels : w'.inner.levels = w.inner.levels
  nextSstId : w'.inner.nextSstId = w.inner.nextSstId
  files : w'.files = appended w.files record.encode

/-- Where `logRecord` can be cut off. -/
inductive LogExit (record : WalRecord) (key : String) (entry : MemtableEntry) (w w' : World) :
    Prop where
  | cut (data : w.inner.SameData w'.inner) (nextSstId : w'.inner.nextSstId = w.inner.nextSstId)
      (files : w'.files = w.files ∨ ∃ n, w'.files = appended w.files (record.encode.take n))
  | logged (done : Logged record key entry w w')

theorem wp_logRecord (record : WalRecord) (key : String) (entry : MemtableEntry) (w : World) :
    Wp (logRecord record key entry) (fun _ w' => Logged record key entry w w')
      (fun _ w' => LogExit record key entry w w') w := by
  rw [logRecord]
  refine Wp.bind ((wp_passed _ w).mono (fun _ w₁ hpass₁ => ?_) fun _ w' hpass =>
    .cut hpass.data hpass.nextSstId (Or.inl hpass.files))
  -- from here on the record is in the log as a whole
  have hrest : ∀ w₂ : World, w.inner.SameData w₂.inner →
      w₂.inner.nextSstId = w.inner.nextSstId → w₂.files = appended w.files record.encode →
      Wp (hit .afterWalAppend >>= fun _ => hit .afterWalFsync >>= fun _ =>
          update (fun db => { db with memtable := db.memtable.insert key entry }) >>= fun _ =>
          hit .afterMemtableUpdate)
        (fun _ w' => Logged record key entry w w') (fun _ w' => LogExit record key entry w w')
        w₂ := by
    intro w₂ hdata₂ hnext₂ hfiles₂
    have hwhole : ∀ w' : World, w'.files = w₂.files →
        ∃ n, w'.files = appended w.files (record.encode.take n) := fun w' hfiles =>
      ⟨record.encode.length, by rw [List.take_length, hfiles, hfiles₂]⟩
    refine Wp.bind ((wp_passed _ w₂).mono (fun _ w₃ hpass₃ => ?_) fun _ w' hpass =>
      .cut (hdata₂.trans hpass.data) (hpass.nextSstId.trans hnext₂)
        (Or.inr (hwhole w' hpass.files)))
    refine Wp.bind ((wp_passed _ w₃).mono (fun _ w₄ hpass₄ => ?_) fun _ w' hpass =>
      .cut ((hdata₂.trans hpass₃.data).trans hpass.data)
        ((hpass.nextSstId.trans hpass₃.nextSstId).trans hnext₂)
        (Or.inr (hwhole w' (hpass.files.trans hpass₃.files))))
    have hdata₄ := (hdata₂.trans hpass₃.data).trans hpass₄.data
    have hdone : ∀ w₅ w' : World, w₅ = { w₄ with inner := { w₄.inner with
        memtable := w₄.inner.memtable.insert key entry } } → w₅.Passed w' →
        Logged record key entry w w' := by
      intro w₅ w' hw₅ hpass
      refine ⟨?_, ?_, ?_, ?_⟩
      · rw [hpass.data.memtable, hw₅, hdata₄.memtable]
      · rw [hpass.data.levels, hw₅, hdata₄.levels]
      · rw [hpass.nextSstId, hw₅]
        exact (hpass₄.nextSstId.trans hpass₃.nextSstId).trans hnext₂
      · rw [hpass.files, hw₅]
        exact (hpass₄.files.trans hpass₃.files).trans hfiles₂
    refine Wp.bind (Wp.modify ?_)
    exact (wp_passed _ _).mono (fun _ w' hpass => hdone _ w' rfl hpass)
      fun _ w' hpass => .logged (hdone _ w' rfl hpass)
  rw [appendRecord]
  refine Wp.bind (Wp.ite (fun _ => Wp.throw (.cut hpass₁.data hpass₁.nextSstId
    (Or.inl hpass₁.files))) fun _ => ?_)
  refine Wp.onPart (Disk.wp_perform (fun stop _ => ?_) fun cut _ => ?_)
  · refine hrest _ hpass₁.data hpass₁.nextSstId ?_
    show settled ((FileOp.append walFile record.encode).apply w₁.disk.dir) = _
    rw [settled_append, hpass₁.disk]
  · refine .cut hpass₁.data hpass₁.nextSstId ?_
    cases cut with
    | zero => exact Or.inl hpass₁.files
    | succ n =>
      refine Or.inr ⟨n, ?_⟩
      show settled ((FileOp.append walFile (record.encode.take n)).apply w₁.disk.dir) = _
      rw [settled_append, hpass₁.disk]

theorem along_logRecord (record : WalRecord) (key : String) (entry : MemtableEntry) :
    Along World.Frame (logRecord record key entry) := by
  refine .bind .trans (along_hit _) fun _ => .bind .trans ?_ fun _ => ?_
  · exact .ite (.throw .refl _) (along_onDisk (Disk.along_perform _))
  refine .bind .trans (along_hit _) fun _ => .bind .trans (along_hit _) fun _ => ?_
  refine .bind .trans (along_update ?_ ?_ ?_) fun _ => along_hit _
  · exact fun _ => rfl
  · exact fun _ => rfl
  · exact fun _ => Nat.le_refl _

section Records

variable {record : WalRecord} {key : String} {entry : MemtableEntry} {w w' : World}

theorem Logged.sameTables (h : Logged record key entry w w') :
    w'.inner.tables = w.inner.tables := DbInner.mem_tables_congr h.levels

theorem Logged.ready (h : Logged record key entry w w') (hw : Ready w.inner) : Ready w'.inner :=
  ⟨hw.toCoherent.of_levels_eq h.levels h.nextSstId.ge, h.levels ▸ hw.zero⟩

/-- The written key reads as the entry says, every other as before. -/
theorem Logged.get_eq (h : Logged record key entry w w') (hw : Ready w.inner) (k : String) :
    w'.inner.get k =
      if k = key then .ok (MemtableIterator.valueOf entry) else w.inner.get k := by
  rw [DbInner.get_eq_answer (h.ready hw).sound, DbInner.get_eq_answer hw.sound, h.memtable,
    h.levels, SortedMap.get?_insert]
  split
  · rfl
  · rfl

end Records

end PebbleDB
