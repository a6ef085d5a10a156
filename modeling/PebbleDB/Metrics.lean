import PebbleDB.LiveRun

/-!
# Metrics and statistics

What `src/db.rs` counts while it works, and what `stats` makes of it. The operations are those of
`PebbleDB.Db` with the lines in between that count; on the handle and the directory they do the same
(`Metered.projects_call`). `Metrics` stands behind the lock of the handle and its numbers are natural
numbers here; the counters of the reads are atomic and wrap around.
-/

namespace PebbleDB

open EarlyExit

/-- `JobOutcome`: what a job has read and written. -/
structure JobOutcome where
  bytesRead : Nat
  bytesWritten : Nat
  inputFiles : Nat
  outputFiles : Nat

/-- `Metrics`, as numbers: a `u64` of the source is this number while it is below `2 ^ 64`. -/
structure Metrics where
  compactions : Nat := 0
  fullCompactions : Nat := 0
  compactionsByLevel : List Nat := []
  bytesRead : Nat := 0
  bytesWritten : Nat := 0
  inputFiles : Nat := 0
  outputFiles : Nat := 0
  bytesFlushed : Nat := 0
  deriving DecidableEq, Repr

/-- The three atomic counters of a handle, which wrap. -/
structure AtomicCounters where
  memtableHits : UInt64 := 0
  bloomRejects : UInt64 := 0
  blockReads : UInt64 := 0
  deriving DecidableEq, Repr

namespace Metrics

/-- `compactions_by_level.resize(index + 1, 0)` for a missing index, and the increment. -/
def countLevel (counts : List Nat) (index : Nat) : List Nat :=
  (counts ++ List.replicate (index + 1 - counts.length) 0).modify index (· + 1)

/-- `Metrics::record` -/
def record (metrics : Metrics) (level : Option Nat) (outcome : JobOutcome) : Metrics :=
  let metrics := { metrics with
    compactions := metrics.compactions + 1
    bytesRead := metrics.bytesRead + outcome.bytesRead
    bytesWritten := metrics.bytesWritten + outcome.bytesWritten
    inputFiles := metrics.inputFiles + outcome.inputFiles
    outputFiles := metrics.outputFiles + outcome.outputFiles }
  match level with
  | some level =>
    { metrics with compactionsByLevel := countLevel metrics.compactionsByLevel level }
  | none => { metrics with fullCompactions := metrics.fullCompactions + 1 }

end Metrics

/-- A handle with what it counts. -/
structure Metered where
  world : World
  metrics : Metrics := {}
  counters : AtomicCounters := {}

/-- A method of a handle that counts. -/
abbrev MeterM := EStateM Exit Metered

namespace Metered

/-- A part of an operation that counts nothing. -/
def plain {α : Type} (x : OpM α) : MeterM α :=
  onPart Metered.world (fun world m => { m with world }) x

/-- A change of the metrics. -/
def count (f : Metrics → Metrics) : MeterM Unit :=
  modify fun m => { m with metrics := f m.metrics }

/-- `fetch_add` on one of the counters. -/
def bump (f : AtomicCounters → AtomicCounters) : MeterM Unit :=
  modify fun m => { m with counters := f m.counters }

/-! ## Operations -/

section Operations

variable [BloomSizing]

/-- `execute_job` with its outcome. -/
def executeJob (job : CompactionJob) : OpM JobOutcome := do
  let outputs ← writeOutputs job
  hit .afterCompactionOutputCreation
  onDisk (writePendingMerge (outputs.map SSTable.id) (job.inputs.map fun input => input.2.id))
  deleteInputs job.inputs
  hit .afterObsoleteFileDelete
  hit .beforeMetadataUpdate
  update fun db => db.applyJob job outputs
  hit .afterMetadataUpdate
  onDisk clearPendingMerge
  return {
    bytesRead := (job.inputs.map fun input => input.2.fileSize).sum
    bytesWritten := (outputs.map SSTable.fileSize).sum
    inputFiles := job.inputs.length
    outputFiles := outputs.length }

/-- `compact_pending` records each job that returns, under the level it took its input from. -/
def compactPending : Nat → MeterM Unit
  | 0 => throw .outOfFuel
  | fuel + 1 => do
    let m ← get
    let picked ← fromExcept
      (pickCompaction m.world.inner.fileMetas m.world.inner.options.levelConfig)
    match picked with
    | none => pure ()
    | some plan =>
      let job ← fromExcept (m.world.inner.planJob plan)
      let outcome ← plain (executeJob job)
      count fun metrics => metrics.record (some plan.level) outcome
      compactPending fuel

/-- `compact_full` records its job as a full compaction. -/
def compactFull : MeterM Unit := do
  let m ← get
  if m.world.inner.sstCount ≤ 1 then
    pure ()
  else
    let outcome ← plain (executeJob {
      inputs := tablesFrom 0 m.world.inner.levels
      outputLevel := 1
      dropTombstones := true
      targetFileSize := 2 ^ 64 - 1 })
    count fun metrics => metrics.record none outcome

/-- `flush` counts the bytes of the file it has written. -/
def flush (fuel : Nat) : MeterM Unit := do
  let m ← get
  if m.world.inner.memtable = ∅ then
    pure ()
  else
    let sst ← plain (writeLevelFile 0 (m.world.inner.memtable.map toSstEntry))
    plain (hit .beforeWalTruncation)
    plain (onDisk (Disk.perform (.setLen walFile 0)))
    plain (hit .afterWalTruncation)
    count fun metrics => { metrics with bytesFlushed := metrics.bytesFlushed + sst.fileSize }
    plain (hit .beforeMetadataUpdate)
    plain (update fun db => { db with levels := db.levels.modify 0 fun files => files ++ [sst],
                                      memtable := ∅ })
    plain (hit .afterMetadataUpdate)
    compactPending fuel

/-- What `set` and `delete` share. -/
def writeRecord (fuel : Nat) (record : WalRecord) (key : String) (entry : MemtableEntry) :
    MeterM Unit := do
  plain (logRecord record key entry)
  let m ← get
  if m.world.inner.options.flushThreshold ≤ m.world.inner.memtable.size then flush fuel else pure ()

/-- `set` counts where it flushes. -/
def set (fuel : Nat) (key value : String) : MeterM Unit :=
  writeRecord fuel (.set key value) key (.value value)

/-- `delete` looks the key up without counting. -/
def delete (fuel : Nat) (key : String) : MeterM Bool := do
  let m ← get
  let existed ← fromExcept (m.world.inner.getInner key)
  writeRecord fuel (.delete key) key .tombstone
  return existed.isSome

/-- A call, with what it replies. -/
def run (fuel : Nat) : Call → MeterM (Option Bool)
  | .set key value => (fun _ => none) <$> set fuel key value
  | .delete key => some <$> delete fuel key
  | .flush => (fun _ => none) <$> flush fuel
  | .compact => (fun _ => none) <$> compactPending fuel
  | .compactFull => (fun _ => none) <$> compactFull

end Operations

/-- The loops of `get` over the tables. -/
def findEntry (key : String) : List SSTable → MeterM (Option SSTableEntry)
  | [] => pure none
  | sst :: tables => do
    let maybe ← fromExcept (sst.bloomMightContain key)
    if maybe then
      bump fun counters => { counters with blockReads := counters.blockReads + 1 }
      let entry ← fromExcept (sst.get key)
      match entry with
      | some entry => return some entry
      | none => findEntry key tables
    else
      bump fun counters => { counters with bloomRejects := counters.bloomRejects + 1 }
      findEntry key tables

/-- `get` counts a value in the memtable as a hit; a tombstone there counts as nothing. -/
def get (key : String) : MeterM (Option String) := do
  let m ← EStateM.get
  match m.world.inner.memtable.get? key with
  | some (.value v) =>
    bump fun counters => { counters with memtableHits := counters.memtableHits + 1 }
    return some v
  | some .tombstone => return none
  | none =>
    let entry ← findEntry key (readOrder m.world.inner.levels)
    return DbInner.entryValue entry

/-! ## Statistics -/

end Metered

/-- `LevelStats` of a level that has files. -/
structure LevelStats where
  level : Nat
  files : Nat
  bytes : Nat

/-- `write_amplification` is the quotient of these two numbers. -/
structure DbStats where
  memtableEntries : Nat
  memtableBytes : Nat
  sstCount : Nat
  totalSstSize : Nat
  sstSizes : List (Nat × Nat)
  walSize : Nat
  memtableHits : UInt64
  bloomRejects : UInt64
  blockReads : UInt64
  compactionsCompleted : Nat
  fullCompactions : Nat
  compactionsByLevel : List (Nat × Nat)
  compactionBytesRead : Nat
  compactionBytesWritten : Nat
  compactionInputFiles : Nat
  compactionOutputFiles : Nat
  bytesFlushed : Nat
  writeAmplification : Option (Nat × Nat)
  levels : List LevelStats

namespace Metered

/-- The bytes of the texts of an entry. -/
def entryBytes (record : String × MemtableEntry) : Nat :=
  (asBytes record.1).length + match record.2 with
    | .value v => (asBytes v).length
    | .tombstone => 0

/-- The bytes of the texts of a memtable. -/
def memtableBytes (memtable : SortedMap String MemtableEntry) : Nat :=
  (memtable.entries.map entryBytes).sum

/-- The loop of `stats_inner` over the levels, numbered from `level`; an empty level is left out. -/
def levelStats : Nat → List (List SSTable) → List LevelStats
  | _, [] => []
  | level, files :: levels =>
    if files = [] then levelStats (level + 1) levels
    else ⟨level, files.length, (files.map SSTable.fileSize).sum⟩ :: levelStats (level + 1) levels

/-- The tables with their sizes, sorted by id. -/
def sstSizes (levels : List (List SSTable)) : List (Nat × Nat) :=
  (levels.flatten.map fun sst => (sst.id, sst.fileSize)).insertionSort fun a b => a.1 ≤ b.1

/-- The counts that are not zero, with their levels. -/
def countedLevels (counts : List Nat) : List (Nat × Nat) :=
  (counts.zipIdx.filter fun x => 0 < x.1).map fun x => (x.2, x.1)

/-- `stats_inner` -/
def stats (m : Metered) : DbStats :=
  let db := m.world.inner
  let sizes := sstSizes db.levels
  { memtableEntries := db.memtable.size
    memtableBytes := memtableBytes db.memtable
    sstCount := db.sstCount
    totalSstSize := (sizes.map Prod.snd).sum
    sstSizes := sizes
    walSize := ((m.world.disk.dir.get? walFile).getD []).length
    memtableHits := m.counters.memtableHits
    bloomRejects := m.counters.bloomRejects
    blockReads := m.counters.blockReads
    compactionsCompleted := m.metrics.compactions
    fullCompactions := m.metrics.fullCompactions
    compactionsByLevel := countedLevels m.metrics.compactionsByLevel
    compactionBytesRead := m.metrics.bytesRead
    compactionBytesWritten := m.metrics.bytesWritten
    compactionInputFiles := m.metrics.inputFiles
    compactionOutputFiles := m.metrics.outputFiles
    bytesFlushed := m.metrics.bytesFlushed
    writeAmplification :=
      if 0 < m.metrics.bytesFlushed then
        some (m.metrics.bytesFlushed + m.metrics.bytesWritten, m.metrics.bytesFlushed)
      else none
    levels := levelStats 0 db.levels }

/-! ## Counting changes nothing else -/

theorem projects_plain {α : Type} (x : OpM α) : Projects Metered.world (plain x) x :=
  .onPart (fun _ _ => rfl) x

section Projection

variable [BloomSizing]

theorem executeJob_eq (job : CompactionJob) :
    PebbleDB.executeJob job = (fun _ => ()) <$> executeJob job := by
  simp [PebbleDB.executeJob, executeJob]

theorem projects_compactPending (fuel : Nat) :
    Projects Metered.world (compactPending fuel) (PebbleDB.compactPending fuel) := by
  induction fuel with
  | zero => exact .throw _
  | succ fuel ih =>
    rw [compactPending, PebbleDB.compactPending]
    refine .get_bind fun m => .bind (.fromExcept _) fun picked => ?_
    cases picked with
    | none => exact .pure ()
    | some plan =>
      refine .bind (.fromExcept _) fun job => ?_
      rw [executeJob_eq, bind_map_left]
      exact .bind (projects_plain _) fun outcome => .modify_bind (fun _ => rfl) ih

theorem projects_compactFull :
    Projects Metered.world compactFull PebbleDB.compactFull := by
  rw [compactFull, PebbleDB.compactFull]
  refine .get_bind fun m => .ite (.pure ()) ?_
  rw [executeJob_eq, map_eq_pure_bind]
  exact .bind (projects_plain _) fun outcome => .modify fun _ => rfl

theorem projects_flush (fuel : Nat) :
    Projects Metered.world (flush fuel) (PebbleDB.flush fuel) := by
  rw [flush, PebbleDB.flush]
  refine .get_bind fun m => .ite (.pure ()) (.bind (projects_plain _) fun sst => ?_)
  refine .bind (projects_plain _) fun _ => .bind (projects_plain _) fun _ =>
    .bind (projects_plain _) fun _ => .modify_bind (fun _ => rfl) ?_
  exact .bind (projects_plain _) fun _ => .bind (projects_plain _) fun _ =>
    .bind (projects_plain _) fun _ => projects_compactPending fuel

theorem projects_writeRecord (fuel : Nat) (record : WalRecord) (key : String)
    (entry : MemtableEntry) : Projects Metered.world (writeRecord fuel record key entry)
      (PebbleDB.writeRecord fuel record key entry) := by
  rw [writeRecord_eq]
  exact .bind (projects_plain _) fun _ => .get_bind fun m => .ite (projects_flush fuel) (.pure ())

/-- A call does the same to the handle and the directory as without the counting. -/
theorem projects_call (fuel : Nat) (call : Call) :
    Projects Metered.world (run fuel call) (call.run fuel) := by
  cases call with
  | set key value => exact .map (projects_writeRecord _ _ _ _)
  | delete key =>
    refine .map (.get_bind fun m => .bind (.fromExcept _) fun existed => ?_)
    exact .bind (projects_writeRecord _ _ _ _) fun _ => .pure _
  | flush => exact .map (projects_flush fuel)
  | compact => exact .map (projects_compactPending fuel)
  | compactFull => exact .map projects_compactFull

end Projection

end Metered

end PebbleDB
