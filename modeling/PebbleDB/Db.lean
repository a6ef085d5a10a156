import PebbleDB.DbInner
import PebbleDB.Disk
import PebbleDB.Wal

/-!
# The operations of a handle

The writing methods of `src/db.rs`, with the fault points and the file operations in the order of
the source. A method runs on the handle and the directory together and may exit at each of
them. The loop of `compact_pending` runs under a step bound that its callers pass on.
-/

namespace PebbleDB

open EarlyExit

/-- An open handle on its directory. -/
structure World where
  inner : DbInner
  disk : Disk

/-- A method of a handle: it may end at any step, with what it has done so far. -/
abbrev OpM := EStateM Exit World

/-- An operation on the directory, which leaves the handle alone. -/
def onDisk {α : Type} (x : DiskM α) : OpM α := onPart World.disk (fun disk w => { w with disk }) x

/-- A change of the fields of the handle. -/
def update (f : DbInner → DbInner) : OpM Unit := modify fun w => { w with inner := f w.inner }

/-- `self.fault.hit(point)?` -/
def hit (point : FaultPoint) : OpM Unit := fun w =>
  let (result, fault) := w.inner.fault.hit point
  match result with
  | .ok () => .ok () { w with inner := { w.inner with fault } }
  | .error e => .error e { w with inner := { w.inner with fault } }

/-! ## Tables and the merge marker -/

section Writing

variable [BloomSizing]

/-- `write_level_file`. The increment of the id counter panics when it does not fit. -/
def writeLevelFile (level : Nat) (entries : SortedMap String SSTableEntry) : OpM SSTable := do
  let w ← get
  let id := w.inner.nextSstId
  if 2 ^ 64 ≤ id + 1 then
    throw .panic
  else
    update fun db => { db with nextSstId := db.nextSstId + 1 }
    let fileName := sstableFileName level id
    hit .beforeSstableCreation
    let file ← fromExcept (SSTable.writeSstable entries)
    onDisk (Disk.perform (.write (tmpName fileName) file))
    hit .afterSstableWrite
    hit .beforeAtomicRename
    onDisk (Disk.renameFile (tmpName fileName) fileName)
    hit .afterAtomicRename
    let data ← onDisk (Disk.readFile fileName)
    fromExcept (SSTable.load id fileName data)

/-- `write_pending_merge` -/
def writePendingMerge (outputs inputs : List Nat) : DiskM Unit := do
  Disk.perform (.write (tmpName mergePendingFile) (asBytes (markerText outputs inputs)))
  Disk.renameFile (tmpName mergePendingFile) mergePendingFile

/-- `clear_pending_merge` -/
def clearPendingMerge : DiskM Unit := do
  let found ← Disk.fileExists mergePendingFile
  if found then Disk.removeFile mergePendingFile else pure ()

/-! ## Compaction jobs -/

/-- `CompactionJob`: tables with their levels, and how they are merged. -/
structure CompactionJob where
  inputs : List (Nat × SSTable)
  outputLevel : Nat
  dropTombstones : Bool
  targetFileSize : Nat

/-- The comparison of `sources.sort_by`: by level, and from the newest file of a level on. -/
def sourceLe (a b : Nat × SSTable) : Prop := a.1 < b.1 ∨ (a.1 = b.1 ∧ b.2.id ≤ a.2.id)

instance : DecidableRel sourceLe := fun _ _ => inferInstanceAs (Decidable (_ ∨ _))

/-- The inputs in the order in which `execute_job` merges them: of the records of a key the first one
wins. -/
def CompactionJob.sources (job : CompactionJob) : List (Nat × SSTable) :=
  job.inputs.insertionSort sourceLe

/-- `record_size`, the bytes of a record in the file. -/
def recordSize (key : String) (entry : SSTableEntry) : Nat :=
  let valueLen := match entry with
    | .value value => (asBytes value).length
    | .tombstone => 0
  1 + 4 + 4 + (asBytes key).length + valueLen

/-- The local variables of the merge loop of `execute_job`. -/
structure MergeState where
  outputs : List SSTable
  current : SortedMap String SSTableEntry
  currentBytes : Nat

/-- The entry under a merged cursor. -/
def mergedEntry : Option String → SSTableEntry
  | some value => .value value
  | none => .tombstone

/-- The loop `while merged.valid()` of `execute_job`. -/
def mergeLoop (job : CompactionJob) :
    Nat → MergeIterator SSTableIterator → MergeState → OpM MergeState
  | 0, _, _ => throw .outOfFuel
  | fuel + 1, merged, st =>
    if merged.valid then
      match merged.key with
      | none => throw .panic
      | some key => do
        let entry := mergedEntry merged.value
        let merged ← fromExcept merged.advance
        if job.dropTombstones ∧ entry = .tombstone then
          mergeLoop job fuel merged st
        else
          let currentBytes := st.currentBytes + recordSize key entry
          let current := st.current.insert key entry
          if job.targetFileSize ≤ currentBytes then
            let sst ← writeLevelFile job.outputLevel current
            mergeLoop job fuel merged ⟨st.outputs ++ [sst], ∅, 0⟩
          else
            mergeLoop job fuel merged ⟨st.outputs, current, currentBytes⟩
    else pure st

/-- The files `execute_job` writes. -/
def writeOutputs (job : CompactionJob) : OpM (List SSTable) := do
  let merged ← fromExcept
    (MergeIterator.newWithTombstones (job.sources.map fun source => SSTableIterator.new source.2))
  let st ← mergeLoop job (merged.bound + 1) merged ⟨[], ∅, 0⟩
  if st.current = ∅ then
    return st.outputs
  else
    let sst ← writeLevelFile job.outputLevel st.current
    return st.outputs ++ [sst]

/-- The loop of `execute_job` that removes the input files; a removal that fails is ignored. -/
def deleteInputs : List (Nat × SSTable) → OpM Unit
  | [] => pure ()
  | (_, sst) :: inputs => do
    hit .beforeObsoleteFileDelete
    onDisk (Disk.tryRemoveFile sst.path)
    deleteInputs inputs

/-- `target.sort_by_key(|sst| sst.id)` -/
def sortById (files : List SSTable) : List SSTable :=
  files.insertionSort (fun a b => a.id ≤ b.id)

/-- The metadata update of `execute_job`. -/
def DbInner.applyJob (db : DbInner) (job : CompactionJob) (outputs : List SSTable) : DbInner :=
  let retained := db.levels.map fun files =>
    files.filter fun sst => ¬ job.inputs.any fun input => input.2.id = sst.id
  let db := { db with levels := retained }.ensureLevel job.outputLevel
  { db with levels := db.levels.modify job.outputLevel fun files => sortById (files ++ outputs) }

/-- `execute_job`: the outputs are written and the marker behind them, then the inputs deleted and the
levels changed, and the marker goes last. -/
def executeJob (job : CompactionJob) : OpM Unit := do
  let outputs ← writeOutputs job
  hit .afterCompactionOutputCreation
  onDisk (writePendingMerge (outputs.map SSTable.id) (job.inputs.map fun input => input.2.id))
  deleteInputs job.inputs
  hit .afterObsoleteFileDelete
  hit .beforeMetadataUpdate
  update fun db => db.applyJob job outputs
  hit .afterMetadataUpdate
  onDisk clearPendingMerge

/-- The files of one level of a plan. -/
def planLevel (plan : CompactionPlan) (next level : Nat) (files : List SSTable) :
    List (Nat × SSTable) :=
  if level = plan.level then
    (files.filter fun sst => plan.inputs.contains sst.id).map fun sst => (level, sst)
  else if level = next then
    (files.filter fun sst => plan.overlaps.contains sst.id).map fun sst => (level, sst)
  else []

/-- The loop of `plan_job` over the levels, numbered from `level`. -/
def planInputs (plan : CompactionPlan) (next : Nat) : Nat → List (List SSTable) →
    List (Nat × SSTable)
  | _, [] => []
  | level, files :: levels =>
    planLevel plan next level files ++ planInputs plan next (level + 1) levels

/-- The job that `compact_pending` makes of a plan. -/
def DbInner.planJob (db : DbInner) (plan : CompactionPlan) : Res CompactionJob := do
  let next ← nextLevel plan.level
  return {
    inputs := planInputs plan next 0 db.levels
    outputLevel := next
    dropTombstones := plan.dropTombstones
    targetFileSize := db.options.targetFileSize }

/-- `compact_pending` runs the jobs that `pick_compaction` finds until it finds none. -/
def compactPending : Nat → OpM Unit
  | 0 => throw .outOfFuel
  | fuel + 1 => do
    let w ← get
    let picked ← fromExcept (pickCompaction w.inner.fileMetas w.inner.options.levelConfig)
    match picked with
    | none => pure ()
    | some plan =>
      let job ← fromExcept (w.inner.planJob plan)
      executeJob job
      compactPending fuel

/-- All tables with their levels, numbered from `level`. -/
def tablesFrom : Nat → List (List SSTable) → List (Nat × SSTable)
  | _, [] => []
  | level, files :: levels => files.map (fun sst => (level, sst)) ++ tablesFrom (level + 1) levels

/-- `compact_full` merges all tables into one of level one, without a target size. -/
def compactFull : OpM Unit := do
  let w ← get
  if w.inner.sstCount ≤ 1 then
    pure ()
  else
    executeJob {
      inputs := tablesFrom 0 w.inner.levels
      outputLevel := 1
      dropTombstones := true
      targetFileSize := 2 ^ 64 - 1 }

/-! ## Reads and writes of a key -/

/-- The entry of a table for an entry of the memtable. -/
def toSstEntry : MemtableEntry → SSTableEntry
  | .value v => .value v
  | .tombstone => .tombstone

/-- `flush`. A new database has level zero, so `self.levels[0]` exists. -/
def flush (fuel : Nat) : OpM Unit := do
  let w ← get
  if w.inner.memtable = ∅ then
    pure ()
  else
    let sst ← writeLevelFile 0 (w.inner.memtable.map toSstEntry)
    hit .beforeWalTruncation
    onDisk (Disk.perform (.setLen walFile 0))
    hit .afterWalTruncation
    hit .beforeMetadataUpdate
    update fun db => { db with levels := db.levels.modify 0 fun files => files ++ [sst],
                               memtable := ∅ }
    hit .afterMetadataUpdate
    compactPending fuel

/-- `WalWriter::append_record` -/
def appendRecord (record : WalRecord) : OpM Unit :=
  if record.totalLenOverflows then throw .panic
  else onDisk (Disk.perform (.append walFile record.encode))

/-- What `set` and `delete` share: log the record, put the entry into the memtable, and flush a
full one. -/
def writeRecord (fuel : Nat) (record : WalRecord) (key : String) (entry : MemtableEntry) :
    OpM Unit := do
  hit .beforeWalAppend
  appendRecord record
  hit .afterWalAppend
  hit .afterWalFsync
  update fun db => { db with memtable := db.memtable.insert key entry }
  hit .afterMemtableUpdate
  let w ← get
  if w.inner.options.flushThreshold ≤ w.inner.memtable.size then flush fuel else pure ()

/-- `PebbleDB::set` -/
def set (fuel : Nat) (key value : String) : OpM Unit :=
  writeRecord fuel (.set key value) key (.value value)

/-- `PebbleDB::delete` -/
def delete (fuel : Nat) (key : String) : OpM Bool := do
  let w ← get
  let existed ← fromExcept (w.inner.getInner key)
  writeRecord fuel (.delete key) key .tombstone
  return existed.isSome

end Writing

/-! ## Opening -/

/-- The first loop of `open_with_options`. -/
def removeTmpFiles : List String → DiskM Unit
  | [] => pure ()
  | name :: names => do
    if isTmp name then
      Disk.removeFile name
      removeTmpFiles names
    else
      removeTmpFiles names

/-- `read_pending_merge` -/
def readPendingMerge : DiskM (Option (List Nat × List Nat)) := do
  let found ← Disk.fileExists mergePendingFile
  if found then
    let data ← Disk.readFile mergePendingFile
    match fromUtf8 data with
    | none => throw (.error (.io .invalidData))
    | some content => return some (parsePending content)
  else return none

/-- The table files among the names, with their ids. -/
def sstableIds (names : List String) : List (Nat × String) :=
  names.filterMap fun name => (parseSstableFileName name).map fun (id, _) => (id, name)

/-- The loop of `finish_pending_merge` that removes the inputs. -/
def removeInputs (inputs : List Nat) : List (Nat × String) → DiskM Unit
  | [] => pure ()
  | (id, name) :: files => do
    if inputs.contains id then
      Disk.removeFile name
      removeInputs inputs files
    else
      removeInputs inputs files

/-- `finish_pending_merge`: if the outputs that the marker names are all there, the inputs that are left
are removed. The marker is removed in any case. -/
def finishPendingMerge : DiskM Unit := do
  let pending ← readPendingMerge
  match pending with
  | none => pure ()
  | some (outputs, inputs) =>
    let names ← Disk.readDir 1
    let files := sstableIds names
    if outputs.all fun id => files.any fun file => file.1 = id then
      removeInputs inputs files
      Disk.removeFile mergePendingFile
    else
      Disk.removeFile mergePendingFile

/-- A table file as `discover_sstables` finds it. -/
structure Discovered where
  id : Nat
  level : Nat
  name : String
  deriving DecidableEq, Repr

/-- `discover_sstables` of the listed names. -/
def discoverSstables (names : List String) : List Discovered :=
  (names.filterMap fun name =>
    (parseSstableFileName name).map fun (id, level) => ⟨id, level, name⟩).insertionSort
      fun a b => a.id ≤ b.id

/-- `levels[level].push(sst)` after the missing levels have been added. -/
def pushTable (levels : List (List SSTable)) (level : Nat) (sst : SSTable) :
    List (List SSTable) :=
  (levels ++ List.replicate (level + 1 - levels.length) []).modify level fun files => files ++ [sst]

/-- `id.max(next_sst_id) + 1` -/
def bumpId (id next : Nat) : Res Nat :=
  if max id next + 1 < 2 ^ 64 then .ok (max id next + 1) else .error .panic

/-- The loop of `open_with_options` over the discovered tables. -/
def loadTables : List Discovered → List (List SSTable) → Nat → DiskM (List (List SSTable) × Nat)
  | [], levels, next => return (levels, next)
  | found :: rest, levels, next => do
    let data ← Disk.readFile found.name
    let sst ← fromExcept (SSTable.load found.id found.name data)
    let next ← fromExcept (bumpId found.id next)
    loadTables rest (pushTable levels found.level sst) next

/-- The memtable after one more record of the log. -/
def replayRecord (memtable : SortedMap String MemtableEntry) :
    WalRecord → SortedMap String MemtableEntry
  | .set key value => memtable.insert key (.value value)
  | .delete key => memtable.insert key .tombstone

/-- The memtable that the log stands for. -/
def replay (records : List WalRecord) : SortedMap String MemtableEntry :=
  records.foldl replayRecord ∅

/-- The replay of the log in `open_with_options`. -/
def recoverWal : DiskM (SortedMap String MemtableEntry) := do
  let found ← Disk.fileExists walFile
  if found then
    let data ← Disk.readFile walFile
    let recovery ← fromExcept (recover data)
    if recovery.validLen < data.length then
      Disk.perform (.setLen walFile recovery.validLen)
      return replay recovery.records
    else
      return replay recovery.records
  else
    return ∅

/-- `PebbleDB::open_with_options` -/
def openWithOptions (options : DbOptions) : DiskM DbInner := do
  let names ← Disk.readDir 0
  removeTmpFiles names
  finishPendingMerge
  let names ← Disk.readDir 2
  let (levels, nextSstId) ← loadTables (discoverSstables names) [[]] 0
  let memtable ← recoverWal
  Disk.perform (.create walFile)
  return {
    memtable := memtable
    levels := levels
    nextSstId := nextSstId
    options := options
    fault := FaultInjector.new options.fault }

end PebbleDB
