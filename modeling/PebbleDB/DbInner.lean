import PebbleDB.Compaction
import PebbleDB.Fault
import PebbleDB.Iter

/-!
# The state of a handle and its reads

`DbOptions`, `DbInner` and the reading methods of `src/db.rs`. Of `DbInner` the fields that a
modelled method uses are kept: the path is the directory of `PebbleDB.Disk`, where the log is a
file as well; counters and metrics are only reported by `stats`.
-/

namespace PebbleDB

/-- `DbOptions`, without the bounds that `level_config` puts on them. -/
structure DbOptions where
  flushThreshold : Nat
  l0CompactionThreshold : Nat
  levelSizeMultiplier : Nat
  targetLevelSize : Nat
  targetFileSize : Nat
  fault : Option Fault
  deriving DecidableEq, Repr

/-- `DbOptions::default` injects no fault. -/
def DbOptions.default : DbOptions where
  flushThreshold := 1024
  l0CompactionThreshold := 4
  levelSizeMultiplier := 10
  targetLevelSize := 8 * 1024 * 1024
  targetFileSize := 2 * 1024 * 1024
  fault := none

/-- `level_config`, where the options are clamped. -/
def DbOptions.levelConfig (options : DbOptions) : LevelConfig :=
  LevelConfig.new options.l0CompactionThreshold options.levelSizeMultiplier
    options.targetLevelSize

/-- `DbInner`: the memtable, and the tables by level. -/
structure DbInner where
  memtable : SortedMap String MemtableEntry
  levels : List (List SSTable)
  nextSstId : Nat
  options : DbOptions
  fault : FaultInjector
  deriving DecidableEq

/-- The tables in the order in which the nested loops over `levels` and `files.iter().rev()` visit
them. -/
def readOrder (levels : List (List SSTable)) : List SSTable := levels.flatMap List.reverse

namespace DbInner

/-- The loops of `get` over the tables, up to the first that has the key. -/
def findEntry (key : String) : List SSTable → Res (Option SSTableEntry)
  | [] => .ok none
  | sst :: tables => do
    let maybe ← sst.bloomMightContain key
    if maybe then
      let entry ← sst.get key
      match entry with
      | some entry => return some entry
      | none => findEntry key tables
    else findEntry key tables

/-- The result of a read that met this entry. -/
def entryValue : Option SSTableEntry → Option String
  | some (.value v) => some v
  | some .tombstone => none
  | none => none

/-- `PebbleDB::get` -/
def get (db : DbInner) (key : String) : Res (Option String) :=
  match db.memtable.get? key with
  | some (.value v) => .ok (some v)
  | some .tombstone => .ok none
  | none => do
    let entry ← findEntry key (readOrder db.levels)
    return entryValue entry

/-- The loops of `get_inner`, which do not ask the filter first. -/
def findEntryInner (key : String) : List SSTable → Res (Option SSTableEntry)
  | [] => .ok none
  | sst :: tables => do
    let entry ← sst.get key
    match entry with
    | some entry => return some entry
    | none => findEntryInner key tables

/-- `PebbleDB::get_inner` -/
def getInner (db : DbInner) (key : String) : Res (Option String) :=
  match db.memtable.get? key with
  | some (.value v) => .ok (some v)
  | some .tombstone => .ok none
  | none => do
    let entry ← findEntryInner key (readOrder db.levels)
    return entryValue entry

/-- `range_iterator`: the memtable in front, then the tables in the order in which `get` looks at
them. -/
def rangeIterator (db : DbInner) (start stop : Bound) : Res (RangeIterator ChildIterator) := do
  let children := .memtable (MemtableIterator.new db.memtable) ::
    (readOrder db.levels).map fun sst => .sstable (SSTableIterator.new sst)
  let merged ← MergeIterator.new children
  RangeIterator.new merged start stop

/-- `PebbleDB::range`, collected. -/
def range (db : DbInner) (start stop : Bound) : Res (List (String × String)) := do
  let it ← db.rangeIterator start stop
  it.collect

/-- `scan`, a range without bounds. -/
def scan (db : DbInner) : Res (List (String × String)) := db.range .unbounded .unbounded

/-- `keys` of such a range. -/
def keys (db : DbInner) : Res (List String) := do
  let records ← db.range .unbounded .unbounded
  return records.map Prod.fst

/-- `sst_count`, over all levels. -/
def sstCount (db : DbInner) : Nat := (db.levels.map List.length).sum

/-- `ensure_level` -/
def ensureLevel (db : DbInner) (level : Nat) : DbInner :=
  { db with levels := db.levels ++ List.replicate (level + 1 - db.levels.length) [] }

/-- The metas of the files of one level; a file without a key range is left out. -/
def levelMetas (level : Nat) (files : List SSTable) : List FileMeta :=
  files.filterMap fun sst => sst.keyRange.map fun (smallest, largest) =>
    ⟨sst.id, level, smallest, largest, sst.fileSize⟩

/-- `file_metas`, the levels numbered from `level`. -/
def fileMetasFrom : Nat → List (List SSTable) → List FileMeta
  | _, [] => []
  | level, files :: levels => levelMetas level files ++ fileMetasFrom (level + 1) levels

/-- `file_metas` leaves out tables that have no key range. -/
def fileMetas (db : DbInner) : List FileMeta := fileMetasFrom 0 db.levels

end DbInner

end PebbleDB
