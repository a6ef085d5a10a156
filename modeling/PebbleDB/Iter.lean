import PebbleDB.SSTable

/-!
# Iterators

`src/iter.rs`: cursors over a memtable and over a table, the merge of several cursors, and the
range cut out of a merge. A repositioning call is a function to the next cursor; it is in `Res`
because its loops run under a step bound here. How many steps are enough is read off the cursor
(`StorageIterator.bound`), and that they always are is proved in `PebbleDB.IterSpec`.
-/

namespace PebbleDB

/-- `MemtableEntry`: a tombstone hides what the tables have under the key. -/
inductive MemtableEntry where
  | value (v : String)
  | tombstone
  deriving DecidableEq, Repr

/-- `std::ops::Bound` -/
inductive Bound where
  | included (key : String)
  | excluded (key : String)
  | unbounded
  deriving DecidableEq, Repr

/-- `trait StorageIterator`. `bound` is not part of the trait: it is at least the number of
records below the cursor and bounds the turns of the loops over it. -/
class StorageIterator (σ : Type) where
  seekToFirst : σ → Res σ
  seek : σ → String → Res σ
  advance : σ → Res σ
  valid : σ → Bool
  key : σ → Option String
  value : σ → Option String
  bound : σ → Nat

/-- `slice::partition_point` of `key < target` on records sorted by key. -/
def partitionPoint {α : Type} (target : String) (entries : List (String × α)) : Nat :=
  (entries.takeWhile fun e => decide (e.1 < target)).length

/-! ## Memtable -/

/-- `MemtableIterator`, over a copy of the memtable; a tombstone has no value. -/
structure MemtableIterator where
  entries : List (String × Option String)
  pos : Option Nat
  deriving DecidableEq

namespace MemtableIterator

/-- The `match entry` of `MemtableIterator::new` -/
def valueOf : MemtableEntry → Option String
  | .value v => some v
  | .tombstone => none

/-- `new` stands on nothing until it is moved. -/
def new (memtable : SortedMap String MemtableEntry) : MemtableIterator :=
  ⟨memtable.entries.map fun e => (e.1, valueOf e.2), none⟩

/-- `seek_to_first`, if there is a record. -/
def seekToFirst (it : MemtableIterator) : MemtableIterator :=
  { it with pos := if it.entries.length = 0 then none else some 0 }

/-- `seek`: the first key that is not below the target. -/
def seek (it : MemtableIterator) (target : String) : MemtableIterator :=
  let idx := partitionPoint target it.entries
  { it with pos := if idx < it.entries.length then some idx else none }

/-- `advance` stays where it is at the end. -/
def advance (it : MemtableIterator) : MemtableIterator :=
  match it.pos with
  | some pos => { it with pos := if pos + 1 < it.entries.length then some (pos + 1) else none }
  | none => { it with pos := none }

/-- `valid`: the cursor stands on a record. -/
def valid (it : MemtableIterator) : Bool := it.pos.isSome

/-- `key` of that record. -/
def key (it : MemtableIterator) : Option String :=
  (it.pos.bind fun pos => it.entries[pos]?).map Prod.fst

/-- `value`, none for a tombstone. -/
def value (it : MemtableIterator) : Option String :=
  (it.pos.bind fun pos => it.entries[pos]?).bind Prod.snd

instance : StorageIterator MemtableIterator where
  seekToFirst it := .ok it.seekToFirst
  seek it target := .ok (it.seek target)
  advance it := .ok it.advance
  valid := valid
  key := key
  value := value
  bound it := it.entries.length

end MemtableIterator

/-! ## Table -/

/-- `SSTableIterator`: one decoded block of the table at a time. -/
structure SSTableIterator where
  sst : SSTable
  block : Nat
  entries : Block
  index : Nat
  deriving DecidableEq

namespace SSTableIterator

/-- `new` has no block until it is moved. -/
def new (sst : SSTable) : SSTableIterator := ⟨sst, 0, [], 0⟩

/-- `load_block`; a block that cannot be read is an empty one. -/
def loadBlock (it : SSTableIterator) (block : Nat) : SSTableIterator :=
  { it with block := block, entries := (it.sst.readBlock block).getD [], index := 0 }

/-- The loop of `ensure_entry`: each turn goes to the next block. -/
def ensureEntryLoop : Nat → SSTableIterator → Res (Bool × SSTableIterator)
  | 0, _ => .error .outOfFuel
  | fuel + 1, it =>
    if it.entries.length ≤ it.index then
      if it.sst.blockCount ≤ it.block + 1 then .ok (false, it)
      else ensureEntryLoop fuel (it.loadBlock (it.block + 1))
    else .ok (true, it)

/-- `ensure_entry` goes on to the next block that has records. Each turn of its loop takes a block, so
the bound is enough. -/
def ensureEntry (it : SSTableIterator) : Res (Bool × SSTableIterator) :=
  ensureEntryLoop (it.sst.blockCount + 1) it

/-- `seek_to_first`, behind empty blocks. -/
def seekToFirst (it : SSTableIterator) : Res SSTableIterator := do
  let (_, it) ← (it.loadBlock 0).ensureEntry
  return it

/-- `seek`, in the block that `find_block` gives, and behind it where that has no such key. -/
def seek (it : SSTableIterator) (target : String) : Res SSTableIterator := do
  let it := it.loadBlock ((it.sst.findBlock target).getD 0)
  let it := { it with index := partitionPoint target it.entries }
  let (_, it) ← it.ensureEntry
  return it

/-- `advance`, into the next block at the end of one. -/
def advance (it : SSTableIterator) : Res SSTableIterator := do
  let it := if it.index < it.entries.length then { it with index := it.index + 1 } else it
  let (_, it) ← it.ensureEntry
  return it

/-- `valid`: the cursor stands on a record of its block. -/
def valid (it : SSTableIterator) : Bool := decide (it.index < it.entries.length)

/-- `key` of that record. -/
def key (it : SSTableIterator) : Option String := it.entries[it.index]?.map Prod.fst

/-- `value`, none for a tombstone. -/
def value (it : SSTableIterator) : Option String :=
  match it.entries[it.index]? with
  | some (_, .value v) => some v
  | _ => none

instance : StorageIterator SSTableIterator where
  seekToFirst := seekToFirst
  seek := seek
  advance := advance
  valid := valid
  key := key
  value := value
  bound it := it.sst.recordCount

end SSTableIterator

/-- The boxed children of a merge: `Box<dyn StorageIterator>` holds one of these two. -/
inductive ChildIterator where
  | memtable (it : MemtableIterator)
  | sstable (it : SSTableIterator)
  deriving DecidableEq

namespace ChildIterator

instance : StorageIterator ChildIterator where
  seekToFirst
    | .memtable it => (StorageIterator.seekToFirst it).map .memtable
    | .sstable it => (StorageIterator.seekToFirst it).map .sstable
  seek
    | .memtable it, target => (StorageIterator.seek it target).map .memtable
    | .sstable it, target => (StorageIterator.seek it target).map .sstable
  advance
    | .memtable it => (StorageIterator.advance it).map .memtable
    | .sstable it => (StorageIterator.advance it).map .sstable
  valid
    | .memtable it => StorageIterator.valid it
    | .sstable it => StorageIterator.valid it
  key
    | .memtable it => StorageIterator.key it
    | .sstable it => StorageIterator.key it
  value
    | .memtable it => StorageIterator.value it
    | .sstable it => StorageIterator.value it
  bound
    | .memtable it => StorageIterator.bound it
    | .sstable it => StorageIterator.bound it

end ChildIterator

/-! ## Merge -/

/-- `CurrentEntry`: a key, and the child that has its record. -/
structure CurrentEntry where
  key : String
  source : Nat
  deriving DecidableEq

/-- `MergeIterator`: of the children that stand on the smallest key, the first one wins. -/
structure MergeIterator (σ : Type) where
  children : List σ
  current : Option CurrentEntry
  keepTombstones : Bool
  deriving DecidableEq

namespace MergeIterator

variable {σ : Type} [StorageIterator σ]

/-- The loop of `smallest` from child number `source` on. -/
def smallestLoop : List σ → Nat → Option (String × Nat) → Option (String × Nat)
  | [], _, best => best
  | child :: children, source, best =>
    match StorageIterator.key child with
    | none => smallestLoop children (source + 1) best
    | some key =>
      match best with
      | some (bestKey, bestSource) =>
        if bestKey ≤ key then smallestLoop children (source + 1) (some (bestKey, bestSource))
        else smallestLoop children (source + 1) (some (key, source))
      | none => smallestLoop children (source + 1) (some (key, source))

/-- `smallest`: the smallest key of the children, and the first of them that stands on it. -/
def smallest (it : MergeIterator σ) : Option (String × Nat) := smallestLoop it.children 0 none

/-- The body of the loop of `skip_key`. -/
def skipChild (key : String) (child : σ) : Res σ :=
  if StorageIterator.key child = some key then StorageIterator.advance child else .ok child

/-- The loop of `skip_key` over the children. -/
def skipKeyLoop (key : String) : List σ → Res (List σ)
  | [] => .ok []
  | child :: children => do
    let child ← skipChild key child
    let children ← skipKeyLoop key children
    return child :: children

/-- `skip_key` moves every child that stands on the key. -/
def skipKey (it : MergeIterator σ) (key : String) : Res (MergeIterator σ) := do
  let children ← skipKeyLoop key it.children
  return { it with children }

/-- `self.children[source].value()` -/
def childValue (it : MergeIterator σ) (source : Nat) : Res (Option String) :=
  match it.children[source]? with
  | some child => .ok (StorageIterator.value child)
  | none => .error .panic

/-- The loop of `normalize`. -/
def normalizeLoop : Nat → MergeIterator σ → Res (MergeIterator σ)
  | 0, _ => .error .outOfFuel
  | fuel + 1, it =>
    match it.smallest with
    | none => .ok { it with current := none }
    | some (key, source) => do
      let value ← it.childValue source
      if it.keepTombstones || value.isSome then
        return { it with current := some ⟨key, source⟩ }
      else
        let it ← it.skipKey key
        normalizeLoop fuel it

/-- The records below all children. -/
def bound (it : MergeIterator σ) : Nat := (it.children.map StorageIterator.bound).sum

/-- `normalize` stops at the smallest key whose record is kept. -/
def normalize (it : MergeIterator σ) : Res (MergeIterator σ) := normalizeLoop (it.bound + 1) it

/-- Every child repositioned by `move`. -/
def moveAll (move : σ → Res σ) : List σ → Res (List σ)
  | [] => .ok []
  | child :: children => do
    let child ← move child
    let children ← moveAll move children
    return child :: children

/-- `build` moves all children to their first record. -/
def build (children : List σ) (keepTombstones : Bool) : Res (MergeIterator σ) := do
  let children ← moveAll StorageIterator.seekToFirst children
  normalize ⟨children, none, keepTombstones⟩

/-- `new` leaves out keys whose record is a tombstone. -/
def new (children : List σ) : Res (MergeIterator σ) := build children false

/-- `new_with_tombstones` keeps them, for a compaction. -/
def newWithTombstones (children : List σ) : Res (MergeIterator σ) := build children true

/-- `seek_to_first` in every child. -/
def seekToFirst (it : MergeIterator σ) : Res (MergeIterator σ) := do
  let children ← moveAll StorageIterator.seekToFirst it.children
  normalize { it with children }

/-- `seek` in every child. -/
def seek (it : MergeIterator σ) (target : String) : Res (MergeIterator σ) := do
  let children ← moveAll (fun child => StorageIterator.seek child target) it.children
  normalize { it with children }

/-- `advance` skips the current key in all children. -/
def advance (it : MergeIterator σ) : Res (MergeIterator σ) :=
  match it.current with
  | none => .ok it
  | some current => do
    let it ← MergeIterator.skipKey { it with current := none } current.key
    it.normalize

/-- `valid`: there is a current key. -/
def valid (it : MergeIterator σ) : Bool := it.current.isSome

/-- `key`, the current one. -/
def key (it : MergeIterator σ) : Option String := it.current.map CurrentEntry.key

/-- The value of the child that holds the current key; `current.source` numbers a child, so the
indexing of the source cannot fail (`IterSpec`). -/
def value (it : MergeIterator σ) : Option String :=
  it.current.bind fun current => it.children[current.source]?.bind StorageIterator.value

instance : StorageIterator (MergeIterator σ) := ⟨seekToFirst, seek, advance, valid, key, value, bound⟩

end MergeIterator

/-! ## Range -/

/-- `RangeIterator` keeps the end bound; the start bound is only looked at in `new`. -/
structure RangeIterator (σ : Type) where
  merged : MergeIterator σ
  stop : Bound
  deriving DecidableEq

namespace RangeIterator

variable {σ : Type} [StorageIterator σ]

/-- `new` moves the merged cursor to the start of the range. -/
def new (merged : MergeIterator σ) (start stop : Bound) : Res (RangeIterator σ) :=
  match start with
  | .unbounded => .ok ⟨merged, stop⟩
  | .included key => do
    let merged ← merged.seek key
    return ⟨merged, stop⟩
  | .excluded key => do
    let merged ← merged.seek key
    if merged.key = some key then
      let merged ← merged.advance
      return ⟨merged, stop⟩
    else
      return ⟨merged, stop⟩

/-- `within_end`: the end bound does not exclude the key. -/
def withinEnd (it : RangeIterator σ) : Bool :=
  match it.merged.key with
  | none => false
  | some key =>
    match it.stop with
    | .unbounded => true
    | .included last => decide (key ≤ last)
    | .excluded last => decide (key < last)

/-- `seek_to_first` goes to the first record of all, before the start of the range as well. -/
def seekToFirst (it : RangeIterator σ) : Res (RangeIterator σ) := do
  let merged ← it.merged.seekToFirst
  return { it with merged }

/-- `seek` does not look at the start of the range either. -/
def seek (it : RangeIterator σ) (target : String) : Res (RangeIterator σ) := do
  let merged ← it.merged.seek target
  return { it with merged }

/-- `advance` moves on behind the end as well. -/
def advance (it : RangeIterator σ) : Res (RangeIterator σ) := do
  let merged ← it.merged.advance
  return { it with merged }

/-- `valid`: there is a record, and it is not behind the end. -/
def valid (it : RangeIterator σ) : Bool := it.merged.valid && it.withinEnd

/-- `key`, none behind the end. -/
def key (it : RangeIterator σ) : Option String := if it.valid then it.merged.key else none

/-- `value`, none behind the end. -/
def value (it : RangeIterator σ) : Option String := if it.valid then it.merged.value else none

/-- A bound on the records still to be read. -/
def bound (it : RangeIterator σ) : Nat := it.merged.bound

instance : StorageIterator (RangeIterator σ) := ⟨seekToFirst, seek, advance, valid, key, value, bound⟩

/-- `Iterator::next` -/
def next (it : RangeIterator σ) : Res (Option (String × String) × RangeIterator σ) :=
  if it.valid then
    match it.key, it.value with
    | some key, some value => do
      let it ← it.advance
      return (some (key, value), it)
    | _, _ => .ok (none, it)
  else .ok (none, it)

/-- `collect` calls `next` until it gives none. -/
def collectLoop : Nat → RangeIterator σ → Res (List (String × String))
  | 0, _ => .error .outOfFuel
  | fuel + 1, it => do
    let (item, it) ← it.next
    match item with
    | none => return []
    | some record =>
      let records ← collectLoop fuel it
      return record :: records

/-- `collect` on the iterator. Each turn reads a record, so the bound is enough. -/
def collect (it : RangeIterator σ) : Res (List (String × String)) :=
  collectLoop (it.bound + 1) it

end RangeIterator

end PebbleDB
