import Mathlib.Algebra.GroupWithZero.Nat
import Mathlib.Data.List.Sort
import Mathlib.Data.String.Basic
import PebbleDB.Error

/-!
# Choosing a compaction

`src/compaction.rs`: the budgets of the levels, and the choice of the files to merge next. Sums
of sizes and level numbers are machine integers; where one overflows the choice panics.
-/

namespace PebbleDB

/-- A `u64` sum. -/
def sumU64 (sizes : List Nat) : Res Nat :=
  if sizes.sum < 2 ^ 64 then .ok sizes.sum else .error .panic

/-- `level + 1` on a `u32`. -/
def nextLevel (level : Nat) : Res Nat :=
  if level + 1 < 2 ^ 32 then .ok (level + 1) else .error .panic

/-- `LevelConfig`: when a level is due for compaction. -/
structure LevelConfig where
  l0CompactionThreshold : Nat
  levelSizeMultiplier : Nat
  targetLevelSize : Nat
  deriving DecidableEq, Repr

namespace LevelConfig

/-- `LevelConfig::new` clamps its arguments to values with which compaction terminates. -/
def new (l0CompactionThreshold levelSizeMultiplier targetLevelSize : Nat) : LevelConfig where
  l0CompactionThreshold := max l0CompactionThreshold 1
  levelSizeMultiplier := max levelSizeMultiplier 2
  targetLevelSize := max targetLevelSize 1

/-- `capacity.saturating_mul(self.level_size_multiplier)` -/
def grow (config : LevelConfig) (capacity : Nat) : Nat :=
  min (capacity * config.levelSizeMultiplier) (2 ^ 64 - 1)

/-- `level_capacity`: the target size for level one, grown once for each further level. -/
def levelCapacity (config : LevelConfig) (level : Nat) : Nat :=
  config.grow^[level - 1] config.targetLevelSize

end LevelConfig

/-- `FileMeta`: what `pick_compaction` knows of a table that has a key range. -/
structure FileMeta where
  id : Nat
  level : Nat
  smallest : String
  largest : String
  size : Nat
  deriving DecidableEq, Repr

/-- `CompactionPlan`: the ids of the files to merge into the next level. -/
structure CompactionPlan where
  level : Nat
  inputs : List Nat
  overlaps : List Nat
  dropTombstones : Bool
  deriving DecidableEq, Repr

/-- The level and the range that `overlapping` looks for. -/
def overlapping (files : List FileMeta) (level : Nat) (smallest largest : String) :
    List FileMeta :=
  files.filter fun file =>
    decide (file.level = level) && decide (file.smallest ≤ largest) &&
      decide (smallest ≤ file.largest)

/-- `union_range` panics on no files. -/
def unionRange (files : List FileMeta) : Res (String × String) :=
  match (files.map FileMeta.smallest).min?, (files.map FileMeta.largest).max? with
  | some smallest, some largest => .ok (smallest, largest)
  | _, _ => .error .panic

/-- The ids, in descending order. -/
def ids (files : List FileMeta) : List Nat :=
  (files.map FileMeta.id).insertionSort (fun a b => b ≤ a)

/-- `min_by_key(|file| file.id)` -/
def minById : List FileMeta → Option FileMeta
  | [] => none
  | file :: files =>
    match minById files with
    | some best => if file.id ≤ best.id then some file else some best
    | none => some file

/-- The loop of `pick_compaction` over the levels `1..=deepest`. -/
def pickLevel (files : List FileMeta) (config : LevelConfig) (deepest : Nat) :
    List Nat → Res (Option CompactionPlan)
  | [] => .ok none
  | level :: levels => do
    let levelFiles := files.filter fun file => decide (file.level = level)
    if levelFiles = [] then
      pickLevel files config deepest levels
    else
      let size ← sumU64 (levelFiles.map FileMeta.size)
      if size ≤ config.levelCapacity level then
        pickLevel files config deepest levels
      else
        match minById levelFiles with
        | none => .error .panic
        | some input =>
          let next ← nextLevel level
          let overlaps := overlapping files next input.smallest input.largest
          return some ⟨level, [input.id], ids overlaps, decide (deepest ≤ next)⟩

/-- `pick_compaction`: level zero goes first, with all its files, when their number reaches the
threshold; then the first level over its capacity, with its oldest file. Both take the files of the
next level that the inputs overlap. -/
def pickCompaction (files : List FileMeta) (config : LevelConfig) :
    Res (Option CompactionPlan) := do
  match (files.map FileMeta.level).max? with
  | none => return none
  | some deepest =>
    let l0 := files.filter fun file => decide (file.level = 0)
    if config.l0CompactionThreshold ≤ l0.length then
      let (smallest, largest) ← unionRange l0
      let overlaps := overlapping files 1 smallest largest
      return some ⟨0, ids l0, ids overlaps, decide (deepest ≤ 1)⟩
    else
      pickLevel files config deepest (List.range' 1 deepest)

end PebbleDB
