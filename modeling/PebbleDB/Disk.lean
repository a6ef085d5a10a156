import PebbleDB.Bytes
import PebbleDB.FileNames
import PebbleDB.Lib.SortedMap
import PebbleDB.Lib.Wp

/-!
# The database directory

The directory is a map from names to contents. The calls change it by a few file operations,
each of which can be the one in which the process stops: `rename`, `unlink` and `set_len` then
happen or do not happen, a write leaves any prefix of its bytes. What a process wrote stays when it
ends, so the `sync` calls of the source change nothing here.
-/

namespace PebbleDB

open EarlyExit

/-- The files of the directory with their contents. -/
abbrev Dir := SortedMap String Bytes

/-- A change of the directory that a crash may cut off. -/
inductive FileOp where
  /-- opening with `create(true)`: an empty file unless there is one -/
  | create (name : String)
  /-- `fs::write` -/
  | write (name : String) (data : Bytes)
  | append (name : String) (data : Bytes)
  | rename (source target : String)
  | remove (name : String)
  | setLen (name : String) (len : Nat)
  deriving DecidableEq, Repr

namespace FileOp

/-- The content of a file, empty if there is none. -/
def contentOf (dir : Dir) (name : String) : Bytes := (dir.get? name).getD []

/-- The directory behind the whole operation. -/
def apply : FileOp → Dir → Dir
  | create name, dir => dir.insert name (contentOf dir name)
  | write name data, dir => dir.insert name data
  | append name data, dir => dir.insert name (contentOf dir name ++ data)
  | rename source target, dir => (dir.insert target (contentOf dir source)).erase source
  | remove name, dir => dir.erase name
  | setLen name len, dir =>
    let data := contentOf dir name
    dir.insert name (data.take len ++ List.replicate (len - data.length) 0)

/-- The operation when the process stops in it: at cut zero it has not started, at cut `n + 1` a
write has written `n` bytes, and an atomic operation has happened. -/
def applyCut (op : FileOp) : Nat → Dir → Dir
  | 0, dir => dir
  | n + 1, dir =>
    match op with
    | write name data => dir.insert name (data.take n)
    | append name data => dir.insert name (contentOf dir name ++ data.take n)
    | op => op.apply dir

end FileOp

/-- The operation in which the process stops, counted from the next one, and the cut. -/
structure Stop where
  after : Nat
  cut : Nat
  deriving DecidableEq, Repr

/-- The order in which a directory is listed, for each listing of a call. -/
structure Listing where
  order : Nat → List String → List String
  perm : ∀ i names, (order i names).Perm names

/-- The directory, the operations performed on it so far, and what its environment does: the order
of listings, the files that cannot be removed, and when the process stops. -/
structure Disk where
  dir : Dir
  log : List FileOp
  listing : Listing
  unlinkFails : String → Bool
  stop : Option Stop

/-- An operation on the directory. -/
abbrev DiskM := EStateM Exit Disk

namespace Disk

/-- One file operation. -/
def perform (op : FileOp) : DiskM Unit := fun disk =>
  match disk.stop with
  | some ⟨0, cut⟩ =>
    .error .stopped { disk with dir := op.applyCut cut disk.dir, log := disk.log ++ [op] }
  | some ⟨after + 1, cut⟩ =>
    .ok () { disk with
      dir := op.apply disk.dir, log := disk.log ++ [op], stop := some ⟨after, cut⟩ }
  | none => .ok () { disk with dir := op.apply disk.dir, log := disk.log ++ [op] }

/-- `fs::read` -/
def readFile (name : String) : DiskM Bytes := fun disk =>
  match disk.dir.get? name with
  | some data => .ok data disk
  | none => .error (.error (.io .notFound)) disk

/-- `path.exists()` -/
def fileExists (name : String) : DiskM Bool := fun disk => .ok (disk.dir.get? name).isSome disk

/-- `fs::read_dir`, the `i`-th listing of a call. -/
def readDir (i : Nat) : DiskM (List String) := fun disk =>
  .ok (disk.listing.order i disk.dir.keys) disk

/-- `fs::rename` -/
def renameFile (source target : String) : DiskM Unit := do
  let found ← fileExists source
  if found then perform (.rename source target) else throw (.error (.io .notFound))

/-- `fs::remove_file` -/
def removeFile (name : String) : DiskM Unit := do
  let disk ← get
  if disk.dir.get? name = none then throw (.error (.io .notFound))
  else if disk.unlinkFails name then throw (.error (.io .permissionDenied))
  else perform (.remove name)

/-- `let _ = fs::remove_file(..)` -/
def tryRemoveFile (name : String) : DiskM Unit := fun disk =>
  match removeFile name disk with
  | .error (.error _) disk => .ok () disk
  | result => result

end Disk

end PebbleDB
