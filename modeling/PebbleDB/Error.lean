import Mathlib.Tactic.Common

/-!
# Errors and early exits

`PebbleError` follows `src/error.rs`. A Rust call can leave early in more ways than by
returning `Err`: it can panic (an index out of range, an overflowing `+` in a build with
overflow checks, a zero divisor), or the process can stop under it. `Exit` lists these ways, so
that a statement says which of them can happen.
-/

namespace PebbleDB

/-- The `std::io::ErrorKind`s the modelled file operations can report. -/
inductive IoErrorKind where
  | notFound
  | invalidData
  | permissionDenied
  deriving DecidableEq, Repr

/-- `PebbleError`, with the message where there is one. -/
inductive PebbleError where
  | io (kind : IoErrorKind)
  | walCorruption (msg : String)
  | walIncomplete
  | sstableCorruption (msg : String)
  | injectedFault (msg : String)
  | cacheCorruption (msg : String)
  deriving DecidableEq, Repr

/-- How a call can end other than by returning a value. -/
inductive Exit where
  /-- the call returned `Err` -/
  | error (e : PebbleError)
  | panic
  /-- the process stopped inside the call: an abort, a kill -/
  | stopped
  /-- a loop was cut off by the step bound the model runs it with -/
  | outOfFuel
  deriving DecidableEq, Repr

/-- The call returned `Err`. -/
def Exit.isError : Exit → Bool
  | .error _ => true
  | _ => false

/-- The error that the call returned, if it ended so. -/
def Exit.error? : Exit → Option PebbleError
  | .error e => some e
  | _ => none

/-- What a call that touches no state comes back with. -/
abbrev Res (α : Type) := Except Exit α

/-- `Err(e)` -/
abbrev err {α : Type} (e : PebbleError) : Res α := .error (.error e)

end PebbleDB
