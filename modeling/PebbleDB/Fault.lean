import PebbleDB.Error

/-!
# Fault injection

`src/fault.rs`. A handle can be opened with one fault: at the chosen point, from the chosen hit
on, every call fails there, or the process aborts.
-/

namespace PebbleDB

/-- `FaultPoint`: where a method of a handle can be made to fail. -/
inductive FaultPoint where
  | beforeWalAppend
  | afterWalAppend
  | afterWalFsync
  | afterMemtableUpdate
  | beforeSstableCreation
  | afterSstableWrite
  | beforeAtomicRename
  | afterAtomicRename
  | beforeMetadataUpdate
  | afterMetadataUpdate
  | beforeObsoleteFileDelete
  | afterObsoleteFileDelete
  | beforeWalTruncation
  | afterWalTruncation
  | afterCompactionOutputCreation
  deriving DecidableEq, Repr

/-- `FaultPoint::name`, by which the environment names a point. -/
def FaultPoint.name : FaultPoint → String
  | beforeWalAppend => "before_wal_append"
  | afterWalAppend => "after_wal_append"
  | afterWalFsync => "after_wal_fsync"
  | afterMemtableUpdate => "after_memtable_update"
  | beforeSstableCreation => "before_sstable_creation"
  | afterSstableWrite => "after_sstable_write"
  | beforeAtomicRename => "before_atomic_rename"
  | afterAtomicRename => "after_atomic_rename"
  | beforeMetadataUpdate => "before_metadata_update"
  | afterMetadataUpdate => "after_metadata_update"
  | beforeObsoleteFileDelete => "before_obsolete_file_delete"
  | afterObsoleteFileDelete => "after_obsolete_file_delete"
  | beforeWalTruncation => "before_wal_truncation"
  | afterWalTruncation => "after_wal_truncation"
  | afterCompactionOutputCreation => "after_compaction_output_creation"

/-- `FaultPoint::ALL` -/
def FaultPoint.all : List FaultPoint :=
  [beforeWalAppend, afterWalAppend, afterWalFsync, afterMemtableUpdate, beforeSstableCreation,
    afterSstableWrite, beforeAtomicRename, afterAtomicRename, beforeMetadataUpdate,
    afterMetadataUpdate, beforeObsoleteFileDelete, afterObsoleteFileDelete, beforeWalTruncation,
    afterWalTruncation, afterCompactionOutputCreation]

/-- `FaultPoint::parse` of a name. -/
def FaultPoint.parse (name : String) : Option FaultPoint := all.find? fun point => point.name == name

/-- Every point has a name of its own. -/
theorem FaultPoint.parse_name (point : FaultPoint) : parse point.name = some point := by
  cases point <;> decide

/-- `FaultMode`: the call fails, or the process is aborted. -/
inductive FaultMode where
  | error
  | abort
  deriving DecidableEq, Repr

/-- The fields are public: `at` need not come from `Fault::new`, which clamps it to one. -/
structure Fault where
  point : FaultPoint
  at_ : Nat
  mode : FaultMode
  deriving DecidableEq, Repr

/-- `Fault::new`: the call fails at the hit numbered `at_`. -/
def Fault.new (point : FaultPoint) (at_ : Nat) : Fault := ⟨point, max at_ 1, .error⟩

/-- `Fault::abort`: the process is aborted there. -/
def Fault.abort (point : FaultPoint) (at_ : Nat) : Fault := ⟨point, max at_ 1, .abort⟩

/-- `FaultInjector` counts the hits of the configured point. -/
structure FaultInjector where
  fault : Option Fault
  hits : Nat
  deriving DecidableEq, Repr

/-- `FaultInjector::new` has counted no hit. -/
def FaultInjector.new (fault : Option Fault) : FaultInjector := ⟨fault, 0⟩

/-- `FaultInjector::hit`: what the call returns, and the injector afterwards. -/
def FaultInjector.hit (injector : FaultInjector) (point : FaultPoint) :
    Res Unit × FaultInjector :=
  match injector.fault with
  | none => (.ok (), injector)
  | some fault =>
    if fault.point ≠ point then (.ok (), injector)
    else
      let hits := injector.hits + 1
      let injector := { injector with hits }
      if hits < fault.at_ then (.ok (), injector)
      else match fault.mode with
        | .abort => (.error .stopped, injector)
        | .error =>
          (err (.injectedFault (point.name ++ " at hit " ++ toString hits)), injector)

end PebbleDB
