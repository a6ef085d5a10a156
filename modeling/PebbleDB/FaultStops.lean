import Mathlib.Algebra.Group.Nat.Hom
import PebbleDB.Lib.Halting
import PebbleDB.LiveRun

/-!
# An injected fault is a stop

The crash tests put a fault into a handle where they mean a crash. A process with a fault does what
it does without one, up to the hit at which the fault fires; there it leaves the directory that the
process without the fault leaves when it is stopped before its next file operation
(`process_stops_at_fault`).
-/

namespace PebbleDB

open EarlyExit

/-! ## Stops as budgets -/

/-- The stop that many operations later. -/
def Stop.later (n : ℕ) (stop : Stop) : Stop := { stop with after := n + stop.after }

instance : AddAction ℕ (Option Stop) where
  vadd n stop := stop.map (Stop.later n)
  zero_vadd stop := by
    cases stop with
    | none => rfl
    | some stop => exact congrArg some (congrArg (Stop.mk · stop.cut) (Nat.zero_add stop.after))
  add_vadd m n stop := by
    cases stop with
    | none => rfl
    | some stop => exact congrArg some (congrArg (Stop.mk · stop.cut) (Nat.add_assoc m n stop.after))

namespace Disk

/-- A stop is the budget of file operations; the directory lasts. -/
def limits : Limits Exit ℕ (Option Stop) Disk where
  limit stop disk := { disk with stop }
  ready disk := disk.stop = none
  spent disk := disk.log.length
  empty := some ⟨0, 0⟩
  halted disk disk' := disk'.stop = some ⟨0, 0⟩ ∧ disk'.dir = disk.dir
  planted _ := False

theorem shadows_perform (op : FileOp) : limits.Shadows (perform op) where
  runs disk hready := by
    have hrun : perform op disk =
        .ok () { disk with dir := op.apply disk.dir, log := disk.log ++ [op] } := by
      rw [perform, hready]
    refine Wp.of_eq_ok hrun ⟨hready, 1, ?_, fun stop => ?_⟩
    · exact List.length_append
    · cases stop with
      | none => rfl
      | some stop =>
        show perform op { disk with stop := some ⟨1 + stop.after, stop.cut⟩ } = _
        rw [Nat.add_comm]
        rfl
  halts disk disk' h := by
    obtain ⟨hstop, hdir⟩ := h
    have hrun : perform op disk' =
        .error .stopped { disk' with log := disk'.log ++ [op] } := by
      rw [perform, hstop]
      rfl
    rw [after_of_error hrun]
    exact ⟨hstop, hdir⟩

/-- What only reads the directory and the environment. -/
theorem shadows_read {α : Type} {x : DiskM α} (read : Dir → Listing → Except Exit α)
    (h : ∀ disk, x disk = fromExcept (read disk.dir disk.listing) disk) : limits.Shadows x := by
  have hx : x = get >>= fun disk => fromExcept (read disk.dir disk.listing) := by
    funext disk
    rw [h]
    rfl
  rw [hx]
  exact .get_bind (fun _ _ => rfl) fun _ => .fromExcept _

theorem shadows_readFile (name : String) : limits.Shadows (readFile name) := by
  refine shadows_read (fun dir _ => (dir.get? name).elim (.error (.error (.io .notFound))) .ok)
    fun disk => ?_
  rw [readFile]
  cases disk.dir.get? name <;> rfl

theorem shadows_fileExists (name : String) : limits.Shadows (fileExists name) :=
  shadows_read (fun dir _ => .ok (dir.get? name).isSome) fun _ => rfl

theorem shadows_readDir (i : Nat) : limits.Shadows (readDir i) :=
  shadows_read (fun dir listing => .ok (listing.order i dir.keys)) fun _ => rfl

theorem shadows_renameFile (source target : String) : limits.Shadows (renameFile source target) :=
  (shadows_fileExists source).bind fun _ => .ite (shadows_perform _) (.throw _)

theorem shadows_removeFile (name : String) : limits.Shadows (removeFile name) := by
  refine .get_bind (fun _ _ => rfl) fun disk => .ite (.throw _) (.ite (.throw _) ?_)
  exact shadows_perform _

theorem after_tryRemoveFile (name : String) (disk : Disk) :
    after (tryRemoveFile name) disk = after (removeFile name) disk := by
  rw [after, after, tryRemoveFile]
  cases removeFile name disk with
  | ok a disk' => rfl
  | error e disk' => cases e <;> rfl

theorem shadows_tryRemoveFile (name : String) : limits.Shadows (tryRemoveFile name) where
  runs disk hready := by
    have hremove := ((shadows_removeFile name).runs disk hready).and
      (Frame.steady.along_removeFile trivial disk)
    rw [Wp] at hremove ⊢
    rw [tryRemoveFile]
    cases hx : removeFile name disk with
    | ok a disk' =>
      rw [hx] at hremove
      obtain ⟨⟨hready', k, hk, hruns⟩, -⟩ := hremove
      refine ⟨hready', k, hk, fun stop => ?_⟩
      rw [tryRemoveFile, hruns]
    | error e disk' =>
      rw [hx] at hremove
      obtain ⟨⟨k, hk, hruns | ⟨hplanted, -⟩⟩, hframe⟩ := hremove
      · cases e with
        | error e =>
          -- the error is dropped in both runs
          refine ⟨hframe.stop hready, k, hk, fun stop => ?_⟩
          rw [tryRemoveFile, hruns]
        | _ =>
          refine ⟨k, hk, Or.inl fun stop => ?_⟩
          rw [tryRemoveFile, hruns]
      · exact hplanted.elim
  halts disk disk' h := by
    rw [after_tryRemoveFile]
    exact (shadows_removeFile name).halts disk disk' h

end Disk

theorem shadows_writePendingMerge (outputs inputs : List Nat) :
    Disk.limits.Shadows (writePendingMerge outputs inputs) :=
  (Disk.shadows_perform _).bind fun _ => Disk.shadows_renameFile _ _

theorem shadows_clearPendingMerge : Disk.limits.Shadows clearPendingMerge :=
  (Disk.shadows_fileExists _).bind fun _ => .ite (Disk.shadows_removeFile _) (.pure ())

theorem shadows_removeTmpFiles (names : List String) :
    Disk.limits.Shadows (removeTmpFiles names) := by
  induction names with
  | nil => exact .pure ()
  | cons name names ih => exact .ite ((Disk.shadows_removeFile name).bind fun _ => ih) ih

theorem shadows_removeInputs (inputs : List Nat) (files : List (Nat × String)) :
    Disk.limits.Shadows (removeInputs inputs files) := by
  induction files with
  | nil => exact .pure ()
  | cons file files ih => exact .ite ((Disk.shadows_removeFile file.2).bind fun _ => ih) ih

theorem shadows_finishPendingMerge : Disk.limits.Shadows finishPendingMerge := by
  refine .bind ?_ fun pending => ?_
  · refine (Disk.shadows_fileExists _).bind fun found => .ite ?_ (.pure _)
    refine (Disk.shadows_readFile _).bind fun data => ?_
    cases fromUtf8 data with
    | none => exact .throw _
    | some content => exact .pure _
  · cases pending with
    | none => exact .pure ()
    | some pending =>
      refine (Disk.shadows_readDir 1).bind fun names => .ite ?_ (Disk.shadows_removeFile _)
      exact (shadows_removeInputs _ _).bind fun _ => Disk.shadows_removeFile _

theorem shadows_loadTables (found : List Discovered) (levels : List (List SSTable)) (next : Nat) :
    Disk.limits.Shadows (loadTables found levels next) := by
  induction found generalizing levels next with
  | nil => exact .pure _
  | cons table rest ih =>
    refine (Disk.shadows_readFile _).bind fun data => (Limits.Shadows.fromExcept _).bind fun sst => ?_
    exact (Limits.Shadows.fromExcept _).bind fun next => ih _ _

theorem shadows_recoverWal : Disk.limits.Shadows recoverWal := by
  refine (Disk.shadows_fileExists _).bind fun found => .ite ?_ (.pure _)
  refine (Disk.shadows_readFile _).bind fun data => ?_
  refine (Limits.Shadows.fromExcept _).bind fun recovery => ?_
  exact .ite ((Disk.shadows_perform _).bind fun _ => .pure _) (.pure _)

theorem shadows_openWithOptions (options : DbOptions) :
    Disk.limits.Shadows (openWithOptions options) := by
  refine (Disk.shadows_readDir 0).bind fun names => (shadows_removeTmpFiles names).bind fun _ => ?_
  refine shadows_finishPendingMerge.bind fun _ => (Disk.shadows_readDir 2).bind fun names => ?_
  refine (shadows_loadTables _ _ _).bind fun loaded => shadows_recoverWal.bind fun memtable => ?_
  exact (Disk.shadows_perform _).bind fun _ => .pure _

/-! ## Handles with a fault -/

/-- The exit at the given hit. -/
def Fault.exit (fault : Fault) (n : Nat) : Exit :=
  match fault.mode with
  | .abort => .stopped
  | .error => .error (.injectedFault (fault.point.name ++ " at hit " ++ toString n))

/-- The handle as it is opened with this fault, or without one. -/
def DbInner.arm (fault : Option Fault) (db : DbInner) : DbInner :=
  { db with options := { db.options with fault }, fault := .new fault }

/-- A handle with a fault that fires at the given hit; without it a stop is the budget. -/
def World.limits (fault : Fault) (n : Nat) : Limits Exit ℕ (Option Stop) World where
  limit stop w := ⟨w.inner.arm none, { w.disk with stop }⟩
  ready w := w.inner.fault.fault = some fault ∧ max (w.inner.fault.hits + 1) fault.at_ = n ∧
    w.disk.stop = none
  spent w := w.disk.log.length
  empty := some ⟨0, 0⟩
  halted w w' := w'.disk.stop = some ⟨0, 0⟩ ∧ w'.disk.dir = w.disk.dir
  planted e := e = fault.exit n

theorem FaultInjector.hit_eq {injector : FaultInjector} {fault : Fault}
    (h : injector.fault = some fault) {n : Nat} (hn : max (injector.hits + 1) fault.at_ = n)
    (point : FaultPoint) :
    (∃ hits, injector.hit point = (.ok (), ⟨some fault, hits⟩) ∧ max (hits + 1) fault.at_ = n) ∨
      injector.hit point = (.error (fault.exit n), ⟨some fault, n⟩) := by
  obtain ⟨_, hits⟩ := injector
  obtain rfl : _ = some fault := h
  dsimp only at hn
  unfold FaultInjector.hit
  dsimp only
  by_cases hpoint : fault.point = point
  · rw [if_neg (not_not_intro hpoint)]
    by_cases hbefore : hits + 1 < fault.at_
    · rw [if_pos hbefore]
      exact Or.inl ⟨hits + 1, rfl, by omega⟩
    · rw [if_neg hbefore]
      obtain rfl : hits + 1 = n := by omega
      right
      rw [Fault.exit, hpoint]
      cases fault.mode <;> rfl
  · rw [if_pos hpoint]
    exact Or.inl ⟨hits, rfl, hn⟩

section Handles

variable {fault : Fault} {n : Nat}

theorem shadows_hit (point : FaultPoint) : (World.limits fault n).Shadows (hit point) where
  runs w hready := by
    obtain ⟨hfault, hn, hstop⟩ := hready
    rcases FaultInjector.hit_eq hfault hn point with ⟨hits, heq, hn'⟩ | heq
    · have hrun : hit point w =
          .ok () { w with inner := { w.inner with fault := ⟨some fault, hits⟩ } } := by
        rw [hit, heq]
      exact Wp.of_eq_ok hrun (.of_eq ⟨rfl, hn', hstop⟩ rfl fun _ => rfl)
    · have hrun : hit point w =
          .error (fault.exit n) { w with inner := { w.inner with fault := ⟨some fault, n⟩ } } := by
        rw [hit, heq]
      exact Wp.of_eq_error hrun ⟨0, rfl, Or.inr ⟨rfl, rfl, rfl⟩⟩
  halts w w' h := by
    have hdisk : (after (hit point) w').disk = w'.disk := by
      rw [after, hit]
      rcases w'.inner.fault.hit point with ⟨_ | _, injector⟩ <;> rfl
    show (after (hit point) w').disk.stop = _ ∧ (after (hit point) w').disk.dir = _
    rw [hdisk]
    exact h

theorem shadows_onDisk {α : Type} {x : DiskM α} (h : Disk.limits.Shadows x) :
    (World.limits fault n).Shadows (onDisk x) where
  runs w hready := by
    obtain ⟨hfault, hn, hstop⟩ := hready
    refine Wp.onPart ((h.runs w.disk hstop).mono (fun a disk' hreturned => ?_)
      fun e disk' hexited => ?_)
    · obtain ⟨hstop', k, hk, hruns⟩ := hreturned
      refine ⟨⟨hfault, hn, hstop'⟩, k, hk, fun stop => ?_⟩
      have hrun : x { w.disk with stop := k +ᵥ stop } = .ok a { disk' with stop } := hruns stop
      show onDisk x ⟨w.inner.arm none, { w.disk with stop := k +ᵥ stop }⟩ = _
      rw [onDisk, onPart, hrun]
      rfl
    · obtain ⟨k, hk, hruns | ⟨hplanted, -⟩⟩ := hexited
      · refine ⟨k, hk, Or.inl fun stop => ?_⟩
        have hrun : x { w.disk with stop := k +ᵥ stop } = .error e { disk' with stop } := hruns stop
        show onDisk x ⟨w.inner.arm none, { w.disk with stop := k +ᵥ stop }⟩ = _
        rw [onDisk, onPart, hrun]
        rfl
      · exact hplanted.elim
  halts w w' hhalted := by
    have hafter : after (onDisk x) w' = ⟨w'.inner, after x w'.disk⟩ := by
      rw [after, after, onDisk, onPart]
      cases x w'.disk <;> rfl
    rw [hafter]
    exact h.halts w.disk w'.disk hhalted

/-- A change of the handle that has nothing to do with the fault. -/
theorem shadows_update {f : DbInner → DbInner} (hfault : ∀ db, (f db).fault = db.fault)
    (harm : ∀ db, f (db.arm none) = (f db).arm none) : (World.limits fault n).Shadows (update f) :=
  .modify (fun w hready => by
      show (f w.inner).fault.fault = _ ∧ max ((f w.inner).fault.hits + 1) _ = n ∧ _
      rw [hfault]
      exact hready)
    (fun _ => rfl) (fun stop w => by
      show World.mk (f (w.inner.arm none)) _ = _
      rw [harm]
      rfl) fun _ _ h => h

theorem shadows_deleteInputs (inputs : List (Nat × SSTable)) :
    (World.limits fault n).Shadows (deleteInputs inputs) := by
  induction inputs with
  | nil => exact .pure ()
  | cons input inputs ih =>
    exact (shadows_hit _).bind fun _ =>
      (shadows_onDisk (Disk.shadows_tryRemoveFile _)).bind fun _ => ih

section Operations

variable [BloomSizing]

theorem shadows_writeLevelFile (level : Nat) (entries : SortedMap String SSTableEntry) :
    (World.limits fault n).Shadows (writeLevelFile level entries) := by
  refine .get_bind (fun _ _ => rfl) fun w => .ite (.throw _) ?_
  refine .bind (shadows_update ?_ ?_) fun _ => ?_
  · exact fun _ => rfl
  · exact fun _ => rfl
  refine (shadows_hit _).bind fun _ => (Limits.Shadows.fromExcept _).bind fun file => ?_
  refine (shadows_onDisk (Disk.shadows_perform _)).bind fun _ => (shadows_hit _).bind fun _ => ?_
  refine (shadows_hit _).bind fun _ => (shadows_onDisk (Disk.shadows_renameFile _ _)).bind fun _ => ?_
  refine (shadows_hit _).bind fun _ => (shadows_onDisk (Disk.shadows_readFile _)).bind fun _ => ?_
  exact .fromExcept _

theorem shadows_mergeLoop (job : CompactionJob) (fuel : Nat)
    (merged : MergeIterator SSTableIterator) (st : MergeState) :
    (World.limits fault n).Shadows (mergeLoop job fuel merged st) := by
  induction fuel generalizing merged st with
  | zero => exact .throw _
  | succ fuel ih =>
    rw [mergeLoop]
    split
    · split
      · exact .throw _
      · refine (Limits.Shadows.fromExcept _).bind fun merged => .ite (ih _ _) (.ite ?_ (ih _ _))
        exact (shadows_writeLevelFile _ _).bind fun _ => ih _ _
    · exact .pure _

theorem shadows_writeOutputs (job : CompactionJob) :
    (World.limits fault n).Shadows (writeOutputs job) := by
  refine (Limits.Shadows.fromExcept _).bind fun merged => ?_
  refine (shadows_mergeLoop _ _ _ _).bind fun st => .ite (.pure _) ?_
  exact (shadows_writeLevelFile _ _).bind fun _ => .pure _

theorem shadows_executeJob (job : CompactionJob) :
    (World.limits fault n).Shadows (executeJob job) := by
  refine (shadows_writeOutputs job).bind fun outputs => (shadows_hit _).bind fun _ => ?_
  refine (shadows_onDisk (shadows_writePendingMerge _ _)).bind fun _ => ?_
  refine (shadows_deleteInputs _).bind fun _ => (shadows_hit _).bind fun _ => ?_
  refine (shadows_hit _).bind fun _ => .bind (shadows_update ?_ ?_) fun _ => ?_
  · exact fun _ => rfl
  · exact fun _ => rfl
  exact (shadows_hit _).bind fun _ => shadows_onDisk shadows_clearPendingMerge

theorem shadows_compactPending (fuel : Nat) :
    (World.limits fault n).Shadows (compactPending fuel) := by
  induction fuel with
  | zero => exact .throw _
  | succ fuel ih =>
    refine .get_bind (fun _ _ => rfl) fun w => (Limits.Shadows.fromExcept _).bind fun picked => ?_
    cases picked with
    | none => exact .pure ()
    | some plan =>
      exact (Limits.Shadows.fromExcept _).bind fun job => (shadows_executeJob job).bind fun _ => ih

theorem shadows_compactFull : (World.limits fault n).Shadows compactFull :=
  .get_bind (fun _ _ => rfl) fun _ => .ite (.pure ()) (shadows_executeJob _)

theorem shadows_flush (fuel : Nat) : (World.limits fault n).Shadows (flush fuel) := by
  refine .get_bind (fun _ _ => rfl) fun w => .ite (.pure ()) ?_
  refine (shadows_writeLevelFile _ _).bind fun sst => (shadows_hit _).bind fun _ => ?_
  refine (shadows_onDisk (Disk.shadows_perform _)).bind fun _ => (shadows_hit _).bind fun _ => ?_
  refine (shadows_hit _).bind fun _ => .bind (shadows_update ?_ ?_) fun _ => ?_
  · exact fun _ => rfl
  · exact fun _ => rfl
  exact (shadows_hit _).bind fun _ => shadows_compactPending fuel

theorem shadows_writeRecord (fuel : Nat) (record : WalRecord) (key : String)
    (entry : MemtableEntry) :
    (World.limits fault n).Shadows (writeRecord fuel record key entry) := by
  refine (shadows_hit _).bind fun _ => Limits.Shadows.bind ?_ fun _ => ?_
  · exact .ite (.throw _) (shadows_onDisk (Disk.shadows_perform _))
  refine (shadows_hit _).bind fun _ => (shadows_hit _).bind fun _ => ?_
  refine .bind (shadows_update ?_ ?_) fun _ => ?_
  · exact fun _ => rfl
  · exact fun _ => rfl
  refine (shadows_hit _).bind fun _ => ?_
  exact .get_bind (fun _ _ => rfl) fun _ => .ite (shadows_flush fuel) (.pure ())

theorem shadows_call (fuel : Nat) (call : Call) :
    (World.limits fault n).Shadows (call.run fuel) := by
  cases call with
  | set key value => exact (shadows_writeRecord _ _ _ _).map
  | delete key =>
    refine Limits.Shadows.map (.get_bind (fun _ _ => rfl) fun w => ?_)
    exact (Limits.Shadows.fromExcept _).bind fun existed =>
      (shadows_writeRecord _ _ _ _).bind fun _ => .pure _
  | flush => exact (shadows_flush fuel).map
  | compact => exact (shadows_compactPending fuel).map
  | compactFull => exact shadows_compactFull.map

end Operations

end Handles

/-! ## Processes -/

section Process

variable [BloomSizing]

/-- Calls one after the other, up to the first that does not return. -/
def makeCalls (fuel : Nat) : List Call → OpM Unit
  | [] => pure ()
  | call :: calls => do
    let _ ← call.run fuel
    makeCalls fuel calls

/-- A process that opens the database, makes its calls and ends. -/
def process (options : DbOptions) (fuel : Nat) (calls : List Call) : DiskM Unit := fun disk =>
  match openWithOptions options disk with
  | .error e disk => .error e disk
  | .ok db disk =>
    match makeCalls fuel calls ⟨db, disk⟩ with
    | .ok () w => .ok () w.disk
    | .error e w => .error e w.disk

theorem shadows_makeCalls {fault : Fault} {n : Nat} (fuel : Nat) (calls : List Call) :
    (World.limits fault n).Shadows (makeCalls fuel calls) := by
  induction calls with
  | nil => exact .pure ()
  | cons call calls ih => exact (shadows_call fuel call).bind fun _ => ih

theorem along_makeCalls (fuel : Nat) (calls : List Call) :
    Along World.Frame (makeCalls fuel calls) := by
  induction calls with
  | nil => exact .pure .refl _
  | cons call calls ih => exact World.Frame.steady.bind (along_call fuel call) fun _ => ih

omit [BloomSizing] in
/-- Opening does not look at the fault. -/
theorem openWithOptions_fault (options : DbOptions) (fault : Option Fault) :
    openWithOptions { options with fault } =
      DbInner.arm fault <$> openWithOptions { options with fault := none } := by
  simp only [openWithOptions, map_bind, map_pure]
  rfl

omit [BloomSizing] in
theorem openWithOptions_ok {options : DbOptions} {disk disk' : Disk} {db : DbInner}
    (fault : Option Fault)
    (h : openWithOptions { options with fault := none } disk = .ok db disk') :
    openWithOptions { options with fault } disk = .ok (db.arm fault) disk' := by
  rw [openWithOptions_fault]
  show EStateM.map _ _ disk = _
  rw [EStateM.map, h]

omit [BloomSizing] in
theorem openWithOptions_error {options : DbOptions} {disk disk' : Disk} {e : Exit}
    (fault : Option Fault)
    (h : openWithOptions { options with fault := none } disk = .error e disk') :
    openWithOptions { options with fault } disk = .error e disk' := by
  rw [openWithOptions_fault]
  show EStateM.map _ _ disk = _
  rw [EStateM.map, h]

omit [BloomSizing] in
theorem arm_none_of_openWithOptions {options : DbOptions} {disk disk' : Disk} {db : DbInner}
    (h : openWithOptions { options with fault := none } disk = .ok db disk') : db.arm none = db := by
  have harm := openWithOptions_ok none h
  rw [h] at harm
  injection harm with hdb
  exact hdb.symm

/-- A process that has opened the database. -/
theorem process_eq {options : DbOptions} {fuel : Nat} {calls : List Call} {db : DbInner}
    {disk disk' : Disk} (h : openWithOptions options disk = .ok db disk') :
    process options fuel calls disk = match makeCalls fuel calls ⟨db, disk'⟩ with
      | .ok () w => .ok () w.disk
      | .error e w => .error e w.disk := by
  rw [process, h]

theorem after_process {options : DbOptions} {fuel : Nat} {calls : List Call} {db : DbInner}
    {disk disk' : Disk} (h : openWithOptions options disk = .ok db disk') :
    after (process options fuel calls) disk = (after (makeCalls fuel calls) ⟨db, disk'⟩).disk := by
  rw [after, after, process_eq h]
  cases makeCalls fuel calls ⟨db, disk'⟩ <;> rfl

omit [BloomSizing] in
theorem Disk.limit_none {disk : Disk} (h : disk.stop = none) :
    { disk with stop := none } = disk := by
  obtain ⟨dir, log, listing, unlinkFails, _⟩ := disk
  obtain rfl : _ = none := h
  rfl

/-- The calls on a handle with a fault, beside those on the handle without it. -/
theorem wp_makeCalls_armed {db : DbInner} (harm : db.arm none = db) (fault : Fault) (fuel : Nat)
    (calls : List Call) {disk : Disk} (hstop : disk.stop = none) :
    Wp (makeCalls fuel calls)
      (fun _ w => makeCalls fuel calls ⟨db, disk⟩ = .ok () ⟨w.inner.arm none, w.disk⟩)
      (fun e w => makeCalls fuel calls ⟨db, disk⟩ = .error e ⟨w.inner.arm none, w.disk⟩ ∨
        e = fault.exit (max 1 fault.at_) ∧ ∃ done, w.disk.log.length = disk.log.length + done ∧
          (after (makeCalls fuel calls) ⟨db, { disk with stop := some ⟨done, 0⟩ }⟩).disk.dir =
            w.disk.dir) ⟨db.arm (some fault), disk⟩ := by
  have hlimit : ∀ stop, (World.limits fault (max 1 fault.at_)).limit stop
      ⟨db.arm (some fault), disk⟩ = ⟨db, { disk with stop }⟩ := fun stop =>
    congrArg (World.mk · _) harm
  have hshadows : (World.limits fault (max 1 fault.at_)).Shadows (makeCalls fuel calls) :=
    shadows_makeCalls fuel calls
  refine ((hshadows.runs ⟨db.arm (some fault), disk⟩ ⟨rfl, rfl, hstop⟩).and
    (along_makeCalls fuel calls _)).mono (fun _ w h => ?_) fun e w h => ?_
  · obtain ⟨⟨⟨-, -, hstop'⟩, done, -, hreturns⟩, -⟩ := h
    have hreturns := hreturns none
    rw [hlimit] at hreturns
    rw [← Disk.limit_none hstop, ← Disk.limit_none hstop']
    exact hreturns
  · obtain ⟨⟨done, hdone, hexits | ⟨hplanted, hhalted⟩⟩, hframe⟩ := h
    · have hexits := hexits none
      rw [hlimit] at hexits
      rw [← Disk.limit_none hstop, ← Disk.limit_none (hframe.disk.stop hstop)]
      exact Or.inl hexits
    · rw [hlimit] at hhalted
      exact Or.inr ⟨hplanted, done, hdone, hhalted.2⟩

/-- A process with a fault ends as it ends without one, or at the fault; then it leaves the
directory that a stop before the next file operation leaves. -/
theorem process_stops_at_fault (options : DbOptions) (fault : Fault) (fuel : Nat) (calls : List Call)
    {disk : Disk} (hstop : disk.stop = none) :
    Wp (process { options with fault := some fault } fuel calls)
      (fun _ disk' => process { options with fault := none } fuel calls disk = .ok () disk')
      (fun e disk' => process { options with fault := none } fuel calls disk = .error e disk' ∨
        e = fault.exit (max 1 fault.at_) ∧ ∃ done, disk'.log.length = disk.log.length + done ∧
          (after (process { options with fault := none } fuel calls)
            { disk with stop := some ⟨done, 0⟩ }).dir = disk'.dir) disk := by
  have hopen := (shadows_openWithOptions { options with fault := none }).runs disk hstop
  rw [Wp] at hopen ⊢
  cases hplain : openWithOptions { options with fault := none } disk with
  | error e disk' =>
    have hrun : ∀ fault, process { options with fault } fuel calls disk = .error e disk' := by
      intro fault
      rw [process, openWithOptions_error fault hplain]
    rw [hrun]
    exact Or.inl (hrun none)
  | ok db disk' =>
    rw [hplain] at hopen
    obtain ⟨hstop', opening, hopening, hopens⟩ := hopen
    have hcalls := wp_makeCalls_armed (arm_none_of_openWithOptions hplain) fault fuel calls hstop'
    rw [process_eq (openWithOptions_ok (some fault) hplain), process_eq hplain]
    rw [Wp] at hcalls
    split at hcalls
    · rename_i heq
      rw [heq, hcalls]
    · rename_i e w heq
      rw [heq]
      rcases hcalls with hexits | ⟨hplanted, done, hdone, hdir⟩
      · rw [hexits]
        exact Or.inl rfl
      · refine Or.inr ⟨hplanted, opening + done, ?_, ?_⟩
        · rw [hdone, ← Nat.add_assoc]
          exact congrArg (· + done) hopening
        · have hstopped : openWithOptions { options with fault := none }
              { disk with stop := some ⟨opening + done, 0⟩ } =
                .ok db { disk' with stop := some ⟨done, 0⟩ } := hopens (some ⟨done, 0⟩)
          rw [after_process hstopped]
          exact hdir

end Process

/-- Every call flushes, every second one merges. -/
def mergingPairs (fault : Option Fault) : DbOptions :=
  { DbOptions.default with flushThreshold := 1, l0CompactionThreshold := 2, fault }

/-- The first merge fails before it deletes an input. -/
def mergeFault : Fault := ⟨.beforeObsoleteFileDelete, 1, .error⟩

/-- The second call fails in the merge it starts. -/
theorem process_stops_at_fault_merge : ∃ disk' done,
    @process .ofSmall (mergingPairs mergeFault) 3 [.set "a" "1", .set "a" "2"] emptyDisk =
      .error (mergeFault.exit 1) disk' ∧
    (after (@process .ofSmall (mergingPairs none) 3 [.set "a" "1", .set "a" "2"])
      { emptyDisk with stop := some ⟨done, 0⟩ }).dir = disk'.dir ∧
    mergePendingFile ∈ disk'.dir.keys := by
  have hcut : checkExit (@process .ofSmall (mergingPairs mergeFault) 3
      [.set "a" "1", .set "a" "2"]) emptyDisk (fun e disk' =>
        decide (e = mergeFault.exit 1 ∧ mergePendingFile ∈ disk'.dir.keys)) = true := by
    decide +kernel
  have hwhole : check (@process .ofSmall (mergingPairs none) 3 [.set "a" "1", .set "a" "2"])
      emptyDisk (fun _ _ => true) = true := by
    decide +kernel
  have hstop : emptyDisk.stop = none := rfl
  generalize emptyDisk = disk at hcut hwhole hstop ⊢
  obtain ⟨e, disk', hcut, htest⟩ := exists_of_checkExit hcut
  obtain ⟨rfl, hmarker⟩ := of_decide_eq_true htest
  obtain ⟨_, _, hwhole, -⟩ := exists_of_check hwhole
  have hstops := @process_stops_at_fault .ofSmall (mergingPairs none) mergeFault 3
    [.set "a" "1", .set "a" "2"] disk hstop
  rcases hstops.exit_of_eq hcut with hsame | ⟨-, done, -, hdir⟩
  · exact absurd (hwhole.symm.trans hsame) (by simp)
  · exact ⟨disk', done, hcut, hdir, hmarker⟩

end PebbleDB
