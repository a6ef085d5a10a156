import PebbleDB.JobRun
import PebbleDB.Plans

/-!
# Jobs end

The loop of a job reads its inputs to their end, so a job on sound inputs comes back: it returns,
fails, panics or is stopped, but never runs out of steps (`executeJob_ends`), as long as what it
writes fits the offsets and can be read back.
-/

namespace PebbleDB

open EarlyExit

/-- The exit is not the cut-off of a loop. -/
def Ends {σ : Type} (e : Exit) (_ : σ) : Prop := e ≠ .outOfFuel

/-- The exit is the cut-off of a loop only if a file does not fit. -/
def EndsIfFits (e : Exit) (w : World) : Prop := w.disk.Fits → e ≠ .outOfFuel

namespace Disk

theorem ends_perform (op : FileOp) : Exits Ends (perform op) := fun _ =>
  wp_perform (fun _ _ => trivial) fun _ _ => Exit.noConfusion

theorem ends_fileExists (name : String) : Exits Ends (fileExists name) := fun _ =>
  wp_fileExists trivial

theorem ends_renameFile (source target : String) : Exits Ends (renameFile source target) :=
  .bind (ends_fileExists _) fun _ => .ite (ends_perform _) (.throw fun _ => Exit.noConfusion)

theorem ends_removeFile (name : String) : Exits Ends (removeFile name) := fun _ =>
  wp_removeFile (fun _ _ _ _ => trivial) (fun _ => Exit.noConfusion) (fun _ => Exit.noConfusion)
    fun _ _ => Exit.noConfusion

theorem ends_tryRemoveFile (name : String) : Exits Ends (tryRemoveFile name) := fun _ =>
  wp_tryRemoveFile (fun _ _ _ _ => trivial) (fun _ => trivial) fun _ _ => Exit.noConfusion

end Disk

theorem ends_writePendingMerge (outputs inputs : List Nat) :
    Exits Ends (writePendingMerge outputs inputs) :=
  .bind (Disk.ends_perform _) fun _ => Disk.ends_renameFile _ _

theorem ends_clearPendingMerge : Exits Ends clearPendingMerge :=
  .bind (Disk.ends_fileExists _) fun _ => .ite (Disk.ends_removeFile _) (.pure _)

theorem ends_hit (point : FaultPoint) : Exits Ends (hit point) := fun _ =>
  wp_hit (fun _ => trivial) fun _ h => FaultInjector.hit_ends h

theorem ends_onDisk {α : Type} {x : DiskM α} (h : Exits Ends x) : Exits Ends (onDisk x) :=
  .onPart h fun _ _ _ he => he

theorem ends_deleteInputs (inputs : List (Nat × SSTable)) : Exits Ends (deleteInputs inputs) := by
  induction inputs with
  | nil => exact .pure _
  | cons input inputs ih =>
    exact .bind (ends_hit _) fun _ => .bind (ends_onDisk (Disk.ends_tryRemoveFile _)) fun _ => ih

theorem ends_ifFits {α : Type} {x : OpM α} (h : Exits Ends x) : Exits EndsIfFits x := fun w =>
  (h w).mono (fun _ _ _ => trivial) fun _ _ he _ => he

section Jobs

variable [BloomSizing]

/-- A file that fits is read back. -/
theorem ends_writeLevelFile {level : Nat} (hlevel : level < 2 ^ 32)
    (entries : SortedMap String SSTableEntry) :
    Exits EndsIfFits (writeLevelFile level entries) := fun w =>
  (wp_writeLevelFile hlevel w).mono (fun _ _ _ => trivial) fun _ _ h => h.ends

theorem ends_writeAll {level : Nat} (hlevel : level < 2 ^ 32)
    (chunks : List (SortedMap String SSTableEntry)) : Exits EndsIfFits (writeAll level chunks) := by
  induction chunks with
  | nil => exact .pure _
  | cons chunk chunks ih =>
    exact .bind (ends_writeLevelFile hlevel chunk) fun _ => .bind ih fun _ => .pure _

theorem ends_executeJob {job : CompactionJob} (hlevel : job.outputLevel < 2 ^ 32)
    (hsound : ∀ input ∈ job.inputs, input.2.Sound) : Exits EndsIfFits (executeJob job) := by
  rw [executeJob, writeOutputs_eq job hsound]
  refine .bind (ends_writeAll hlevel _) fun outs => .bind (ends_ifFits (ends_hit _)) fun _ => ?_
  refine .bind (ends_ifFits (ends_onDisk (ends_writePendingMerge _ _))) fun _ => ?_
  refine .bind (ends_ifFits (ends_deleteInputs _)) fun _ => ?_
  refine .bind (ends_ifFits (ends_hit _)) fun _ => .bind (ends_ifFits (ends_hit _)) fun _ => ?_
  refine .bind (.modify _) fun _ => .bind (ends_ifFits (ends_hit _)) fun _ => ?_
  exact ends_ifFits (ends_onDisk ends_clearPendingMerge)

/-- Nothing to do. -/
theorem compactPending_of_none (fuel : Nat) {w : World}
    (hpick : pickCompaction w.inner.fileMetas w.inner.options.levelConfig = .ok none) :
    compactPending (fuel + 1) w = .ok () w := by
  rw [compactPending, bind_of_ok (rfl : (get : OpM World) w = .ok w w),
    bind_of_ok (fromExcept_ok hpick _)]
  rfl

/-- What one turn of `compact_pending` does, with `fuel` turns left behind it. -/
inductive Turn (fuel : Nat) (w : World) : EStateM.Result Exit World Unit → Prop where
  | rest (hpick : pickCompaction w.inner.fileMetas w.inner.options.levelConfig = .ok none) :
      Turn fuel w (.ok () w)
  | overflow : Turn fuel w (.error .panic w)
  | failed (plan : CompactionPlan) (job : CompactionJob) (e : Exit) (w' : World)
      (hpick : pickCompaction w.inner.fileMetas w.inner.options.levelConfig = .ok (some plan))
      (hplan : w.inner.planJob plan = .ok job) (hrun : executeJob job w = .error e w') :
      Turn fuel w (.error e w')
  | next (plan : CompactionPlan) (job : CompactionJob) (w' : World)
      (hpick : pickCompaction w.inner.fileMetas w.inner.options.levelConfig = .ok (some plan))
      (hplan : w.inner.planJob plan = .ok job) (hrun : executeJob job w = .ok () w') :
      Turn fuel w (compactPending fuel w')

theorem turn_compactPending (fuel : Nat) (w : World) :
    Turn fuel w (compactPending (fuel + 1) w) := by
  rw [compactPending, bind_of_ok (rfl : (get : OpM World) w = .ok w w)]
  cases hpick : pickCompaction w.inner.fileMetas w.inner.options.levelConfig with
  | error e =>
    obtain rfl := pickCompaction_eq_error hpick
    rw [bind_of_error (fromExcept_error rfl w)]
    exact .overflow
  | ok picked =>
    rw [bind_of_ok (fromExcept_ok rfl w)]
    cases picked with
    | none => exact .rest hpick
    | some plan =>
      dsimp only
      cases hplan : w.inner.planJob plan with
      | error e =>
        obtain rfl := DbInner.planJob_eq_error hplan
        rw [bind_of_error (fromExcept_error rfl w)]
        exact .overflow
      | ok job =>
        rw [bind_of_ok (fromExcept_ok rfl w)]
        cases hrun : executeJob job w with
        | error e w' =>
          rw [bind_of_error hrun]
          exact .failed plan job e w' hpick hplan hrun
        | ok a w' =>
          rw [bind_of_ok hrun]
          exact .next plan job w' hpick hplan hrun

end Jobs

end PebbleDB
