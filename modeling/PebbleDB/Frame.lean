import PebbleDB.Db

/-!
# What the operations leave alone

However an operation of a handle ends, it has kept the options, the kind of fault and what the
environment does; it has only counted ids and hits up, and only added to the log of file operations
(`Frame`). Each operation is built from few primitive ones, so whatever relation these keep
(`Steady`), the operation keeps as well, by one short lemma each.
-/

namespace PebbleDB

open EarlyExit

/-- What the file operations never change. -/
structure Disk.Frame (disk disk' : Disk) : Prop where
  log : disk.log <+: disk'.log
  listing : disk'.listing = disk.listing
  unlinkFails : disk'.unlinkFails = disk.unlinkFails
  stop : disk.stop = none → disk'.stop = none

namespace Disk

theorem Frame.refl (disk : Disk) : disk.Frame disk := ⟨List.prefix_rfl, rfl, rfl, id⟩

theorem Frame.trans {a b c : Disk} (h : a.Frame b) (h' : b.Frame c) : a.Frame c where
  log := h.log.trans h'.log
  listing := h'.listing.trans h.listing
  unlinkFails := h'.unlinkFails.trans h.unlinkFails
  stop := h'.stop ∘ h.stop

/-- One file operation is done, or the process stops in it. -/
theorem wp_perform {op : FileOp} {ok : Unit → Disk → Prop} {exit : Exit → Disk → Prop}
    {disk : Disk}
    (hok : ∀ stop, (disk.stop = none → stop = none) →
      ok () { disk with dir := op.apply disk.dir, log := disk.log ++ [op], stop })
    (hexit : ∀ cut, disk.stop ≠ none →
      exit .stopped { disk with dir := op.applyCut cut disk.dir, log := disk.log ++ [op] }) :
    Wp (perform op) ok exit disk := by
  obtain ⟨dir, log, listing, unlinkFails, stop⟩ := disk
  rcases stop with _ | ⟨_ | after, cut⟩
  · exact hok none fun _ => rfl
  · exact hexit cut (Option.some_ne_none _)
  · exact hok (some ⟨after, cut⟩) fun h => absurd h (Option.some_ne_none _)

theorem along_perform (op : FileOp) : Along Frame (perform op) := fun _ =>
  wp_perform (fun _ hstop => ⟨List.prefix_append _ _, rfl, rfl, hstop⟩)
    fun _ hne => ⟨List.prefix_append _ _, rfl, rfl, fun h => absurd h hne⟩

/-- A relation that holds between a directory and what reading it, and operations in `P` on it,
make of it. -/
structure Steady (P : FileOp → Prop) (S : Disk → Disk → Prop) : Prop where
  refl : ∀ disk, S disk disk
  trans : ∀ {a b c}, S a b → S b c → S a c
  perform : ∀ {op}, P op → Along S (perform op)

theorem Frame.steady : Steady (fun _ => True) Frame := ⟨.refl, .trans, fun _ => along_perform _⟩

theorem wp_readFile {name : String} {ok : Bytes → Disk → Prop} {exit : Exit → Disk → Prop}
    {disk : Disk} (hok : ∀ data, disk.dir.get? name = some data → ok data disk)
    (hexit : disk.dir.get? name = none → exit (.error (.io .notFound)) disk) :
    Wp (readFile name) ok exit disk := by
  rw [Wp, readFile]
  cases h : disk.dir.get? name with
  | some data => exact hok data h
  | none => exact hexit h

theorem wp_fileExists {name : String} {ok : Bool → Disk → Prop} {exit : Exit → Disk → Prop}
    {disk : Disk} (hok : ok (disk.dir.get? name).isSome disk) :
    Wp (fileExists name) ok exit disk := hok

namespace Steady

variable {P : FileOp → Prop} {S : Disk → Disk → Prop} (h : Steady P S)
include h

theorem bind {α β : Type} {x : DiskM α} {f : α → DiskM β} (hx : Along S x)
    (hf : ∀ a, Along S (f a)) : Along S (x >>= f) :=
  Along.bind (fun {a b c} => @Steady.trans P S h a b c) hx hf

theorem along_readFile (name : String) : Along S (readFile name) := fun disk =>
  wp_readFile (fun _ _ => h.refl disk) fun _ => h.refl disk

theorem along_fileExists (name : String) : Along S (fileExists name) := fun disk =>
  wp_fileExists (h.refl disk)

theorem along_renameFile {source target : String} (hop : P (.rename source target)) :
    Along S (renameFile source target) :=
  h.bind (h.along_fileExists _) fun _ => .ite (h.perform hop) (.throw h.refl _)

theorem along_removeFile {name : String} (hop : P (.remove name)) : Along S (removeFile name) :=
  h.bind (.get h.refl) fun _ =>
    .ite (.throw h.refl _) (.ite (.throw h.refl _) (h.perform hop))

theorem along_tryRemoveFile {name : String} (hop : P (.remove name)) :
    Along S (tryRemoveFile name) := by
  intro disk
  have hremove := h.along_removeFile hop disk
  rw [Wp] at hremove ⊢
  rw [tryRemoveFile]
  cases hx : removeFile name disk with
  | ok a disk' =>
    rw [hx] at hremove
    exact hremove
  | error e disk' =>
    rw [hx] at hremove
    cases e <;> exact hremove

end Steady

/-- The ways a removal ends. -/
theorem wp_removeFile {name : String} {ok : Unit → Disk → Prop} {exit : Exit → Disk → Prop}
    {disk : Disk}
    (hok : disk.dir.get? name ≠ none → disk.unlinkFails name = false →
      ∀ stop, (disk.stop = none → stop = none) →
        ok () { disk with dir := disk.dir.erase name, log := disk.log ++ [.remove name], stop })
    (hmissing : disk.dir.get? name = none → exit (.error (.io .notFound)) disk)
    (hfails : disk.unlinkFails name = true → exit (.error (.io .permissionDenied)) disk)
    (hstop : ∀ cut, disk.stop ≠ none → exit .stopped
      { disk with dir := (FileOp.remove name).applyCut cut disk.dir,
                  log := disk.log ++ [.remove name] }) :
    Wp (removeFile name) ok exit disk := by
  rw [removeFile]
  refine Wp.bind (Wp.get (Wp.ite (fun hnone => Wp.throw (hmissing hnone)) fun hsome => ?_))
  refine Wp.ite (fun hfail => Wp.throw (hfails hfail)) fun hfail => ?_
  exact wp_perform (hok hsome (Bool.eq_false_iff.mpr hfail)) hstop

/-- What `let _ =` makes of an exit: an error is dropped. -/
def dropError (ok : Unit → Disk → Prop) (exit : Exit → Disk → Prop) : Exit → Disk → Prop
  | .error _, disk => ok () disk
  | e, disk => exit e disk

/-- A removal whose failure is ignored. -/
theorem wp_tryRemoveFile {name : String} {ok : Unit → Disk → Prop} {exit : Exit → Disk → Prop}
    {disk : Disk}
    (hok : disk.dir.get? name ≠ none → disk.unlinkFails name = false →
      ∀ stop, (disk.stop = none → stop = none) →
        ok () { disk with dir := disk.dir.erase name, log := disk.log ++ [.remove name], stop })
    (hkept : disk.dir.get? name = none ∨ disk.unlinkFails name = true → ok () disk)
    (hstop : ∀ cut, disk.stop ≠ none → exit .stopped
      { disk with dir := (FileOp.remove name).applyCut cut disk.dir,
                  log := disk.log ++ [.remove name] }) :
    Wp (tryRemoveFile name) ok exit disk := by
  have h : Wp (removeFile name) ok (dropError ok exit) disk :=
    wp_removeFile hok (fun h => hkept (Or.inl h)) (fun h => hkept (Or.inr h)) hstop
  rw [Wp] at h ⊢
  rw [tryRemoveFile]
  cases hx : removeFile name disk with
  | ok a disk' =>
    rw [hx] at h
    exact h
  | error e disk' =>
    rw [hx] at h
    cases e <;> exact h

end Disk

/-! ## Handles -/

/-- What the operations of a handle never change, and what they only count up. -/
structure World.Frame (w w' : World) : Prop where
  disk : w.disk.Frame w'.disk
  options : w'.inner.options = w.inner.options
  fault : w'.inner.fault.fault = w.inner.fault.fault
  hits : w.inner.fault.hits ≤ w'.inner.fault.hits
  nextSstId : w.inner.nextSstId ≤ w'.inner.nextSstId

namespace World

theorem Frame.refl (w : World) : w.Frame w := ⟨Disk.Frame.refl _, rfl, rfl, le_rfl, le_rfl⟩

theorem Frame.trans {a b c : World} (h : a.Frame b) (h' : b.Frame c) : a.Frame c where
  disk := h.disk.trans h'.disk
  options := h'.options.trans h.options
  fault := h'.fault.trans h.fault
  hits := h.hits.trans h'.hits
  nextSstId := h.nextSstId.trans h'.nextSstId

end World

/-- What `along_onDisk` and `along_update` say of `Frame`, for any relation. -/
structure World.Steady (P : FileOp → Prop) (R : World → World → Prop) : Prop where
  refl : ∀ w, R w w
  trans : ∀ {a b c}, R a b → R b c → R a c
  hit : ∀ point, Along R (hit point)
  update : ∀ {f : DbInner → DbInner}, (∀ db, (f db).options = db.options) →
    (∀ db, (f db).fault = db.fault) → (∀ db, db.nextSstId ≤ (f db).nextSstId) →
    Along R (update f)
  disk : Disk.Steady P fun disk disk' => ∀ inner, R ⟨inner, disk⟩ ⟨inner, disk'⟩

theorem World.along_onDisk {R : World → World → Prop} {α : Type} {x : DiskM α}
    (hx : Along (fun disk disk' => ∀ inner, R ⟨inner, disk⟩ ⟨inner, disk'⟩) x) :
    Along R (onDisk x) := Along.onPart hx fun w _ hdisk => hdisk w.inner

namespace World.Steady

variable {P : FileOp → Prop} {R : World → World → Prop} (h : Steady P R)
include h

theorem bind {α β : Type} {x : OpM α} {f : α → OpM β} (hx : Along R x)
    (hf : ∀ a, Along R (f a)) : Along R (x >>= f) :=
  Along.bind (fun {a b c} => @Steady.trans P R h a b c) hx hf

end World.Steady

theorem FaultInjector.hit_fault (injector : FaultInjector) (point : FaultPoint) :
    (injector.hit point).2.fault = injector.fault := by
  unfold FaultInjector.hit
  dsimp only
  repeat' split
  all_goals rfl

theorem FaultInjector.hits_le_hit (injector : FaultInjector) (point : FaultPoint) :
    injector.hits ≤ (injector.hit point).2.hits := by
  unfold FaultInjector.hit
  dsimp only
  repeat' split
  all_goals first
    | exact Nat.le_refl _
    | exact Nat.le_succ _

theorem FaultInjector.hit_ends {injector : FaultInjector} {point : FaultPoint} {e : Exit}
    (h : (injector.hit point).1 = .error e) : e ≠ .outOfFuel := by
  rintro rfl
  unfold FaultInjector.hit at h
  dsimp only at h
  repeat' split at h
  all_goals cases h

/-- A fault point changes only the injector. -/
theorem wp_hit {point : FaultPoint} {ok : Unit → World → Prop} {exit : Exit → World → Prop}
    {w : World}
    (hok : (w.inner.fault.hit point).1 = .ok () →
      ok () { w with inner := { w.inner with fault := (w.inner.fault.hit point).2 } })
    (hexit : ∀ e, (w.inner.fault.hit point).1 = .error e →
      exit e { w with inner := { w.inner with fault := (w.inner.fault.hit point).2 } }) :
    Wp (hit point) ok exit w := by
  rw [Wp, hit]
  rcases h : w.inner.fault.hit point with ⟨_ | _, fault⟩
  · have := hexit _ (by rw [h])
    rw [h] at this
    exact this
  · have := hok (by rw [h])
    rw [h] at this
    exact this

theorem along_hit (point : FaultPoint) : Along World.Frame (hit point) := fun w =>
  have hframe : w.Frame { w with
      inner := { w.inner with fault := (w.inner.fault.hit point).2 } } :=
    ⟨Disk.Frame.refl _, rfl, FaultInjector.hit_fault _ _, FaultInjector.hits_le_hit _ _, le_rfl⟩
  wp_hit (fun _ => hframe) fun _ _ => hframe

namespace World

theorem Frame.of_disk {disk disk' : Disk} (h : disk.Frame disk') (inner : DbInner) :
    World.Frame ⟨inner, disk⟩ ⟨inner, disk'⟩ := ⟨h, rfl, rfl, le_rfl, le_rfl⟩

theorem Frame.steady : Steady (fun _ => True) Frame where
  refl := .refl
  trans := .trans
  hit := along_hit
  update hoptions hfault hnext := Along.modify fun w =>
    ⟨Disk.Frame.refl _, hoptions w.inner, congrArg _ (hfault w.inner),
      (congrArg FaultInjector.hits (hfault w.inner)).ge, hnext w.inner⟩
  disk := {
    refl := fun _ _ => .refl _
    trans := fun h h' inner => (h inner).trans (h' inner)
    perform := fun _ disk => (Disk.along_perform _ disk).mono
      (fun _ _ h => .of_disk h) fun _ _ h => .of_disk h }

/-- A relation that more operations keep is kept by fewer. -/
theorem Steady.mono {P Q : FileOp → Prop} {R : World → World → Prop} (h : Steady P R)
    (hsub : ∀ op, Q op → P op) : Steady Q R :=
  ⟨h.refl, h.trans, h.hit, h.update, h.disk.refl, h.disk.trans,
    fun hop => h.disk.perform (hsub _ hop)⟩

end World

theorem along_onDisk {α : Type} {x : DiskM α} (h : Along Disk.Frame x) :
    Along World.Frame (onDisk x) :=
  Along.onPart h fun _ _ hframe => .of_disk hframe _

theorem along_update {f : DbInner → DbInner} (hoptions : ∀ db, (f db).options = db.options)
    (hfault : ∀ db, (f db).fault = db.fault) (hnext : ∀ db, db.nextSstId ≤ (f db).nextSstId) :
    Along World.Frame (update f) := World.Frame.steady.update hoptions hfault hnext

/-! ## The operations of a handle -/

/-- The operations of handles and of opening: the only files that are written as a whole are
temporary ones, of the marker and of tables. -/
inductive FileOp.Regular [BloomSizing] : FileOp → Prop where
  | marker (outputs inputs : List Nat) :
    Regular (.write (tmpName mergePendingFile) (asBytes (markerText outputs inputs)))
  | table (level id : Nat) (entries : SortedMap String SSTableEntry) (file : Bytes)
      (h : SSTable.writeSstable entries = .ok file) :
    Regular (.write (tmpName (sstableFileName level id)) file)
  | create (name : String) : Regular (.create name)
  | append (name : String) (data : Bytes) : Regular (.append name data)
  | rename (source target : String) : Regular (.rename source target)
  | remove (name : String) : Regular (.remove name)
  | setLen (name : String) (len : Nat) : Regular (.setLen name len)

namespace Disk.Steady

variable [BloomSizing] {S : Disk → Disk → Prop} (h : Steady FileOp.Regular S)
include h

theorem along_writePendingMerge (outputs inputs : List Nat) :
    Along S (writePendingMerge outputs inputs) :=
  h.bind (h.perform (.marker _ _)) fun _ => h.along_renameFile (.rename _ _)

theorem along_clearPendingMerge : Along S clearPendingMerge :=
  h.bind (h.along_fileExists _) fun _ =>
    .ite (h.along_removeFile (.remove _)) (.pure h.refl _)

end Disk.Steady

namespace World.Steady

variable [BloomSizing] {R : World → World → Prop} (h : Steady FileOp.Regular R)
include h

theorem along_deleteInputs (inputs : List (Nat × SSTable)) : Along R (deleteInputs inputs) := by
  induction inputs with
  | nil => exact .pure h.refl _
  | cons input inputs ih =>
    exact h.bind (h.hit _) fun _ =>
      h.bind (along_onDisk (h.disk.along_tryRemoveFile (.remove _))) fun _ => ih

theorem along_writeLevelFile (level : Nat) (entries : SortedMap String SSTableEntry) :
    Along R (writeLevelFile level entries) := by
  refine h.bind (.get h.refl) fun w => .ite (.throw h.refl _) ?_
  refine h.bind (h.update ?_ ?_ ?_) fun _ => ?_
  · exact fun _ => rfl
  · exact fun _ => rfl
  · exact fun _ => Nat.le_succ _
  refine h.bind (h.hit _) fun _ => .fromExcept_bind h.refl fun file hfile => ?_
  refine h.bind (along_onDisk (h.disk.perform (.table _ _ _ _ hfile))) fun _ => ?_
  refine h.bind (h.hit _) fun _ => h.bind (h.hit _) fun _ => ?_
  refine h.bind (along_onDisk (h.disk.along_renameFile (.rename _ _))) fun _ => ?_
  refine h.bind (h.hit _) fun _ => ?_
  exact h.bind (along_onDisk (h.disk.along_readFile _)) fun _ => .fromExcept h.refl _

theorem along_mergeLoop (job : CompactionJob) (fuel : Nat)
    (merged : MergeIterator SSTableIterator) (st : MergeState) :
    Along R (mergeLoop job fuel merged st) := by
  induction fuel generalizing merged st with
  | zero => exact .throw h.refl _
  | succ fuel ih =>
    rw [mergeLoop]
    split
    · split
      · exact .throw h.refl _
      · refine h.bind (.fromExcept h.refl _) fun merged => .ite (ih _ _) (.ite ?_ (ih _ _))
        exact h.bind (h.along_writeLevelFile _ _) fun _ => ih _ _
    · exact .pure h.refl _

theorem along_writeOutputs (job : CompactionJob) : Along R (writeOutputs job) :=
  h.bind (.fromExcept h.refl _) fun _ => h.bind (h.along_mergeLoop _ _ _ _) fun _ =>
    .ite (.pure h.refl _) (h.bind (h.along_writeLevelFile _ _) fun _ => .pure h.refl _)

theorem along_executeJob (job : CompactionJob) : Along R (executeJob job) := by
  refine h.bind (h.along_writeOutputs job) fun outputs => h.bind (h.hit _) fun _ => ?_
  refine h.bind (along_onDisk (h.disk.along_writePendingMerge _ _)) fun _ => ?_
  refine h.bind (h.along_deleteInputs _) fun _ => h.bind (h.hit _) fun _ => ?_
  refine h.bind (h.hit _) fun _ => h.bind (h.update ?_ ?_ ?_) fun _ => ?_
  · exact fun _ => rfl
  · exact fun _ => rfl
  · exact fun _ => Nat.le_refl _
  exact h.bind (h.hit _) fun _ => along_onDisk h.disk.along_clearPendingMerge

theorem along_compactPending (fuel : Nat) : Along R (compactPending fuel) := by
  induction fuel with
  | zero => exact .throw h.refl _
  | succ fuel ih =>
    refine h.bind (.get h.refl) fun w => h.bind (.fromExcept h.refl _) fun picked => ?_
    cases picked with
    | none => exact .pure h.refl _
    | some plan =>
      exact h.bind (.fromExcept h.refl _) fun job =>
        h.bind (h.along_executeJob job) fun _ => ih

theorem along_compactFull : Along R compactFull :=
  h.bind (.get h.refl) fun _ => .ite (.pure h.refl _) (h.along_executeJob _)

theorem along_flush (fuel : Nat) : Along R (flush fuel) := by
  refine h.bind (.get h.refl) fun w => .ite (.pure h.refl _) ?_
  refine h.bind (h.along_writeLevelFile _ _) fun sst => h.bind (h.hit _) fun _ => ?_
  refine h.bind (along_onDisk (h.disk.perform (.setLen _ _))) fun _ => ?_
  refine h.bind (h.hit _) fun _ => h.bind (h.hit _) fun _ => ?_
  refine h.bind (h.update ?_ ?_ ?_) fun _ => ?_
  · exact fun _ => rfl
  · exact fun _ => rfl
  · exact fun _ => Nat.le_refl _
  exact h.bind (h.hit _) fun _ => h.along_compactPending fuel

theorem along_writeRecord (fuel : Nat) (record : WalRecord) (key : String)
    (entry : MemtableEntry) : Along R (writeRecord fuel record key entry) := by
  refine h.bind (h.hit _) fun _ => h.bind ?_ fun _ => ?_
  · exact .ite (.throw h.refl _) (along_onDisk (h.disk.perform (.append _ _)))
  refine h.bind (h.hit _) fun _ => h.bind (h.hit _) fun _ => ?_
  refine h.bind (h.update ?_ ?_ ?_) fun _ => ?_
  · exact fun _ => rfl
  · exact fun _ => rfl
  · exact fun _ => Nat.le_refl _
  refine h.bind (h.hit _) fun _ => h.bind (.get h.refl) fun _ => ?_
  exact .ite (h.along_flush fuel) (.pure h.refl _)

theorem along_delete (fuel : Nat) (key : String) : Along R (delete fuel key) :=
  h.bind (.get h.refl) fun _ => h.bind (.fromExcept h.refl _) fun _ =>
    h.bind (h.along_writeRecord _ _ _ _) fun _ => .pure h.refl _

end World.Steady

/-! ## Frames of the operations -/

section Operations

variable [BloomSizing]

theorem Disk.Frame.regular : Disk.Steady FileOp.Regular Disk.Frame :=
  ⟨.refl, .trans, fun _ => Disk.along_perform _⟩

theorem World.Frame.regular : World.Steady FileOp.Regular World.Frame :=
  World.Frame.steady.mono fun _ _ => trivial

theorem along_writePendingMerge (outputs inputs : List Nat) :
    Along Disk.Frame (writePendingMerge outputs inputs) :=
  Disk.Frame.regular.along_writePendingMerge outputs inputs

theorem along_clearPendingMerge : Along Disk.Frame clearPendingMerge :=
  Disk.Frame.regular.along_clearPendingMerge

theorem along_deleteInputs (inputs : List (Nat × SSTable)) :
    Along World.Frame (deleteInputs inputs) :=
  World.Frame.regular.along_deleteInputs inputs

theorem along_writeLevelFile (level : Nat) (entries : SortedMap String SSTableEntry) :
    Along World.Frame (writeLevelFile level entries) :=
  World.Frame.regular.along_writeLevelFile level entries

theorem along_executeJob (job : CompactionJob) : Along World.Frame (executeJob job) :=
  World.Frame.regular.along_executeJob job

theorem along_compactPending (fuel : Nat) : Along World.Frame (compactPending fuel) :=
  World.Frame.regular.along_compactPending fuel

end Operations

end PebbleDB
