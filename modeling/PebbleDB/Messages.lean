import PebbleDB.LiveDirectory

/-!
# The texts of errors

`fmt::Display` of `src/error.rs`. A program that reports an error on a line of its own relies on
the text having no line break: the code builds its messages of fixed texts and numbers, so every
error that opening or a call returns prints as one line (`oneLine_openWithOptions`, `wp_oneLine`).
-/

namespace PebbleDB

open EarlyExit

/-- The text stays on the line on which it is printed. -/
def Plain (text : String) : Prop := '\n' ∉ text.toList ∧ '\r' ∉ text.toList

instance (text : String) : Decidable (Plain text) := inferInstanceAs (Decidable (_ ∧ _))

theorem Plain.append {a b : String} (ha : Plain a) (hb : Plain b) : Plain (a ++ b) := by
  simp only [Plain, String.toList_append, List.mem_append, not_or]
  exact ⟨⟨ha.1, hb.1⟩, ha.2, hb.2⟩

theorem plain_toString (n : Nat) : Plain (toString n) := by
  rw [Nat.toString_eq_ofList_toDigits]
  have hdigit : ∀ c ∈ Nat.toDigits 10 n, c.isDigit = true := fun c hc =>
    Nat.isDigit_of_mem_toDigits (by decide) (by decide) hc
  constructor
  · intro hc
    rw [String.toList_ofList] at hc
    exact absurd (hdigit _ hc) (by decide)
  · intro hc
    rw [String.toList_ofList] at hc
    exact absurd (hdigit _ hc) (by decide)

theorem plain_name (point : FaultPoint) : Plain point.name := by
  cases point <;> decide

section Display

-- the texts that the standard library has for the kinds of I/O errors
variable (ioText : IoErrorKind → String)

/-- `Display::fmt` of `PebbleError` -/
def PebbleError.display : PebbleError → String
  | io kind => "I/O error: " ++ ioText kind
  | walCorruption msg => "WAL corruption: " ++ msg
  | walIncomplete => "incomplete WAL record"
  | sstableCorruption msg => "SSTable corruption: " ++ msg
  | injectedFault msg => "injected fault: " ++ msg
  | cacheCorruption msg => "cache corruption: " ++ msg

/-- The message that the code itself put into the error stays on its line. -/
def PebbleError.OneLine : PebbleError → Prop
  | io _ => True
  | walCorruption msg => Plain msg
  | walIncomplete => True
  | sstableCorruption msg => Plain msg
  | injectedFault msg => Plain msg
  | cacheCorruption msg => Plain msg

theorem PebbleError.OneLine.plain {e : PebbleError} (h : e.OneLine)
    (hio : ∀ kind, Plain (ioText kind)) : Plain (e.display ioText) := by
  cases e with
  | io kind => exact .append (by decide) (hio kind)
  | walCorruption msg => exact .append (by decide) h
  | walIncomplete =>
    show Plain "incomplete WAL record"
    decide
  | sstableCorruption msg => exact .append (by decide) h
  | injectedFault msg => exact .append (by decide) h
  | cacheCorruption msg => exact .append (by decide) h

end Display

/-- The texts on Linux. -/
def linuxText : IoErrorKind → String
  | .notFound => "No such file or directory (os error 2)"
  | .invalidData => "stream did not contain valid UTF-8"
  | .permissionDenied => "Permission denied (os error 13)"

theorem plain_linuxText (kind : IoErrorKind) : Plain (linuxText kind) := by
  cases kind <;> decide

/-- An exit with an error that prints as one line, or without an error. -/
def Exit.OneLine (exit : Exit) : Prop := ∀ e, exit = .error e → e.OneLine

theorem Exit.OneLine.panic : Exit.OneLine .panic := fun _ h => Exit.noConfusion h

theorem Exit.OneLine.stopped : Exit.OneLine .stopped := fun _ h => Exit.noConfusion h

theorem Exit.OneLine.outOfFuel : Exit.OneLine .outOfFuel := fun _ h => Exit.noConfusion h

theorem Exit.OneLine.error {e : PebbleError} (h : e.OneLine) : Exit.OneLine (.error e) := by
  intro e' he
  cases he
  exact h

/-! ## Reading files -/

/-- Every failure of the reading code. -/
abbrev FailsPlainly {α : Type} (x : Res α) : Prop := Fails Exit.OneLine x

theorem failsPlainly_slice (data : Bytes) (start stop : Nat) : FailsPlainly (slice data start stop) :=
  .ite (.ok _) (.error .panic)

theorem failsPlainly_byteAt (data : Bytes) (i : Nat) : FailsPlainly (byteAt data i) := by
  rw [byteAt]
  split
  · exact .ok _
  · exact .error .panic

theorem failsPlainly_readU32 (data : Bytes) (off : Nat) : FailsPlainly (readU32 data off) :=
  .bind (failsPlainly_slice _ _ _) fun _ => .ok _

theorem failsPlainly_sstErr {α : Type} {msg : String} (h : Plain msg) :
    FailsPlainly (sstErr msg : Res α) := .error (.error h)

theorem failsPlainly_walErr {α : Type} {msg : String} (h : Plain msg) :
    FailsPlainly (err (.walCorruption msg) : Res α) := .error (.error h)

theorem failsPlainly_parseIndexLoop (fuel : Nat) (rest : Bytes) :
    FailsPlainly (SSTable.parseIndexLoop fuel rest) := by
  induction fuel generalizing rest with
  | zero => exact .error .outOfFuel
  | succ fuel ih =>
    rw [SSTable.parseIndexLoop]
    refine .ite (.ok _) (.bind (failsPlainly_readU32 _ _) fun keyLen => .ite ?_ ?_)
    · exact failsPlainly_sstErr (by decide)
    refine .bind (failsPlainly_slice _ _ _) fun keyBytes => ?_
    split
    · exact failsPlainly_sstErr (by decide)
    · exact .bind (failsPlainly_readU32 _ _) fun _ => .bind (failsPlainly_readU32 _ _) fun _ =>
        .bind (ih _) fun _ => .ok _

theorem failsPlainly_decodeWords (data : Bytes) (is : List Nat) :
    FailsPlainly (BloomFilter.decodeWords data is) := by
  induction is with
  | nil => exact .ok _
  | cons i is ih => exact .bind (failsPlainly_slice _ _ _) fun _ => .bind ih fun _ => .ok _

theorem failsPlainly_decodeFilter (data : Bytes) : FailsPlainly (BloomFilter.decode data) :=
  .ite (.ok _) (.bind (failsPlainly_readU32 _ _) fun _ => .bind (failsPlainly_readU32 _ _) fun _ =>
    .ite (.ok _) (.bind (failsPlainly_decodeWords _ _) fun _ => .ok _))

theorem failsPlainly_load (id : Nat) (path : String) (data : Bytes) :
    FailsPlainly (SSTable.load id path data) := by
  refine .bind ?_ fun _ => .ok _
  refine .ite (failsPlainly_sstErr (by decide)) (.bind (failsPlainly_readU32 _ _) fun _ => ?_)
  refine .ite (failsPlainly_sstErr (by decide)) (.bind (failsPlainly_readU32 _ _) fun version => ?_)
  refine .ite (failsPlainly_sstErr (.append (by decide) (plain_toString version))) ?_
  -- the counts, the footer and the bytes under the checksum
  iterate 7 refine .bind (failsPlainly_readU32 _ _) fun _ => ?_
  refine .bind (failsPlainly_slice _ _ _) fun _ => .ite (failsPlainly_sstErr (by decide)) ?_
  refine .bind (failsPlainly_slice _ _ _) fun _ => .bind (failsPlainly_parseIndexLoop _ _) fun _ => ?_
  refine .bind (failsPlainly_slice _ _ _) fun _ => .bind (failsPlainly_decodeFilter _) fun decoded => ?_
  cases decoded with
  | none => exact failsPlainly_sstErr (by decide)
  | some bloom => exact .ok _

theorem failsPlainly_decode (data : Bytes) : FailsPlainly (WalRecord.decode data) := by
  refine .ite (failsPlainly_walErr (by decide)) (.bind (failsPlainly_byteAt _ _) fun op => ?_)
  refine .bind (failsPlainly_readU32 _ _) fun _ => .bind (failsPlainly_readU32 _ _) fun _ => ?_
  refine .ite (failsPlainly_walErr (by decide)) (.bind (failsPlainly_slice _ _ _) fun _ => ?_)
  split
  · exact failsPlainly_walErr (by decide)
  · refine .ite (.bind (failsPlainly_slice _ _ _) fun _ => ?_) (.ite (.ite ?_ (.ok _)) ?_)
    · split
      · exact failsPlainly_walErr (by decide)
      · exact .ok _
    · exact failsPlainly_walErr (by decide)
    · exact failsPlainly_walErr (.append (by decide) (plain_toString op.toNat))

theorem failsPlainly_stopAtTail (records : List WalRecord) (validLen : Nat) (tolerate : Bool) :
    FailsPlainly (stopAtTail records validLen tolerate) :=
  .ite (.ok _) (.error (.error trivial))

theorem failsPlainly_readLoop (fileLen : Nat) (tolerate : Bool) (fuel : Nat) (rest : Bytes)
    (records : List WalRecord) (validLen : Nat) :
    FailsPlainly (readLoop fileLen tolerate fuel rest records validLen) := by
  induction fuel generalizing rest records validLen with
  | zero => exact .error .outOfFuel
  | succ fuel ih =>
    refine .ite (.ok _) (.ite (failsPlainly_stopAtTail _ _ _) (.ite (.ok _) ?_))
    refine .ite (failsPlainly_stopAtTail _ _ _) (.ite (failsPlainly_stopAtTail _ _ _) ?_)
    refine .bind (failsPlainly_slice _ _ _) fun _ => .bind (failsPlainly_readU32 _ _) fun _ => ?_
    refine .bind (failsPlainly_slice _ _ _) fun _ => .ite (failsPlainly_walErr (by decide)) ?_
    exact .bind (failsPlainly_decode _) fun _ => ih _ _ _

/-! ## Opening -/

/-- Every exit of the computation prints as one line. -/
abbrev ExitsPlainly {σ α : Type} (x : EStateM Exit σ α) : Prop := Exits (fun e _ => e.OneLine) x

theorem exitsPlainly_io {σ α : Type} (kind : IoErrorKind) :
    ExitsPlainly (throw (.error (.io kind)) : EStateM Exit σ α) := .throw fun _ => .error trivial

theorem exitsPlainly_get {σ : Type} : ExitsPlainly (get : EStateM Exit σ σ) := fun _ =>
  Wp.get trivial

namespace Disk

theorem exitsPlainly_perform (op : FileOp) : ExitsPlainly (perform op) := fun _ =>
  wp_perform (fun _ _ => trivial) fun _ _ => .stopped

theorem exitsPlainly_readFile (name : String) : ExitsPlainly (readFile name) := fun _ =>
  wp_readFile (fun _ _ => trivial) fun _ => .error trivial

theorem exitsPlainly_fileExists (name : String) : ExitsPlainly (fileExists name) := fun _ =>
  wp_fileExists trivial

theorem exitsPlainly_readDir (i : Nat) : ExitsPlainly (readDir i) := fun _ => trivial

theorem exitsPlainly_renameFile (source target : String) :
    ExitsPlainly (renameFile source target) :=
  .bind (exitsPlainly_fileExists _) fun _ => .ite (exitsPlainly_perform _) (exitsPlainly_io _)

theorem exitsPlainly_removeFile (name : String) : ExitsPlainly (removeFile name) := fun _ =>
  wp_removeFile (fun _ _ _ _ => trivial) (fun _ => .error trivial) (fun _ => .error trivial)
    fun _ _ => .stopped

theorem exitsPlainly_tryRemoveFile (name : String) : ExitsPlainly (tryRemoveFile name) := fun _ =>
  wp_tryRemoveFile (fun _ _ _ _ => trivial) (fun _ => trivial) fun _ _ => .stopped

end Disk

theorem exitsPlainly_removeTmpFiles (names : List String) :
    ExitsPlainly (removeTmpFiles names) := by
  induction names with
  | nil => exact .pure _
  | cons name names ih => exact .ite (.bind (Disk.exitsPlainly_removeFile _) fun _ => ih) ih

theorem exitsPlainly_removeInputs (inputs : List Nat) (files : List (Nat × String)) :
    ExitsPlainly (removeInputs inputs files) := by
  induction files with
  | nil => exact .pure _
  | cons file files ih => exact .ite (.bind (Disk.exitsPlainly_removeFile _) fun _ => ih) ih

theorem exitsPlainly_readPendingMerge : ExitsPlainly readPendingMerge := by
  refine .bind (Disk.exitsPlainly_fileExists _) fun _ => .ite ?_ (.pure _)
  refine .bind (Disk.exitsPlainly_readFile _) fun data => ?_
  split
  · exact exitsPlainly_io _
  · exact .pure _

theorem exitsPlainly_finishPendingMerge : ExitsPlainly finishPendingMerge := by
  refine .bind exitsPlainly_readPendingMerge fun pending => ?_
  cases pending with
  | none => exact .pure _
  | some pending =>
    refine .bind (Disk.exitsPlainly_readDir _) fun names => .ite ?_ ?_
    · exact .bind (exitsPlainly_removeInputs _ _) fun _ => Disk.exitsPlainly_removeFile _
    · exact Disk.exitsPlainly_removeFile _

theorem exitsPlainly_loadTables (found : List Discovered) (levels : List (List SSTable))
    (next : Nat) : ExitsPlainly (loadTables found levels next) := by
  induction found generalizing levels next with
  | nil => exact .pure _
  | cons found rest ih =>
    refine .bind (Disk.exitsPlainly_readFile _) fun _ => ?_
    refine .bind (.fromExcept (failsPlainly_load _ _ _)) fun _ => ?_
    exact .bind (.fromExcept (.ite (.ok _) (.error .panic))) fun _ => ih _ _

theorem exitsPlainly_recoverWal : ExitsPlainly recoverWal := by
  refine .bind (Disk.exitsPlainly_fileExists _) fun _ => .ite ?_ (.pure _)
  refine .bind (Disk.exitsPlainly_readFile _) fun _ => ?_
  refine .bind (.fromExcept (failsPlainly_readLoop _ _ _ _ _ _)) fun _ => .ite ?_ (.pure _)
  exact .bind (Disk.exitsPlainly_perform _) fun _ => .pure _

/-- Whatever is in the directory, an opening that fails does so with an error that prints as one
line. -/
theorem oneLine_openWithOptions (options : DbOptions) : ExitsPlainly (openWithOptions options) := by
  refine .bind (Disk.exitsPlainly_readDir _) fun _ => .bind (exitsPlainly_removeTmpFiles _) fun _ => ?_
  refine .bind exitsPlainly_finishPendingMerge fun _ => .bind (Disk.exitsPlainly_readDir _) fun _ => ?_
  refine .bind (exitsPlainly_loadTables _ _ _) fun _ => .bind exitsPlainly_recoverWal fun _ => ?_
  exact .bind (Disk.exitsPlainly_perform _) fun _ => .pure _

/-! ## Calls -/

theorem FaultInjector.oneLine_hit {injector : FaultInjector} {point : FaultPoint} {e : Exit}
    (h : (injector.hit point).1 = .error e) : e.OneLine := by
  unfold FaultInjector.hit at h
  dsimp only at h
  repeat' split at h
  all_goals cases h
  · exact .stopped
  · exact .error (((plain_name point).append (by decide)).append (plain_toString _))

theorem exitsPlainly_hit (point : FaultPoint) : ExitsPlainly (hit point) := fun _ =>
  wp_hit (fun _ => trivial) fun _ h => FaultInjector.oneLine_hit h

theorem exitsPlainly_onDisk {α : Type} {x : DiskM α} (h : ExitsPlainly x) :
    ExitsPlainly (onDisk x) := .onPart h fun _ _ _ he => he

theorem exitsPlainly_deleteInputs (inputs : List (Nat × SSTable)) :
    ExitsPlainly (deleteInputs inputs) := by
  induction inputs with
  | nil => exact .pure _
  | cons input inputs ih =>
    exact .bind (exitsPlainly_hit _) fun _ =>
      .bind (exitsPlainly_onDisk (Disk.exitsPlainly_tryRemoveFile _)) fun _ => ih

section Calls

variable [BloomSizing]

theorem exitsPlainly_writeLevelFile (level : Nat) (entries : SortedMap String SSTableEntry) :
    ExitsPlainly (writeLevelFile level entries) := by
  refine .bind exitsPlainly_get fun w => .ite (.throw fun _ => .panic) (.bind (.modify _) fun _ => ?_)
  refine .bind (exitsPlainly_hit _) fun _ => .bind ?_ fun file => ?_
  · obtain ⟨file, hfile⟩ := SSTable.writeSstable_ok entries
    rw [hfile]
    exact .fromExcept (.ok _)
  refine .bind (exitsPlainly_onDisk (Disk.exitsPlainly_perform _)) fun _ => ?_
  refine .bind (exitsPlainly_hit _) fun _ => .bind (exitsPlainly_hit _) fun _ => ?_
  refine .bind (exitsPlainly_onDisk (Disk.exitsPlainly_renameFile _ _)) fun _ => ?_
  refine .bind (exitsPlainly_hit _) fun _ => ?_
  exact .bind (exitsPlainly_onDisk (Disk.exitsPlainly_readFile _)) fun _ =>
    .fromExcept (failsPlainly_load _ _ _)

theorem exitsPlainly_writeAll (level : Nat) (chunks : List (SortedMap String SSTableEntry)) :
    ExitsPlainly (writeAll level chunks) := by
  induction chunks with
  | nil => exact .pure _
  | cons chunk chunks ih =>
    exact .bind (exitsPlainly_writeLevelFile _ _) fun _ => .bind ih fun _ => .pure _

/-- The merge of sound tables does not fail, so only writing the outputs can. -/
theorem exitsPlainly_executeJob {job : CompactionJob}
    (hsound : ∀ input ∈ job.inputs, input.2.Sound) : ExitsPlainly (executeJob job) := by
  rw [executeJob, writeOutputs_eq job hsound]
  refine .bind (exitsPlainly_writeAll _ _) fun outs => .bind (exitsPlainly_hit _) fun _ => ?_
  refine .bind (exitsPlainly_onDisk (.bind (Disk.exitsPlainly_perform _) fun _ =>
    Disk.exitsPlainly_renameFile _ _)) fun _ => ?_
  refine .bind (exitsPlainly_deleteInputs _) fun _ => ?_
  refine .bind (exitsPlainly_hit _) fun _ => .bind (exitsPlainly_hit _) fun _ => ?_
  refine .bind (.modify _) fun _ => .bind (exitsPlainly_hit _) fun _ => exitsPlainly_onDisk ?_
  exact .bind (Disk.exitsPlainly_fileExists _) fun _ =>
    .ite (Disk.exitsPlainly_removeFile _) (.pure _)

theorem exitsPlainly_flushTable : ExitsPlainly flushTable := by
  refine .bind exitsPlainly_get fun w => .bind (exitsPlainly_writeLevelFile _ _) fun _ => ?_
  refine .bind (exitsPlainly_hit _) fun _ => ?_
  refine .bind (exitsPlainly_onDisk (Disk.exitsPlainly_perform _)) fun _ => ?_
  refine .bind (exitsPlainly_hit _) fun _ => .bind (exitsPlainly_hit _) fun _ => ?_
  exact .bind (.modify _) fun _ => exitsPlainly_hit _

omit [BloomSizing] in
theorem exitsPlainly_logRecord (record : WalRecord) (key : String) (entry : MemtableEntry) :
    ExitsPlainly (logRecord record key entry) := by
  refine .bind (exitsPlainly_hit _) fun _ => .bind (.ite (.throw fun _ => .panic) ?_) fun _ => ?_
  · exact exitsPlainly_onDisk (Disk.exitsPlainly_perform _)
  refine .bind (exitsPlainly_hit _) fun _ => .bind (exitsPlainly_hit _) fun _ => ?_
  exact .bind (.modify _) fun _ => exitsPlainly_hit _

variable {m : Contents} {w : World}

theorem exitsPlainly_issued {job : CompactionJob} (h : Holding m w) (hissued : Issued w.inner job) :
    ExitsPlainly (executeJob job) := by
  have hfit := hissued.fitting h.1.numbered h.1.sound
  exact exitsPlainly_executeJob fun input hinput => h.1.sound input (hfit.sub.subset hinput)

/-- The tables that a later job reads are sound because the handle still answers like the map. -/
theorem wp_oneLine_compactPending (fuel : Nat) (h : Holding m w) :
    Wp (compactPending fuel) (fun _ _ => True) (fun e w' => w'.disk.Fits → e.OneLine) w := by
  induction fuel generalizing w with
  | zero => exact Wp.throw fun _ => .outOfFuel
  | succ fuel ih =>
    rw [Wp]
    have hturn := turn_compactPending fuel w
    generalize compactPending (fuel + 1) w = r at hturn
    cases hturn with
    | rest _ => exact trivial
    | overflow => exact fun _ => .panic
    | failed plan job e w' hpick hplan hrun =>
      have hissued : Issued w.inner job := .planned _ plan job hpick hplan
      exact fun _ => (exitsPlainly_issued h hissued w).exit_of_eq hrun
    | next plan job w₁ hpick hplan hrun =>
      have hissued : Issued w.inner job := .planned _ plan job hpick hplan
      have hjob := (holding_rules.job h hissued).ok_of_eq hrun
      exact (Wp.of_fits (along_compactPending fuel) fun hfits => ih (hjob hfits)).mono
        (fun _ _ _ => trivial) fun _ _ he hfits => he hfits hfits

theorem wp_oneLine_flush (fuel : Nat) (h : Holding m w) :
    Wp (flush fuel) (fun _ _ => True) (fun e w' => w'.disk.Fits → e.OneLine) w := by
  rw [flush_eq]
  refine Wp.bind (Wp.get (Wp.ite (fun _ => Wp.pure trivial) fun hne => Wp.bind ?_))
  refine ((holding_rules.flush h hne).and (exitsPlainly_flushTable w)).mono ?_ ?_
  · rintro _ w₁ ⟨hholding, -⟩
    exact (Wp.of_fits (along_compactPending fuel) fun hfits =>
      wp_oneLine_compactPending fuel (hholding hfits)).mono
        (fun _ _ _ => trivial) fun _ _ he hfits => he hfits hfits
  · rintro e w' ⟨-, hplain⟩ -
    exact hplain

theorem wp_oneLine_writeRecord (fuel : Nat) {record : WalRecord} {key : String}
    {entry : MemtableEntry} (h : Holding m w)
    (hreplay : ∀ memtable, replayRecord memtable record = memtable.insert key entry) :
    Wp (writeRecord fuel record key entry) (fun _ _ => True)
      (fun e w' => w'.disk.Fits → e.OneLine) w := by
  rw [writeRecord_eq]
  refine Wp.bind (((holding_rules.log h trivial hreplay).and
    (exitsPlainly_logRecord record key entry w)).mono ?_ ?_)
  · rintro _ w₁ ⟨hholding, -⟩
    refine Wp.bind (Wp.get (Wp.ite (fun _ => ?_) fun _ => Wp.pure trivial))
    exact (Wp.of_fits (World.Frame.regular.along_flush fuel) fun hfits =>
      wp_oneLine_flush fuel (hholding hfits)).mono
        (fun _ _ _ => trivial) fun _ _ he hfits => he hfits hfits
  · rintro e w' ⟨-, hplain⟩ -
    exact hplain

/-- A call that fails does so with an error that prints as one line. -/
theorem wp_oneLine (fuel : Nat) (call : Call) (h : Holding m w) :
    Wp (call.run fuel) (fun _ _ => True) (fun e w' => w'.disk.Fits → e.OneLine) w := by
  cases call with
  | set key value => exact Wp.map (wp_oneLine_writeRecord fuel h fun _ => rfl)
  | delete key =>
    refine Wp.map (Wp.bind (Wp.get (Wp.bind (Wp.fromExcept (fun existed _ => ?_) fun e he => ?_))))
    · exact Wp.bind ((wp_oneLine_writeRecord fuel h fun _ => rfl).mono
        (fun _ _ _ => Wp.pure trivial) fun _ _ he => he)
    · rw [DbInner.getInner_eq_answer h.1.sound] at he
      cases he
  | flush => exact Wp.map (wp_oneLine_flush fuel h)
  | compact => exact Wp.map (wp_oneLine_compactPending fuel h)
  | compactFull =>
    refine Wp.map (Wp.bind (Wp.get (Wp.ite (fun _ => Wp.pure trivial) fun _ => ?_)))
    exact (exitsPlainly_issued h .full w).mono (fun _ _ _ => trivial) fun _ _ he _ => he

end Calls

end PebbleDB
