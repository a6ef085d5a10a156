import PebbleDB.Accounting
import PebbleDB.CrashRun
import PebbleDB.Messages

/-!
# The command line

`run` of `src/cli.rs`. Each invocation is a process of its own: it opens the database, does one
command and ends; what it knew is in the directory. A sequence of invocations, any of which may be
killed at any file operation, prints what an interpreter over a map of strings prints, and leaves
what it leaves (`session_explained`).
-/

namespace PebbleDB.Cli

open EarlyExit

/-! ## One invocation -/

/-- The lines that a process prints and its exit code, if it has one. The message of a panic is that
of the Rust runtime and is not modelled: there `stderr` is `none`. -/
structure Output where
  stdout : List String
  stderr : Option (List String)
  code : Option Nat
  deriving DecidableEq, Repr

/-- `println!` for each line, and the end of `main` -/
def printed (lines : List String) : Output := ⟨lines, some [], some 0⟩

/-- `eprintln!` and `process::exit(1)` -/
def refused (lines : List String) : Output := ⟨[], some lines, some 1⟩

/-- The line of commands under a message about the usage. -/
def commands : String := "Commands: set, get, delete, exists, keys, scan, compact, stats"

/-- A command with the arguments it needs. Further arguments are ignored. -/
inductive Command where
  | set (key value : String)
  | get (key : String)
  | delete (key : String)
  | «exists» (key : String)
  | keys
  | scan
  | compact
  | stats
  deriving DecidableEq, Repr

/-- The arms of the `match`, with the checks of the number of arguments. -/
def parse : String → List String → Except (List String) Command
  | "set", key :: value :: _ => .ok (.set key value)
  | "set", _ => .error ["Usage: pebbledb set <key> <value>"]
  | "get", key :: _ => .ok (.get key)
  | "get", _ => .error ["Usage: pebbledb get <key>"]
  | "delete", key :: _ => .ok (.delete key)
  | "delete", _ => .error ["Usage: pebbledb delete <key>"]
  | "exists", key :: _ => .ok (.exists key)
  | "exists", _ => .error ["Usage: pebbledb exists <key>"]
  | "keys", _ => .ok .keys
  | "scan", _ => .ok .scan
  | "compact", _ => .ok .compact
  | "stats", _ => .ok .stats
  | command, _ => .error ["Unknown command: " ++ command, commands]

/-- The lines of `stats`; `ratioText` formats the quotient of two numbers with `{:.2}`. -/
def statsLines (ratioText : Nat × Nat → String) (stats : DbStats) : List String :=
  ["Memtable",
    "  entries:       " ++ toString stats.memtableEntries,
    "  bytes:         " ++ toString stats.memtableBytes,
    "SSTables",
    "  count:         " ++ toString stats.sstCount,
    "  total size:    " ++ toString stats.totalSstSize ++ " bytes"] ++
  stats.levels.map (fun level =>
    "  L" ++ toString level.level ++ ":           " ++ toString level.files ++ " files") ++
  ["WAL",
    "  size:          " ++ toString stats.walSize ++ " bytes",
    "Performance Counters",
    "  memtable hits: " ++ toString stats.memtableHits,
    "  bloom rejects: " ++ toString stats.bloomRejects,
    "  block reads:   " ++ toString stats.blockReads,
    "  compactions:   " ++ toString stats.compactionsCompleted,
    "  full compactions: " ++ toString stats.fullCompactions,
    match stats.writeAmplification with
    | some wa => "  write amplification: " ++ ratioText wa
    | none => "  write amplification: --"]

section Invocation

variable [BloomSizing] (ioText : IoErrorKind → String) (ratioText : Nat × Nat → String) (fuel : Nat)

/-- How a process ends behind an error, or by what stopped it. -/
def exitOutput (label : String) : Exit → Output
  | .error e => refused [label ++ ": " ++ e.display ioText]
  | .panic => ⟨[], none, some 101⟩
  | _ => ⟨[], some [], none⟩

/-- A command that makes a call. -/
def runCall (call : Call) (answer : Option Bool → String) (w : World) : Output × Disk :=
  match call.run fuel w with
  | .ok existed w => (printed [answer existed], w.disk)
  | .error e w => (exitOutput ioText "Error" e, w.disk)

omit [BloomSizing] in
/-- A command that only reads; a read returns no error. -/
def runRead (lines : Res (List String)) (w : World) : Output × Disk :=
  match lines with
  | .ok lines => (printed lines, w.disk)
  | .error e => (exitOutput ioText "Error" e, w.disk)

/-- An arm of the `match` in `run`, behind the check of its arguments. -/
def Command.run (w : World) : Command → Output × Disk
  | set key value => runCall ioText fuel (.set key value) (fun _ => "OK") w
  | get key => runRead ioText ((w.inner.get key).map fun value => [value.getD "(null)"]) w
  | delete key =>
    runCall ioText fuel (.delete key)
      (fun existed => if existed = some true then "OK" else "(null)") w
  | «exists» key =>
    runRead ioText ((w.inner.get key).map fun value =>
      [if value.isSome then "true" else "false"]) w
  | keys => runRead ioText w.inner.keys w
  | scan =>
    runRead ioText
      (w.inner.scan.map fun pairs => pairs.map fun (key, value) => key ++ ": " ++ value) w
  | compact => runCall ioText fuel .compact (fun _ => "OK") w
  | stats => (printed (statsLines ratioText (Metered.stats ⟨w, {}, {}⟩)), w.disk)

/-- `run`: the database is opened before the command is looked at. -/
def run (args : List String) (disk : Disk) : Output × Disk :=
  match args with
  | [] => (refused ["Usage: pebbledb <command> [args]", commands], disk)
  | command :: rest =>
    match openWithOptions .default disk with
    | .error e disk => (exitOutput ioText "Error opening database" e, disk)
    | .ok db disk =>
      match parse command rest with
      | .error lines => (refused lines, disk)
      | .ok command => command.run ioText ratioText fuel ⟨db, disk⟩

/-- The arguments of an invocation, and where and how its process is stopped. -/
structure Invocation where
  args : List String
  listing : Listing
  stop : Option Stop

/-- Invocations one after the other on one directory, with what they print. -/
def session : List Invocation → Disk → List (Invocation × Output) × Disk
  | [], disk => ([], disk)
  | invocation :: invocations, disk =>
    let (output, disk) :=
      run ioText ratioText fuel invocation.args (disk.under invocation.listing invocation.stop)
    let (outputs, disk) := session invocations disk
    ((invocation, output) :: outputs, disk)

end Invocation

/-! ## The interpreter -/

namespace Command

/-- What a command prints over a map. -/
inductive Prints (m : SortedMap String String) (ratioText : Nat × Nat → String) :
    Command → List String → Prop where
  | set (key value : String) : Prints m ratioText (set key value) ["OK"]
  | get (key : String) : Prints m ratioText (get key) [(m.get? key).getD "(null)"]
  | delete (key : String) :
    Prints m ratioText (delete key) [if (m.get? key).isSome then "OK" else "(null)"]
  | «exists» (key : String) :
    Prints m ratioText (Command.exists key) [if (m.get? key).isSome then "true" else "false"]
  | keys : Prints m ratioText keys m.keys
  | scan : Prints m ratioText scan (m.entries.map fun e => e.1 ++ ": " ++ e.2)
  | compact : Prints m ratioText compact ["OK"]
  /-- The sizes are those of the directory, of which the map says nothing. -/
  | stats (stats : DbStats) (hopened : stats.Opened) :
    Prints m ratioText Command.stats (statsLines ratioText stats)

/-- What a command makes of the map. -/
def effect (m : SortedMap String String) : Command → SortedMap String String
  | set key value => m.insert key value
  | delete key => m.erase key
  | _ => m

/-- The call that a command makes. -/
def call? : Command → Option Call
  | set key value => some (.set key value)
  | delete key => some (.delete key)
  | compact => some .compact
  | _ => none

end Command

/-- The call that an invocation makes, if it gets as far as that. -/
def Invocation.call? (invocation : Invocation) : Option Call :=
  match invocation.args with
  | [] => none
  | name :: rest => (parse name rest).toOption.bind Command.call?

theorem Invocation.call?_eq {invocation : Invocation} {name : String} {rest : List String}
    {command : Command} (hargs : invocation.args = name :: rest)
    (hparse : parse name rest = .ok command) : invocation.call? = command.call? := by
  rw [Invocation.call?, hargs]
  dsimp only
  rw [hparse]
  rfl

/-- What an invocation may print and do. Only one that is stopped, or one that makes a call, ends in
another way than the interpreter; then the map has the effect of the command or not. -/
inductive Explained (ratioText : Nat × Nat → String) (m : SortedMap String String)
    (invocation : Invocation) : Output → SortedMap String String → Prop where
  | usage (hargs : invocation.args = []) :
    Explained ratioText m invocation (refused ["Usage: pebbledb <command> [args]", commands]) m
  | refused (command : String) (rest lines : List String) (hargs : invocation.args = command :: rest)
      (hparse : parse command rest = .error lines) :
    Explained ratioText m invocation (Cli.refused lines) m
  | done (name : String) (rest : List String) (command : Command) (lines : List String)
      (hargs : invocation.args = name :: rest) (hparse : parse name rest = .ok command)
      (hprints : command.Prints m ratioText lines) :
    Explained ratioText m invocation (printed lines) (command.effect m)
  | stopped (output : Output) (hstop : invocation.stop ≠ none) (hcode : output.code ≠ some 0) :
    Explained ratioText m invocation output m
  | failed (name : String) (rest : List String) (command : Command) (call : Call) (output : Output)
      (m' : SortedMap String String) (hargs : invocation.args = name :: rest)
      (hparse : parse name rest = .ok command) (hcall : command.call? = some call)
      (hcode : output.code ≠ some 0) (heffect : m' = m ∨ m' = command.effect m) :
    Explained ratioText m invocation output m'

/-- One map after the other explains what is printed. -/
inductive Session (ratioText : Nat × Nat → String) :
    SortedMap String String → List (Invocation × Output) → Prop where
  | nil (m : SortedMap String String) : Session ratioText m []
  | cons {m m' : SortedMap String String} {invocation : Invocation} {output : Output}
      {rest : List (Invocation × Output)} (hexplained : Explained ratioText m invocation output m')
      (hrest : Session ratioText m' rest) : Session ratioText m ((invocation, output) :: rest)

/-! ## What an invocation does to the directory -/

section Frames

variable [BloomSizing] (ioText : IoErrorKind → String) (ratioText : Nat × Nat → String) (fuel : Nat)

theorem frame_runCall (call : Call) (answer : Option Bool → String) (w : World) :
    w.disk.Frame (runCall ioText fuel call answer w).2 := by
  have hcall := along_call fuel call w
  rw [Wp] at hcall
  unfold runCall
  split at hcall
  · rw [‹call.run fuel w = _›]
    exact hcall.disk
  · rw [‹call.run fuel w = _›]
    exact hcall.disk

omit [BloomSizing] in
theorem disk_runRead (lines : Res (List String)) (w : World) :
    (runRead ioText lines w).2 = w.disk := by
  unfold runRead
  cases lines with
  | ok lines => rfl
  | error e => rfl

theorem frame_command (command : Command) (w : World) :
    w.disk.Frame (command.run ioText ratioText fuel w).2 := by
  cases command with
  | set key value => exact frame_runCall ioText fuel _ _ w
  | delete key => exact frame_runCall ioText fuel _ _ w
  | compact => exact frame_runCall ioText fuel _ _ w
  | stats => exact .refl _
  | _ =>
    rw [Command.run, disk_runRead]
    exact .refl _

theorem frame_run (args : List String) (disk : Disk) :
    disk.Frame (run ioText ratioText fuel args disk).2 := by
  cases args with
  | nil => exact .refl _
  | cons name rest =>
    have hopen := along_openWithOptions .default disk
    rw [Wp] at hopen
    unfold run
    split at hopen
    · rw [‹openWithOptions .default disk = _›]
      dsimp only
      split
      · exact hopen
      · exact hopen.trans (frame_command ioText ratioText fuel _ ⟨_, _⟩)
    · rw [‹openWithOptions .default disk = _›]
      exact hopen

theorem log_session (invocations : List Invocation) (disk : Disk) :
    disk.log <+: (session ioText ratioText fuel invocations disk).2.log := by
  induction invocations generalizing disk with
  | nil => exact List.prefix_rfl
  | cons invocation invocations ih =>
    have hrun := frame_run ioText ratioText fuel invocation.args
      (disk.under invocation.listing invocation.stop)
    exact hrun.log.trans (ih _)

end Frames

/-! ## The reads -/

theorem scan_eq {db : DbInner} {m : SortedMap String String} (hready : Ready db)
    (hanswers : Answers db m.get?) : db.scan = .ok m.entries := by
  obtain ⟨pairs, hscan, hsorted, hmem⟩ :=
    DbInner.exists_range hready.sound.tablesHold .unbounded .unbounded
  have hpairs : pairs = m.entries := by
    apply List.Pairwise.eq_of_mem_iff hsorted m.sorted
    rintro ⟨k, v⟩
    rw [hmem, hanswers k, Except.ok.injEq, SortedMap.mem_entries]
    exact and_iff_right ⟨trivial, trivial⟩
  rw [← hpairs]
  exact hscan

theorem keys_eq {db : DbInner} {m : SortedMap String String} (hready : Ready db)
    (hanswers : Answers db m.get?) : db.keys = .ok m.keys := by
  have hscan : db.range .unbounded .unbounded = .ok m.entries := scan_eq hready hanswers
  rw [DbInner.keys, hscan]
  rfl

theorem get?_effect {m : SortedMap String String} {command : Command} {call : Call}
    (hcall : command.call? = some call) : call.apply m.get? = (command.effect m).get? := by
  funext key
  cases command with
  | set key' value =>
    cases hcall
    rw [Call.apply, Command.effect, SortedMap.get?_insert, Function.update_apply]
  | delete key' =>
    cases hcall
    rw [Call.apply, Command.effect, SortedMap.get?_erase, Function.update_apply]
  | compact =>
    cases hcall
    rfl
  | _ => cases hcall

/-- The process has done nothing yet. -/
theorem opened_stats {m : Contents} {w : World} (h : Live m w) :
    (Metered.stats ⟨w, {}, {}⟩).Opened := by
  obtain ⟨hbytes, hfiles⟩ := Metered.sum_levelStats 0 w.inner.levels
  obtain ⟨rs, hlog, hreplay⟩ := h.stands.log
  have hwal : ((w.disk.dir.get? walFile).getD []).length = (encodeAll rs).length := by
    rw [← settled_of_not_tmp fixed_names.2.2.1, hlog.eq, List.append_nil]
  exact {
    hits := rfl
    rejects := rfl
    reads := rfl
    compactions := rfl
    full := rfl
    amplification := rfl
    level_bytes := (Metered.totalSstSize_eq _).trans hbytes.symm
    level_files := (Metered.sstCount_eq _).trans hfiles.symm
    filled := fun _ => Metered.files_pos_of_mem_levelStats
    log := by
      show 17 * w.inner.memtable.size + Metered.memtableBytes w.inner.memtable ≤
        ((w.disk.dir.get? walFile).getD []).length
      rw [hwal, ← hreplay]
      exact Metered.memtableBytes_replay_le rs }

/-! ## The invocations are explained -/

/-- The directory restores the map, and nothing in it refuses to be removed. -/
def Restorable (m : SortedMap String String) (disk : Disk) : Prop :=
  Durable disk.dir m.get? ∧ ∀ name, disk.unlinkFails name = false

theorem Restorable.of_live {m : SortedMap String String} {w : World} (h : Live m.get? w) :
    Restorable m w.disk := ⟨h.durable, h.fails⟩

theorem code_exitOutput (ioText : IoErrorKind → String) (label : String) (e : Exit) :
    (exitOutput ioText label e).code ≠ some 0 := by
  cases e <;> simp [exitOutput, refused]

section Runs

variable [BloomSizing] {ioText : IoErrorKind → String} {ratioText : Nat × Nat → String} {fuel : Nat}
  {m : SortedMap String String} {w : World} {invocation : Invocation} {name : String}
  {rest : List String} {command : Command}

/-- A command that makes a call, on a live handle. -/
theorem explained_call (hargs : invocation.args = name :: rest)
    (hparse : parse name rest = .ok command) {call : Call} (hcall : command.call? = some call)
    (hlive : Live m.get? w) {answer : Option Bool → String}
    (hprints : command.Prints m ratioText [answer (call.reply m.get?)])
    (hrecords : ∀ record ∈ call.record?, record.Fits)
    (hfits : (runCall ioText fuel call answer w).2.Fits) :
    ∃ m', Explained ratioText m invocation (runCall ioText fuel call answer w).1 m' ∧
      Restorable m' (runCall ioText fuel call answer w).2 := by
  have hrun := (live_rules.wp_call fuel call hrecords hlive).and (along_call fuel call w)
  have heffect := get?_effect (m := m) hcall
  rw [Wp] at hrun
  unfold runCall at hfits ⊢
  split at hrun
  · rename_i existed w' heq
    rw [heq] at hfits ⊢
    obtain ⟨hreply, hlive'⟩ := hrun.1 hfits
    rw [heffect] at hlive'
    rw [hreply]
    exact ⟨_, .done name rest command _ hargs hparse hprints, .of_live hlive'⟩
  · rename_i e w' heq
    rw [heq] at hfits ⊢
    have hfails : ∀ name, w'.disk.unlinkFails name = false := fun name => by
      rw [hrun.2.disk.unlinkFails]
      exact hlive.fails name
    have hcode := code_exitOutput ioText "Error" e
    rcases hrun.1 hfits with hdurable | hdurable
    · exact ⟨m, .failed name rest command call _ m hargs hparse hcall hcode (Or.inl rfl), hdurable,
        hfails⟩
    · rw [heffect] at hdurable
      exact ⟨_, .failed name rest command call _ _ hargs hparse hcall hcode (Or.inr rfl), hdurable,
        hfails⟩

omit [BloomSizing] in
/-- A command that reads, on a live handle. -/
theorem explained_read (hargs : invocation.args = name :: rest)
    (hparse : parse name rest = .ok command) (heffect : command.effect m = m)
    (hlive : Live m.get? w) {result : Res (List String)} {lines : List String}
    (hread : result = .ok lines) (hprints : command.Prints m ratioText lines) :
    ∃ m', Explained ratioText m invocation (runRead ioText result w).1 m' ∧
      Restorable m' (runRead ioText result w).2 := by
  rw [hread]
  refine ⟨m, ?_, .of_live hlive⟩
  have hdone : Explained ratioText m invocation (printed lines) (command.effect m) :=
    .done name rest command lines hargs hparse hprints
  rwa [heffect] at hdone

theorem explained_command (hargs : invocation.args = name :: rest)
    (hparse : parse name rest = .ok command) (hlive : Live m.get? w)
    (hrecords : ∀ call ∈ command.call?, ∀ record ∈ call.record?, record.Fits)
    (hfits : (command.run ioText ratioText fuel w).2.Fits) :
    ∃ m', Explained ratioText m invocation (command.run ioText ratioText fuel w).1 m' ∧
      Restorable m' (command.run ioText ratioText fuel w).2 := by
  have hget := hlive.answers
  cases command with
  | set key value =>
    exact explained_call hargs hparse rfl hlive (.set key value) (hrecords _ rfl) hfits
  | get key =>
    exact explained_read hargs hparse rfl hlive (by rw [hget]; rfl) (.get key)
  | delete key =>
    refine explained_call hargs hparse rfl hlive ?_ (hrecords _ rfl) hfits
    simpa [Call.reply] using Command.Prints.delete key
  | «exists» key =>
    exact explained_read hargs hparse rfl hlive (by rw [hget]; rfl) (.exists key)
  | keys => exact explained_read hargs hparse rfl hlive (keys_eq hlive.ready hget) .keys
  | scan =>
    refine explained_read hargs hparse rfl hlive ?_ .scan
    rw [scan_eq hlive.ready hget]
    rfl
  | compact => exact explained_call hargs hparse rfl hlive .compact (hrecords _ rfl) hfits
  | stats =>
    exact ⟨m, .done name rest .stats _ hargs hparse (.stats _ (opened_stats hlive)), .of_live hlive⟩

/-- One invocation on a directory that restores the map. -/
theorem explained_run {disk : Disk} (h : Restorable m disk)
    (hrecords : ∀ call ∈ invocation.call?, ∀ record ∈ call.record?, record.Fits)
    (hfits : (run ioText ratioText fuel invocation.args
      (disk.under invocation.listing invocation.stop)).2.Fits) :
    ∃ m', Explained ratioText m invocation (run ioText ratioText fuel invocation.args
        (disk.under invocation.listing invocation.stop)).1 m' ∧
      Restorable m' (run ioText ratioText fuel invocation.args
        (disk.under invocation.listing invocation.stop)).2 := by
  have hunder : Restorable m (disk.under invocation.listing invocation.stop) := h
  have hstopped : (disk.under invocation.listing invocation.stop).stop = invocation.stop := rfl
  generalize disk.under invocation.listing invocation.stop = start at hfits hunder hstopped ⊢
  cases hargs : invocation.args with
  | nil => exact ⟨m, .usage hargs, hunder⟩
  | cons name rest =>
    have hopen := (hunder.1.wp_openWithOptions hunder.2 .default).and
      (along_openWithOptions .default start)
    rw [hargs] at hfits
    rw [Wp] at hopen
    unfold run at hfits ⊢
    split at hopen
    · rename_i db disk' heq
      rw [heq] at hfits ⊢
      have hlive : Live m.get? ⟨db, disk'⟩ := hopen.1
      dsimp only at hfits ⊢
      cases hparse : parse name rest with
      | error lines => exact ⟨m, .refused name rest lines hargs hparse, .of_live hlive⟩
      | ok command =>
        rw [hparse] at hfits
        rw [Invocation.call?_eq hargs hparse] at hrecords
        exact explained_command hargs hparse hlive hrecords hfits
    · rename_i e disk' heq
      rw [heq]
      obtain ⟨⟨hstop, hdurable⟩, hframe⟩ := hopen
      refine ⟨m, .stopped _ (hstopped ▸ hstop) (code_exitOutput ioText _ e), hdurable, fun name => ?_⟩
      rw [hframe.unlinkFails]
      exact hunder.2 name

/-- The records that the writing commands of the invocations make fit into the log. -/
def RecordsFit (invocations : List Invocation) : Prop :=
  ∀ invocation ∈ invocations, ∀ call ∈ invocation.call?, ∀ record ∈ call.record?, record.Fits

instance (invocations : List Invocation) : Decidable (RecordsFit invocations) :=
  inferInstanceAs (Decidable (∀ invocation ∈ invocations, ∀ call ∈ invocation.call?, _))

theorem explained_session {disk : Disk} (h : Restorable m disk) (invocations : List Invocation)
    (hrecords : RecordsFit invocations)
    (hfits : (session ioText ratioText fuel invocations disk).2.Fits) :
    Session ratioText m (session ioText ratioText fuel invocations disk).1 := by
  induction invocations generalizing disk m with
  | nil => exact .nil m
  | cons invocation invocations ih =>
    have hlog := log_session ioText ratioText fuel invocations
      (run ioText ratioText fuel invocation.args
        (disk.under invocation.listing invocation.stop)).2
    obtain ⟨m', hexplained, hrestorable⟩ := explained_run h
      (hrecords invocation List.mem_cons_self) fun op hop => hfits op (hlog.subset hop)
    have hrest := ih hrestorable
      (fun other hother => hrecords other (List.mem_cons_of_mem _ hother)) hfits
    exact .cons hexplained hrest

end Runs

/-- The command line on a directory that was empty. -/
theorem session_explained [BloomSizing] (ioText : IoErrorKind → String)
    (ratioText : Nat × Nat → String) (fuel : Nat) {disk : Disk} (hempty : disk.dir = ∅)
    (hfails : ∀ name, disk.unlinkFails name = false) (invocations : List Invocation)
    (hrecords : RecordsFit invocations)
    (hfits : (session ioText ratioText fuel invocations disk).2.Fits) :
    Session ratioText ∅ (session ioText ratioText fuel invocations disk).1 := by
  have hnone : (fun _ => none : Contents) = (∅ : SortedMap String String).get? := by
    funext key
    exact (SortedMap.get?_empty key).symm
  exact explained_session ⟨hnone ▸ durable_empty hempty, hfails⟩ invocations hrecords hfits

/-- The second `set` stops in its record, the third one behind it. -/
def interruptedSession : List Invocation :=
  [⟨["set", "a", "1"], emptyDisk.listing, none⟩, ⟨["set", "a", "2"], emptyDisk.listing, some ⟨1, 5⟩⟩,
    ⟨["get", "a"], emptyDisk.listing, none⟩, ⟨["delete", "b"], emptyDisk.listing, none⟩,
    ⟨["set", "b", "3"], emptyDisk.listing, some ⟨1, 1000⟩⟩, ⟨["scan"], emptyDisk.listing, none⟩,
    ⟨["set", "c"], emptyDisk.listing, none⟩]

theorem session_explained_interrupted :
    (@session .ofSmall linuxText (fun _ => "") 3 interruptedSession emptyDisk).1.map Prod.snd =
      [printed ["OK"], ⟨[], some [], none⟩, printed ["1"], printed ["(null)"], ⟨[], some [], none⟩,
        printed ["a: 1", "b: 3"], refused ["Usage: pebbledb set <key> <value>"]] ∧
    Session (fun _ => "") ∅
      (@session .ofSmall linuxText (fun _ => "") 3 interruptedSession emptyDisk).1 :=
  ⟨by decide +kernel,
    @session_explained .ofSmall linuxText (fun _ => "") 3 emptyDisk rfl (fun _ => rfl)
      interruptedSession (by decide +kernel) (by decide +kernel)⟩

end PebbleDB.Cli
