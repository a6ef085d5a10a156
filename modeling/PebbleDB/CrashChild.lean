import PebbleDB.CrashTest
import PebbleDB.Messages

/-!
# The child process of the crash tests

`src/bin/crash_child.rs` and the part of `tests/common/mod.rs` that reads its output. The child
announces each operation before it makes the call and again when the call has returned. Wherever
the child ends, by a fault, an abort, a panic or at any file operation, the parent reads from its
output what was acknowledged and what was in flight (`Shows`), and its checker accepts the
directory that the child leaves (`verifyRecovery_runCrashChild`).
-/

namespace PebbleDB.CrashTest

open EarlyExit

/-! ## The output -/

/-- Words with a space between them, as the format strings of the announcements put them. -/
def spaced (words : List String) : List Char := [' '].intercalate (words.map String.toList)

/-- The fields of an announced operation. -/
def Op.words (index : Nat) : Op → List String
  | put key value => ["put", toString index, key, value]
  | delete key => ["del", toString index, key]

/-- The call as a fault report names it. -/
def Op.callName : Op → String
  | put _ _ => "set"
  | delete _ => "delete"

/-- The child process: its handle with the directory, and what it has printed. -/
structure Child where
  world : World
  stdout : List Char

/-- How the child ends early. -/
inductive ChildExit where
  /-- `process::exit` -/
  | exited (code : Nat)
  /-- what a call did to the process -/
  | died (exit : Exit)
  deriving DecidableEq, Repr

/-- A part of the child's `main`. -/
abbrev ChildM := EStateM ChildExit Child

/-- `announce` -/
def announce (line : List Char) : ChildM Unit :=
  modify fun child => { child with stdout := child.stdout ++ line ++ ['\n'] }

/-- A call on the handle. -/
def onWorld {α : Type} (x : OpM α) : ChildM α := fun child =>
  match x child.world with
  | .ok a w => .ok a { child with world := w }
  | .error e w => .error (.died e) { child with world := w }

section Child

variable [BloomSizing] (ioText : IoErrorKind → String) (fuel : Nat)

/-- A call; its error is announced and ends the process. -/
def callOrExit (name : String) (index : Nat) (call : Call) : ChildM Unit := do
  let result ← onWorld (tryCall fuel call)
  match result with
  | .error e => do
    announce (spaced ["FAULT", name, toString index, e.display ioText])
    throw (.exited 2)
  | .ok _ => pure ()

/-- One operation: announced, called and acknowledged. -/
def announceOp (name : String) (index : Nat) (operation : Op) : ChildM Unit := do
  announce (spaced ("TRY" :: operation.words index))
  callOrExit ioText fuel name index operation.call
  announce (spaced ("ACK" :: operation.words index))

/-- The first part of a turn of the loop of `main`, which returns the state of the generator. -/
def childOp (state : UInt64) (index : Nat) : ChildM UInt64 := do
  let state := nextState state
  let key := keyText (state % keySpace).toNat
  if state % 5 = 0 then
    announceOp ioText fuel "delete" index (.delete key)
    return state
  else
    let state := nextState state
    let value := valueText index (state % 1000).toNat
    announceOp ioText fuel "set" index (.put key value)
    return state

/-- A call that is made only if `p` holds. -/
def callWhen (p : Bool) (name : String) (index : Nat) (call : Call) : ChildM Unit :=
  if p then callOrExit ioText fuel name index call else pure ()

/-- The second part of a turn. -/
def childBetween (index : Nat) : ChildM Unit := do
  callWhen ioText fuel (index % 16 == 15) "flush" index .flush
  callWhen ioText fuel (index % 32 == 31) "compact" index .compact

/-- The loop of `main`, with `left` operations to go. -/
def childLoop : Nat → UInt64 → Nat → ChildM Unit
  | 0, _, _ => announce (spaced ["DONE"])
  | left + 1, state, index => do
    let state ← childOp ioText fuel state index
    childBetween ioText fuel index
    childLoop left state (index + 1)

/-- What is left of the process: the directory, what it printed and its exit code, if it has one. -/
structure ChildOutput where
  disk : Disk
  stdout : List Char
  code : Option Nat

/-- The exit code; a panic exits with 101, an abort has none. -/
def ChildExit.code? : ChildExit → Option Nat
  | exited code => some code
  | died .panic => some 101
  | died _ => none

/-- The fault that the environment variables ask for; an unknown name is a panic. -/
def childFault (point mode : Option String) (at_ : Nat) : Option (Option Fault) :=
  match point with
  | none => some none
  | some name =>
    (FaultPoint.parse name).map fun point =>
      some ⟨point, at_, if mode = some "error" then .error else .abort⟩

/-- `main`, for the values that it reads from its environment. -/
def crashChild (seed : UInt64) (operations flushThreshold l0Threshold at_ : Nat)
    (point mode : Option String) (disk : Disk) : ChildOutput :=
  match childFault point mode at_ with
  | none => ⟨disk, [], some 101⟩
  | some fault =>
    match openWithOptions (scenarioOptions flushThreshold l0Threshold fault) disk with
    | .error (.error e) disk =>
      ⟨disk, spaced ["OPEN_FAILED", e.display ioText] ++ ['\n'], some 3⟩
    | .error e disk => ⟨disk, [], (ChildExit.died e).code?⟩
    | .ok db disk =>
      match childLoop ioText fuel operations seed 0 ⟨⟨db, disk⟩, []⟩ with
      | .ok () child => ⟨child.world.disk, child.stdout, some 0⟩
      | .error e child => ⟨child.world.disk, child.stdout, e.code?⟩

end Child

/-! ## The parent -/

/-- The variables of the loop of `parse_child_output`. -/
structure Scan where
  acknowledged : List Op
  inFlight : Option Op
  fault : Option String
  completed : Bool
  deriving DecidableEq, Repr

/-- `ChildOutcome`: what the parent knows of the child that has ended. -/
structure ChildOutcome extends Scan where
  aborted : Bool
  stdout : List Char

/-- `parse_op`, of the fields behind the first. -/
def parseOp : List (List Char) → Option Op
  | verb :: fields =>
    if verb = "put".toList then
      match fields with
      | _ :: key :: value :: _ => some (.put (String.ofList key) (String.ofList value))
      | _ => none
    else if verb = "del".toList then
      match fields with
      | _ :: key :: _ => some (.delete (String.ofList key))
      | _ => none
    else none
  | [] => none

/-- One turn of the loop of `parse_child_output`. -/
def scanLine (scan : Scan) (line : List Char) : Scan :=
  match line.splitOn ' ' with
  | [] => scan
  | word :: fields =>
    if word = "TRY".toList then { scan with inFlight := parseOp fields }
    else if word = "ACK".toList then
      { scan with
        acknowledged := scan.acknowledged ++ (parseOp fields).toList, inFlight := none }
    else if word = "DONE".toList then { scan with completed := true }
    else if word = "FAULT".toList ∨ word = "OPEN_FAILED".toList then
      { scan with fault := some (String.ofList line) }
    else scan

/-- `parse_child_output`; an exit code that is neither 0 nor 2, or none, counts as aborted. -/
def parseChildOutput (stdout : List Char) (exitCode : Option Nat) : ChildOutcome where
  toScan := (lines stdout).foldl scanLine ⟨[], none, none, false⟩
  aborted := exitCode ≠ some 0 ∧ exitCode ≠ some 2
  stdout := stdout

/-- `run_crash_child`: what the parent makes of the child's output, and the directory. -/
def runCrashChild [BloomSizing] (ioText : IoErrorKind → String) (fuel : Nat) (seed : UInt64)
    (operations : Nat) (point : FaultPoint) (at_ : Nat) (mode : FaultMode) (disk : Disk) :
    ChildOutcome × Disk :=
  let modeText := match mode with
    | .abort => "abort"
    | .error => "error"
  let output := crashChild ioText fuel seed operations 4 2 at_ (some point.name) (some modeText) disk
  (parseChildOutput output.stdout output.code, output.disk)

/-! ## Lines and words -/

/-- The line has no line break in it. -/
def Unbroken (line : List Char) : Prop := '\n' ∉ line ∧ '\r' ∉ line

instance (line : List Char) : Decidable (Unbroken line) := inferInstanceAs (Decidable (_ ∧ _))

theorem splitOn_printed {printed : List (List Char)} (h : ∀ line ∈ printed, Unbroken line) :
    (printed.flatMap (· ++ ['\n'])).splitOn '\n' = printed ++ [[]] := by
  induction printed with
  | nil => rfl
  | cons line printed ih =>
    rw [List.flatMap_cons, List.append_assoc, List.singleton_append,
      List.splitOn_append_cons_self_of_not_mem (h line List.mem_cons_self).1,
      ih fun line hline => h line (List.mem_cons_of_mem _ hline), List.cons_append]

/-- Printed lines are read back. -/
theorem lines_printed {printed : List (List Char)} (h : ∀ line ∈ printed, Unbroken line) :
    lines (printed.flatMap (· ++ ['\n'])) = printed := by
  have hstrip : ∀ line ∈ printed, stripReturn line = line := fun line hline =>
    if_neg fun hlast => (h line hline).2 (List.mem_of_mem_getLast? hlast)
  rw [lines, splitOn_printed h, List.dropLast_concat, List.getLast?_concat,
    List.map_congr_left hstrip]
  simp

/-- A word of an announcement. -/
def Word (text : String) : Prop := ' ' ∉ text.toList ∧ Unbroken text.toList

instance (text : String) : Decidable (Word text) := inferInstanceAs (Decidable (_ ∧ _))

theorem splitOn_spaced {words : List String} (h : ∀ word ∈ words, Word word) (hne : words ≠ []) :
    (spaced words).splitOn ' ' = words.map String.toList := by
  refine List.splitOn_intercalate ' ' (fun chars hchars => ?_) (by simpa using hne)
  obtain ⟨word, hword, rfl⟩ := List.mem_map.mp hchars
  exact (h word hword).1

theorem spaced_cons (word word' : String) (words : List String) :
    spaced (word :: word' :: words) = word.toList ++ ' ' :: spaced (word' :: words) := by
  simp [spaced, List.intercalate]

theorem unbroken_spaced {words : List String} (h : ∀ word ∈ words, Unbroken word.toList) :
    Unbroken (spaced words) := by
  induction words with
  | nil => decide
  | cons word words ih =>
    have hword := h word List.mem_cons_self
    cases words with
    | nil => simpa [spaced, List.intercalate] using hword
    | cons word' words =>
      have hrest := ih fun word hword => h word (List.mem_cons_of_mem _ hword)
      rw [spaced_cons]
      simp only [Unbroken, List.mem_append, List.mem_cons, not_or]
      exact ⟨⟨hword.1, by decide, hrest.1⟩, hword.2, by decide, hrest.2⟩

theorem word_of_digits {chars : List Char} (h : ∀ c ∈ chars, c.isDigit = true ∨ c ∈ "keyvalu_".toList) :
    Word (String.ofList chars) := by
  have hnot : ∀ c : Char, c.isDigit = false → c ∉ "keyvalu_".toList → c ∉ chars := by
    intro c hdigit hletter hc
    rcases h c hc with hc | hc
    · rw [hdigit] at hc
      cases hc
    · exact hletter hc
  simp only [Word, Unbroken, String.toList_ofList]
  exact ⟨hnot _ (by decide) (by decide), hnot _ (by decide) (by decide),
    hnot _ (by decide) (by decide)⟩

theorem word_toString (n : Nat) : Word (toString n) := by
  rw [Nat.toString_eq_ofList_toDigits]
  exact word_of_digits fun c hc => Or.inl (Nat.isDigit_of_mem_toDigits (by decide) (by decide) hc)

theorem word_keyText (n : Nat) : Word (keyText n) := by
  have hletters : ∀ c ∈ "key".toList, c.isDigit = true ∨ c ∈ "keyvalu_".toList := by simp
  unfold keyText
  refine word_of_digits fun c hc => ?_
  rcases List.mem_append.mp hc with hc | hc
  · exact hletters c hc
  · rcases List.mem_append.mp hc with hc | hc
    · left
      rw [List.eq_of_mem_replicate hc]
      decide
    · exact Or.inl (Nat.isDigit_of_mem_toDigits (by decide) (by decide) hc)

theorem word_valueText (index n : Nat) : Word (valueText index n) := by
  have hletters : ∀ c ∈ "value".toList, c.isDigit = true ∨ c ∈ "keyvalu_".toList := by simp
  unfold valueText
  refine word_of_digits fun c hc => ?_
  rcases List.mem_append.mp hc with hc | hc
  · exact hletters c hc
  · rcases List.mem_append.mp hc with hc | hc
    · exact Or.inl (Nat.isDigit_of_mem_toDigits (by decide) (by decide) hc)
    · rcases List.mem_cons.mp hc with rfl | hc
      · right
        decide
      · exact Or.inl (Nat.isDigit_of_mem_toDigits (by decide) (by decide) hc)

/-- The operation can be announced: its key and its value are words. -/
def Op.Announced (operation : Op) : Prop := ∀ index, ∀ word ∈ operation.words index, Word word

theorem announced_workloadEntry (state : UInt64) (index : Nat) :
    (workloadEntry state index).2.Announced := by
  intro i word hword
  unfold workloadEntry at hword
  dsimp only at hword
  split at hword
  · simp only [Op.words, List.mem_cons, List.not_mem_nil, or_false] at hword
    rcases hword with rfl | rfl | rfl
    · decide
    · exact word_toString i
    · exact word_keyText _
  · simp only [Op.words, List.mem_cons, List.not_mem_nil, or_false] at hword
    rcases hword with rfl | rfl | rfl | rfl
    · decide
    · exact word_toString i
    · exact word_keyText _
    · exact word_valueText _ _

theorem unbroken_callName (operation : Op) : Unbroken operation.callName.toList := by
  cases operation with
  | put _ _ =>
    show Unbroken "set".toList
    decide
  | delete _ =>
    show Unbroken "delete".toList
    decide

theorem parseOp_words (index : Nat) (operation : Op) :
    parseOp ((operation.words index).map String.toList) = some operation := by
  cases operation with
  | put key value => simp [Op.words, parseOp]
  | delete key => simp [Op.words, parseOp]

theorem scanLine_try (scan : Scan) {operation : Op} (h : operation.Announced) (index : Nat) :
    scanLine scan (spaced ("TRY" :: operation.words index)) =
      { scan with inFlight := some operation } := by
  have hwords : ∀ word ∈ "TRY" :: operation.words index, Word word := by
    simpa using ⟨by decide, h index⟩
  rw [scanLine, splitOn_spaced hwords (List.cons_ne_nil _ _), List.map_cons]
  simp [parseOp_words]

theorem scanLine_ack (scan : Scan) {operation : Op} (h : operation.Announced) (index : Nat) :
    scanLine scan (spaced ("ACK" :: operation.words index)) =
      { scan with acknowledged := scan.acknowledged ++ [operation], inFlight := none } := by
  have hwords : ∀ word ∈ "ACK" :: operation.words index, Word word := by
    simpa using ⟨by decide, h index⟩
  rw [scanLine, splitOn_spaced hwords (List.cons_ne_nil _ _), List.map_cons]
  simp [parseOp_words]

theorem scanLine_done (scan : Scan) :
    scanLine scan (spaced ["DONE"]) = { scan with completed := true } := by
  have hsplit : (spaced ["DONE"]).splitOn ' ' = ["DONE".toList] :=
    splitOn_spaced (by decide) (by decide)
  rw [scanLine, hsplit]
  simp

/-- Whatever text follows, a line that starts so reports a fault. -/
theorem scanLine_fault (scan : Scan) {word word' : String} (words : List String)
    (h : word = "FAULT" ∨ word = "OPEN_FAILED") :
    scanLine scan (spaced (word :: word' :: words)) =
      { scan with fault := some (String.ofList (spaced (word :: word' :: words))) } := by
  have hno : ' ' ∉ word.toList := by
    rcases h with rfl | rfl
    · decide
    · decide
  have hsplit : (spaced (word :: word' :: words)).splitOn ' ' =
      word.toList :: (spaced (word' :: words)).splitOn ' ' := by
    rw [spaced_cons, List.splitOn_append_cons_self_of_not_mem hno]
  rw [scanLine, hsplit]
  rcases h with rfl | rfl
  · simp
  · simp

/-- The output so far is made of whole lines, and the parent reads this from them. -/
def Shows (stdout : List Char) (scan : Scan) : Prop :=
  ∃ printed : List (List Char), (∀ line ∈ printed, Unbroken line) ∧ stdout = printed.flatMap (· ++ ['\n']) ∧
    scan = printed.foldl scanLine ⟨[], none, none, false⟩

theorem shows_nil : Shows [] ⟨[], none, none, false⟩ :=
  ⟨[], fun _ h => absurd h List.not_mem_nil, rfl, rfl⟩

theorem Shows.announce {stdout line : List Char} {scan : Scan} (h : Shows stdout scan)
    (hline : Unbroken line) : Shows (stdout ++ line ++ ['\n']) (scanLine scan line) := by
  obtain ⟨printed, hunbroken, rfl, rfl⟩ := h
  refine ⟨printed ++ [line], ?_, by simp, by simp⟩
  intro line' hmem
  rcases List.mem_append.mp hmem with hmem | hmem
  · exact hunbroken line' hmem
  · rw [List.mem_singleton.mp hmem]
    exact hline

theorem Shows.parse {stdout : List Char} {scan : Scan} (h : Shows stdout scan)
    (exitCode : Option Nat) : (parseChildOutput stdout exitCode).toScan = scan := by
  obtain ⟨printed, hunbroken, rfl, rfl⟩ := h
  rw [parseChildOutput, lines_printed hunbroken]

/-! ## The child -/

section Child

variable [BloomSizing] {ioText : IoErrorKind → String} {fuel : Nat}

/-- The child's own copy of the generator makes the entries of the workload. -/
theorem childOp_eq (state : UInt64) (index : Nat) :
    ∃ entry, entry = workloadEntry state index ∧ childOp ioText fuel state index =
      (do
        announceOp ioText fuel entry.2.callName index entry.2
        return entry.1) := by
  by_cases h : nextState state % 5 = 0
  · refine ⟨(nextState state, .delete (keyText (nextState state % keySpace).toNat)), ?_, ?_⟩
    · rw [workloadEntry]
      exact (if_pos h).symm
    · rw [childOp]
      exact if_pos h
  · refine ⟨(nextState (nextState state), .put (keyText (nextState state % keySpace).toNat)
      (valueText index (nextState (nextState state) % 1000).toNat)), ?_, ?_⟩
    · rw [workloadEntry]
      exact (if_neg h).symm
    · rw [childOp]
      exact if_neg h

/-- However a part of the child ends, the calls in it have kept the frame of the handle. -/
def Child.Frame (child child' : Child) : Prop := child.world.Frame child'.world

omit [BloomSizing] in
theorem Child.Frame.refl (child : Child) : child.Frame child := World.Frame.refl child.world

omit [BloomSizing] in
theorem Child.Frame.trans {a b c : Child} (h : a.Frame b) (h' : b.Frame c) : a.Frame c :=
  World.Frame.trans h h'

omit [BloomSizing] in
theorem along_announce (line : List Char) : Along Child.Frame (announce line) :=
  .modify fun child => Child.Frame.refl child

omit [BloomSizing] in
theorem wp_onWorld {α : Type} {x : OpM α} {ok : α → Child → Prop} {exit : ChildExit → Child → Prop}
    {child : Child} (h : Wp x (fun a w => ok a { child with world := w })
      (fun e w => exit (.died e) { child with world := w }) child.world) :
    Wp (onWorld x) ok exit child := by
  rw [Wp] at h ⊢
  rw [onWorld]
  cases hx : x child.world with
  | ok a w =>
    rw [hx] at h
    exact h
  | error e w =>
    rw [hx] at h
    exact h

theorem along_callOrExit (name : String) (index : Nat) (call : Call) :
    Along Child.Frame (callOrExit ioText fuel name index call) := fun child => by
  refine Wp.bind (wp_onWorld ((along_tryCall fuel call child.world).mono ?_ fun _ _ h => h))
  intro result w hframe
  cases result with
  | error e => exact Wp.bind (Wp.modify (Wp.throw hframe))
  | ok _ => exact Wp.pure hframe

omit [BloomSizing] in
/-- `Wp.of_fits` for the child. -/
theorem wp_child_of_fits {α : Type} {x : ChildM α} {ok : α → Child → Prop}
    {exit : ChildExit → Child → Prop} {child : Child} (halong : Along Child.Frame x)
    (h : child.world.disk.Fits → Wp x (fun a child' => child'.world.disk.Fits → ok a child')
      (fun e child' => child'.world.disk.Fits → exit e child') child) :
    Wp x (fun a child' => child'.world.disk.Fits → ok a child')
      (fun e child' => child'.world.disk.Fits → exit e child') child := by
  have hframe := halong child
  rw [Wp] at hframe ⊢
  cases hx : x child with
  | ok a child' =>
    rw [hx] at hframe
    exact fun hfits => Wp.ok_of_eq (h (hframe.disk.fits hfits)) hx hfits
  | error e child' =>
    rw [hx] at hframe
    exact fun hfits => Wp.exit_of_eq (h (hframe.disk.fits hfits)) hx hfits

variable {m : Contents} {child : Child} {acknowledged : List Op} {inFlight : Option Op}

theorem wp_tryCall_oneLine (call : Call) {w : World} (h : Live m w) :
    Wp (tryCall fuel call) (fun result w' => w'.disk.Fits → ∀ e, result = .error e → e.OneLine)
      (fun _ _ => True) w := by
  refine Wp.caught ((wp_oneLine fuel call ⟨h.ready, h.answers⟩).mono ?_ ?_)
  · intro existed w' _ _ e he
    cases he
  · intro exit w' hplain
    refine ⟨fun d hd hfits e he => ?_, fun _ => trivial⟩
    cases he
    cases exit with
    | error e' =>
      cases hd
      exact hplain hfits _ rfl
    | _ => cases hd

/-- A call has its effect and prints nothing, or the child ends with a report of the error or
without one. -/
theorem wp_callOrExit (hio : ∀ kind, Plain (ioText kind)) {name : String}
    (hname : Unbroken name.toList) (index : Nat) (call : Call)
    (hrecords : ∀ record ∈ call.record?, record.Fits) (hlive : Live m child.world)
    (hshows : Shows child.stdout ⟨acknowledged, inFlight, none, false⟩) :
    Wp (callOrExit ioText fuel name index call)
      (fun _ child' => child'.world.disk.Fits →
        Live (call.apply m) child'.world ∧
          Shows child'.stdout ⟨acknowledged, inFlight, none, false⟩)
      (fun _ child' => child'.world.disk.Fits →
        (Durable child'.world.disk.dir m ∨ Durable child'.world.disk.dir (call.apply m)) ∧
          ∃ fault, Shows child'.stdout ⟨acknowledged, inFlight, fault, false⟩) child := by
  refine Wp.bind (wp_onWorld (((wp_tryCall fuel call hrecords hlive).and
    (wp_tryCall_oneLine call hlive)).mono ?_ ?_))
  · rintro result w ⟨htried, hplain⟩
    cases result with
    | ok _ => exact Wp.pure fun hfits => ⟨htried hfits, hshows⟩
    | error e =>
      refine Wp.bind (Wp.modify (Wp.throw fun hfits => ⟨htried hfits, ?_⟩))
      have hline : Unbroken (spaced ["FAULT", name, toString index, e.display ioText]) := by
        refine unbroken_spaced ?_
        have htext := (hplain hfits e rfl).plain ioText hio
        simp only [List.forall_mem_cons]
        exact ⟨by decide, hname, (word_toString index).2, htext, List.forall_mem_nil _⟩
      have hfault := hshows.announce hline
      rw [scanLine_fault _ _ (Or.inl rfl)] at hfault
      exact ⟨_, hfault⟩
  · rintro e w ⟨hdurable, -⟩ hfits
    exact ⟨hdurable hfits, none, hshows⟩

theorem along_announceOp (name : String) (index : Nat) (operation : Op) :
    Along Child.Frame (announceOp ioText fuel name index operation) :=
  .bind (R := Child.Frame) .trans (along_announce _) fun _ =>
    .bind (R := Child.Frame) .trans (along_callOrExit _ _ _) fun _ => along_announce _

/-- An operation is acknowledged, or the child ends with the operation in flight. -/
theorem wp_announceOp (hio : ∀ kind, Plain (ioText kind)) {name : String}
    (hname : Unbroken name.toList) (index : Nat) {operation : Op}
    (hannounced : operation.Announced)
    (hrecords : ∀ record ∈ operation.call.record?, record.Fits)
    (hlive : Live (contents acknowledged) child.world)
    (hshows : Shows child.stdout ⟨acknowledged, none, none, false⟩) :
    Wp (announceOp ioText fuel name index operation)
      (fun _ child' => child'.world.disk.Fits →
        Live (contents (acknowledged ++ [operation])) child'.world ∧
          Shows child'.stdout ⟨acknowledged ++ [operation], none, none, false⟩)
      (fun _ child' => child'.world.disk.Fits →
        (∃ m, Explains acknowledged (some operation) m ∧ Durable child'.world.disk.dir m) ∧
          ∃ fault, Shows child'.stdout ⟨acknowledged, some operation, fault, false⟩) child := by
  have hunbroken : ∀ verb : String, Unbroken verb.toList →
      Unbroken (spaced (verb :: operation.words index)) := by
    intro verb hverb
    refine unbroken_spaced ?_
    rw [List.forall_mem_cons]
    exact ⟨hverb, fun word hword => (hannounced index word hword).2⟩
  have htry := hshows.announce (hunbroken "TRY" (by decide))
  rw [scanLine_try _ hannounced] at htry
  let child₁ : Child :=
    ⟨child.world, child.stdout ++ spaced ("TRY" :: operation.words index) ++ ['\n']⟩
  have hcall := @wp_callOrExit _ ioText fuel _ child₁ _ _ hio _ hname index operation.call
    hrecords hlive htry
  refine Wp.bind (Wp.modify (Wp.bind (hcall.mono ?_ ?_)))
  · intro _ child' hdone
    refine Wp.modify fun hfits => ?_
    obtain ⟨hlive', hshows'⟩ := hdone hfits
    have hack := hshows'.announce (hunbroken "ACK" (by decide))
    rw [scanLine_ack _ hannounced] at hack
    rw [contents_concat]
    exact ⟨hlive', hack⟩
  · intro _ child' hdied hfits
    obtain ⟨hdurable | hdurable, hfault⟩ := hdied hfits
    · exact ⟨⟨_, Or.inl rfl, hdurable⟩, hfault⟩
    · exact ⟨⟨_, Or.inr ⟨operation, rfl, rfl⟩, hdurable⟩, hfault⟩

theorem along_callWhen (p : Bool) (name : String) (index : Nat) (call : Call) :
    Along Child.Frame (callWhen ioText fuel p name index call) :=
  .ite (along_callOrExit _ _ _) (.pure Child.Frame.refl _)

/-- A call without an effect on the map. -/
theorem wp_callWhen (hio : ∀ kind, Plain (ioText kind)) (p : Bool) {name : String} (index : Nat)
    {call : Call} (hname : Unbroken name.toList) (hrecord : call.record? = none)
    (happly : call.apply m = m) (hlive : Live m child.world)
    (hshows : Shows child.stdout ⟨acknowledged, none, none, false⟩) :
    Wp (callWhen ioText fuel p name index call)
      (fun _ child' => child'.world.disk.Fits →
        Live m child'.world ∧ Shows child'.stdout ⟨acknowledged, none, none, false⟩)
      (fun _ child' => child'.world.disk.Fits →
        Durable child'.world.disk.dir m ∧
          ∃ fault, Shows child'.stdout ⟨acknowledged, none, fault, false⟩) child := by
  refine Wp.ite (fun _ => ?_) fun _ => Wp.pure fun _ => ⟨hlive, hshows⟩
  have hrecords : ∀ record ∈ call.record?, record.Fits := by
    rw [hrecord]
    exact fun record hmem => absurd hmem (Option.not_mem_none _)
  have hcall := @wp_callOrExit _ ioText fuel _ _ _ _ hio _ hname index call hrecords hlive hshows
  rw [happly] at hcall
  simpa only [or_self] using hcall

theorem along_childBetween (index : Nat) : Along Child.Frame (childBetween ioText fuel index) :=
  .bind (R := Child.Frame) .trans (along_callWhen _ _ _ _) fun _ => along_callWhen _ _ _ _

/-- The calls between two operations change nothing. -/
theorem wp_childBetween (hio : ∀ kind, Plain (ioText kind)) (index : Nat)
    (hlive : Live m child.world) (hshows : Shows child.stdout ⟨acknowledged, none, none, false⟩) :
    Wp (childBetween ioText fuel index)
      (fun _ child' => child'.world.disk.Fits →
        Live m child'.world ∧ Shows child'.stdout ⟨acknowledged, none, none, false⟩)
      (fun _ child' => child'.world.disk.Fits →
        Durable child'.world.disk.dir m ∧
          ∃ fault, Shows child'.stdout ⟨acknowledged, none, fault, false⟩) child := by
  refine Wp.bind ((wp_callWhen hio _ index (by decide) rfl rfl hlive hshows).mono ?_ fun _ _ h => h)
  intro _ child₁ hdone
  refine wp_child_of_fits (along_callWhen _ _ _ _) fun hfits => ?_
  obtain ⟨hlive₁, hshows₁⟩ := hdone hfits
  exact wp_callWhen hio _ index (by decide) rfl rfl hlive₁ hshows₁

theorem along_childLoop (left : Nat) (state : UInt64) (index : Nat) :
    Along Child.Frame (childLoop ioText fuel left state index) := by
  induction left generalizing state index with
  | zero => exact along_announce _
  | succ left ih =>
    rw [childLoop]
    obtain ⟨entry, -, heq⟩ := @childOp_eq _ ioText fuel state index
    rw [heq, bind_assoc]
    refine .bind (R := Child.Frame) .trans (along_announceOp _ _ _) fun _ => ?_
    rw [pure_bind]
    exact .bind (R := Child.Frame) .trans (along_childBetween _) fun _ => ih _ _

/-- What the child leaves in the directory, and what the parent reads of it. -/
structure Reported (entries : List Op) (scan : Scan) (child : Child) : Prop where
  shows : Shows child.stdout scan
  durable : ∃ m, Explains scan.acknowledged scan.inFlight m ∧ Durable child.world.disk.dir m
  progress : Progress entries scan.acknowledged scan.inFlight
  finished : scan.completed = true → scan.acknowledged = entries

theorem wp_childLoop (hio : ∀ kind, Plain (ioText kind)) (left : Nat) {entries : List Op}
    {state : UInt64} {index : Nat} (hindex : index + left ≤ 2 ^ 64)
    (hentries : entries = acknowledged ++ workloadFrom left state index)
    (hlive : Live (contents acknowledged) child.world)
    (hshows : Shows child.stdout ⟨acknowledged, none, none, false⟩) :
    Wp (childLoop ioText fuel left state index)
      (fun _ child' => child'.world.disk.Fits → ∃ scan, Reported entries scan child' ∧
        scan.completed = true)
      (fun _ child' => child'.world.disk.Fits → ∃ scan, Reported entries scan child' ∧
        scan.completed = false) child := by
  induction left generalizing state index acknowledged child with
  | zero =>
    have hall : acknowledged = entries := by simpa [workloadFrom] using hentries.symm
    have hline : Unbroken (spaced ["DONE"]) := unbroken_spaced (by decide)
    have hdone := hshows.announce hline
    rw [scanLine_done] at hdone
    exact Wp.modify fun _ => ⟨_, ⟨hdone, ⟨_, Or.inl rfl, hlive.durable⟩,
      ⟨[], by rw [hall, List.append_nil], Or.inl rfl⟩, fun _ => hall⟩, rfl⟩
  | succ left ih =>
    have hrecords := fits_workloadEntry state (show index < 2 ^ 64 by omega)
    have hannounced := announced_workloadEntry state index
    rw [workloadFrom] at hentries
    rw [childLoop]
    obtain ⟨entry, hentry, heq⟩ := @childOp_eq _ ioText fuel state index
    rw [heq, bind_assoc]
    rw [← hentry] at hrecords hannounced hentries
    refine Wp.bind ((wp_announceOp hio (unbroken_callName entry.2) index hannounced hrecords hlive hshows).mono ?_ ?_)
    · intro _ child₁ hdone
      have hentries' : entries = (acknowledged ++ [entry.2]) ++
          workloadFrom left entry.1 (index + 1) := by
        rw [hentries, List.append_assoc, List.singleton_append]
      rw [pure_bind]
      refine wp_child_of_fits (.bind (R := Child.Frame) .trans (along_childBetween _) fun _ =>
        along_childLoop _ _ _) fun hfits₁ => ?_
      obtain ⟨hlive₁, hshows₁⟩ := hdone hfits₁
      refine Wp.bind ((wp_childBetween hio index hlive₁ hshows₁).mono ?_ ?_)
      · intro _ child₂ hbetween
        refine wp_child_of_fits (along_childLoop _ _ _) fun hfits₂ => ?_
        obtain ⟨hlive₂, hshows₂⟩ := hbetween hfits₂
        exact ih (by omega) hentries' hlive₂ hshows₂
      · intro _ child₂ hdied hfits₂
        obtain ⟨hdurable, fault, hshows₂⟩ := hdied hfits₂
        exact ⟨_, ⟨hshows₂, ⟨_, Or.inl rfl, hdurable⟩, ⟨_, hentries', Or.inl rfl⟩,
          fun h => by cases h⟩, rfl⟩
    · intro _ child₁ hdied hfits₁
      obtain ⟨hdurable, fault, hshows₁⟩ := hdied hfits₁
      exact ⟨_, ⟨hshows₁, hdurable, ⟨_, hentries, Or.inr rfl⟩, fun h => by cases h⟩, rfl⟩

/-- Wherever the child ends, its output and the directory belong together. -/
theorem crashChild_reported (hio : ∀ kind, Plain (ioText kind)) (seed : UInt64) {operations : Nat}
    (hoperations : operations < 2 ^ 64) (flushThreshold l0Threshold at_ : Nat)
    (point mode : Option String) {disk : Disk} (hempty : disk.dir = ∅)
    (hfails : ∀ name, disk.unlinkFails name = false) {output : ChildOutput}
    (hrun : crashChild ioText fuel seed operations flushThreshold l0Threshold at_ point mode disk =
      output) (hfits : output.disk.Fits) :
    ∃ scan, Shows output.stdout scan ∧
      Progress (workloadFrom operations seed 0) scan.acknowledged scan.inFlight ∧
      (scan.completed = true → scan.acknowledged = workloadFrom operations seed 0) ∧
      Recovers scan.acknowledged scan.inFlight output.disk := by
  have hdurable : Durable disk.dir (contents []) := durable_empty hempty
  have hnone : Progress (workloadFrom operations seed 0) [] none := ⟨_, rfl, Or.inl rfl⟩
  unfold crashChild at hrun
  split at hrun
  · subst hrun
    exact ⟨_, shows_nil, hnone, (fun h => by cases h), ⟨_, Or.inl rfl, hdurable⟩, hfails⟩
  · rename_i fault _
    have hopen := Durable.wp_openWithOptions hdurable hfails
      (scenarioOptions flushThreshold l0Threshold fault)
    have hframe := along_openWithOptions (scenarioOptions flushThreshold l0Threshold fault) disk
    have hfails' : ∀ disk', disk.Frame disk' → ∀ name, disk'.unlinkFails name = false := by
      intro disk' hframe name
      rw [hframe.unlinkFails]
      exact hfails name
    split at hrun
    · rename_i e disk' hfailed
      subst hrun
      have hplain := (oneLine_openWithOptions _ disk).exit_of_eq hfailed e rfl
      have hline : Unbroken (spaced ["OPEN_FAILED", e.display ioText]) := by
        refine unbroken_spaced ?_
        simp only [List.forall_mem_cons]
        exact ⟨by decide, hplain.plain ioText hio, List.forall_mem_nil _⟩
      have hshows := shows_nil.announce hline
      rw [scanLine_fault _ _ (Or.inr rfl)] at hshows
      exact ⟨_, hshows, hnone, (fun h => by cases h),
        ⟨_, Or.inl rfl, (hopen.exit_of_eq hfailed).2⟩, hfails' _ (hframe.exit_of_eq hfailed)⟩
    · rename_i e disk' hfailed
      subst hrun
      exact ⟨_, shows_nil, hnone, (fun h => by cases h),
        ⟨_, Or.inl rfl, (hopen.exit_of_eq hfailed).2⟩, hfails' _ (hframe.exit_of_eq hfailed)⟩
    · rename_i db disk' hopened
      have hlive : Live (contents []) ⟨db, disk'⟩ := hopen.ok_of_eq hopened
      have hloop := @wp_childLoop _ ioText fuel ⟨⟨db, disk'⟩, []⟩ [] hio operations
        (workloadFrom operations seed 0) seed 0 (by omega) rfl hlive shows_nil
      have halong := @along_childLoop _ ioText fuel operations seed 0 ⟨⟨db, disk'⟩, []⟩
      have hfails₁ := hfails' _ (hframe.ok_of_eq hopened)
      split at hrun
      · rename_i child hdone
        subst hrun
        obtain ⟨scan, hreported, -⟩ := hloop.ok_of_eq hdone hfits
        have hkept := (halong.ok_of_eq hdone).disk.unlinkFails
        exact ⟨scan, hreported.shows, hreported.progress, hreported.finished, hreported.durable,
          fun name => (congrFun hkept name).trans (hfails₁ name)⟩
      · rename_i e child hdied
        subst hrun
        obtain ⟨scan, hreported, -⟩ := hloop.exit_of_eq hdied hfits
        have hkept := (halong.exit_of_eq hdied).disk.unlinkFails
        exact ⟨scan, hreported.shows, hreported.progress, hreported.finished, hreported.durable,
          fun name => (congrFun hkept name).trans (hfails₁ name)⟩

/-- Whatever fault the parent asks for, and wherever the process stops besides, the checker accepts
the directory at every reopening, for the operations that the parent reads from the output of the
child: a first part of the workload is acknowledged, and the next one may be in flight. -/
theorem verifyRecovery_runCrashChild (hio : ∀ kind, Plain (ioText kind)) (seed : UInt64)
    {operations : Nat} (hoperations : operations < 2 ^ 64) (point : FaultPoint) (at_ : Nat)
    (mode : FaultMode) {disk disk' : Disk} (hempty : disk.dir = ∅)
    (hfails : ∀ name, disk.unlinkFails name = false) {outcome : ChildOutcome}
    (hrun : runCrashChild ioText fuel seed operations point at_ mode disk = (outcome, disk'))
    (hfits : disk'.Fits) (listings : Nat → Listing) :
    Progress (workloadFrom operations seed 0) outcome.acknowledged outcome.inFlight ∧
      (outcome.completed = true → outcome.acknowledged = workloadFrom operations seed 0) ∧
      ∃ disk'', verifyRecovery listings outcome.acknowledged outcome.inFlight
        { disk' with stop := none } = .ok (.ok ()) disk'' := by
  unfold runCrashChild at hrun
  dsimp only at hrun
  generalize houtput : crashChild ioText fuel seed operations 4 2 at_ _ _ disk = output at hrun
  obtain ⟨rfl, rfl⟩ := Prod.mk.inj hrun
  obtain ⟨scan, hshows, hprogress, hfinished, hrecovers⟩ :=
    crashChild_reported hio seed hoperations 4 2 at_ _ _ hempty hfails houtput hfits
  rw [hshows.parse]
  refine ⟨hprogress, hfinished, ?_⟩
  have hrecovers' : Recovers scan.acknowledged scan.inFlight { output.disk with stop := none } :=
    ⟨hrecovers.1, hrecovers.2⟩
  exact hrecovers'.verifyRecovery_eq rfl listings

end Child

/-- A child that aborts while it flushes its first table. -/
theorem verifyRecovery_runCrashChild_abort : ∃ outcome disk' disk'',
    @runCrashChild .ofSmall linuxText 3 7 9 .beforeWalTruncation 1 .abort emptyDisk =
        (outcome, disk') ∧ outcome.inFlight.isSome = true ∧ outcome.aborted = true ∧
      verifyRecovery (fun _ => emptyDisk.listing) outcome.acknowledged outcome.inFlight
        { disk' with stop := none } = .ok (.ok ()) disk'' := by
  have htest : ((@runCrashChild .ofSmall linuxText 3 7 9 .beforeWalTruncation 1 .abort
      emptyDisk).1.inFlight.isSome &&
      (@runCrashChild .ofSmall linuxText 3 7 9 .beforeWalTruncation 1 .abort emptyDisk).1.aborted &&
      decide (@runCrashChild .ofSmall linuxText 3 7 9 .beforeWalTruncation 1 .abort
        emptyDisk).2.Fits) = true := by
    decide +kernel
  generalize hrun : @runCrashChild .ofSmall linuxText 3 7 9 .beforeWalTruncation 1 .abort
    emptyDisk = result at htest
  obtain ⟨outcome, disk'⟩ := result
  simp only [Bool.and_eq_true, decide_eq_true_eq] at htest
  obtain ⟨⟨hinFlight, haborted⟩, hfits⟩ := htest
  obtain ⟨-, -, disk'', hverify⟩ := @verifyRecovery_runCrashChild .ofSmall linuxText 3
    plain_linuxText 7 9 (by decide) .beforeWalTruncation 1 .abort emptyDisk disk' rfl
    (fun _ => rfl) outcome hrun hfits fun _ => emptyDisk.listing
  exact ⟨outcome, disk', disk'', rfl, hinFlight, haborted, hverify⟩

end PebbleDB.CrashTest
