import PebbleDB.Handles
import PebbleDB.Opening

/-!
# A handle is a map

The abstract view of a handle is a map from keys to values. A call that returns has its effect on
the map (`Call.apply`), a call that fails has this effect or none (`Allowed`). Every run of calls on
a handle, failing or not, is matched by such a run of the map (`run_matches`).
-/

namespace PebbleDB

open EarlyExit

/-- The calls that can change a handle. -/
inductive Call where
  | set (key value : String)
  | delete (key : String)
  | flush
  | compact
  | compactFull
  deriving DecidableEq, Repr

/-- What a call comes back with: `delete` returns whether the key existed. -/
inductive Reply where
  | returned (existed : Option Bool)
  | failed (e : PebbleError)
  deriving DecidableEq, Repr

/-- A map from keys to values. -/
abbrev Contents := String → Option String

namespace Call

/-- `PebbleDB::set`, `delete`, `flush`, `compact` and `compact_full`. -/
def run [BloomSizing] (fuel : Nat) : Call → OpM (Option Bool)
  | set key value => (fun _ => none) <$> PebbleDB.set fuel key value
  | delete key => some <$> PebbleDB.delete fuel key
  | flush => (fun _ => none) <$> PebbleDB.flush fuel
  | compact => (fun _ => none) <$> compactPending fuel
  | compactFull => (fun _ => none) <$> PebbleDB.compactFull

/-- The effect of a call on the map. -/
def apply : Call → Contents → Contents
  | set key value, m => Function.update m key (some value)
  | delete key, m => Function.update m key none
  | _, m => m

/-- What a call returns that does not fail. -/
def reply : Call → Contents → Option Bool
  | delete key, m => some (m key).isSome
  | _, _ => none

end Call

/-- A step of the map. -/
inductive Allowed (m : Contents) (call : Call) : Reply → Contents → Prop where
  | returned : Allowed m call (.returned (call.reply m)) (call.apply m)
  | failedDone (e : PebbleError) : Allowed m call (.failed e) (call.apply m)
  | failedNot (e : PebbleError) : Allowed m call (.failed e) m

/-! ## One call -/

/-- `get` answers like the map. -/
def Answers (db : DbInner) (m : Contents) : Prop := ∀ key, db.get key = .ok (m key)

theorem Ready.exists_answers {db : DbInner} (h : Ready db) : ∃ m, Answers db m :=
  ⟨_, fun key => DbInner.get_eq_answer h.sound key⟩

theorem Answers.of_preserved {db db' : DbInner} {m : Contents} (h : Answers db m)
    (hp : Preserved db db') : Answers db' m := fun key => (hp.get_eq key).trans (h key)

/-- The handle is ready and answers like this map. -/
def Holding (m : Contents) (w : World) : Prop := Ready w.inner ∧ Answers w.inner m

theorem Holding.preserved {m : Contents} {w w' : World} (h : Holding m w)
    (hp : Preserved w.inner w'.inner) : Holding m w' := ⟨hp.ready, h.2.of_preserved hp⟩

/-- Logging a record updates the map at its key. -/
theorem Holding.logged {m : Contents} {w w' : World} {record : WalRecord} {key : String}
    {entry : MemtableEntry} (h : Holding m w) (hlogged : Logged record key entry w w') :
    Holding (Function.update m key (MemtableIterator.valueOf entry)) w' := by
  refine ⟨hlogged.ready h.1, fun k => ?_⟩
  rw [hlogged.get_eq h.1, Function.update_apply]
  split
  · rfl
  · exact h.2 k

section Calls

variable [BloomSizing] {w : World} {m : Contents}

/-- What the operations of a handle keep, a call keeps. -/
theorem World.Steady.along_call {R : World → World → Prop} (h : World.Steady FileOp.Regular R)
    (fuel : Nat) (call : Call) : Along R (call.run fuel) := by
  cases call with
  | set key value => exact .map (h.along_writeRecord _ _ _ _)
  | delete key => exact .map (h.along_delete _ _)
  | flush => exact .map (h.along_flush _)
  | compact => exact .map (h.along_compactPending _)
  | compactFull => exact .map h.along_compactFull

theorem along_call (fuel : Nat) (call : Call) : Along World.Frame (call.run fuel) :=
  World.Frame.regular.along_call fuel call

end Calls

/-! ## The parts of a call -/

/-- The record that a call logs. -/
def Call.record? : Call → Option WalRecord
  | set key value => some (.set key value)
  | delete key => some (.delete key)
  | _ => none

/-- What a call is made of, on a handle that holds `m` (`P m`): a part that returns keeps `P`, one
that exits leaves `Q`. Records are of the kind `R`. -/
structure CallRules [BloomSizing] (R : WalRecord → Prop) (P Q : Contents → World → Prop) :
    Prop where
  ready : ∀ {m w}, P m w → Ready w.inner
  answers : ∀ {m w}, P m w → Answers w.inner m
  exit : ∀ {m w}, P m w → Q m w
  job : ∀ {m w job}, P m w → Issued w.inner job →
    Wp (executeJob job) (fun _ w' => w'.disk.Fits → P m w') (fun _ w' => w'.disk.Fits → Q m w') w
  flush : ∀ {m w}, P m w → w.inner.memtable ≠ ∅ →
    Wp flushTable (fun _ w' => w'.disk.Fits → P m w') (fun _ w' => w'.disk.Fits → Q m w') w
  log : ∀ {m w record key entry}, P m w → R record →
    (∀ memtable, replayRecord memtable record = memtable.insert key entry) →
    Wp (logRecord record key entry)
      (fun _ w' => w'.disk.Fits → P (Function.update m key (MemtableIterator.valueOf entry)) w')
      (fun _ w' => w'.disk.Fits →
        Q m w' ∨ Q (Function.update m key (MemtableIterator.valueOf entry)) w') w

namespace CallRules

variable [BloomSizing] {R : WalRecord → Prop} {P Q : Contents → World → Prop} {w : World}
  {m : Contents}

theorem wp_compactPending (hrules : CallRules R P Q) (fuel : Nat) (h : P m w) :
    Wp (compactPending fuel) (fun _ w' => w'.disk.Fits → P m w')
      (fun _ w' => w'.disk.Fits → Q m w') w := by
  induction fuel generalizing w with
  | zero => exact Wp.throw fun _ => hrules.exit h
  | succ fuel ih =>
    rw [Wp]
    have hturn := turn_compactPending fuel w
    generalize compactPending (fuel + 1) w = r at hturn
    cases hturn with
    | rest _ => exact fun _ => h
    | overflow => exact fun _ => hrules.exit h
    | failed plan job e w' hpick hplan hrun =>
      exact (hrules.job h (.planned _ plan job hpick hplan)).exit_of_eq hrun
    | next plan job w₁ hpick hplan hrun =>
      have hjob := (hrules.job h (.planned _ plan job hpick hplan)).ok_of_eq hrun
      exact Wp.assume_fits (along_compactPending fuel) fun hfits => ih (hjob hfits)

theorem wp_compactFull (hrules : CallRules R P Q) (h : P m w) :
    Wp compactFull (fun _ w' => w'.disk.Fits → P m w') (fun _ w' => w'.disk.Fits → Q m w') w := by
  rw [compactFull]
  refine Wp.bind (Wp.get (Wp.ite (fun _ => Wp.pure fun _ => h) fun _ => ?_))
  exact hrules.job h .full

theorem wp_flush (hrules : CallRules R P Q) (fuel : Nat) (h : P m w) :
    Wp (PebbleDB.flush fuel) (fun _ w' => w'.disk.Fits → P m w')
      (fun _ w' => w'.disk.Fits → Q m w') w := by
  rw [flush_eq]
  refine Wp.bind (Wp.get (Wp.ite (fun _ => Wp.pure fun _ => h) fun hne => ?_))
  refine Wp.bind ((hrules.flush h hne).mono (fun _ w₁ hw₁ => ?_) fun _ _ hexit => hexit)
  exact Wp.assume_fits (along_compactPending fuel) fun hfits =>
    hrules.wp_compactPending fuel (hw₁ hfits)

theorem wp_writeRecord (hrules : CallRules R P Q) (fuel : Nat) {record : WalRecord} {key : String}
    {entry : MemtableEntry} (h : P m w) (hrecord : R record)
    (hreplay : ∀ memtable, replayRecord memtable record = memtable.insert key entry) :
    Wp (writeRecord fuel record key entry)
      (fun _ w' => w'.disk.Fits → P (Function.update m key (MemtableIterator.valueOf entry)) w')
      (fun _ w' => w'.disk.Fits →
        Q m w' ∨ Q (Function.update m key (MemtableIterator.valueOf entry)) w') w := by
  rw [writeRecord_eq]
  refine Wp.bind ((hrules.log h hrecord hreplay).mono (fun _ w₁ hw₁ => ?_) fun _ _ hexit => hexit)
  refine Wp.bind (Wp.get (Wp.ite (fun _ => ?_) fun _ => Wp.pure hw₁))
  exact Wp.assume_fits (World.Frame.regular.along_flush fuel) fun hfits =>
    (hrules.wp_flush fuel (hw₁ hfits)).mono (fun _ _ hw' => hw')
      fun _ _ hw' hfits => Or.inr (hw' hfits)

/-- A call that returns has its effect and answers for it, a call that exits has it or not. -/
theorem wp_call (hrules : CallRules R P Q) (fuel : Nat) (call : Call)
    (hrecord : ∀ record ∈ call.record?, R record) (h : P m w) :
    Wp (call.run fuel)
      (fun existed w' => w'.disk.Fits → existed = call.reply m ∧ P (call.apply m) w')
      (fun _ w' => w'.disk.Fits → Q m w' ∨ Q (call.apply m) w') w := by
  cases call with
  | set key value =>
    exact Wp.map ((hrules.wp_writeRecord fuel h (hrecord _ rfl) fun _ => rfl).mono
      (fun _ w' hw' hfits => ⟨rfl, hw' hfits⟩) fun _ w' hw' => hw')
  | delete key =>
    have hready := hrules.ready h
    refine Wp.map ?_
    rw [delete]
    refine Wp.bind (Wp.get (Wp.bind (Wp.fromExcept (fun existed hexisted => ?_)
      fun _ _ _ => Or.inl (hrules.exit h))))
    have hget := hrules.answers h key
    rw [DbInner.get_eq_answer hready.sound, ← DbInner.getInner_eq_answer hready.sound, hexisted,
      Except.ok.injEq] at hget
    refine Wp.bind ((hrules.wp_writeRecord fuel h (hrecord _ rfl) fun _ => rfl).mono
      (fun _ w' hw' => Wp.pure fun hfits => ⟨?_, hw' hfits⟩) fun _ w' hw' => hw')
    rw [hget]
    rfl
  | flush =>
    exact Wp.map ((hrules.wp_flush fuel h).mono (fun _ w' hp hfits => ⟨rfl, hp hfits⟩)
      fun _ w' hp hfits => Or.inl (hp hfits))
  | compact =>
    exact Wp.map ((hrules.wp_compactPending fuel h).mono (fun _ w' hp hfits => ⟨rfl, hp hfits⟩)
      fun _ w' hp hfits => Or.inl (hp hfits))
  | compactFull =>
    exact Wp.map ((hrules.wp_compactFull h).mono (fun _ w' hp hfits => ⟨rfl, hp hfits⟩)
      fun _ w' hp hfits => Or.inl (hp hfits))

end CallRules

/-- However the parts of a call end, the handle stays ready and has their effect or not. -/
theorem holding_rules [BloomSizing] : CallRules (fun _ => True) Holding Holding where
  ready h := h.1
  answers h := h.2
  exit h := h
  job h hissued := (wp_job h.1 hissued).mono (fun _ _ hp hfits => h.preserved (hp hfits))
    fun _ _ hp hfits => h.preserved (hp hfits)
  flush := by
    intro m w h _
    refine ((wp_flushTable w).and (along_flushTable w)).mono ?_ ?_
    · rintro _ w' ⟨⟨sst, hdone⟩, -⟩ hfits
      exact h.preserved (h.1.flushDone hdone hfits)
    · rintro _ w' ⟨hexit, hframe⟩ hfits
      exact h.preserved (h.1.of_flushExit hexit hframe hfits)
  log := by
    intro m w record key entry h _ _
    refine (wp_logRecord record key entry w).mono (fun _ _ hlogged _ => h.logged hlogged) ?_
    rintro _ w' hexit -
    cases hexit with
    | cut hdata hnext _ => exact Or.inl (h.preserved (h.1.of_sameData hdata hnext.ge))
    | logged hdone => exact Or.inr (h.logged hdone)

/-! ## Runs -/

/-- A call that came back, the handle behind it. -/
structure Step where
  call : Call
  reply : Reply
  world : World

/-- The call returns or fails so; a loop of it may take any number of turns. A call that panics, or
in which the process stops, is the last one on a handle and has no reply. -/
inductive Step.From [BloomSizing] (w : World) : Step → Prop where
  | returned (fuel : Nat) (call : Call) (existed : Option Bool) (w' : World)
      (h : call.run fuel w = .ok existed w') : From w ⟨call, .returned existed, w'⟩
  | failed (fuel : Nat) (call : Call) (e : PebbleError) (w' : World)
      (h : call.run fuel w = .error (.error e) w') : From w ⟨call, .failed e, w'⟩

/-- Calls that came back, one after the other on one handle. -/
inductive Run [BloomSizing] : World → List Step → Prop where
  | nil (w : World) : Run w []
  | cons {w : World} {step : Step} {steps : List Step} (hstep : step.From w)
      (hsteps : Run step.world steps) : Run w (step :: steps)

/-- The map can follow the steps, and after each of them `get` answers like it. -/
inductive Matches : Contents → List Step → Prop where
  | nil (m : Contents) : Matches m []
  | cons {m m' : Contents} {step : Step} {steps : List Step}
      (hallowed : Allowed m step.call step.reply m') (hanswers : Answers step.world.inner m')
      (hsteps : Matches m' steps) : Matches m (step :: steps)

section Runs

variable [BloomSizing] {w : World} {m : Contents}

theorem Holding.step (h : Holding m w) {step : Step} (hstep : step.From w)
    (hfits : step.world.disk.Fits) :
    ∃ m', Allowed m step.call step.reply m' ∧ Holding m' step.world := by
  cases hstep with
  | returned fuel call existed w' hrun =>
    obtain ⟨rfl, hholding⟩ :=
      (holding_rules.wp_call fuel call (fun _ _ => trivial) h).ok_of_eq hrun hfits
    exact ⟨_, .returned, hholding⟩
  | failed fuel call e w' hrun =>
    rcases (holding_rules.wp_call fuel call (fun _ _ => trivial) h).exit_of_eq hrun hfits with
      hholding | hholding
    · exact ⟨_, .failedNot e, hholding⟩
    · exact ⟨_, .failedDone e, hholding⟩

theorem Holding.run (h : Holding m w) {steps : List Step} (hrun : Run w steps)
    (hfits : ∀ step ∈ steps, step.world.disk.Fits) : Matches m steps := by
  induction hrun generalizing m with
  | nil w => exact .nil m
  | cons hstep _ ih =>
    obtain ⟨m', hallowed, hholding⟩ := h.step hstep (hfits _ List.mem_cons_self)
    exact .cons hallowed hholding.2
      (ih hholding fun step hmem => hfits step (List.mem_cons_of_mem _ hmem))

end Runs

/-- What opening makes of a directory without files. -/
theorem open_empty {options : DbOptions} {disk disk' : Disk} {db : DbInner}
    (hempty : disk.dir = ∅) (hopen : openWithOptions options disk = .ok db disk') :
    db = ⟨∅, [[]], 0, options, .new options.fault⟩ := by
  have hids : DistinctIds disk.dir := by
    intro name _ _ _ _ hne
    rw [hempty] at hne
    exact absurd rfl hne
  have hclean : Clean disk.dir := by
    rw [hempty]
    exact ⟨fun _ _ => rfl, rfl⟩
  obtain ⟨pending, recovery, hopens, hmemtable, hoptions, hfault, -⟩ :=
    (wp_openWithOptions options disk hids).ok_of_eq hopen
  have hopens' : Opens disk.unlinkFails disk.dir none ⟨[], 0⟩ [[]] 0 := by
    refine hclean.opens _ ?_ ?_
    · rw [hempty]
      rfl
    · rw [hempty]
      rfl
  obtain ⟨-, hrecovery, hlevels, hnext⟩ := hopens'.unique hopens
  calc db = ⟨db.memtable, db.levels, db.nextSstId, db.options, db.fault⟩ := rfl
    _ = _ := by
      rw [hmemtable, hrecovery, hlevels, hnext, hoptions, hfault]
      rfl

theorem ready_empty (options : DbOptions) (fault : FaultInjector) :
    Ready ⟨∅, [[]], 0, options, fault⟩ := by
  have hnone : ∀ t : Placed, t ∉ tablesFrom 0 [[]] := fun t ht => by cases ht
  refine ⟨⟨⟨?_, ?_, ?_⟩, ?_, fun key => ?_⟩, List.cons_ne_nil _ _⟩
  · intro files hfiles
    rw [List.mem_singleton.mp hfiles]
    exact List.Pairwise.nil
  · exact fun s hs => absurd hs (hnone s)
  · exact fun t ht => absurd ht (hnone t)
  · exact fun t ht => absurd ht (hnone t)
  · intro a ha
    obtain ⟨t, ht, -⟩ := ha
    exact absurd ht (hnone t)

/-- Every run of calls on a handle opened on an empty directory is matched by a run of the map, with
`get` answering like the map after each call. -/
theorem run_matches [BloomSizing] {options : DbOptions} {disk disk' : Disk} {db : DbInner}
    (hempty : disk.dir = ∅) (hopen : openWithOptions options disk = .ok db disk')
    {steps : List Step} (hrun : Run ⟨db, disk'⟩ steps)
    (hfits : ∀ step ∈ steps, step.world.disk.Fits) : Matches (fun _ => none) steps := by
  refine Holding.run ⟨?_, fun key => ?_⟩ hrun hfits
  · rw [open_empty hempty hopen]
    exact ready_empty _ _
  · rw [open_empty hempty hopen]
    rfl

/-- A directory without files. -/
def emptyDisk : Disk := ⟨∅, [], ⟨fun _ names => names, fun _ _ => .refl _⟩, fun _ => false, none⟩

/-- Every write is flushed, two files of level zero are merged, and merging fails before it removes
the first file. -/
def failingMerge : DbOptions where
  flushThreshold := 1
  l0CompactionThreshold := 2
  levelSizeMultiplier := 2
  targetLevelSize := 1
  targetFileSize := 1
  fault := some ⟨.beforeObsoleteFileDelete, 1, .error⟩

/-- The handle that opens on it. -/
def failingMergeStart : World :=
  ⟨⟨∅, [[]], 0, failingMerge, .new failingMerge.fault⟩,
    after (openWithOptions failingMerge) emptyDisk⟩

/-- Two calls in a row, the second of which fails. -/
theorem Run.of_two [BloomSizing] {w w₁ w₂ : World} {fuel : Nat} {call call' : Call}
    {existed : Option Bool} {e : PebbleError} (h₁ : call.run fuel w = .ok existed w₁)
    (h₂ : call'.run fuel w₁ = .error (.error e) w₂) :
    Run w [⟨call, .returned existed, w₁⟩, ⟨call', .failed e, w₂⟩] :=
  .cons (.returned fuel call existed w₁ h₁) (.cons (.failed fuel call' e w₂ h₂) (.nil w₂))

/-- The second write fails in the merge it starts, and has been applied. -/
theorem run_matches_failingMerge : ∃ w₁ e w₂,
    Matches (fun _ => none) [⟨.set "a" "1", .returned none, w₁⟩,
      ⟨.set "a" "2", .failed e, w₂⟩] ∧ w₂.inner.get "a" = .ok (some "2") := by
  have hopened : check (openWithOptions failingMerge) emptyDisk (fun _ _ => true) = true := by
    decide +kernel
  obtain ⟨db, hopen, -⟩ := eq_ok_of_check hopened
  have hset : check (@Call.run .ofSmall 3 (.set "a" "1")) failingMergeStart
      (fun existed w' => decide (existed = none ∧ w'.disk.Fits)) = true := by decide +kernel
  obtain ⟨existed, hfirst, htest⟩ := eq_ok_of_check hset
  obtain ⟨rfl, hfits₁⟩ := of_decide_eq_true htest
  have hfailed : checkExit (@Call.run .ofSmall 3 (.set "a" "2"))
      (after (@Call.run .ofSmall 3 (.set "a" "1")) failingMergeStart)
      (fun exit w' => exit.isError &&
        decide (w'.disk.Fits ∧ w'.inner.get "a" = .ok (some "2"))) = true := by decide +kernel
  obtain ⟨exit, w₂, hsecond, htest⟩ := exists_of_checkExit hfailed
  generalize after (@Call.run .ofSmall 3 (.set "a" "1")) failingMergeStart = w₁ at *
  cases exit with
  | error e =>
    obtain ⟨hfits₂, hget⟩ := of_decide_eq_true htest
    have hrun := @Run.of_two .ofSmall _ _ _ _ _ _ _ _ hfirst hsecond
    refine ⟨w₁, e, w₂, @run_matches .ofSmall failingMerge emptyDisk _ db rfl hopen _ ?_ ?_, hget⟩
    · rw [open_empty rfl hopen]
      exact hrun
    · intro step hstep
      rcases List.mem_cons.mp hstep with rfl | hstep
      · exact hfits₁
      · rw [List.mem_singleton.mp hstep]
        exact hfits₂
  | _ => cases htest

end PebbleDB
