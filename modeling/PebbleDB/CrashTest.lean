import PebbleDB.CrashRun

/-!
# The checker of the crash tests

The reference model, the checker and the workload of `tests/common/mod.rs`. The checker accepts a
handle exactly if it answers like the acknowledged operations, with the one in flight or without
it (`checkState_iff`). Whatever fault is injected, it accepts what a workload leaves behind
(`verifyRecovery_runWorkload`).
-/

namespace PebbleDB.CrashTest

open EarlyExit

/-! ## The workload -/

/-- `Op`, a write of the workload. -/
inductive Op where
  | put (key value : String)
  | delete (key : String)
  deriving DecidableEq, Repr

/-- `Op::key`, the key that is written. -/
def Op.key : Op → String
  | put key _ => key
  | delete key => key

/-- `Op::result`: what a read of the key gives behind the operation. -/
def Op.result : Op → Option String
  | put _ value => some value
  | delete _ => none

/-- `KEY_SPACE`, the number of keys of the workload. -/
def keySpace : UInt64 := 24

/-- The multiplication and the addition wrap. -/
@[irreducible] def nextState (state : UInt64) : UInt64 := state * 6364136223846793005 + 1442695040888963407

/-- `format!("key{:03}", n)` -/
def keyText (n : Nat) : String :=
  let digits := Nat.toDigits 10 n
  String.ofList ("key".toList ++ (List.replicate (3 - digits.length) '0' ++ digits))

/-- `format!("value{}_{}", index, n)` -/
def valueText (index n : Nat) : String :=
  String.ofList ("value".toList ++ (Nat.toDigits 10 index ++ '_' :: Nat.toDigits 10 n))

/-- `workload_entry`: a delete where the state of the generator is a multiple of five, else a put with
a value from the next state. -/
def workloadEntry (state : UInt64) (index : Nat) : UInt64 × Op :=
  let state := nextState state
  let key := keyText (state % keySpace).toNat
  if state % 5 = 0 then (state, .delete key)
  else
    let state := nextState state
    (state, .put key (valueText index (state % 1000).toNat))

/-- `scenario_options`: sizes small enough for flushes and merges in a short workload. -/
def scenarioOptions (flushThreshold l0Threshold : Nat) (fault : Option Fault) : DbOptions where
  flushThreshold := flushThreshold
  l0CompactionThreshold := l0Threshold
  levelSizeMultiplier := 2
  targetLevelSize := 512
  targetFileSize := 256
  fault := fault

/-! ## The checker -/

/-- `model`: for each key that the operations name, what it reads behind them. -/
def model (operations : List Op) : SortedMap String (Option String) :=
  operations.foldl (fun model operation => model.insert operation.key operation.result) ∅

/-- What `check_state` can find wrong, with the values of its message. -/
inductive Mismatch where
  | key (key : String) (allowed : List (Option String)) (actual : Option String)
  | range (expected actual : List (String × String))
  deriving DecidableEq, Repr

/-- The keys that `check_state` reads. -/
def checkedKeys (model : SortedMap String (Option String)) (inFlight : Option Op) : List String :=
  let keys := match inFlight with
    | some operation =>
      if model.keys.contains operation.key then model.keys else model.keys ++ [operation.key]
    | none => model.keys
  keys.insertionSort (· ≤ ·)

/-- The vector `allowed` of `check_state`: the value of the model and, for the key of the operation in
flight, its result. -/
def allowedValues (model : SortedMap String (Option String)) (inFlight : Option Op)
    (key : String) : List (Option String) :=
  let before := (model.get? key).getD none
  match inFlight.filter fun operation => operation.key = key with
  | some operation => if operation.result = before then [before] else [before, operation.result]
  | none => [before]

/-- The loop of `check_state` over the keys. -/
def checkKeys (db : DbInner) (model : SortedMap String (Option String)) (inFlight : Option Op) :
    List String → Res (Except Mismatch Unit)
  | [] => return .ok ()
  | key :: keys => do
    let actual ← db.get key
    if (allowedValues model inFlight key).contains actual then checkKeys db model inFlight keys
    else return .error (.key key (allowedValues model inFlight key) actual)

/-- `pairs.retain(|(key, _)| key != operation.key())`, if there is an operation in flight. -/
def retainOthers (inFlight : Option Op) (pairs : List (String × String)) :
    List (String × String) :=
  match inFlight with
  | some operation => pairs.filter fun pair => pair.1 ≠ operation.key
  | none => pairs

/-- The pairs of the model that have a value. -/
def expectedPairs (model : SortedMap String (Option String)) : List (String × String) :=
  model.entries.filterMap fun (key, value) => value.map fun v => (key, v)

/-- `check_state`: each key reads one of its allowed values, and `scan` gives the model, but for the key
in flight. -/
def checkState (db : DbInner) (acknowledged : List Op) (inFlight : Option Op) :
    Res (Except Mismatch Unit) := do
  let model := model acknowledged
  let checked ← checkKeys db model inFlight (checkedKeys model inFlight)
  match checked with
  | .error mismatch => return .error mismatch
  | .ok () => do
    let actual ← db.scan
    let expected := retainOthers inFlight (expectedPairs model)
    let actual := retainOthers inFlight actual
    if actual ≠ expected then return .error (.range expected actual)
    else return .ok ()

/-! ## What the checker accepts -/

/-- The call that an operation makes. -/
def Op.call : Op → Call
  | put key value => .set key value
  | delete key => .delete key

/-- What the operations leave in a map that was empty. -/
def contents (operations : List Op) : Contents :=
  operations.foldl (fun m operation => operation.call.apply m) fun _ => none

theorem Op.apply_call (operation : Op) (m : Contents) :
    operation.call.apply m = Function.update m operation.key operation.result := by
  cases operation <;> rfl

@[simp] theorem contents_concat (operations : List Op) (operation : Op) :
    contents (operations ++ [operation]) = operation.call.apply (contents operations) := by
  simp [contents]

@[simp] theorem model_concat (operations : List Op) (operation : Op) :
    model (operations ++ [operation]) =
      (model operations).insert operation.key operation.result := by
  simp [model]

theorem contents_eq (operations : List Op) (key : String) :
    contents operations key = ((model operations).get? key).getD none := by
  induction operations using List.reverseRecOn with
  | nil => rfl
  | append_singleton operations operation ih =>
    rw [contents_concat, model_concat, Op.apply_call, Function.update_apply, SortedMap.get?_insert,
      ih]
    split <;> rfl

theorem mem_allowedValues {operations : List Op} {inFlight : Option Op} {key : String}
    {value : Option String} :
    value ∈ allowedValues (model operations) inFlight key ↔ value = contents operations key ∨
      ∃ operation ∈ inFlight, operation.key = key ∧ value = operation.result := by
  rw [allowedValues, ← contents_eq]
  rcases inFlight with _ | operation
  · simp
  · by_cases hkey : operation.key = key
    · by_cases hresult : operation.result = contents operations key
      · simp [Option.filter, hkey, hresult]
      · simp [Option.filter, hkey, hresult]
    · simp [Option.filter, hkey]

theorem mem_checkedKeys {model : SortedMap String (Option String)} {inFlight : Option Op}
    {key : String} :
    key ∈ checkedKeys model inFlight ↔
      key ∈ model.keys ∨ ∃ operation ∈ inFlight, operation.key = key := by
  unfold checkedKeys
  rw [List.mem_insertionSort]
  rcases inFlight with _ | operation
  · simp
  · by_cases hmem : operation.key ∈ model.keys
    · simp only [List.contains_eq_mem, hmem, decide_true, if_true, Option.mem_def,
        Option.some.injEq, exists_eq_left']
      constructor
      · exact Or.inl
      · rintro (h | rfl)
        · exact h
        · exact hmem
    · simp [hmem, eq_comm]

theorem checkKeys_iff {db : DbInner} {m : Contents} (hanswers : Answers db m)
    (model : SortedMap String (Option String)) (inFlight : Option Op) (keys : List String) :
    (∀ key ∈ keys, m key ∈ allowedValues model inFlight key) ∧
        checkKeys db model inFlight keys = .ok (.ok ()) ∨
      ∃ key ∈ keys, m key ∉ allowedValues model inFlight key ∧
        checkKeys db model inFlight keys =
          .ok (.error (.key key (allowedValues model inFlight key) (m key))) := by
  induction keys with
  | nil => exact Or.inl ⟨fun key h => absurd h List.not_mem_nil, rfl⟩
  | cons key keys ih =>
    rw [checkKeys]
    simp only [hanswers key, bind, Except.bind, pure, Except.pure, List.contains_eq_mem,
      decide_eq_true_eq]
    by_cases hmem : m key ∈ allowedValues model inFlight key
    · rw [if_pos hmem]
      rcases ih with ⟨hall, hok⟩ | ⟨other, hother, hne, hok⟩
      · exact Or.inl ⟨by simpa [hmem] using hall, hok⟩
      · exact Or.inr ⟨other, List.mem_cons_of_mem _ hother, hne, hok⟩
    · rw [if_neg hmem]
      exact Or.inr ⟨key, List.mem_cons_self, hmem, rfl⟩

theorem mem_expectedPairs (operations : List Op) (k v : String) :
    (k, v) ∈ expectedPairs (model operations) ↔ contents operations k = some v := by
  rw [contents_eq, expectedPairs, List.mem_filterMap]
  constructor
  · rintro ⟨⟨key, value⟩, hmem, hpair⟩
    obtain ⟨_, rfl, heq⟩ := Option.map_eq_some_iff.mp hpair
    cases heq
    rw [SortedMap.mem_entries.mp hmem]
    rfl
  · intro h
    cases hget : (model operations).get? k with
    | none =>
      rw [hget] at h
      cases h
    | some value =>
      rw [hget] at h
      cases h
      exact ⟨(k, some v), SortedMap.mem_entries.mpr hget, rfl⟩

theorem sorted_expectedPairs (operations : List Op) :
    (expectedPairs (model operations)).Pairwise fun a b => a.1 < b.1 :=
  RangeIterator.sorted_live (model operations).sorted

theorem mem_retainOthers {inFlight : Option Op} {pairs : List (String × String)}
    {pair : String × String} :
    pair ∈ retainOthers inFlight pairs ↔
      pair ∈ pairs ∧ ∀ operation ∈ inFlight, pair.1 ≠ operation.key := by
  rcases inFlight with _ | operation
  · simp [retainOthers]
  · simp [retainOthers]

theorem sorted_retainOthers {inFlight : Option Op} {pairs : List (String × String)}
    (h : pairs.Pairwise fun a b => a.1 < b.1) :
    (retainOthers inFlight pairs).Pairwise fun a b => a.1 < b.1 := by
  rcases inFlight with _ | operation
  · exact h
  · exact h.filter _

/-- The maps that the acknowledged operations and the one in flight allow. -/
def Explains (acknowledged : List Op) (inFlight : Option Op) (m : Contents) : Prop :=
  m = contents acknowledged ∨ ∃ operation ∈ inFlight, m = operation.call.apply (contents acknowledged)

/-- The values that are allowed at each key, together. -/
theorem explains_iff {acknowledged : List Op} {inFlight : Option Op} {m : Contents} :
    Explains acknowledged inFlight m ↔
      (∀ key, (∀ operation ∈ inFlight, key ≠ operation.key) → m key = contents acknowledged key) ∧
        ∀ operation ∈ inFlight, m operation.key = contents acknowledged operation.key ∨
          m operation.key = operation.result := by
  rcases inFlight with _ | operation
  · simp [Explains, funext_iff]
  · simp only [Explains, Option.mem_def, Option.some.injEq, exists_eq_left', forall_eq',
      Op.apply_call]
    constructor
    · rintro (rfl | rfl)
      · exact ⟨fun _ _ => rfl, Or.inl rfl⟩
      · exact ⟨fun key hne => Function.update_of_ne hne _ _, Or.inr (Function.update_self _ _ _)⟩
    · rintro ⟨hothers, hkey | hkey⟩
      · left
        funext key
        by_cases heq : key = operation.key
        · rw [heq, hkey]
        · exact hothers key heq
      · right
        funext key
        by_cases heq : key = operation.key
        · rw [heq, hkey, Function.update_self]
        · rw [hothers key heq, Function.update_of_ne heq]

theorem allowed_iff {acknowledged : List Op} {inFlight : Option Op} {m : Contents} :
    (∀ key ∈ checkedKeys (model acknowledged) inFlight,
        m key ∈ allowedValues (model acknowledged) inFlight key) ↔
      (∀ key ∈ (model acknowledged).keys, (∀ operation ∈ inFlight, key ≠ operation.key) →
          m key = contents acknowledged key) ∧
        ∀ operation ∈ inFlight, m operation.key = contents acknowledged operation.key ∨
          m operation.key = operation.result := by
  constructor
  · intro h
    refine ⟨fun key hkey hne => ?_, fun operation hoperation => ?_⟩
    · have hallowed := mem_allowedValues.mp (h key (mem_checkedKeys.mpr (Or.inl hkey)))
      rcases hallowed with hbefore | ⟨operation, hoperation, heq, -⟩
      · exact hbefore
      · exact absurd heq.symm (hne operation hoperation)
    · have hallowed := mem_allowedValues.mp
        (h operation.key (mem_checkedKeys.mpr (Or.inr ⟨operation, hoperation, rfl⟩)))
      rcases hallowed with hbefore | ⟨other, hother, -, hafter⟩
      · exact Or.inl hbefore
      · cases Option.mem_unique hother hoperation
        exact Or.inr hafter
  · rintro ⟨hothers, hinFlight⟩ key hkey
    rw [mem_allowedValues]
    by_cases hne : ∀ operation ∈ inFlight, key ≠ operation.key
    · rcases mem_checkedKeys.mp hkey with hmem | ⟨operation, hoperation, heq⟩
      · exact Or.inl (hothers key hmem hne)
      · exact absurd heq.symm (hne operation hoperation)
    · push Not at hne
      obtain ⟨operation, hoperation, rfl⟩ := hne
      rcases hinFlight operation hoperation with hbefore | hafter
      · exact Or.inl hbefore
      · exact Or.inr ⟨operation, hoperation, rfl, hafter⟩

/-- Reading the keys and listing the pairs together tell whether a map is explained: the keys that
are not read are not in the model, so the listing must leave them out. -/
theorem explains_of_checks {acknowledged : List Op} {inFlight : Option Op} {m : Contents}
    {pairs : List (String × String)} (hsorted : pairs.Pairwise fun a b => a.1 < b.1)
    (hpairs : ∀ k v, (k, v) ∈ pairs ↔ m k = some v) :
    Explains acknowledged inFlight m ↔
      (∀ key ∈ checkedKeys (model acknowledged) inFlight,
          m key ∈ allowedValues (model acknowledged) inFlight key) ∧
        retainOthers inFlight pairs =
          retainOthers inFlight (expectedPairs (model acknowledged)) := by
  rw [allowed_iff, explains_iff]
  constructor
  · rintro ⟨hothers, hinFlight⟩
    refine ⟨⟨fun key _ => hothers key, hinFlight⟩, ?_⟩
    refine List.Pairwise.eq_of_mem_iff (sorted_retainOthers hsorted)
      (sorted_retainOthers (sorted_expectedPairs acknowledged)) fun pair => ?_
    obtain ⟨k, v⟩ := pair
    rw [mem_retainOthers, mem_retainOthers, hpairs, mem_expectedPairs]
    refine and_congr_left fun hne => ?_
    rw [hothers k hne]
  · rintro ⟨⟨-, hinFlight⟩, heq⟩
    refine ⟨fun key hne => ?_, hinFlight⟩
    refine Option.ext fun v => ?_
    have hmem : (key, v) ∈ retainOthers inFlight pairs ↔
        (key, v) ∈ retainOthers inFlight (expectedPairs (model acknowledged)) := by
      rw [heq]
    rw [mem_retainOthers, mem_retainOthers, hpairs, mem_expectedPairs, and_congr_left_iff] at hmem
    exact hmem hne

/-- On a handle whose reads succeed the checker returns, and it accepts exactly if the handle
answers like the acknowledged operations, with the one in flight or without it. -/
theorem checkState_eq {db : DbInner} {ms : List (SortedMap String SSTableEntry)}
    (hms : DbInner.TablesHold (readOrder db.levels) ms) (acknowledged : List Op)
    (inFlight : Option Op) :
    ∃ verdict, checkState db acknowledged inFlight = .ok verdict ∧
      (verdict = .ok () ↔ ∃ m, Explains acknowledged inFlight m ∧ Answers db m) := by
  obtain ⟨m, hanswers⟩ : ∃ m, Answers db m := ⟨_, DbInner.get_eq hms⟩
  have hunique : (∃ m', Explains acknowledged inFlight m' ∧ Answers db m') ↔
      Explains acknowledged inFlight m := by
    refine ⟨?_, fun h => ⟨m, h, hanswers⟩⟩
    rintro ⟨m', hexplains, hanswers'⟩
    have heq : m' = m := funext fun key => Except.ok.inj ((hanswers' key).symm.trans (hanswers key))
    rwa [heq] at hexplains
  obtain ⟨pairs, hscan, hsorted, hmem⟩ := DbInner.exists_range hms .unbounded .unbounded
  have hpairs : ∀ k v, (k, v) ∈ pairs ↔ m k = some v := by
    intro k v
    rw [hmem, hanswers k, Except.ok.injEq]
    exact and_iff_right ⟨trivial, trivial⟩
  rw [hunique, explains_of_checks hsorted hpairs]
  have hscan' : db.scan = .ok pairs := hscan
  rcases checkKeys_iff hanswers (model acknowledged) inFlight
      (checkedKeys (model acknowledged) inFlight) with ⟨hall, hok⟩ | ⟨key, hkey, hne, hfail⟩
  · by_cases heq : retainOthers inFlight pairs =
        retainOthers inFlight (expectedPairs (model acknowledged))
    · refine ⟨.ok (), ?_, iff_of_true rfl ⟨hall, heq⟩⟩
      rw [checkState]
      simp only [hok, hscan', bind, Except.bind, heq, ne_eq, not_true_eq_false, if_false]
      rfl
    · refine ⟨.error (.range (retainOthers inFlight (expectedPairs (model acknowledged)))
        (retainOthers inFlight pairs)), ?_, iff_of_false (by simp) fun h => heq h.2⟩
      rw [checkState]
      simp only [hok, hscan', bind, Except.bind, heq, ne_eq, not_false_eq_true, if_true]
      rfl
  · refine ⟨.error (.key key (allowedValues (model acknowledged) inFlight key) (m key)), ?_,
      iff_of_false (by simp) fun h => hne (h.1 key hkey)⟩
    rw [checkState]
    simp only [hfail, bind, Except.bind]
    rfl

/-- Over any memtable and any tables as written, the checker returns, and it accepts exactly if the
handle answers like the acknowledged operations, with the one in flight or without it. -/
theorem checkState_iff [BloomSizing] (db : DbInner)
    (h : ∀ files ∈ db.levels, ∀ sst ∈ files, sst.Written) (acknowledged : List Op)
    (inFlight : Option Op) :
    ∃ verdict, checkState db acknowledged inFlight = .ok verdict ∧
      (verdict = .ok () ↔ ∃ m, Explains acknowledged inFlight m ∧ Answers db m) := by
  obtain ⟨ms, hms⟩ : ∃ ms, DbInner.TablesHold (readOrder db.levels) ms := by
    refine DbInner.exists_tablesHold fun sst hsst => ?_
    obtain ⟨files, hfiles, hsst⟩ := List.mem_flatMap.mp hsst
    exact (h files hfiles sst (List.mem_reverse.mp hsst)).holds
  exact checkState_eq hms acknowledged inFlight

/-- A delete in flight that has not happened is accepted, a value that nobody wrote is not. -/
theorem checkState_iff_delete :
    ∃ verdict, checkState ⟨SortedMap.ofList [("a", .value "1")], [[]], 0, .default, .new none⟩
        [.put "a" "1"] (some (.delete "a")) = .ok verdict ∧
      (verdict = .ok () ↔ ∃ m, Explains [.put "a" "1"] (some (.delete "a")) m ∧
        Answers ⟨SortedMap.ofList [("a", .value "1")], [[]], 0, .default, .new none⟩ m) := by
  refine @checkState_iff .ofSmall _ ?_ _ _
  simp

/-! ## Recovering -/

/-- What `verify_recovery` reports, with the number of the attempt. -/
inductive RecoveryError where
  | reopen (attempt : Nat) (e : PebbleError)
  | mismatch (attempt : Nat) (mismatch : Mismatch)
  deriving DecidableEq, Repr

/-- One turn of the loop of `verify_recovery`. The order in which the directory is listed may be
another one at each opening. -/
def reopen (listings : Nat → Listing) (acknowledged : List Op) (inFlight : Option Op)
    (attempt : Nat) : DiskM (Except RecoveryError Unit) := do
  modify fun disk => { disk with listing := listings attempt }
  let opened ← caught Exit.error? (openWithOptions .default)
  match opened with
  | .error e => return .error (.reopen attempt e)
  | .ok db => do
    let verdict ← fromExcept (checkState db acknowledged inFlight)
    match verdict with
    | .error mismatch => return .error (.mismatch attempt mismatch)
    | .ok () => return .ok ()

/-- The loop of `verify_recovery` over these attempts. -/
def verifyAttempts (listings : Nat → Listing) (acknowledged : List Op) (inFlight : Option Op) :
    List Nat → DiskM (Except RecoveryError Unit)
  | [] => return .ok ()
  | attempt :: attempts => do
    let result ← reopen listings acknowledged inFlight attempt
    match result with
    | .error e => return .error e
    | .ok () => verifyAttempts listings acknowledged inFlight attempts

/-- `verify_recovery` opens the directory three times. -/
def verifyRecovery (listings : Nat → Listing) (acknowledged : List Op) (inFlight : Option Op) :
    DiskM (Except RecoveryError Unit) :=
  verifyAttempts listings acknowledged inFlight [0, 1, 2]

/-- The directory holds, for every opening, what the operations explain. -/
def Recovers (acknowledged : List Op) (inFlight : Option Op) (disk : Disk) : Prop :=
  (∃ m, Explains acknowledged inFlight m ∧ Durable disk.dir m) ∧
    ∀ name, disk.unlinkFails name = false

theorem wp_reopen {acknowledged : List Op} {inFlight : Option Op} {disk : Disk}
    (h : Recovers acknowledged inFlight disk) (hstop : disk.stop = none)
    (listings : Nat → Listing) (attempt : Nat) :
    Wp (reopen listings acknowledged inFlight attempt) (fun result disk' =>
      result = .ok () ∧ Recovers acknowledged inFlight disk' ∧ disk'.stop = none)
      (fun _ _ => False) disk := by
  obtain ⟨⟨m, hexplains, hdurable⟩, hfails⟩ := h
  let disk₁ := { disk with listing := listings attempt }
  have hopen := @Durable.wp_openWithOptions disk₁ m hdurable hfails .default
  refine Wp.bind (Wp.modify (Wp.bind (Wp.caught ?_)))
  refine (hopen.and (along_openWithOptions .default disk₁)).mono ?_ ?_
  · rintro db disk' ⟨hlive, hframe⟩
    obtain ⟨verdict, hcheck, hverdict⟩ :=
      checkState_eq hlive.ready.sound.tablesHold acknowledged inFlight
    obtain rfl := hverdict.mpr ⟨m, hexplains, hlive.answers⟩
    refine Wp.bind (Wp.of_eq_ok (fromExcept_ok hcheck disk') ?_)
    exact ⟨rfl, ⟨⟨m, hexplains, hlive.durable⟩, hlive.fails⟩, hframe.stop hstop⟩
  · rintro e disk' ⟨⟨hne, -⟩, -⟩
    exact absurd hstop hne

theorem wp_verifyAttempts {acknowledged : List Op} {inFlight : Option Op} {disk : Disk}
    (h : Recovers acknowledged inFlight disk) (hstop : disk.stop = none)
    (listings : Nat → Listing) (attempts : List Nat) :
    Wp (verifyAttempts listings acknowledged inFlight attempts) (fun result disk' =>
      result = .ok () ∧ Recovers acknowledged inFlight disk' ∧ disk'.stop = none)
      (fun _ _ => False) disk := by
  induction attempts generalizing disk with
  | nil => exact Wp.pure ⟨rfl, h, hstop⟩
  | cons attempt attempts ih =>
    refine Wp.bind ((wp_reopen h hstop listings attempt).mono ?_ fun _ _ hexit => hexit)
    rintro result disk' ⟨rfl, hrecovers, hstop'⟩
    exact ih hrecovers hstop'

theorem Recovers.verifyRecovery_eq {acknowledged : List Op} {inFlight : Option Op} {disk : Disk}
    (h : Recovers acknowledged inFlight disk) (hstop : disk.stop = none)
    (listings : Nat → Listing) :
    ∃ disk', verifyRecovery listings acknowledged inFlight disk = .ok (.ok ()) disk' := by
  have hwp := wp_verifyAttempts h hstop listings [0, 1, 2]
  rw [Wp] at hwp
  split at hwp
  · rename_i result disk' heq
    obtain ⟨rfl, -, -⟩ := hwp
    exact ⟨disk', heq⟩
  · exact absurd hwp id

/-! ## Running the workload -/

/-- `InProcessRun`: how far the workload came, and whether a fault ended it. -/
structure InProcessRun where
  acknowledged : List Op
  inFlight : Option Op
  faulted : Bool
  completed : Bool
  deriving DecidableEq, Repr

/-- The operations of a workload. -/
def workloadFrom : Nat → UInt64 → Nat → List Op
  | 0, _, _ => []
  | left + 1, state, index =>
    (workloadEntry state index).2 :: workloadFrom left (workloadEntry state index).1 (index + 1)

theorem length_asBytes_le (chars : List Char) :
    (asBytes (String.ofList chars)).length ≤ 4 * chars.length := by
  rw [asBytes_ofList]
  induction chars with
  | nil => exact Nat.le_refl _
  | cons c chars ih =>
    have hc : (String.utf8EncodeChar c).length ≤ 4 := by
      rw [String.length_utf8EncodeChar]
      exact Char.utf8Size_le_four c
    rw [List.flatMap_cons, List.length_append, List.length_cons]
    omega

theorem length_keyText_le {n : Nat} (h : n < 24) : (asBytes (keyText n)).length ≤ 24 := by
  have hdigits : (Nat.toDigits 10 n).length ≤ 3 :=
    (Nat.length_toDigits_le_iff (by decide) (by decide)).mpr (by omega)
  unfold keyText
  refine (length_asBytes_le _).trans ?_
  simp only [List.length_append, List.length_replicate]
  have hpre : "key".toList.length = 3 := by decide
  omega

theorem length_valueText_le {index n : Nat} (hindex : index < 2 ^ 64) (h : n < 1000) :
    (asBytes (valueText index n)).length ≤ 116 := by
  have hindexDigits : (Nat.toDigits 10 index).length ≤ 20 :=
    (Nat.length_toDigits_le_iff (by decide) (by decide)).mpr (by omega)
  have hdigits : (Nat.toDigits 10 n).length ≤ 3 :=
    (Nat.length_toDigits_le_iff (by decide) (by decide)).mpr h
  unfold valueText
  refine (length_asBytes_le _).trans ?_
  simp only [List.length_append, List.length_cons]
  have hpre : "value".toList.length = 5 := by decide
  omega

/-- The records of a workload fit the log. -/
theorem fits_workloadEntry (state : UInt64) {index : Nat} (hindex : index < 2 ^ 64) :
    ∀ record ∈ (workloadEntry state index).2.call.record?, record.Fits := by
  have hkey : (asBytes (keyText (nextState state % keySpace).toNat)).length ≤ 24 := by
    refine length_keyText_le ?_
    rw [UInt64.toNat_mod]
    exact Nat.mod_lt _ (by decide)
  intro record hrecord
  unfold workloadEntry at hrecord
  dsimp only at hrecord
  split at hrecord
  · cases hrecord
    show 1 + 4 + 4 + (asBytes _).length + 0 < 2 ^ 32
    omega
  · have hvalue : (asBytes (valueText index
        (nextState (nextState state) % 1000).toNat)).length ≤ 116 := by
      refine length_valueText_le hindex ?_
      rw [UInt64.toNat_mod]
      exact Nat.mod_lt _ (by decide)
    cases hrecord
    show 1 + 4 + 4 + (asBytes _).length + (asBytes _).length < 2 ^ 32
    omega

section Workload

variable [BloomSizing]

/-- A call of which the workload only asks whether it failed. -/
def tryCall (fuel : Nat) (call : Call) : OpM (Except PebbleError (Option Bool)) :=
  caught Exit.error? (call.run fuel)

/-- A call that is made only if `p` holds. -/
def tryWhen (fuel : Nat) (p : Bool) (call : Call) : OpM (Except PebbleError (Option Bool)) :=
  if p then tryCall fuel call else return .ok none

/-- The calls between two operations. -/
def tryBetween (fuel index : Nat) : OpM (Except PebbleError (Option Bool)) := do
  let flushed ← tryWhen fuel (index % 16 == 15) .flush
  match flushed with
  | .error e => return .error e
  | .ok _ => tryWhen fuel (index % 32 == 31) .compact

/-- The loop of `run_workload`, with `left` operations to go. -/
def workloadLoop (fuel operations : Nat) :
    Nat → UInt64 → Nat → InProcessRun → OpM InProcessRun
  | 0, _, _, run => return run
  | left + 1, state, index, run => do
    let entry := workloadEntry state index
    let result ← tryCall fuel entry.2.call
    match result with
    | .error _ => return { run with inFlight := some entry.2, faulted := true }
    | .ok _ => do
      let run := { run with acknowledged := run.acknowledged ++ [entry.2] }
      let between ← tryBetween fuel index
      match between with
      | .error _ => return { run with faulted := true }
      | .ok _ =>
        workloadLoop fuel operations left entry.1 (index + 1)
          { run with completed := index + 1 == operations }

/-- `run_workload`. Whatever `open_with_options` returns but a handle is a panic, and the handle is
dropped at the end. -/
def runWorkload (fuel : Nat) (seed : UInt64) (operations : Nat) (fault : Option Fault)
    (flushThreshold l0Threshold : Nat) : DiskM InProcessRun := fun disk =>
  match caught Exit.error? (openWithOptions (scenarioOptions flushThreshold l0Threshold fault))
      disk with
  | .ok (.ok db) disk =>
    match workloadLoop fuel operations operations seed 0 ⟨[], none, false, false⟩ ⟨db, disk⟩ with
    | .ok run w => .ok run w.disk
    | .error e w => .error e w.disk
  | .ok (.error _) disk => .error .panic disk
  | .error e disk => .error e disk

/-- What a tried call leaves: its effect, or a directory that holds what was there with its effect
or without it. -/
def Tried (m : Contents) (call : Call) (result : Except PebbleError (Option Bool)) (w : World) :
    Prop :=
  match result with
  | .ok _ => Live (call.apply m) w
  | .error _ => Durable w.disk.dir m ∨ Durable w.disk.dir (call.apply m)

variable {m : Contents} {w : World}

omit [BloomSizing] in
/-- `Wp.assume_fits`, where only the return counts. -/
theorem wp_return {α : Type} {x : OpM α} {ok : α → World → Prop} (halong : Along World.Frame x)
    (h : w.disk.Fits → Wp x (fun a w' => w'.disk.Fits → ok a w') (fun _ _ => True) w) :
    Wp x (fun a w' => w'.disk.Fits → ok a w') (fun _ _ => True) w :=
  (Wp.of_fits halong h).mono (fun _ _ hw' hfits => hw' hfits hfits) fun _ _ _ => trivial

theorem along_tryCall (fuel : Nat) (call : Call) : Along World.Frame (tryCall fuel call) :=
  .caught (along_call fuel call)

theorem wp_tryCall (fuel : Nat) (call : Call) (hrecords : ∀ record ∈ call.record?, record.Fits)
    (h : Live m w) :
    Wp (tryCall fuel call) (fun result w' => w'.disk.Fits → Tried m call result w')
      (fun _ w' => w'.disk.Fits →
        Durable w'.disk.dir m ∨ Durable w'.disk.dir (call.apply m)) w := by
  refine Wp.caught ((live_rules.wp_call fuel call hrecords h).mono ?_ ?_)
  · intro existed w' hlive hfits
    exact (hlive hfits).2
  · intro e w' hdurable
    exact ⟨fun _ _ => hdurable, fun _ => hdurable⟩

theorem along_tryWhen (fuel : Nat) (p : Bool) (call : Call) :
    Along World.Frame (tryWhen fuel p call) :=
  .ite (along_tryCall fuel call) (.pure World.Frame.refl _)

/-- A call without an effect on the map. -/
theorem wp_tryWhen (fuel : Nat) (p : Bool) {call : Call} (hrecord : call.record? = none)
    (happly : call.apply m = m) (h : Live m w) :
    Wp (tryWhen fuel p call) (fun result w' => w'.disk.Fits → Tried m call result w')
      (fun _ w' => w'.disk.Fits → Durable w'.disk.dir m) w := by
  refine Wp.ite (fun _ => ?_) fun _ => Wp.pure fun _ => ?_
  · have hrecords : ∀ record ∈ call.record?, record.Fits := by
      rw [hrecord]
      exact fun record hmem => absurd hmem (Option.not_mem_none _)
    refine (wp_tryCall fuel call hrecords h).mono (fun _ _ htried => htried) ?_
    intro e w' hdurable hfits
    rcases hdurable hfits with hdurable | hdurable
    · exact hdurable
    · rwa [happly] at hdurable
  · show Live (call.apply m) w
    rwa [happly]

theorem along_tryBetween (fuel index : Nat) : Along World.Frame (tryBetween fuel index) :=
  World.Frame.regular.bind (along_tryWhen _ _ _) fun flushed => by
    cases flushed with
    | error _ => exact .pure World.Frame.refl _
    | ok _ => exact along_tryWhen _ _ _

theorem wp_tryBetween (fuel index : Nat) (h : Live m w) :
    Wp (tryBetween fuel index) (fun result w' => w'.disk.Fits → Tried m .flush result w')
      (fun _ w' => w'.disk.Fits → Durable w'.disk.dir m) w := by
  refine Wp.bind ((wp_tryWhen fuel _ rfl rfl h).mono ?_ fun _ _ hdurable => hdurable)
  intro flushed w₁ htried
  cases flushed with
  | error _ => exact Wp.pure htried
  | ok _ =>
    refine Wp.assume_fits (along_tryWhen _ _ _) fun hfits₁ => ?_
    have hlive : Live m w₁ := htried hfits₁
    exact wp_tryWhen fuel _ rfl rfl hlive

theorem along_workloadLoop (fuel operations left : Nat) (state : UInt64) (index : Nat)
    (run : InProcessRun) :
    Along World.Frame (workloadLoop fuel operations left state index run) := by
  induction left generalizing state index run with
  | zero => exact .pure World.Frame.refl _
  | succ left ih =>
    rw [workloadLoop]
    generalize workloadEntry state index = entry
    refine World.Frame.regular.bind (along_tryCall _ _) fun result => ?_
    cases result with
    | error _ => exact .pure World.Frame.refl _
    | ok _ =>
      refine World.Frame.regular.bind (along_tryBetween _ _) fun between => ?_
      cases between with
      | error _ => exact .pure World.Frame.refl _
      | ok _ => exact ih _ _ _

/-- A first part of the entries is acknowledged, and the next one may be in flight. -/
def Progress (entries acknowledged : List Op) (inFlight : Option Op) : Prop :=
  ∃ rest, entries = acknowledged ++ rest ∧ (inFlight = none ∨ inFlight = rest.head?)

/-- What a run leaves in the directory, and what it reports. -/
structure Ran (entries : List Op) (run : InProcessRun) (w : World) : Prop where
  durable : ∃ m, Explains run.acknowledged run.inFlight m ∧ Durable w.disk.dir m
  progress : Progress entries run.acknowledged run.inFlight
  finished : run.faulted = false → run.acknowledged = entries

omit [BloomSizing] in
theorem Ran.of_durable {entries rest : List Op} {run : InProcessRun}
    (hentries : entries = run.acknowledged ++ rest) (hfaulted : run.faulted = true)
    (hdurable : Durable w.disk.dir (contents run.acknowledged)) (hinFlight : run.inFlight = none) :
    Ran entries run w where
  durable := ⟨_, Or.inl rfl, hdurable⟩
  progress := ⟨rest, hentries, Or.inl hinFlight⟩
  finished h := by
    rw [hfaulted] at h
    cases h

theorem wp_workloadLoop (fuel operations left : Nat) {entries : List Op} {state : UInt64}
    {index : Nat} {run : InProcessRun} (hindex : index + left ≤ 2 ^ 64)
    (hentries : entries = run.acknowledged ++ workloadFrom left state index)
    (hinFlight : run.inFlight = none) (hlive : Live (contents run.acknowledged) w) :
    Wp (workloadLoop fuel operations left state index run)
      (fun run' w' => w'.disk.Fits → Ran entries run' w') (fun _ _ => True) w := by
  induction left generalizing state index run w with
  | zero =>
    have hall : run.acknowledged = entries := by simpa [workloadFrom] using hentries.symm
    exact Wp.pure fun _ => ⟨⟨_, Or.inl rfl, hlive.durable⟩,
      ⟨[], by rw [hall, List.append_nil], Or.inl hinFlight⟩, fun _ => hall⟩
  | succ left ih =>
    have hrecords := fits_workloadEntry state (show index < 2 ^ 64 by omega)
    rw [workloadFrom] at hentries
    rw [workloadLoop]
    generalize workloadEntry state index = entry at hentries hrecords ⊢
    obtain ⟨next, operation⟩ := entry
    refine Wp.bind ((wp_tryCall fuel operation.call hrecords hlive).mono ?_ fun _ _ _ => trivial)
    intro result w₁ htried
    cases result with
    | error e =>
      refine Wp.pure fun hfits => ?_
      refine ⟨?_, ⟨_, hentries, Or.inr rfl⟩, fun h => by cases h⟩
      rcases htried hfits with hbefore | hafter
      · exact ⟨_, Or.inl rfl, hbefore⟩
      · exact ⟨_, Or.inr ⟨operation, rfl, rfl⟩, hafter⟩
    | ok _ =>
      have hentries' : entries = (run.acknowledged ++ [operation]) ++
          workloadFrom left next (index + 1) := by
        rw [hentries, List.append_assoc, List.singleton_append]
      have hlive₁ : w₁.disk.Fits → Live (contents (run.acknowledged ++ [operation])) w₁ := by
        rw [contents_concat]
        exact htried
      refine Wp.bind ((wp_return (along_tryBetween fuel index) fun hfits =>
        (wp_tryBetween fuel index (hlive₁ hfits)).mono (fun _ _ h => h) fun _ _ _ => trivial).mono
          ?_ fun _ _ _ => trivial)
      intro between w₂ hbetween
      cases between with
      | error _ =>
        refine Wp.pure fun hfits => Ran.of_durable hentries' rfl ?_ hinFlight
        rcases hbetween hfits with hdurable | hdurable
        · exact hdurable
        · exact hdurable
      | ok _ =>
        exact wp_return (along_workloadLoop _ _ _ _ _ _) fun hfits =>
          ih (by omega) hentries' hinFlight (hbetween hfits)

/-- Whatever fault is injected into a workload on an empty directory, the checker accepts what the
workload leaves behind at every reopening, for the operations that it reports: a first part of its
entries is acknowledged, and the next one may be in flight. -/
theorem verifyRecovery_runWorkload {fuel : Nat} {seed : UInt64} {operations : Nat}
    {fault : Option Fault} {flushThreshold l0Threshold : Nat} {disk disk' : Disk}
    {run : InProcessRun} (hoperations : operations < 2 ^ 64) (hempty : disk.dir = ∅)
    (hfails : ∀ name, disk.unlinkFails name = false) (hstop : disk.stop = none)
    (hrun : runWorkload fuel seed operations fault flushThreshold l0Threshold disk = .ok run disk')
    (hfits : disk'.Fits) (listings : Nat → Listing) :
    Progress (workloadFrom operations seed 0) run.acknowledged run.inFlight ∧
      (run.faulted = false → run.acknowledged = workloadFrom operations seed 0) ∧
      ∃ disk'', verifyRecovery listings run.acknowledged run.inFlight disk' = .ok (.ok ()) disk'' := by
  have hdurable : Durable disk.dir (contents []) := durable_empty hempty
  rw [runWorkload] at hrun
  split at hrun
  · rename_i db disk₁ hcaught
    have hopen := eq_ok_of_caught hcaught
    have hlive : Live (contents []) ⟨db, disk₁⟩ :=
      (Durable.wp_openWithOptions hdurable hfails _).ok_of_eq hopen
    have hstop₁ : disk₁.stop = none := ((along_openWithOptions _ _).ok_of_eq hopen).stop hstop
    split at hrun
    · rename_i run' w' hloop
      cases hrun
      have hran := (wp_workloadLoop fuel operations operations (by omega) rfl rfl
        hlive).ok_of_eq hloop hfits
      have hframe := (along_workloadLoop _ _ _ _ _ _ _).ok_of_eq hloop
      have hrecovers : Recovers run.acknowledged run.inFlight w'.disk := by
        refine ⟨hran.durable, fun name => ?_⟩
        rw [hframe.disk.unlinkFails]
        exact hlive.fails name
      exact ⟨hran.progress, hran.finished,
        hrecovers.verifyRecovery_eq (hframe.disk.stop hstop₁) listings⟩
    · cases hrun
  · cases hrun
  · cases hrun

end Workload

/-- The workload of the tests with every write flushed, which fails in the first merge. -/
theorem verifyRecovery_runWorkload_merge : ∃ run disk' disk'',
    @runWorkload .ofSmall 3 7 6 (some (.new .beforeObsoleteFileDelete 1)) 1 2 emptyDisk =
        .ok run disk' ∧ run.faulted = true ∧
      verifyRecovery (fun _ => emptyDisk.listing) run.acknowledged run.inFlight disk' =
        .ok (.ok ()) disk'' := by
  have hrun : check (@runWorkload .ofSmall 3 7 6 (some (.new .beforeObsoleteFileDelete 1)) 1 2)
      emptyDisk (fun run disk' => decide (disk'.Fits ∧ run.faulted = true)) = true := by
    decide +kernel
  obtain ⟨run, disk', hrun, htest⟩ := exists_of_check hrun
  obtain ⟨hfits, hfaulted⟩ := of_decide_eq_true htest
  obtain ⟨-, -, disk'', hverify⟩ := @verifyRecovery_runWorkload .ofSmall 3 7 6 _ 1 2 emptyDisk _ _
    (by decide) rfl (fun _ => rfl) rfl hrun hfits fun _ => emptyDisk.listing
  exact ⟨run, disk', disk'', hrun, hfaulted, hverify⟩

end PebbleDB.CrashTest
