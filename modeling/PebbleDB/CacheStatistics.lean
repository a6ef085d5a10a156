import PebbleDB.CacheMoments
import PebbleDB.Lib.Tally

/-!
# The statistics of the cache

The methods of `src/cache.rs` with what they record: each adds to the counters behind a lock right
before it returns `Ok`. The counters aside the methods do what they do without them, and at any time
the counters are exactly those of the calls that have returned `Ok` by then, in whatever order the
calls take their steps (`cacheStats_exact`). A counter is a natural number here; in the source it is a
`u64`.
-/

namespace PebbleDB

open Interleaving

/-- The six counters, as numbers: a `u64` of the source is this number while it is below `2 ^ 64`. -/
structure CacheStats where
  hits : Nat := 0
  misses : Nat := 0
  sets : Nat := 0
  deletes : Nat := 0
  expired : Nat := 0
  clears : Nat := 0
  deriving DecidableEq, Repr

namespace CacheStats

/-- The counters, each with what is added to it. -/
def add (stats update : CacheStats) : CacheStats where
  hits := stats.hits + update.hits
  misses := stats.misses + update.misses
  sets := stats.sets + update.sets
  deletes := stats.deletes + update.deletes
  expired := stats.expired + update.expired
  clears := stats.clears + update.clears

instance : Add CacheStats := ⟨add⟩

instance : Zero CacheStats := ⟨{}⟩

instance : AddCommMonoid CacheStats where
  nsmul := nsmulRec
  add_assoc a b c := by
    show add (add a b) c = add a (add b c)
    simp [add, Nat.add_assoc]
  zero_add a := by
    show add {} a = a
    simp [add]
  add_zero a := by
    show add a {} = a
    simp [add]
  add_comm a b := by
    show add a b = add b a
    simp [add, Nat.add_comm]

end CacheStats

/-- A method that asks as `CacheM` does, and counts. -/
abbrev RecordM := ExceptT Exit (NotingProgram CacheStats CacheRequest.Answer)

namespace PebbleCache.Recorded

/-- A part of a method that records nothing. -/
def plain {α : Type} (p : CacheM α) : RecordM α := ExceptT.mk p.run.unnoted

/-- `record`: the counters grow, in one step under their lock. -/
def record (update : CacheStats) : RecordM Unit := ExceptT.lift (Program.note update)

/-- `set` counts only what it has stored. -/
def set (key value : String) (ttl : Duration) : RecordM Unit := do
  plain (PebbleCache.set key value ttl)
  record { sets := 1 }

/-- `get`, with a hit or a miss, and an expired entry that it has deleted as both expired and a miss. -/
def get (key : String) : RecordM (Option String) := do
  let storedKey := cacheKey key
  match (← plain (ask (.get storedKey)) : Option String) with
  | none =>
    record { misses := 1 }
    return none
  | some raw =>
    let (expiresAt, value) ← plain (ofRes (decode raw))
    if ← plain (isExpired expiresAt) then
      let _ ← plain (write (.delete storedKey))
      record { misses := 1, expired := 1 }
      return none
    else
      record { hits := 1 }
      return some value

/-- `delete` counts whether or not there was an entry. -/
def delete (key : String) : RecordM Bool := do
  let existed ← plain (PebbleCache.delete key)
  record { deletes := 1 }
  return existed

/-- `exists` counts as `get` does. -/
def «exists» (key : String) : RecordM Bool := do
  let value ← get key
  return value.isSome

/-- `clear` counts the entries it has deleted, and itself. -/
def clear : RecordM Unit := do
  let records : List (String × String) ←
    plain (ask (.range (.included (String.ofList keyPrefix)) .unbounded))
  let keys := (records.map Prod.fst).takeWhile fun key => keyPrefix.isPrefixOf key.toList
  plain (deleteAll keys)
  record { deletes := keys.length, clears := 1 }

end PebbleCache.Recorded

/-- The counting method that a call runs, with what it replies. -/
def CacheCall.recordedProg : CacheCall →
    NotingProgram CacheStats CacheRequest.Answer (Res CacheReply)
  | set key value ttl => (PebbleCache.Recorded.set key value ttl).run.map (Except.map fun _ => .done)
  | get key => (PebbleCache.Recorded.get key).run.map (Except.map .value)
  | delete key => (PebbleCache.Recorded.delete key).run.map (Except.map .found)
  | «exists» key => (PebbleCache.Recorded.exists key).run.map (Except.map .found)
  | clear => PebbleCache.Recorded.clear.run.map (Except.map fun _ => .done)

/-! ## The counters aside -/

section Erasure

open PebbleCache PebbleCache.Recorded

variable {α β : Type}

/-- The method with what it records left out. -/
def RecordM.erase (p : RecordM α) : CacheM α := ExceptT.mk p.run.erase

theorem erase_plain_bind (p : CacheM α) (f : α → RecordM β) :
    (plain p >>= f : RecordM β).erase = p >>= fun a => (f a).erase := by
  show Program.erase (Program.bind p.run.unnoted _) = Program.bind p.run _
  rw [Program.erase_bind, Program.erase_unnoted]
  congr 1
  funext result
  cases result <;> rfl

/-- A method that returns nothing and records behind its last request. -/
theorem erase_plain_record (p : CacheM Unit) (update : CacheStats) :
    (plain p >>= fun _ => record update : RecordM Unit).erase = p := by
  rw [erase_plain_bind]
  refine (congrArg (Program.bind p.run) (funext fun result => ?_)).trans p.run.bind_done
  cases result <;> rfl

theorem erase_get (key : String) : (Recorded.get key).erase = PebbleCache.get key := by
  rw [Recorded.get, PebbleCache.get]
  refine (erase_plain_bind _ _).trans (congrArg (bind _) (funext fun (raw : Option String) => ?_))
  cases raw with
  | none => rfl
  | some raw =>
    refine (erase_plain_bind _ _).trans (congrArg (bind _) (funext fun entry => ?_))
    obtain ⟨expiresAt, value⟩ := entry
    refine (erase_plain_bind _ _).trans (congrArg (bind _) (funext fun expired => ?_))
    cases expired with
    | true => exact erase_plain_bind _ _
    | false => rfl

theorem erase_delete (key : String) : (Recorded.delete key).erase = PebbleCache.delete key := by
  rw [Recorded.delete, erase_plain_bind]
  refine (congrArg (Program.bind _) (funext fun result => ?_)).trans (Program.bind_done _)
  cases result <;> rfl

theorem erase_exists (key : String) : (Recorded.exists key).erase = PebbleCache.exists key := by
  show Program.erase (Program.bind (Recorded.get key).run _) = Program.bind _ _
  rw [Program.erase_bind, show (Recorded.get key).run.erase = _ from erase_get key]
  congr 1
  funext result
  cases result <;> rfl

theorem erase_clear : Recorded.clear.erase = PebbleCache.clear := by
  rw [Recorded.clear, PebbleCache.clear]
  refine (erase_plain_bind _ _).trans (congrArg (bind _) (funext fun records => ?_))
  exact erase_plain_record _ _

/-- Recording changes nothing else about a call. -/
theorem CacheCall.erase_recordedProg (call : CacheCall) : call.recordedProg.erase = call.prog := by
  cases call with
  | set key value ttl => exact (Program.erase_map _ _).trans (congrArg _ (erase_plain_record _ _))
  | get key => exact (Program.erase_map _ _).trans (congrArg _ (erase_get key))
  | delete key => exact (Program.erase_map _ _).trans (congrArg _ (erase_delete key))
  | «exists» key => exact (Program.erase_map _ _).trans (congrArg _ (erase_exists key))
  | clear => exact (Program.erase_map _ _).trans (congrArg _ erase_clear)

end Erasure

/-! ## What a call records -/

section Counting

open PebbleCache PebbleCache.Recorded

variable {α β : Type}

/-- The keys that a call has removed. -/
def removals : List (Exchange CacheRequest CacheRequest.Answer) → Nat
  | [] => 0
  | ⟨.write (.delete _), _⟩ :: history => removals history + 1
  | _ :: history => removals history

/-- What a `get` counts for that has got these answers and returns this. -/
def readCounts (history : List (Exchange CacheRequest CacheRequest.Answer)) :
    Res (Option String) → CacheStats
  | .ok (some _) => { hits := 1 }
  | .ok none => { misses := 1, expired := removals history }
  | .error _ => 0

/-- A method that counts the same whenever it returns `Ok`. -/
def okCounts (update : CacheStats) (_ : List (Exchange CacheRequest CacheRequest.Answer)) :
    Res α → CacheStats
  | .ok _ => update
  | .error _ => 0

/-- What `clear` counts, from the deletions it has made; nothing if one of them failed. -/
def clearCounts (history : List (Exchange CacheRequest CacheRequest.Answer)) :
    Res Unit → CacheStats
  | .ok _ => { deletes := removals history, clears := 1 }
  | .error _ => 0

/-- What a call counts for that has got these answers and returns this. -/
def CacheCall.counts (history : List (Exchange CacheRequest CacheRequest.Answer)) :
    CacheCall → Res CacheReply → CacheStats
  | set .., .ok .done => { sets := 1 }
  | get _, .ok (.value (some _)) => { hits := 1 }
  | get _, .ok (.value none) => { misses := 1, expired := removals history }
  | delete _, .ok (.found _) => { deletes := 1 }
  | «exists» _, .ok (.found true) => { hits := 1 }
  | «exists» _, .ok (.found false) => { misses := 1, expired := removals history }
  | clear, .ok .done => { deletes := removals history, clears := 1 }
  | _, _ => 0

/-- The method records this when it returns. -/
def Accounts (counts : List (Exchange CacheRequest CacheRequest.Answer) → Res α → CacheStats)
    (p : RecordM α) : Prop :=
  Closing (fun history result update => update = counts history result) p.run

variable {counts : List (Exchange CacheRequest CacheRequest.Answer) → Res α → CacheStats}

theorem Accounts.plain_bind {p : CacheM β} {f : β → RecordM α}
    (herror : ∀ history e, counts history (.error e) = 0)
    (hf : ∀ history b, p.run.Resumes history (.done (.ok b)) →
      Accounts (fun later => counts (history ++ later)) (f b)) :
    Accounts counts (plain p >>= f) := by
  refine Closing.unnoted_bind fun history result h => ?_
  cases result with
  | ok b => exact hf history b h
  | error e => exact (herror _ e).symm

theorem Accounts.record_pure {update : CacheStats} {a : α} (h : update = counts [] (.ok a)) :
    Accounts counts (record update >>= fun _ => pure a) := ⟨.ok a, rfl, h⟩

theorem removals_append (history later : List (Exchange CacheRequest CacheRequest.Answer)) :
    removals (history ++ later) = removals history + removals later := by
  induction history with
  | nil => simp [removals]
  | cons x history ih =>
    obtain ⟨req, answer⟩ := x
    rw [List.cons_append]
    cases req with
    | nowMs => exact ih
    | get key => exact ih
    | range start stop => exact ih
    | write call =>
      cases call with
      | delete key =>
        simp only [removals, ih]
        omega
      | _ => exact ih

section Pieces

variable {history : List (Exchange CacheRequest CacheRequest.Answer)}

theorem ask_history {req : CacheRequest} {answer : req.Answer}
    (h : (ask req).run.Resumes history (.done (.ok answer))) : history = [⟨req, answer⟩] := by
  rcases Program.Resumes.of_ask h with ⟨-, hrest⟩ | ⟨answer', later, rfl, hlater⟩
  · cases hrest
  · obtain ⟨rfl, hresult⟩ := hlater.of_done
    rw [Except.ok.inj (Program.done.inj hresult)]

theorem ofRes_history {result : Res α} {a : α}
    (h : (ofRes result).run.Resumes history (.done (.ok a))) : history = [] := by
  exact (Program.Resumes.of_done (a := result) h).1

theorem isExpired_removals {expiresAt : Nat} {expired : Bool}
    (h : (isExpired expiresAt).run.Resumes history (.done (.ok expired))) :
    removals history = 0 := by
  rw [isExpired] at h
  by_cases hzero : expiresAt ≠ noExpiration
  · rw [if_pos hzero] at h
    rcases Program.Resumes.of_ask h with ⟨-, hrest⟩ | ⟨now, later, rfl, hlater⟩
    · cases hrest
    · rw [(Program.Resumes.of_done hlater).1]
      rfl
  · rw [if_neg hzero] at h
    rw [(Program.Resumes.of_done h).1]
    rfl

theorem write_history {call : Call} {existed : Option Bool}
    (h : (write call).run.Resumes history (.done (.ok existed))) :
    history = [⟨.write call, .returned existed⟩] := by
  rcases Program.Resumes.of_ask h with ⟨-, hrest⟩ | ⟨reply, later, rfl, hlater⟩
  · cases hrest
  · cases (reply : Reply) with
    | returned existed' =>
      obtain ⟨rfl, hresult⟩ := Program.Resumes.of_done hlater
      rw [Except.ok.inj (Program.done.inj hresult)]
    | failed e => cases (Program.Resumes.of_done hlater).2

end Pieces

theorem accounts_get (key : String) : Accounts readCounts (Recorded.get key) := by
  rw [Recorded.get]
  refine .plain_bind (fun _ _ => rfl) fun history (raw : Option String) h => ?_
  obtain rfl := ask_history h
  cases raw with
  | none => exact .record_pure rfl
  | some raw =>
    refine .plain_bind (fun _ _ => rfl) fun history entry h => ?_
    obtain rfl := ofRes_history h
    obtain ⟨expiresAt, value⟩ := entry
    refine .plain_bind (fun _ _ => rfl) fun history expired h => ?_
    cases expired with
    | true =>
      have hnone := isExpired_removals h
      refine .plain_bind (fun _ _ => rfl) fun history' existed h' => ?_
      obtain rfl := write_history h'
      refine .record_pure ?_
      simp [readCounts, removals, removals_append, hnone]
    | false => exact .record_pure rfl

theorem removals_deleteAll {keys : List String} {u : Unit}
    {history : List (Exchange CacheRequest CacheRequest.Answer)}
    (h : (deleteAll keys).run.Resumes history (.done (.ok u))) :
    removals history = keys.length := by
  induction keys generalizing history with
  | nil =>
    rw [(Program.Resumes.of_done h).1]
    rfl
  | cons key keys ih =>
    rw [deleteAll_cons] at h
    rcases h.of_ask with ⟨-, hrest⟩ | ⟨reply, later, rfl, hlater⟩
    · cases hrest
    · cases (reply : Reply) with
      | returned existed => simp only [removals, ih hlater, List.length_cons]
      | failed e => cases hlater.of_done.2

theorem accounts_set (key value : String) (ttl : Duration) :
    Accounts (okCounts { sets := 1 }) (Recorded.set key value ttl) :=
  .plain_bind (fun _ _ => rfl) fun _ _ _ => ⟨.ok (), rfl, rfl⟩

theorem accounts_delete (key : String) :
    Accounts (okCounts { deletes := 1 }) (Recorded.delete key) :=
  .plain_bind (fun _ _ => rfl) fun _ _ _ => .record_pure rfl

theorem accounts_clear : Accounts clearCounts Recorded.clear := by
  rw [Recorded.clear]
  refine .plain_bind (fun _ _ => rfl) fun history (records : List (String × String)) h => ?_
  obtain rfl := ask_history h
  refine .plain_bind (fun _ _ => rfl) fun history u h => ⟨.ok (), rfl, ?_⟩
  simp [clearCounts, removals, removals_deleteAll h]

theorem Recorded.exists_eq (key : String) : (Recorded.exists key).run =
    (Recorded.get key).run.map (Except.map Option.isSome) := by
  show Program.bind _ _ = Program.bind _ _
  congr 1
  funext result
  cases result <;> rfl

/-- What a call records is what it counts for. -/
theorem CacheCall.closing (call : CacheCall) : Closing
    (fun history result update => update = call.counts history result) call.recordedProg := by
  cases call with
  | set key value ttl =>
    refine Closing.map ?_ (accounts_set key value ttl)
    rintro history (e | u) update rfl <;> rfl
  | get key =>
    refine Closing.map ?_ (accounts_get key)
    rintro history (e | value | value) update rfl <;> rfl
  | delete key =>
    refine Closing.map ?_ (accounts_delete key)
    rintro history (e | found) update rfl <;> rfl
  | «exists» key =>
    rw [recordedProg, Recorded.exists_eq]
    have hfound : Closing (fun history (result : Res Bool) update =>
        update = (CacheCall.exists key).counts history (result.map .found))
        ((Recorded.get key).run.map (Except.map Option.isSome)) := by
      refine Closing.map ?_ (accounts_get key)
      rintro history (e | value | value) update rfl <;> rfl
    exact hfound.map fun _ _ _ h => h
  | clear =>
    refine Closing.map ?_ accounts_clear
    rintro history (e | u) update rfl <;> rfl

end Counting

/-! ## The counters of a run -/

/-- Threads of counting calls over a map, a clock and the counters. -/
abbrev RecordedPool (ι : Type) := Pool (Tallied CacheState CacheStats) ι CacheCall
  (Noting CacheRequest CacheStats) (Noting.Answer CacheRequest.Answer) (Res CacheReply)

/-- An interleaving of counting calls. -/
abbrev RecordedRun {ι : Type} [DecidableEq ι] := @Interleaving.Run _ _ _
  (Tallied CacheState CacheStats) ι _ _ CacheCall.recordedProg (Tallies (Serves Allowed))
  (TalliedEnv Ticks) fun _ _ => True

/-- What a thread counts for: nothing until it has returned. -/
def counted (t : Option (Thread CacheCall (Noting CacheRequest CacheStats)
    (Noting.Answer CacheRequest.Answer) (Res CacheReply))) : CacheStats :=
  match t with
  | some ⟨call, history, .done result⟩ => call.counts (unnotedHistory history) result
  | _ => 0

/-- The counters are those of the calls that have returned, and the calls do what they do without
them. -/
theorem cacheStats_exact {ι : Type} [DecidableEq ι] {p q : RecordedPool ι}
    (hnone : ∀ i, p.thread i = none) (hrun : RecordedRun p q) {s : Finset ι}
    (hs : ∀ i t, q.thread i = some t → i ∈ s) :
    Interleaving.Run CacheCall.prog (Serves Allowed) Ticks (fun _ _ => True) p.erase q.erase ∧
      q.shared.tally = p.shared.tally + ∑ i ∈ s, counted (q.thread i) := by
  have hprog : (fun call : CacheCall => call.recordedProg.erase) = CacheCall.prog :=
    funext CacheCall.erase_recordedProg
  have hresumed : q.Resumed CacheCall.recordedProg :=
    hrun.invariant (fun _ _ _ hstep _ hp => hstep.resumed hp)
      fun i t ht => by rw [hnone i] at ht; cases ht
  refine ⟨hprog ▸ hrun.erased, ?_⟩
  rw [hrun.tally_eq hnone hs]
  congr 1
  refine Finset.sum_congr rfl fun i _ => ?_
  cases ht : q.thread i with
  | none => rfl
  | some t =>
    obtain ⟨hdone, hrunning⟩ := (CacheCall.closing t.call).noted_of_resumes (hresumed i t ht)
    obtain ⟨call, history, rest⟩ := t
    cases rest with
    | done result => exact hdone result rfl
    | ask req next => exact hrunning fun _ h => by cases h

/-- No call, one entry that does not expire, and all counters at zero. -/
def countedEntry : RecordedPool Nat := ⟨⟨oneEntry.shared, 0⟩, fun _ => none⟩

/-- The entry is deleted, and the delete is counted. -/
theorem cacheStats_exact_delete : ∃ q : RecordedPool Nat, RecordedRun countedEntry q ∧
    q.shared.tally = { deletes := 1 } := by
  have hdelete : (PebbleCache.Recorded.delete "k").run.Runs (Tallies (Serves Allowed))
      countedEntry.shared (.ok true)
      ⟨⟨(removeCall "k").apply oneEntry.shared.db, 1⟩, 0 + { deletes := 1 }⟩ := by
    have hwrite : Serves Allowed oneEntry.shared (.write (removeCall "k"))
        (.returned (some (oneEntry.shared.db (PebbleCache.cacheKey "k")).isSome)) _ :=
      .write .returned
    have hfound : (oneEntry.shared.db (PebbleCache.cacheKey "k")).isSome = true := by
      decide +kernel
    rw [hfound] at hwrite
    exact .ask (.ask hwrite) (.ask (.note _) (.done _ _))
  have hruns : (CacheCall.delete "k").recordedProg.Runs (Tallies (Serves Allowed))
      countedEntry.shared (.ok (.found true)) _ := hdelete.map (Except.map CacheReply.found)
  have hstart : Interleaving.Step CacheCall.recordedProg (Tallies (Serves Allowed))
      (TalliedEnv Ticks) countedEntry (.start 0 (.delete "k")) _ := .start _ rfl
  obtain ⟨q, t, hrun, ht, hcall, -, hrest, -, hother⟩ :=
    @Interleaving.Run.of_runs _ _ _ _ _ _ _ _ _ (TalliedEnv Ticks) (fun _ _ => True) _ _ _ _ _
      (Pool.put_thread_self countedEntry 0 ⟨.delete "k", [], _⟩ countedEntry.shared) hruns
      fun _ _ _ => trivial
  have hwhole : RecordedRun countedEntry q :=
    ((Interleaving.Run.refl _).step hstart trivial).trans hrun
  have honly : ∀ i t, q.thread i = some t → i ∈ ({0} : Finset Nat) := by
    intro i t ht
    by_contra hi
    rw [Finset.mem_singleton] at hi
    rw [hother i hi, Pool.put_thread_of_ne _ hi] at ht
    cases ht
  refine ⟨q, hwhole, ?_⟩
  rw [(cacheStats_exact (fun _ => rfl) hwhole honly).2, Finset.sum_singleton, ht]
  obtain ⟨call, history, rest⟩ := t
  obtain rfl : call = .delete "k" := hcall
  obtain rfl : rest = .done (.ok (.found true)) := hrest
  rfl

end PebbleDB
