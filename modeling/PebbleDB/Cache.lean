import PebbleDB.Lib.Interleaving
import PebbleDB.LiveRun

/-!
# The cache

`src/cache.rs`: a cache with expiration times over the keys of a database that start with a prefix.
A method locks the database anew for each of its calls, so it is a program of requests to the
database and the clock, with other clients between any two of them. The server of the requests is a
map with a clock (`Serves`); an open handle is one (`HandleServes.serves`). The statistics are only
reported and left out.
-/

namespace PebbleDB

open Interleaving

/-- `n as u64` -/
def asU64 (n : Nat) : Nat := n % 2 ^ 64

theorem asU64_of_lt {n : Nat} (h : n < 2 ^ 64) : asU64 n = n := Nat.mod_eq_of_lt h

/-- `std::time::Duration` -/
structure Duration where
  secs : Nat
  nanos : Nat
  secs_lt : secs < 2 ^ 64
  nanos_lt : nanos < 10 ^ 9

namespace Duration

/-- `Duration::is_zero` -/
def isZero (d : Duration) : Bool := d.secs == 0 && d.nanos == 0

/-- `Duration::as_millis` -/
def asMillis (d : Duration) : Nat := d.secs * 1000 + d.nanos / 10 ^ 6

end Duration

/-! ## Requests -/

/-- What a method asks the database and the clock. -/
inductive CacheRequest where
  | nowMs
  | get (key : String)
  | range (start stop : Bound)
  | write (call : Call)

/-- What the database or the clock answers. -/
abbrev CacheRequest.Answer : CacheRequest → Type
  | nowMs => Nat
  | get _ => Option String
  | range _ _ => List (String × String)
  | write _ => Reply

/-- A method of the cache: it asks, and may end early with an error or a panic. -/
abbrev CacheM := ExceptT Exit (Program CacheRequest CacheRequest.Answer)

namespace PebbleCache

/-- One call of the database, under its lock, or one look at the clock. -/
def ask (req : CacheRequest) : CacheM req.Answer := ExceptT.lift (Program.request req)

/-- `?` on a result -/
def ofRes {α : Type} (result : Res α) : CacheM α := ExceptT.mk (pure result)

/-- A write of the database with `?` behind it. -/
def write (call : Call) : CacheM (Option Bool) := do
  match (← ask (.write call) : Reply) with
  | .returned existed => return existed
  | .failed e => throw (.error e)

/-! ## Keys and entries -/

/-- `KEY_PREFIX`, with which every key of the cache starts. -/
def keyPrefix : List Char := "cache:".toList

/-- `NO_EXPIRATION` stands for an entry that never expires. -/
def noExpiration : Nat := 0

/-- `cache_key` -/
def cacheKey (key : String) : String := String.ofList (keyPrefix ++ key.toList)

/-- `format!("{}:{}", expires_at, value)` -/
def encode (expiresAt : Nat) (value : String) : String :=
  String.ofList (Nat.toDigits 10 expiresAt ++ ':' :: value.toList)

/-- `decode` splits an entry at its first colon; the value may hold further ones. -/
def decode (raw : String) : Res (Nat × String) :=
  match splitOnce ':' raw.toList with
  | none => err (.cacheCorruption ("entry has no expiration field: " ++ raw))
  | some (expiresAt, value) =>
    match parseUint (2 ^ 64) expiresAt with
    | none => err (.cacheCorruption ("invalid expiration field: " ++ String.ofList expiresAt))
    | some expiresAt => .ok (expiresAt, String.ofList value)

/-- `is_expired` looks at the clock only when there is an expiration time. -/
def isExpired (expiresAt : Nat) : CacheM Bool := do
  if expiresAt ≠ noExpiration then
    let now : Nat ← ask .nowMs
    return decide (expiresAt ≤ now)
  else
    return false

/-! ## Methods -/

/-- The `+` of the source panics when the sum does not fit. -/
def set (key value : String) (ttl : Duration) : CacheM Unit := do
  let expiresAt ←
    if ttl.isZero then pure noExpiration
    else do
      let now : Nat ← ask .nowMs
      if 2 ^ 64 ≤ now + asU64 ttl.asMillis then throw .panic
      else pure (now + asU64 ttl.asMillis)
  let _ ← write (.set (cacheKey key) (encode expiresAt value))

/-- `get` deletes an entry that it finds expired, in a step of its own. -/
def get (key : String) : CacheM (Option String) := do
  let storedKey := cacheKey key
  match (← ask (.get storedKey) : Option String) with
  | none => return none
  | some raw =>
    let (expiresAt, value) ← ofRes (decode raw)
    if ← isExpired expiresAt then
      let _ ← write (.delete storedKey)
      return none
    else
      return some value

/-- `delete` answers whether there was an entry, expired or not. -/
def delete (key : String) : CacheM Bool := do
  let existed ← write (.delete (cacheKey key))
  return existed.getD false

/-- `exists` is a `get` whose value is dropped. -/
def «exists» (key : String) : CacheM Bool := do
  let value ← get key
  return value.isSome

/-- The loop of `clear` that deletes. -/
def deleteAll : List String → CacheM Unit
  | [] => pure ()
  | key :: keys => do
    let _ ← write (.delete key)
    deleteAll keys

/-- The loop of `clear` that collects stops at the first key without the prefix. -/
def clear : CacheM Unit := do
  let records : List (String × String) ←
    ask (.range (.included (String.ofList keyPrefix)) .unbounded)
  deleteAll ((records.map Prod.fst).takeWhile fun key => keyPrefix.isPrefixOf key.toList)

/-! ## What is stored is read back -/

theorem cacheKey_injective : Function.Injective cacheKey := by
  intro key key' h
  have hchars := List.append_cancel_left (String.ofList_injective h)
  exact String.toList_injective hchars

theorem decode_encode {expiresAt : Nat} (h : expiresAt < 2 ^ 64) (value : String) :
    decode (encode expiresAt value) = .ok (expiresAt, value) := by
  have hdigits : ':' ∉ Nat.toDigits 10 expiresAt := fun hmem =>
    absurd (Nat.isDigit_of_mem_toDigits (by decide) (by decide) hmem) (by decide)
  rw [decode, encode, String.toList_ofList, splitOnce_append _ hdigits]
  simp only [parseUint_toDigits h, String.ofList_toList]

/-! ## The programs step by step -/

section Steps

variable {α β : Type}

theorem run_ask_bind (req : CacheRequest) (f : req.Answer → CacheM α) :
    (ask req >>= f).run = .ask req fun answer => (f answer).run := rfl

theorem run_ofRes_bind (result : Res α) (f : α → CacheM β) :
    (ofRes result >>= f).run = match result with
      | .ok a => (f a).run
      | .error e => .done (.error e) := by
  cases result <;> rfl

/-- What a method that ends with a write makes of the reply. -/
def afterWrite (a : α) : Reply → Res α
  | .returned _ => .ok a
  | .failed e => err e

theorem run_write_bind (call : Call) (f : Option Bool → CacheM β) :
    (write call >>= f).run = .ask (.write call) fun (reply : Reply) =>
      match reply with
      | .returned existed => (f existed).run
      | .failed e => .done (err e) := by
  show Program.ask _ _ = Program.ask _ _
  congr 1
  funext reply
  cases reply <;> rfl

theorem run_write_pure (call : Call) (a : α) :
    (write call >>= fun _ => (pure a : CacheM α)).run =
      .ask (.write call) fun reply => .done (afterWrite a reply) := by
  rw [run_write_bind]
  congr 1
  funext reply
  cases reply <;> rfl

end Steps

theorem set_eq_of_isZero (key value : String) {ttl : Duration} (h : ttl.isZero = true) :
    (set key value ttl).run = .ask (.write (.set (cacheKey key) (encode 0 value))) fun reply =>
      .done (afterWrite () reply) := by
  rw [set, if_pos h]
  exact run_write_pure _ ()

theorem set_eq (key value : String) {ttl : Duration} (h : ttl.isZero = false) :
    (set key value ttl).run = .ask .nowMs fun (now : Nat) =>
      if 2 ^ 64 ≤ now + asU64 ttl.asMillis then .done (.error .panic)
      else .ask (.write (.set (cacheKey key) (encode (now + asU64 ttl.asMillis) value)))
        fun reply => .done (afterWrite () reply) := by
  rw [set, if_neg (by rw [h]; exact Bool.false_ne_true)]
  refine (run_ask_bind .nowMs _).trans (congrArg _ (funext fun (now : Nat) => ?_))
  by_cases hfits : 2 ^ 64 ≤ now + asU64 ttl.asMillis
  · rw [if_pos hfits, if_pos hfits]
    rfl
  · rw [if_neg hfits, if_neg hfits]
    exact run_write_pure _ ()

/-- What `get` does with an entry it has read. -/
def readEntry (key : String) (expiresAt : Nat) (value : String) :
    Program CacheRequest CacheRequest.Answer (Res (Option String)) :=
  if expiresAt = 0 then .done (.ok (some value))
  else .ask .nowMs fun (now : Nat) =>
    if expiresAt ≤ now then
      .ask (.write (.delete (cacheKey key))) fun reply => .done (afterWrite none reply)
    else .done (.ok (some value))

theorem get_eq (key : String) :
    (get key).run = .ask (.get (cacheKey key)) fun (raw : Option String) =>
      match raw with
      | none => .done (.ok none)
      | some raw =>
        match decode raw with
        | .error e => .done (.error e)
        | .ok (expiresAt, value) => readEntry key expiresAt value := by
  rw [get]
  refine (run_ask_bind (.get (cacheKey key)) _).trans
    (congrArg _ (funext fun (raw : Option String) => ?_))
  cases raw with
  | none => rfl
  | some raw =>
    dsimp only
    refine (run_ofRes_bind (decode raw) _).trans ?_
    cases decode raw with
    | error e => rfl
    | ok entry =>
      obtain ⟨expiresAt, value⟩ := entry
      dsimp only
      rw [readEntry, isExpired]
      by_cases hzero : expiresAt = 0
      · rw [if_pos hzero, if_neg (show ¬ expiresAt ≠ noExpiration from not_not_intro hzero)]
        rfl
      · rw [if_neg hzero, if_pos (show expiresAt ≠ noExpiration from hzero)]
        refine (run_ask_bind .nowMs _).trans (congrArg _ (funext fun (now : Nat) => ?_))
        by_cases hnow : expiresAt ≤ now
        · rw [if_pos hnow]
          refine (congrArg ExceptT.run (if_pos (decide_eq_true hnow))).trans ?_
          exact run_write_pure _ none
        · rw [if_neg hnow]
          exact congrArg ExceptT.run (if_neg (by simpa using hnow))

end PebbleCache

/-! ## The server -/

/-- A map, and a clock in milliseconds. -/
structure CacheState where
  db : Contents
  clock : Nat

/-- What the server answers and how it goes on; `step` says what a write may do. -/
inductive Serves (step : Contents → Call → Reply → Contents → Prop) (s : CacheState) :
    (req : CacheRequest) → req.Answer → CacheState → Prop where
  | nowMs : Serves step s .nowMs s.clock s
  | get (key : String) : Serves step s (.get key) (s.db key) s
  | range {start stop : Bound} {records : List (String × String)}
      (hsorted : records.Pairwise fun a b => a.1 < b.1)
      (hmem : ∀ k v, (k, v) ∈ records ↔ (start.Starts k ∧ stop.Ends k) ∧ s.db k = some v) :
      Serves step s (.range start stop) records s
  | write {call : Call} {reply : Reply} {db : Contents} (h : step s.db call reply db) :
      Serves step s (.write call) reply { s with db }

/-- A write that does not fail. -/
inductive Returned (m : Contents) (call : Call) : Reply → Contents → Prop where
  | returned : Returned m call (.returned (call.reply m)) (call.apply m)

theorem Returned.eq {m m' : Contents} {call : Call} {reply : Reply}
    (h : Returned m call reply m') : reply = .returned (call.reply m) ∧ m' = call.apply m := by
  cases h
  exact ⟨rfl, rfl⟩

section Server

variable {step : Contents → Call → Reply → Contents → Prop} {s s' : CacheState}

theorem Serves.of_nowMs {now : Nat} (h : Serves step s .nowMs now s') : now = s.clock ∧ s' = s := by
  cases h
  exact ⟨rfl, rfl⟩

theorem Serves.of_get {key : String} {value : Option String}
    (h : Serves step s (.get key) value s') : value = s.db key ∧ s' = s := by
  cases h
  exact ⟨rfl, rfl⟩

theorem Serves.of_write {call : Call} {reply : Reply} (h : Serves step s (.write call) reply s') :
    step s.db call reply s'.db ∧ s'.clock = s.clock := by
  cases h with
  | write h => exact ⟨h, rfl⟩

end Server

/-- An open handle, and a clock. -/
structure CacheWorld where
  world : World
  clock : Nat

/-- The requests on an open handle. A call that panics, or in which the process stops, is the last
one on it. -/
inductive HandleServes [BloomSizing] (s : CacheWorld) :
    (req : CacheRequest) → req.Answer → CacheWorld → Prop where
  | nowMs : HandleServes s .nowMs s.clock s
  | get {key : String} {value : Option String} (h : s.world.inner.get key = .ok value) :
      HandleServes s (.get key) value s
  | range {start stop : Bound} {records : List (String × String)}
      (h : s.world.inner.range start stop = .ok records) :
      HandleServes s (.range start stop) records s
  | write {call : Call} {reply : Reply} {world : World} (h : Step.From s.world ⟨call, reply, world⟩)
      (hfits : world.disk.Fits) : HandleServes s (.write call) reply { s with world }

/-- The handle holds this map at this time. -/
def Tracks (s : CacheWorld) (t : CacheState) : Prop := Holding t.db s.world ∧ s.clock = t.clock

/-- An open handle serves like the map it holds. -/
theorem HandleServes.serves [BloomSizing] {s s' : CacheWorld} {t : CacheState} {req : CacheRequest}
    {answer : req.Answer} (htracks : Tracks s t) (h : HandleServes s req answer s') :
    ∃ t', Serves Allowed t req answer t' ∧ Tracks s' t' := by
  obtain ⟨hholding, hclock⟩ := htracks
  cases h with
  | nowMs => exact ⟨t, hclock ▸ .nowMs, hholding, hclock⟩
  | @get key value h =>
    rw [hholding.2 key, Except.ok.injEq] at h
    exact ⟨t, h ▸ .get key, hholding, hclock⟩
  | @range start stop records h =>
    refine ⟨t, ?_, hholding, hclock⟩
    obtain ⟨records', hrange, hsorted, hmem⟩ :=
      DbInner.exists_range hholding.1.sound.tablesHold start stop
    rw [h, Except.ok.injEq] at hrange
    subst hrange
    refine .range hsorted fun k v => ?_
    rw [hmem, hholding.2 k, Except.ok.injEq]
  | write h hfits =>
    obtain ⟨m, hallowed, hholding'⟩ := hholding.step h hfits
    exact ⟨{ t with db := m }, .write hallowed, hholding', hclock⟩

end PebbleDB
