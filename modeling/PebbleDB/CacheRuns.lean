import PebbleDB.CacheExpiry

/-!
# Concurrent clients of the cache

Any number of calls of the cache run at the same time over one database and a clock that does not
go back. `get` reads an entry, finds that it has expired and removes the key, and another client can
set the key in between. Where no removal takes an entry that has not expired, an entry that was set
is there until its time to live is over (`setsKept_orderly`).
-/

namespace PebbleDB

open Interleaving EarlyExit

/-- A call of the cache. -/
inductive CacheCall where
  | set (key value : String) (ttl : Duration)
  | get (key : String)
  | delete (key : String)
  | «exists» (key : String)
  | clear

/-- What a call of the cache returns. -/
inductive CacheReply where
  | done
  | value (value : Option String)
  | found (found : Bool)
  deriving DecidableEq, Repr

/-- The method that a call runs, with what it replies. -/
def CacheCall.prog : CacheCall → Program CacheRequest CacheRequest.Answer (Res CacheReply)
  | set key value ttl => (PebbleCache.set key value ttl).run.map (Except.map fun _ => .done)
  | get key => (PebbleCache.get key).run.map (Except.map .value)
  | delete key => (PebbleCache.delete key).run.map (Except.map .found)
  | «exists» key => (PebbleCache.exists key).run.map (Except.map .found)
  | clear => PebbleCache.clear.run.map (Except.map fun _ => .done)

/-- A shared state, and the threads with the calls they are in. -/
abbrev CachePool (σ ι : Type) :=
  Pool σ ι CacheCall CacheRequest CacheRequest.Answer (Res CacheReply)

/-- A call begins, a request is answered, or the clock goes on. -/
abbrev CacheEvent (ι : Type) := Event ι CacheCall CacheRequest CacheRequest.Answer

/-- Time goes by. -/
def Ticks (s s' : CacheState) : Prop := s'.db = s.db ∧ s.clock ≤ s'.clock ∧ s'.clock < 2 ^ 64

/-- An interleaving of calls over a map of strings with a clock. -/
abbrev CacheRun {ι : Type} [DecidableEq ι]
    (allowed : CachePool CacheState ι → CacheEvent ι → Prop) :=
  Interleaving.Run CacheCall.prog (Serves Allowed) Ticks allowed

/-- Time goes by while nobody uses the handle. -/
def HandleTicks (s s' : CacheWorld) : Prop :=
  s'.world = s.world ∧ s.clock ≤ s'.clock ∧ s'.clock < 2 ^ 64

/-- Clients of one open handle are clients of the map it holds. -/
theorem exists_cacheRun [BloomSizing] {ι : Type} [DecidableEq ι] {p q : CachePool CacheWorld ι}
    {allowed : CachePool CacheWorld ι → CacheEvent ι → Prop}
    {allowed' : CachePool CacheState ι → CacheEvent ι → Prop}
    (h : Interleaving.Run CacheCall.prog HandleServes HandleTicks allowed p q)
    (hallowed : ∀ p e t, Tracks p.shared t → allowed p e → allowed' ⟨t, p.thread⟩ e)
    {t : CacheState} (htracks : Tracks p.shared t) :
    ∃ t', Tracks q.shared t' ∧ CacheRun allowed' ⟨t, p.thread⟩ ⟨t', q.thread⟩ := by
  refine h.simulate (fun s t req answer s' htracks hserves => hserves.serves htracks) ?_ hallowed
    htracks
  rintro s t s' ⟨hholding, hclock⟩ ⟨hworld, hle, hlt⟩
  exact ⟨{ t with clock := s'.clock }, ⟨rfl, hclock ▸ hle, hlt⟩, by rw [hworld]; exact hholding, rfl⟩

/-- Two clients delete a key that is not there. The second of them fails in the merge it starts, on
the map as well. -/
theorem exists_cacheRun_failingMerge : ∃ (q : CachePool CacheWorld Nat) (e : Exit) (t' : CacheState),
    Interleaving.Run CacheCall.prog (@HandleServes .ofSmall) HandleTicks (fun _ _ => True)
      ⟨⟨failingMergeStart, 1⟩, fun _ => none⟩ q ∧
    (∃ t, q.thread 0 = some t ∧ t.rest = .done (.ok (.found false))) ∧
    (∃ t, q.thread 1 = some t ∧ t.rest = .done (.error e)) ∧ Tracks q.shared t' ∧
    CacheRun (fun _ _ => True) ⟨⟨fun _ => none, 1⟩, fun _ => none⟩ ⟨t', q.thread⟩ := by
  let _ : BloomSizing := .ofSmall
  have hrun : check (Call.run 3 (.delete (PebbleCache.cacheKey "k"))) failingMergeStart
      (fun existed w₁ => decide (existed = some false ∧ w₁.disk.Fits) &&
        checkExit (Call.run 3 (.delete (PebbleCache.cacheKey "k"))) w₁
          (fun exit w₂ => exit.isError && decide w₂.disk.Fits)) = true := by
    decide +kernel
  obtain ⟨existed, w₁, hfirst, htest⟩ := exists_of_check hrun
  obtain ⟨htest₁, hrest⟩ := Bool.and_eq_true_iff.mp htest
  obtain ⟨rfl, hfits₁⟩ := of_decide_eq_true htest₁
  obtain ⟨exit, w₂, hsecond, htest₂⟩ := exists_of_checkExit hrest
  obtain ⟨herror, hfits₂⟩ := Bool.and_eq_true_iff.mp htest₂
  cases exit with
  | error e =>
    have hdeleted : (PebbleCache.delete "k").run.Runs HandleServes ⟨failingMergeStart, 1⟩
        (.ok false) ⟨w₁, 1⟩ := by
      rw [PebbleCache.delete, PebbleCache.run_write_bind]
      exact .ask (.write (.returned 3 _ (some false) w₁ hfirst) hfits₁) (.done _ _)
    have hfailed : (PebbleCache.delete "k").run.Runs HandleServes ⟨w₁, 1⟩ (.error (.error e))
        ⟨w₂, 1⟩ := by
      rw [PebbleCache.delete, PebbleCache.run_write_bind]
      exact .ask (.write (.failed 3 _ e w₂ hsecond) (of_decide_eq_true hfits₂)) (.done _ _)
    have hcall₀ : (CacheCall.delete "k").prog.Runs HandleServes ⟨failingMergeStart, 1⟩
        (.ok (.found false)) ⟨w₁, 1⟩ := hdeleted.map _
    have hcall₁ : (CacheCall.delete "k").prog.Runs HandleServes ⟨w₁, 1⟩ (.error (.error e))
        ⟨w₂, 1⟩ := hfailed.map _
    let p : CachePool CacheWorld Nat := ⟨⟨failingMergeStart, 1⟩, fun _ => none⟩
    obtain ⟨q₁, t₀, hrun₁, ht₀, -, hrest₀, hshared₁, hother₁⟩ :=
      @Interleaving.Run.of_call _ _ _ _ _ _ _ _ _ HandleTicks (fun _ _ => True) p 0 rfl _ _ _ hcall₀
        fun _ _ => trivial
    rw [← hshared₁] at hcall₁
    obtain ⟨q, t₁, hrun₂, ht₁, -, hrest₁, -, hother⟩ :=
      @Interleaving.Run.of_call _ _ _ _ _ _ _ _ _ HandleTicks (fun _ _ => True) q₁ 1
        (hother₁ 1 (by decide)) _ _ _ hcall₁ fun _ _ => trivial
    have htracks : Tracks p.shared ⟨fun _ => none, 1⟩ := ⟨⟨ready_empty _ _, fun _ => rfl⟩, rfl⟩
    have hfollows : ∃ t', Tracks q.shared t' ∧
        CacheRun (fun _ _ => True) ⟨⟨fun _ => none, 1⟩, p.thread⟩ ⟨t', q.thread⟩ :=
      exists_cacheRun (hrun₁.trans hrun₂) (fun _ _ _ _ _ => trivial) htracks
    obtain ⟨t', htracks', hcacheRun⟩ := hfollows
    exact ⟨q, .error e, t', hrun₁.trans hrun₂, ⟨t₀, (hother 0 (by decide)).trans ht₀, hrest₀⟩,
      ⟨t₁, ht₁, hrest₁⟩, htracks', hcacheRun⟩
  | _ => cases herror

/-! ## The programs of the calls -/

section Programs

variable {key value : String} {history : List (Exchange CacheRequest CacheRequest.Answer)}

/-- The clock reading of a call. -/
def reading : List (Exchange CacheRequest CacheRequest.Answer) → Nat
  | ⟨.nowMs, now⟩ :: _ => now
  | _ :: history => reading history
  | [] => 0

/-- A `set` at a request: it is reading the clock, or storing the entry with what it has read. -/
theorem set_ask {ttl : Duration} {req : CacheRequest}
    {next : req.Answer → Program CacheRequest CacheRequest.Answer (Res Unit)}
    (h : (PebbleCache.set key value ttl).run.Resumes history (.ask req next)) :
    (Program.ask req next = .ask .nowMs fun (now : Nat) =>
      if 2 ^ 64 ≤ now + asU64 ttl.asMillis then .done (.error .panic)
      else .ask (.write (storeCall key value (now + asU64 ttl.asMillis))) fun reply =>
        .done (PebbleCache.afterWrite () reply)) ∨
    (expiry ttl (reading history) < 2 ^ 64 ∧
      (ttl.isZero = true ∨ ⟨.nowMs, reading history⟩ ∈ history) ∧
      Program.ask req next = .ask (.write (storeCall key value (expiry ttl (reading history))))
        fun reply => .done (PebbleCache.afterWrite () reply)) := by
  cases hzero : ttl.isZero with
  | true =>
    rw [PebbleCache.set_eq_of_isZero key value hzero] at h
    rw [expiry_of_isZero hzero]
    rcases h.of_ask with ⟨rfl, hrest⟩ | ⟨reply, later, rfl, hlater⟩
    · exact Or.inr ⟨by decide, Or.inl rfl, hrest⟩
    · cases hlater.of_done.2
  | false =>
    rw [PebbleCache.set_eq key value hzero] at h
    rw [expiry_of_not_isZero hzero]
    rcases h.of_ask with ⟨rfl, hrest⟩ | ⟨now, later, rfl, hlater⟩
    · exact Or.inl hrest
    · refine Or.inr ?_
      by_cases hfits : 2 ^ 64 ≤ (now : Nat) + asU64 ttl.asMillis
      · rw [if_pos hfits] at hlater
        cases hlater.of_done.2
      · rw [if_neg hfits] at hlater
        rcases hlater.of_ask with ⟨rfl, hrest⟩ | ⟨reply, later', rfl, hlater'⟩
        · exact ⟨not_le.mp hfits, Or.inr List.mem_cons_self, hrest⟩
        · cases hlater'.of_done.2

/-- Where a `get` is that has read an entry. -/
inductive EntryAt (key : String) (expiresAt : Nat) (value : String) :
    List (Exchange CacheRequest CacheRequest.Answer) →
    Program CacheRequest CacheRequest.Answer (Res (Option String)) → Prop where
  | unlimited (h : expiresAt = 0) : EntryAt key expiresAt value [] (.done (.ok (some value)))
  | asking (next : Nat → Program CacheRequest CacheRequest.Answer (Res (Option String))) :
      EntryAt key expiresAt value [] (.ask .nowMs next)
  | fresh (now : Nat) (h : ¬ expiresAt ≤ now) :
      EntryAt key expiresAt value [⟨.nowMs, now⟩] (.done (.ok (some value)))
  | removing (now : Nat) (h : Expired expiresAt now) : EntryAt key expiresAt value [⟨.nowMs, now⟩]
      (.ask (.write (removeCall key)) fun reply => .done (PebbleCache.afterWrite none reply))
  | removed (now : Nat) (h : Expired expiresAt now) (reply : Reply) :
      EntryAt key expiresAt value [⟨.nowMs, now⟩, ⟨.write (removeCall key), reply⟩]
        (.done (PebbleCache.afterWrite none reply))

theorem entryAt {expiresAt : Nat}
    {rest : Program CacheRequest CacheRequest.Answer (Res (Option String))}
    (h : (PebbleCache.readEntry key expiresAt value).Resumes history rest) :
    EntryAt key expiresAt value history rest := by
  rw [PebbleCache.readEntry] at h
  by_cases hzero : expiresAt = 0
  · rw [if_pos hzero] at h
    obtain ⟨rfl, rfl⟩ := h.of_done
    exact .unlimited hzero
  · rw [if_neg hzero] at h
    rcases h.of_ask with ⟨rfl, rfl⟩ | ⟨now, later, rfl, hlater⟩
    · exact .asking _
    · by_cases hnow : expiresAt ≤ (now : Nat)
      · rw [if_pos hnow] at hlater
        rcases hlater.of_ask with ⟨rfl, rfl⟩ | ⟨reply, later', rfl, hlater'⟩
        · exact .removing now ⟨hzero, hnow⟩
        · obtain ⟨rfl, rfl⟩ := hlater'.of_done
          exact .removed now ⟨hzero, hnow⟩ reply
      · rw [if_neg hnow] at hlater
        obtain ⟨rfl, rfl⟩ := hlater.of_done
        exact .fresh now hnow

/-- Where a `get` is. -/
inductive GetAt (key : String) : List (Exchange CacheRequest CacheRequest.Answer) →
    Program CacheRequest CacheRequest.Answer (Res (Option String)) → Prop where
  | reading (next : Option String → Program CacheRequest CacheRequest.Answer (Res (Option String))) :
      GetAt key [] (.ask (.get (PebbleCache.cacheKey key)) next)
  | missed : GetAt key [⟨.get (PebbleCache.cacheKey key), none⟩] (.done (.ok none))
  | corrupt (raw : String) (e : Exit) (hdecode : PebbleCache.decode raw = .error e) :
      GetAt key [⟨.get (PebbleCache.cacheKey key), some raw⟩] (.done (.error e))
  | entry (raw : String) (expiresAt : Nat) (value : String)
      (hdecode : PebbleCache.decode raw = .ok (expiresAt, value))
      {later : List (Exchange CacheRequest CacheRequest.Answer)}
      {rest : Program CacheRequest CacheRequest.Answer (Res (Option String))}
      (hat : EntryAt key expiresAt value later rest) :
      GetAt key (⟨.get (PebbleCache.cacheKey key), some raw⟩ :: later) rest

theorem getAt {rest : Program CacheRequest CacheRequest.Answer (Res (Option String))}
    (h : (PebbleCache.get key).run.Resumes history rest) : GetAt key history rest := by
  rw [PebbleCache.get_eq] at h
  rcases h.of_ask with ⟨rfl, rfl⟩ | ⟨raw, later, rfl, hlater⟩
  · exact .reading _
  · cases raw with
    | none =>
      obtain ⟨rfl, rfl⟩ := hlater.of_done
      exact .missed
    | some raw =>
      dsimp only at hlater
      cases hdecode : PebbleCache.decode raw with
      | error e =>
        rw [hdecode] at hlater
        obtain ⟨rfl, rfl⟩ := hlater.of_done
        exact .corrupt raw e hdecode
      | ok entry =>
        rw [hdecode] at hlater
        exact .entry raw entry.1 entry.2 hdecode (entryAt hlater)

/-- The requests of `get`. -/
theorem get_ask {req : CacheRequest}
    {next : req.Answer → Program CacheRequest CacheRequest.Answer (Res (Option String))}
    (h : (PebbleCache.get key).run.Resumes history (.ask req next)) :
    req = .get (PebbleCache.cacheKey key) ∨ req = .nowMs ∨ req = .write (removeCall key) := by
  generalize hrest : Program.ask req next = rest at h
  cases getAt h with
  | reading => exact Or.inl (Program.ask.inj hrest).1
  | missed => cases hrest
  | corrupt => cases hrest
  | entry raw expiresAt value hdecode hat =>
    cases hat with
    | asking => exact Or.inr (Or.inl (Program.ask.inj hrest).1)
    | removing => exact Or.inr (Or.inr (Program.ask.inj hrest).1)
    | _ => cases hrest

/-- A `get` that only reads this entry gives its value, or finds it expired. -/
theorem get_done {expiresAt : Nat} {result : Res (Option String)} (hfits : expiresAt < 2 ^ 64)
    (hread : ∀ raw, ⟨.get (PebbleCache.cacheKey key), raw⟩ ∈ history →
      raw = some (PebbleCache.encode expiresAt value))
    (h : (PebbleCache.get key).run.Resumes history (.done result)) :
    result = .ok (some value) ∨ ∃ now : Nat, ⟨.nowMs, now⟩ ∈ history ∧ Expired expiresAt now := by
  generalize hrest : Program.done result = rest at h
  cases getAt h with
  | reading => cases hrest
  | missed => cases hread none List.mem_cons_self
  | corrupt raw e hdecode =>
    cases hread (some raw) List.mem_cons_self
    rw [PebbleCache.decode_encode hfits] at hdecode
    cases hdecode
  | entry raw expiresAt' value' hdecode hat =>
    cases hread (some raw) List.mem_cons_self
    rw [PebbleCache.decode_encode hfits] at hdecode
    cases hdecode
    cases hat with
    | unlimited => exact Or.inl (Program.done.inj hrest)
    | asking => cases hrest
    | fresh => exact Or.inl (Program.done.inj hrest)
    | removing => cases hrest
    | removed now hexpired =>
      exact Or.inr ⟨now, List.mem_cons_of_mem _ List.mem_cons_self, hexpired⟩

theorem exists_eq (key : String) : (PebbleCache.exists key).run =
    (PebbleCache.get key).run.map (Except.map Option.isSome) := by
  show Program.bind _ _ = Program.bind _ _
  congr 1
  funext result
  cases result <;> rfl

end Programs

/-- `delete` and `clear` -/
def CacheCall.removes : CacheCall → Bool
  | set .. => false
  | get _ => false
  | delete _ => true
  | «exists» _ => false
  | clear => true

/-- What a call asks for that is not `delete` or `clear`. -/
inductive CacheCall.Asks (call : CacheCall) : CacheRequest → Prop where
  | nowMs : Asks call .nowMs
  | get (key : String) : Asks call (.get key)
  | store (key value : String) (ttl : Duration) (expiresAt : Nat) (h : call = .set key value ttl) :
      Asks call (.write (storeCall key value expiresAt))
  | remove (key : String) : Asks call (.write (removeCall key))

theorem CacheCall.asks {call : CacheCall} (hcall : call.removes = false)
    {history : List (Exchange CacheRequest CacheRequest.Answer)} {req : CacheRequest}
    {next : req.Answer → Program CacheRequest CacheRequest.Answer (Res CacheReply)}
    (h : call.prog.Resumes history (.ask req next)) : call.Asks req := by
  have hget : ∀ {β : Type} {key : String} {g : Res (Option String) → β}
      {next : req.Answer → Program CacheRequest CacheRequest.Answer β},
      ((PebbleCache.get key).run.map g).Resumes history (.ask req next) → call.Asks req := by
    intro β key g next h
    obtain ⟨rest, hrest, heq⟩ := h.of_map
    obtain ⟨next', rfl, -⟩ := Program.map_eq_ask heq.symm
    rcases get_ask hrest with rfl | rfl | rfl
    · exact .get _
    · exact .nowMs
    · exact .remove key
  cases call with
  | set key value ttl =>
    obtain ⟨rest, hrest, heq⟩ := h.of_map
    obtain ⟨next', rfl, -⟩ := Program.map_eq_ask heq.symm
    rcases set_ask hrest with heq | ⟨-, -, heq⟩
    · rw [(Program.ask.inj heq).1]
      exact .nowMs
    · rw [(Program.ask.inj heq).1]
      exact .store key value ttl _ rfl
  | get key => exact hget h
  | «exists» key =>
    rw [prog, exists_eq] at h
    obtain ⟨rest, hrest, heq⟩ := h.of_map
    obtain ⟨next', rfl, -⟩ := Program.map_eq_ask heq.symm
    exact hget hrest
  | delete key => cases hcall
  | clear => cases hcall

/-! ## Invariants of the pool -/

section Pools

variable {ι : Type} [DecidableEq ι]

/-- Only `get`, `exists` and `set` are called. -/
def OnlyUpdates (_ : CachePool CacheState ι) : CacheEvent ι → Prop
  | .start _ call => call.removes = false
  | _ => True

/-- A clock reading lies in the past. -/
def Recorded (s : CacheState) (x : Exchange CacheRequest CacheRequest.Answer) : Prop :=
  ∀ now : Nat, x = ⟨.nowMs, now⟩ → now ≤ s.clock

/-- No `delete` and no `clear` is running, and what the threads have seen of the clock is past. -/
structure Sane (p : CachePool CacheState ι) : Prop where
  resumed : p.Resumed CacheCall.prog
  only : ∀ i t, p.thread i = some t → t.call.removes = false
  recorded : ∀ i t, p.thread i = some t → ∀ x ∈ t.history, Recorded p.shared x

theorem Serves.clock_le {step : Contents → Call → Reply → Contents → Prop} {s s' : CacheState}
    {req : CacheRequest} {answer : req.Answer} (h : Serves step s req answer s') :
    s'.clock = s.clock := by
  cases h <;> rfl

variable {p q : CachePool CacheState ι} {e : CacheEvent ι}

theorem clock_le (h : Interleaving.Step CacheCall.prog (Serves Allowed) Ticks p e q) :
    p.shared.clock ≤ q.shared.clock := by
  cases h with
  | start => exact le_rfl
  | answer _ hserves => exact hserves.clock_le.ge
  | environment hticks => exact hticks.2.1

theorem Sane.step (hp : Sane p) (h : Interleaving.Step CacheCall.prog (Serves Allowed) Ticks p e q)
    (hallowed : OnlyUpdates p e) : Sane q := by
  refine ⟨h.resumed hp.resumed, ?_, ?_⟩
  · refine h.calls (fun call => call.removes = false) (fun i call heq => ?_) hp.only
    rw [heq] at hallowed
    exact hallowed
  · refine h.history ?_ (fun x hx now heq => (hx now heq).trans (clock_le h)) hp.recorded
    intro s req answer s' hserves now heq
    obtain ⟨rfl, hanswer⟩ := Sigma.mk.inj heq
    obtain ⟨rfl, rfl⟩ := hserves.of_nowMs
    exact (eq_of_heq hanswer).ge

/-! ### An entry that is set stays -/

/-- Every entry under this key of the database has expired. -/
def Outdated (s : CacheState) (key : String) : Prop :=
  ∀ raw expiresAt value, s.db key = some raw →
    PebbleCache.decode raw = .ok (expiresAt, value) → Expired expiresAt s.clock

/-- The number of milliseconds of a time to live fits a `u64`, and a key is removed only while it
has no entry or an expired one. -/
def Orderly (p : CachePool CacheState ι) (e : CacheEvent ι) : Prop :=
  OnlyUpdates p e ∧
  (∀ i key value ttl, e = .start i (.set key value ttl) → ttl.asMillis < 2 ^ 64) ∧
  ∀ i key reply, e = .answer i (.write (.delete key)) reply → Outdated p.shared key

/-- No call starts to set the key. -/
def NoSet (key : String) (_ : CachePool CacheState ι) (e : CacheEvent ι) : Prop :=
  ∀ i value ttl, e ≠ .start i (.set key value ttl)

/-- The entry is there, unless it has expired. -/
def Kept (key value : String) (expiresAt : Nat) (s : CacheState) : Prop :=
  s.db (PebbleCache.cacheKey key) = some (PebbleCache.encode expiresAt value) ∨
    Expired expiresAt s.clock

/-- No call but this one is setting the key. -/
def Quiet (key : String) (i : ι) (p : CachePool CacheState ι) : Prop :=
  ∀ j t value ttl, j ≠ i → p.thread j = some t → t.call = .set key value ttl →
    ∃ a, t.rest = .done a

theorem Allowed.eq_or {m m' : Contents} {call : Call} {reply : Reply}
    (h : Allowed m call reply m') : m' = call.apply m ∨ m' = m := by
  cases h with
  | returned => exact Or.inl rfl
  | failedDone => exact Or.inl rfl
  | failedNot => exact Or.inr rfl

theorem Kept.of_db_eq {key value : String} {expiresAt : Nat} {s s' : CacheState}
    (h : Kept key value expiresAt s)
    (hdb : s'.db (PebbleCache.cacheKey key) = s.db (PebbleCache.cacheKey key))
    (hclock : s.clock ≤ s'.clock) : Kept key value expiresAt s' := by
  rcases h with h | h
  · exact Or.inl (hdb.trans h)
  · exact Or.inr (h.mono hclock)

/-- No step takes away an entry while no call is setting its key. -/
theorem Kept.step {key value : String} {expiresAt : Nat}
    (hkept : Kept key value expiresAt p.shared) (hfits : expiresAt < 2 ^ 64) (hp : Sane p)
    (hquiet : ∀ j t v ttl, p.thread j = some t → t.call = .set key v ttl → ∃ a, t.rest = .done a)
    (h : Interleaving.Step CacheCall.prog (Serves Allowed) Ticks p e q) (horderly : Orderly p e) :
    Kept key value expiresAt q.shared := by
  have hle := clock_le h
  cases h with
  | start => exact hkept
  | environment hticks => exact hkept.of_db_eq (congrFun hticks.1 _) hle
  | @answer j call history req next answer shared hthread hserves =>
    cases CacheCall.asks (hp.only j _ hthread) (hp.resumed j _ hthread) with
    | nowMs =>
      obtain ⟨-, rfl⟩ := hserves.of_nowMs
      exact hkept
    | get =>
      obtain ⟨-, rfl⟩ := hserves.of_get
      exact hkept
    | store key' value' ttl expiresAt' hcall =>
      have hne : key' ≠ key := by
        rintro rfl
        obtain ⟨a, ha⟩ := hquiet j _ _ _ hthread hcall
        cases ha
      refine hkept.of_db_eq ?_ hle
      rcases hserves.of_write.1.eq_or with hdb | hdb
      · rw [Pool.put_shared, hdb]
        exact Function.update_of_ne (fun heq => hne (PebbleCache.cacheKey_injective heq).symm) _ _
      · rw [Pool.put_shared, hdb]
    | remove key' =>
      by_cases hkey : key' = key
      · subst hkey
        rcases hkept with hentry | hexpired
        · exact Or.inr ((horderly.2.2 j _ answer rfl _ _ _ hentry
            (PebbleCache.decode_encode hfits value)).mono hle)
        · exact Or.inr (hexpired.mono hle)
      · refine hkept.of_db_eq ?_ hle
        rcases hserves.of_write.1.eq_or with hdb | hdb
        · rw [Pool.put_shared, hdb]
          exact Function.update_of_ne (fun heq => hkey (PebbleCache.cacheKey_injective heq).symm) _ _
        · rw [Pool.put_shared, hdb]

theorem Quiet.step {key : String} {i : ι} (hquiet : Quiet key i p)
    (h : Interleaving.Step CacheCall.prog (Serves Allowed) Ticks p e q) (hnoSet : NoSet key p e) :
    Quiet key i q := by
  intro k t value ttl hk ht hcall
  cases h with
  | @start j call hfree =>
    by_cases hkj : k = j
    · subst hkj
      rw [Pool.put_thread_self] at ht
      obtain rfl := Option.some.inj ht
      exact absurd (congrArg (Event.start k) hcall) (hnoSet k value ttl)
    · rw [Pool.put_thread_of_ne _ hkj] at ht
      exact hquiet k t value ttl hk ht hcall
  | @answer j call history req next answer shared hthread hserves =>
    by_cases hkj : k = j
    · subst hkj
      rw [Pool.put_thread_self] at ht
      obtain rfl := Option.some.inj ht
      obtain ⟨a, ha⟩ := hquiet k _ value ttl hk hthread hcall
      cases ha
    · rw [Pool.put_thread_of_ne _ hkj] at ht
      exact hquiet k t value ttl hk ht hcall
  | environment _ => exact hquiet k t value ttl hk ht hcall

/-! ### A set and a later get -/

theorem reading_snoc (history : List (Exchange CacheRequest CacheRequest.Answer)) (call : Call)
    (reply : Reply) : reading (history ++ [⟨.write call, reply⟩]) = reading history := by
  induction history with
  | nil => rfl
  | cons x history ih =>
    obtain ⟨req, answer⟩ := x
    cases req with
    | nowMs => rfl
    | get key => exact ih
    | range start stop => exact ih
    | write call => exact ih

/-- The answer with which a `set` returns is the one that stores its entry. -/
theorem set_answer {key value : String} {ttl : Duration}
    {history : List (Exchange CacheRequest CacheRequest.Answer)} {req : CacheRequest}
    {next : req.Answer → Program CacheRequest CacheRequest.Answer (Res CacheReply)}
    {answer : req.Answer} {s s' : CacheState} {reply : CacheReply}
    (hresumes : (CacheCall.set key value ttl).prog.Resumes history (.ask req next))
    (hserves : Serves Allowed s req answer s') (hdone : next answer = .done (.ok reply)) :
    expiry ttl (reading (history ++ [⟨req, answer⟩])) < 2 ^ 64 ∧
      Kept key value (expiry ttl (reading (history ++ [⟨req, answer⟩]))) s' := by
  obtain ⟨rest, hrest, heq⟩ := hresumes.of_map
  obtain ⟨next', rfl, rfl⟩ := Program.map_eq_ask heq.symm
  obtain ⟨result, hresult, hreply⟩ := Program.map_eq_done hdone
  rcases set_ask hrest with heq | ⟨hfits, -, heq⟩
  · obtain ⟨rfl, hnext⟩ := Program.ask.inj heq
    rw [eq_of_heq hnext] at hresult
    dsimp only at hresult
    split at hresult
    · cases hresult
      cases hreply
    · cases hresult
  · obtain ⟨rfl, hnext⟩ := Program.ask.inj heq
    rw [eq_of_heq hnext] at hresult
    obtain rfl := Program.done.inj hresult
    rw [reading_snoc]
    refine ⟨hfits, Or.inl ?_⟩
    obtain ⟨hallowed, -⟩ := hserves.of_write
    generalize s'.db = m at hallowed ⊢
    cases hallowed with
    | returned => exact storeCall_apply_self _ _
    | failedDone => cases hreply
    | failedNot => cases hreply

/-- While a call sets the key, and once it has returned its entry is there. -/
structure Setting (key value : String) (ttl : Duration) (i : ι) (p : CachePool CacheState ι) :
    Prop where
  sane : Sane p
  quiet : Quiet key i p
  stored : ∃ t, p.thread i = some t ∧ t.call = .set key value ttl ∧
    ∀ reply, t.rest = .done (.ok reply) → expiry ttl (reading t.history) < 2 ^ 64 ∧
      Kept key value (expiry ttl (reading t.history)) p.shared

theorem Quiet.all {key : String} {i : ι} (hquiet : Quiet key i p)
    {t : Thread CacheCall CacheRequest CacheRequest.Answer (Res CacheReply)}
    (ht : p.thread i = some t) {a : Res CacheReply} (ha : t.rest = .done a) :
    ∀ j t v ttl, p.thread j = some t → t.call = .set key v ttl → ∃ a, t.rest = .done a := by
  intro j t' v ttl ht' hcall
  by_cases hji : j = i
  · subst hji
    rw [ht] at ht'
    obtain rfl := Option.some.inj ht'
    exact ⟨a, ha⟩
  · exact hquiet j t' v ttl hji ht' hcall

theorem Setting.step {key value : String} {ttl : Duration} {i : ι} (hp : Setting key value ttl i p)
    (h : Interleaving.Step CacheCall.prog (Serves Allowed) Ticks p e q) (horderly : Orderly p e)
    (hnoSet : NoSet key p e) : Setting key value ttl i q := by
  refine ⟨hp.sane.step h horderly.1, hp.quiet.step h hnoSet, ?_⟩
  obtain ⟨t, ht, hcall, hstored⟩ := hp.stored
  by_cases hdone : ∃ a, t.rest = .done a
  · obtain ⟨a, ha⟩ := hdone
    refine ⟨t, h.thread_of_done ht ha, hcall, fun reply hreply => ?_⟩
    obtain ⟨hfits, hkept⟩ := hstored reply hreply
    exact ⟨hfits, hkept.step hfits hp.sane (hp.quiet.all ht ha) h horderly⟩
  · cases h with
    | @start j call hfree =>
      have hij : i ≠ j := by
        rintro rfl
        rw [hfree] at ht
        cases ht
      refine ⟨t, ?_, hcall, fun reply hreply => absurd ⟨_, hreply⟩ hdone⟩
      rw [Pool.put_thread_of_ne _ hij]
      exact ht
    | @answer j call history req next answer shared hthread hserves =>
      by_cases hij : i = j
      · subst hij
        rw [hthread] at ht
        obtain rfl := Option.some.inj ht
        dsimp only at hcall
        subst hcall
        refine ⟨_, Pool.put_thread_self _ _ _ _, rfl, fun reply hreply => ?_⟩
        exact set_answer (hp.sane.resumed i _ hthread) hserves hreply
      · refine ⟨t, ?_, hcall, fun reply hreply => absurd ⟨_, hreply⟩ hdone⟩
        rw [Pool.put_thread_of_ne _ hij]
        exact ht
    | environment _ => exact ⟨t, ht, hcall, fun reply hreply => absurd ⟨_, hreply⟩ hdone⟩

/-- After that: what a call that has started since reads under the key is the entry. -/
structure Getting (key value : String) (expiresAt : Nat) (i j : ι) (p : CachePool CacheState ι) :
    Prop where
  sane : Sane p
  quiet : Quiet key i p
  finished : ∃ t a, p.thread i = some t ∧ t.rest = .done a
  kept : Kept key value expiresAt p.shared
  reads : ∀ t, p.thread j = some t → ∀ raw : Option String,
    ⟨.get (PebbleCache.cacheKey key), raw⟩ ∈ t.history →
      raw = some (PebbleCache.encode expiresAt value) ∨ Expired expiresAt p.shared.clock

theorem Getting.step {key value : String} {expiresAt : Nat} {i j : ι}
    (hp : Getting key value expiresAt i j p) (hfits : expiresAt < 2 ^ 64)
    (h : Interleaving.Step CacheCall.prog (Serves Allowed) Ticks p e q) (horderly : Orderly p e)
    (hnoSet : NoSet key p e) : Getting key value expiresAt i j q := by
  obtain ⟨t, a, ht, ha⟩ := hp.finished
  refine ⟨hp.sane.step h horderly.1, hp.quiet.step h hnoSet, ⟨t, a, h.thread_of_done ht ha, ha⟩,
    hp.kept.step hfits hp.sane (hp.quiet.all ht ha) h horderly, ?_⟩
  have hle := clock_le h
  have hold : ∀ t, p.thread j = some t → ∀ raw : Option String,
      ⟨.get (PebbleCache.cacheKey key), raw⟩ ∈ t.history →
      raw = some (PebbleCache.encode expiresAt value) ∨ Expired expiresAt q.shared.clock :=
    fun t ht raw hraw => (hp.reads t ht raw hraw).imp id fun hexpired => hexpired.mono hle
  intro t' ht' raw hraw
  cases h with
  | @start k call hfree =>
    by_cases hjk : j = k
    · subst hjk
      rw [Pool.put_thread_self] at ht'
      obtain rfl := Option.some.inj ht'
      cases hraw
    · rw [Pool.put_thread_of_ne _ hjk] at ht'
      exact hold t' ht' raw hraw
  | @answer k call history req next answer shared hthread hserves =>
    by_cases hjk : j = k
    · subst hjk
      rw [Pool.put_thread_self] at ht'
      obtain rfl := Option.some.inj ht'
      rcases List.mem_append.mp hraw with hraw | hraw
      · exact hold _ hthread raw hraw
      · obtain ⟨rfl, hanswer⟩ := Sigma.mk.inj (List.mem_singleton.mp hraw)
        obtain ⟨rfl, rfl⟩ := hserves.of_get
        rw [eq_of_heq hanswer]
        exact hp.kept
    · rw [Pool.put_thread_of_ne _ hjk] at ht'
      exact hold t' ht' raw hraw
  | environment _ => exact hold t' ht' raw hraw

/-- A `set` that returns and that no other `set` of the key overlaps or follows, and then a `get` of
the key that returns as well. -/
structure SetThenGet (ι : Type) [DecidableEq ι]
    (allowed : CachePool CacheState ι → CacheEvent ι → Prop) where
  key : String
  value : String
  ttl : Duration
  start : CachePool CacheState ι
  none_running : ∀ i, start.thread i = none
  before : CachePool CacheState ι
  run_before : CacheRun allowed start before
  none_setting : ∀ i t value ttl, before.thread i = some t → t.call = .set key value ttl →
    ∃ a, t.rest = .done a
  setter : ι
  called : CachePool CacheState ι
  set_called : Interleaving.Step CacheCall.prog (Serves Allowed) Ticks before
    (.start setter (.set key value ttl)) called
  set_allowed : allowed before (.start setter (.set key value ttl))
  returned : CachePool CacheState ι
  run_set : CacheRun (fun p e => allowed p e ∧ NoSet key p e) called returned
  set : Thread CacheCall CacheRequest CacheRequest.Answer (Res CacheReply)
  thread_setter : returned.thread setter = some set
  set_returned : set.rest = .done (.ok .done)
  getter : ι
  asked : CachePool CacheState ι
  get_called : Interleaving.Step CacheCall.prog (Serves Allowed) Ticks returned
    (.start getter (.get key)) asked
  get_allowed : allowed returned (.start getter (.get key))
  final : CachePool CacheState ι
  run_get : CacheRun (fun p e => allowed p e ∧ NoSet key p e) asked final
  get : Thread CacheCall CacheRequest CacheRequest.Answer (Res CacheReply)
  thread_getter : final.thread getter = some get
  result : Res CacheReply
  get_returned : get.rest = .done result

/-- The time to live is not over when the `get` has returned. -/
def SetThenGet.Fresh {allowed : CachePool CacheState ι → CacheEvent ι → Prop}
    (run : SetThenGet ι allowed) : Prop :=
  run.ttl.isZero = true ∨ run.final.shared.clock < reading run.set.history + run.ttl.asMillis

/-- No update is lost: such a `get` gives the value. -/
def SetsKept (ι : Type) [DecidableEq ι] (allowed : CachePool CacheState ι → CacheEvent ι → Prop) :
    Prop :=
  ∀ run : SetThenGet ι allowed, run.Fresh → run.result = .ok (.value (some run.value))

theorem Setting.called {p q : CachePool CacheState ι} {i : ι} {key value : String} {ttl : Duration}
    (hp : Sane p) (hquiet : ∀ j t v ttl, p.thread j = some t → t.call = .set key v ttl →
      ∃ a, t.rest = .done a)
    (h : Interleaving.Step CacheCall.prog (Serves Allowed) Ticks p (.start i (.set key value ttl)) q) :
    Setting key value ttl i q := by
  have hq := hp.step h rfl
  obtain ⟨-, rfl⟩ := h.of_start
  refine ⟨hq, fun j t v ttl' hji ht hcall => ?_, ⟨_, Pool.put_thread_self _ _ _ _, rfl, ?_⟩⟩
  · rw [Pool.put_thread_of_ne _ hji] at ht
    exact hquiet j t v ttl' ht hcall
  · intro reply hreply
    obtain ⟨a, ha, -⟩ := Program.map_eq_done hreply
    cases hzero : ttl.isZero with
    | true =>
      rw [PebbleCache.set_eq_of_isZero key value hzero] at ha
      cases ha
    | false =>
      rw [PebbleCache.set_eq key value hzero] at ha
      cases ha

theorem Getting.called {p q : CachePool CacheState ι} {i j : ι} {key value : String}
    {expiresAt : Nat} (hp : Sane p) (hquiet : Quiet key i p)
    (hfinished : ∃ t a, p.thread i = some t ∧ t.rest = .done a)
    (hkept : Kept key value expiresAt p.shared)
    (h : Interleaving.Step CacheCall.prog (Serves Allowed) Ticks p (.start j (.get key)) q) :
    Getting key value expiresAt i j q := by
  have hq := hp.step h rfl
  have hquiet' := hquiet.step h fun k v ttl heq => by cases heq
  obtain ⟨t, a, ht, ha⟩ := hfinished
  have hfinished' := h.thread_of_done ht ha
  obtain ⟨-, rfl⟩ := h.of_start
  refine ⟨hq, hquiet', ⟨t, a, hfinished', ha⟩, hkept, fun t' ht' raw hraw => ?_⟩
  rw [Pool.put_thread_self] at ht'
  obtain rfl := Option.some.inj ht'
  cases hraw

omit [DecidableEq ι] in
/-- A `get` that has returned in time gives the entry. -/
theorem Getting.result {key value : String} {expiresAt : Nat} {i j : ι}
    (hp : Getting key value expiresAt i j p) (hfits : expiresAt < 2 ^ 64)
    (hfresh : ¬ Expired expiresAt p.shared.clock)
    {t : Thread CacheCall CacheRequest CacheRequest.Answer (Res CacheReply)}
    (ht : p.thread j = some t) (hcall : t.call = .get key) {result : Res CacheReply}
    (hdone : t.rest = .done result) : result = .ok (.value (some value)) := by
  have hresumes := hp.sane.resumed j t ht
  rw [hcall, hdone] at hresumes
  obtain ⟨rest, hrest, heq⟩ := hresumes.of_map
  obtain ⟨read, rfl, rfl⟩ := Program.map_eq_done heq.symm
  have hreads : ∀ raw : Option String, ⟨.get (PebbleCache.cacheKey key), raw⟩ ∈ t.history →
      raw = some (PebbleCache.encode expiresAt value) := fun raw hraw =>
    (hp.reads t ht raw hraw).resolve_right hfresh
  rcases get_done hfits hreads hrest with rfl | ⟨now, hnow, hexpired⟩
  · rfl
  · exact absurd (hexpired.mono (hp.sane.recorded j t ht _ hnow now rfl)) hfresh

/-- In runs of `set`, `get` and `exists` no update is lost, provided that no step removes an entry
that has not expired and that the milliseconds of a time to live fit a `u64`. -/
theorem setsKept_orderly : SetsKept ι Orderly := by
  intro run hfresh
  have hsane : Sane run.before := by
    refine run.run_before.invariant (fun _ _ _ h horderly hp => hp.step h horderly.1) ?_
    refine ⟨fun i t ht => ?_, fun i t ht => ?_, fun i t ht => ?_⟩ <;>
      rw [run.none_running i] at ht <;> cases ht
  have hset : Setting run.key run.value run.ttl run.setter run.returned :=
    run.run_set.invariant (fun _ _ _ h hallowed hp => hp.step h hallowed.1 hallowed.2)
      (.called hsane run.none_setting run.set_called)
  obtain ⟨t, ht, -, hstored⟩ := hset.stored
  rw [run.thread_setter] at ht
  obtain rfl := Option.some.inj ht
  obtain ⟨hfits, hkept⟩ := hstored .done run.set_returned
  have hget : Getting run.key run.value (expiry run.ttl (reading run.set.history)) run.setter
      run.getter run.final := run.run_get.invariant
    (fun _ _ _ h hallowed hp => hp.step hfits h hallowed.1 hallowed.2)
    (.called hset.sane hset.quiet ⟨_, _, run.thread_setter, run.set_returned⟩ hkept run.get_called)
  obtain ⟨t', ht', hcall, -⟩ := run.run_get.thread_of_some
    (by rw [run.get_called.of_start.2]; exact Pool.put_thread_self _ _ _ _)
  rw [run.thread_getter] at ht'
  obtain rfl := Option.some.inj ht'
  refine hget.result hfits ?_ run.thread_getter hcall run.get_returned
  have hmillis := run.set_allowed.2.1 _ _ _ _ rfl
  rintro ⟨hpos, hle⟩
  rw [expiry] at hpos hle
  split at hpos
  · exact hpos rfl
  · rename_i hzero
    rw [if_neg hzero, asU64_of_lt hmillis] at hle
    rcases hfresh with hfresh | hfresh
    · exact hzero hfresh
    · exact absurd hle (not_le.mpr hfresh)

/-- The request removes no key. -/
def RemovesNothing : CacheRequest → Prop
  | .write (.delete _) => False
  | _ => True

omit [DecidableEq ι] in
theorem RemovesNothing.allowed {key : String} {i : ι} {q : CachePool CacheState ι}
    {req : CacheRequest} {answer : req.Answer} (h : RemovesNothing req) :
    Orderly q (.answer i req answer) ∧ NoSet key q (.answer i req answer) := by
  refine ⟨⟨trivial, fun _ _ _ _ heq => (by cases heq), fun j removed reply heq => ?_⟩,
    fun _ _ _ heq => (by cases heq)⟩
  injection heq with _ hreq
  subst hreq
  exact h.elim

omit [DecidableEq ι] in
theorem orderly_start {i : ι} {call : CacheCall} {p : CachePool CacheState ι}
    (hremoves : call.removes = false)
    (hmillis : ∀ key value ttl, call = .set key value ttl → ttl.asMillis < 2 ^ 64) :
    Orderly p (.start i call) := by
  refine ⟨hremoves, fun j key value ttl heq => ?_, fun _ _ _ heq => (by cases heq)⟩
  injection heq with _ hcall
  exact hmillis key value ttl hcall

/-- An entry is set for five milliseconds, and the next call reads it. -/
theorem setsKept_orderly_oneSet : ∃ run : SetThenGet Nat Orderly, run.Fresh ∧
    run.ttl.asMillis = 5 ∧ run.result = .ok (.value (some "v")) := by
  obtain ⟨ttl, hmillis, hzero⟩ : ∃ ttl : Duration, ttl.asMillis = 5 ∧ ttl.isZero = false :=
    ⟨⟨0, 5000000, by decide, by decide⟩, by decide, by decide⟩
  let start : CachePool CacheState Nat := ⟨⟨fun _ => none, 1⟩, fun _ => none⟩
  let stored : CacheState := ⟨(storeCall "k" "v" 6).apply fun _ => none, 1⟩
  have hset : (PebbleCache.set "k" "v" ttl).run.Runs
      (fun s req answer s' => Serves Allowed s req answer s' ∧ RemovesNothing req) start.shared
      (.ok ()) stored := by
    rw [PebbleCache.set_eq "k" "v" hzero]
    refine .ask ⟨.nowMs, trivial⟩ ?_
    rw [if_neg (by rw [hmillis]; decide), hmillis]
    exact .ask ⟨.write .returned, trivial⟩ (.done _ _)
  have hget : (PebbleCache.get "k").run.Runs
      (fun s req answer s' => Serves Allowed s req answer s' ∧ RemovesNothing req) stored
      (.ok (some "v")) stored := by
    have hentry : stored.db (PebbleCache.cacheKey "k") = some (PebbleCache.encode 6 "v") :=
      @storeCall_apply_self "k" "v" 6 fun _ => none
    rw [PebbleCache.get_eq]
    refine .ask ⟨.get _, trivial⟩ ?_
    rw [hentry]
    dsimp only
    rw [PebbleCache.decode_encode (by decide)]
    exact .ask ⟨.nowMs, trivial⟩ (.done _ _)
  have hcalled : Interleaving.Step CacheCall.prog (Serves Allowed) Ticks start
      (.start 0 (.set "k" "v" ttl)) _ := .start _ rfl
  obtain ⟨returned, set, hrun, hthread, -, -, hrest, hshared, hother⟩ :=
    @Interleaving.Run.of_runs_where _ _ _ _ _ _ _ CacheCall.prog (Serves Allowed) Ticks
      (fun p e => Orderly p e ∧ NoSet "k" p e) _ 0 _ _ _ RemovesNothing
      (Pool.put_thread_self start 0 ⟨.set "k" "v" ttl, [], (CacheCall.set "k" "v" ttl).prog⟩ _)
      (hset.map (Except.map fun _ => CacheReply.done)) fun _ _ _ hreq => hreq.allowed
  rw [← hshared] at hget
  have hasked : Interleaving.Step CacheCall.prog (Serves Allowed) Ticks returned
      (.start 1 (.get "k")) _ := .start _ ((hother 1 (by decide)).trans rfl)
  obtain ⟨final, get, hrun', hthread', -, -, hrest', hshared', -⟩ :=
    @Interleaving.Run.of_runs_where _ _ _ _ _ _ _ CacheCall.prog (Serves Allowed) Ticks
      (fun p e => Orderly p e ∧ NoSet "k" p e) _ 1 _ _ _ RemovesNothing
      (Pool.put_thread_self returned 1 ⟨.get "k", [], (CacheCall.get "k").prog⟩ _)
      (hget.map (Except.map CacheReply.value)) fun _ _ _ hreq => hreq.allowed
  let run : SetThenGet Nat Orderly :=
    { key := "k", value := "v", ttl, start, none_running := fun _ => rfl, before := start,
      run_before := .refl _, none_setting := fun _ _ _ _ h => (by cases h), setter := 0, called := _,
      set_called := hcalled,
      set_allowed := orderly_start rfl fun _ _ _ heq => (by cases heq; rw [hmillis]; decide),
      returned, run_set := hrun, set, thread_setter := hthread, set_returned := hrest, getter := 1,
      asked := _, get_called := hasked, get_allowed := orderly_start rfl fun _ _ _ heq => (by cases heq),
      final, run_get := hrun', get, thread_getter := hthread', result := _, get_returned := hrest' }
  have hfresh : run.Fresh := by
    refine Or.inr ?_
    show final.shared.clock < reading set.history + ttl.asMillis
    rw [hshared', hshared, hmillis]
    show 1 < reading set.history + 5
    omega
  exact ⟨run, hfresh, hmillis, setsKept_orderly run hfresh⟩

end Pools

/-! ### The lost update -/

theorem Returned.allowed {m m' : Contents} {call : Call} {reply : Reply}
    (h : Returned m call reply m') : Allowed m call reply m' := by
  cases h
  exact .returned

theorem Serves.allowed {s s' : CacheState} {req : CacheRequest} {answer : req.Answer}
    (h : Serves Returned s req answer s') : Serves Allowed s req answer s' := by
  cases h with
  | nowMs => exact .nowMs
  | get key => exact .get key
  | range hsorted hmem => exact .range hsorted hmem
  | write h => exact .write h.allowed

/-- A `set` may run from its call to its end with no other call in between. -/
theorem exists_set {p : CachePool CacheState Nat} {i : Nat} (hfree : p.thread i = none)
    (key value : String) {ttl : Duration} (hfits : expiry ttl p.shared.clock < 2 ^ 64)
    {allowed : CachePool CacheState Nat → CacheEvent Nat → Prop}
    (hallowed : ∀ q req answer, allowed q (.answer i req answer)) :
    ∃ called q t, Interleaving.Step CacheCall.prog (Serves Allowed) Ticks p
        (.start i (.set key value ttl)) called ∧ CacheRun allowed called q ∧
      q.thread i = some t ∧ t.rest = .done (.ok .done) ∧
      q.shared = ⟨(storeCall key value (expiry ttl p.shared.clock)).apply p.shared.db,
        p.shared.clock⟩ ∧ ∀ j, j ≠ i → q.thread j = p.thread j := by
  have hset := (@set_returns _ key value _ hfits).mono fun _ _ _ _ => Serves.allowed
  obtain ⟨q, t, hrun, ht, -, -, hrest, hshared, hother⟩ := Interleaving.Run.of_runs
    (Pool.put_thread_self p i ⟨.set key value ttl, [], (CacheCall.set key value ttl).prog⟩ p.shared)
    (hset.map (Except.map fun _ => CacheReply.done)) hallowed
  refine ⟨_, q, t, .start _ hfree, hrun, ht, hrest, hshared, fun j hj => ?_⟩
  rw [hother j hj]
  exact Pool.put_thread_of_ne _ hj _ _

/-- A `get` that is about to remove the key. -/
def Removes (key : String) (p : CachePool CacheState Nat) (i : Nat) : Prop :=
  ∃ t, p.thread i = some t ∧ t.call = .get key ∧
    t.rest = .ask (.write (removeCall key)) fun reply =>
      .done ((PebbleCache.afterWrite none reply).map .value)

/-- A `get` of an expired entry may come to the point where it is about to remove it. -/
theorem exists_removes {p : CachePool CacheState Nat} {i : Nat} (hfree : p.thread i = none)
    {key value : String} {expiresAt : Nat} (hfits : expiresAt < 2 ^ 64)
    (hentry : p.shared.db (PebbleCache.cacheKey key) = some (PebbleCache.encode expiresAt value))
    (hexpired : Expired expiresAt p.shared.clock) :
    ∃ q, CacheRun OnlyUpdates p q ∧ Removes key q i ∧ q.shared = p.shared ∧
      ∀ j, j ≠ i → q.thread j = p.thread j := by
  obtain ⟨found, hprog, hfound⟩ :
      ∃ found : Option String → Program CacheRequest CacheRequest.Answer (Res CacheReply),
      (CacheCall.get key).prog = .ask (.get (PebbleCache.cacheKey key)) found ∧
      found (some (PebbleCache.encode expiresAt value)) = .ask .nowMs fun (now : Nat) =>
        Program.map (Except.map .value) <| if expiresAt ≤ now then
          .ask (.write (removeCall key)) fun reply => .done (PebbleCache.afterWrite none reply)
        else .done (.ok (some value)) := by
    refine ⟨_, (congrArg (Program.map (Except.map CacheReply.value)) (PebbleCache.get_eq key) :), ?_⟩
    dsimp only
    rw [PebbleCache.decode_encode hfits]
    dsimp only
    rw [PebbleCache.readEntry, if_neg hexpired.1]
    rfl
  have hstart : Interleaving.Step CacheCall.prog (Serves Allowed) Ticks p (.start i (.get key)) _ :=
    .start _ hfree
  have hread : Serves Allowed p.shared (.get (PebbleCache.cacheKey key))
      (some (PebbleCache.encode expiresAt value)) p.shared := hentry ▸ .get _
  refine ⟨_, (Interleaving.Run.refl p).step hstart rfl
    |>.step (.of_ask (Pool.put_thread_self _ _ _ _) hprog hread) trivial
    |>.step (.of_ask (Pool.put_thread_self _ _ _ _) hfound .nowMs) trivial,
    ⟨_, Pool.put_thread_self _ _ _ _, rfl, ?_⟩, rfl, fun j hj => ?_⟩
  · exact congrArg (Program.map (Except.map CacheReply.value)) (if_pos hexpired.2)
  · rw [Pool.put_thread_of_ne _ hj, Pool.put_thread_of_ne _ hj, Pool.put_thread_of_ne _ hj]

/-- The step in which it does. -/
theorem exists_removed {p : CachePool CacheState Nat} {i : Nat} {key : String}
    (h : Removes key p i) : ∃ q reply,
      Interleaving.Step CacheCall.prog (Serves Allowed) Ticks p
        (.answer i (.write (removeCall key)) reply) q ∧
      q.shared.db (PebbleCache.cacheKey key) = none ∧ ∀ j, j ≠ i → q.thread j = p.thread j := by
  obtain ⟨t, ht, -, hrest⟩ := h
  exact ⟨_, _, .of_ask ht hrest (.write .returned), Function.update_self _ _ _,
    fun j hj => Pool.put_thread_of_ne _ hj _ _⟩

/-- A `get` finds an expired entry, another call sets the key, and the `get` removes the key. -/
theorem not_setsKept : ¬ SetsKept Nat OnlyUpdates := by
  intro hkept
  let start : CachePool CacheState Nat := ⟨⟨fun _ => none, 1⟩, fun _ => none⟩
  -- the entry that expires
  obtain ⟨p₁, p₂, t₀, hcall₀, hrun₀, ht₀, hrest₀, hshared₀, hother₀⟩ := @exists_set start 0 rfl "k"
    "old" ⟨0, 1000000, by decide, by decide⟩ (by decide) OnlyUpdates fun _ _ _ => trivial
  have hticks : Interleaving.Step CacheCall.prog (Serves Allowed) Ticks p₂ .environment
      { p₂ with shared := ⟨p₂.shared.db, 2⟩ } := by
    refine .environment ⟨rfl, ?_, show 2 < 2 ^ 64 by decide⟩
    rw [hshared₀]
    decide
  have hfree₁ : p₂.thread 1 = none := hother₀ 1 (by decide)
  -- a call reads it and finds that it has expired
  obtain ⟨p₃, hrun₁, ⟨t₁, ht₁, hcall₁, hrest₁⟩, hshared₁, hother₁⟩ := @exists_removes
    { p₂ with shared := ⟨p₂.shared.db, 2⟩ } 1 hfree₁ "k" "old" 2 (by decide)
    (by rw [hshared₀]; exact @storeCall_apply_self "k" "old" 2 fun _ => none) ⟨by decide, le_rfl⟩
  have hbefore : CacheRun OnlyUpdates start p₃ :=
    ((Interleaving.Run.refl start).step hcall₀ rfl).trans (hrun₀.trans
      (((Interleaving.Run.refl p₂).step hticks trivial).trans hrun₁))
  have hthread₃ : ∀ i, i ≠ 0 → i ≠ 1 → p₃.thread i = none := fun i hi hi' =>
    (hother₁ i hi').trans (hother₀ i hi)
  have hsettled : ∀ i t value ttl, p₃.thread i = some t → t.call = .set "k" value ttl →
      ∃ a, t.rest = .done a := by
    intro i t value ttl ht hcall
    by_cases hi : i = 0
    · subst hi
      rw [hother₁ 0 (by decide)] at ht
      exact ⟨_, Option.some.inj (ht₀.symm.trans ht) ▸ hrest₀⟩
    · by_cases hi' : i = 1
      · subst hi'
        rw [ht₁] at ht
        obtain rfl := Option.some.inj ht
        rw [hcall₁] at hcall
        cases hcall
      · rw [hthread₃ i hi hi'] at ht
        cases ht
  let allowed : CachePool CacheState Nat → CacheEvent Nat → Prop :=
    fun p e => OnlyUpdates p e ∧ NoSet "k" p e
  have honly : ∀ i q req answer, allowed q (.answer i req answer) :=
    fun _ _ _ _ => ⟨trivial, fun _ _ _ h => by cases h⟩
  -- another call sets the key
  obtain ⟨p₄, p₅, t₂, hcall₂, hrun₂, ht₂, hrest₂, hshared₂, hother₂⟩ := @exists_set p₃ 2
    (hthread₃ 2 (by decide) (by decide)) "k" "new" ⟨0, 0, by decide, by decide⟩
    (by rw [expiry_of_isZero rfl]; decide)
    allowed (honly 2)
  -- and the first call removes it
  obtain ⟨p₆, reply, hremove, hmissing, hother₃⟩ :=
    exists_removed ⟨t₁, (hother₂ 1 (by decide)).trans ht₁, hcall₁, hrest₁⟩
  have ht₂' : p₆.thread 2 = some t₂ := (hother₃ 2 (by decide)).trans ht₂
  have hfree₃ : p₆.thread 3 = none := (hother₃ 3 (by decide)).trans
    ((hother₂ 3 (by decide)).trans (hthread₃ 3 (by decide) (by decide)))
  have hcall₃ : Interleaving.Step CacheCall.prog (Serves Allowed) Ticks p₆ (.start 3 (.get "k")) _ :=
    .start _ hfree₃
  obtain ⟨p₇, t₃, hrun₃, ht₃, -, -, hrest₃, -, -⟩ := Interleaving.Run.of_runs
    (Pool.put_thread_self p₆ 3 ⟨.get "k", [], (CacheCall.get "k").prog⟩ p₆.shared)
    ((get_misses hmissing).map (Except.map CacheReply.value)) (honly 3)
  cases hkept ⟨"k", "new", _, start, fun _ => rfl, p₃, hbefore, hsettled, 2, p₄, hcall₂, rfl, p₆,
    hrun₂.trans ((Interleaving.Run.refl p₅).step hremove (honly _ _ _ _)), t₂, ht₂', hrest₂, 3, _,
    hcall₃, rfl, p₇, hrun₃, t₃, ht₃, _, hrest₃⟩ (Or.inl rfl)

end PebbleDB
