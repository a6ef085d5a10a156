import PebbleDB.CacheMoments
import PebbleDB.CrashRun

/-!
# The cache over restarts

The entries of the cache are in the directory, so they outlive the process that set them. Processes
open the directory one after the other and call the cache; each of them ends between two calls or in
the middle of one, at any file operation. What the calls return is explained by a map of entries with
expiration times that knows neither of the removal of expired entries nor of restarts
(`cacheSteps_follow`): a call that returned has its effect from then on, a call that was cut off has
it or not, and a `clear` that was cut off has removed some of the entries.
-/

namespace PebbleDB

open Interleaving EarlyExit

/-! ## Processes -/

/-- The requests of a call on an open handle, each with its listings and its stop. Only records that
fit the log and files that fit their format are written. -/
inductive StoreServes [BloomSizing] (s : CacheWorld) :
    (req : CacheRequest) → req.Answer → CacheWorld → Prop where
  | nowMs : StoreServes s .nowMs s.clock s
  | get {key : String} {value : Option String} (h : s.world.inner.get key = .ok value) :
      StoreServes s (.get key) value s
  | range {start stop : Bound} {records : List (String × String)}
      (h : s.world.inner.range start stop = .ok records) :
      StoreServes s (.range start stop) records s
  | write (listing : Listing) (stop : Option Stop) (fuel : Nat) {call : Call}
      {existed : Option Bool} {world : World}
      (h : call.run fuel (s.world.under listing stop) = .ok existed world)
      (hrecord : ∀ record ∈ call.record?, record.Fits) (hfits : world.disk.Fits) :
      StoreServes s (.write call) (.returned existed) { s with world }

/-- A write that does not return, with the directory that it leaves. -/
inductive StoreCuts [BloomSizing] (s : CacheWorld) : CacheRequest → Disk → Prop where
  | write (listing : Listing) (stop : Option Stop) (fuel : Nat) {call : Call} {e : Exit}
      {world : World} (h : call.run fuel (s.world.under listing stop) = .error e world)
      (hrecord : ∀ record ∈ call.record?, record.Fits) (hfits : world.disk.Fits) :
      StoreCuts s (.write call) world.disk

/-- What a step shows: a call with its reply, a call that was cut off with its process, or neither. -/
inductive CacheLabel where
  | quiet
  | returned (call : CacheCall) (reply : CacheReply)
  | cutOff (call : CacheCall)

/-- One step of the directory and the clock. A process ends at the first call of the database that
does not return, and anywhere else. A call looks at the clock at most once, so that time goes by
between the calls. -/
inductive CacheStep [BloomSizing] : System × Nat → CacheLabel → System × Nat → Prop where
  | ticks (s : System) {clock clock' : Nat} (h : clock ≤ clock') :
      CacheStep (s, clock) .quiet (s, clock')
  | database {s s' : System} (clock : Nat) (h : System.Step s .quiet s') (hfits : s'.disk.Fits) :
      CacheStep (s, clock) .quiet (s', clock)
  | returns {w w' : World} {clock : Nat} {call : CacheCall} {reply : CacheReply}
      (h : call.prog.Runs StoreServes ⟨w, clock⟩ (.ok reply) ⟨w', clock⟩) :
      CacheStep (.opened w, clock) (.returned call reply) (.opened w', clock)
  | ends {w w' : World} {clock : Nat} {call : CacheCall} {result : Res CacheReply}
      (h : call.prog.Runs StoreServes ⟨w, clock⟩ result ⟨w', clock⟩) :
      CacheStep (.opened w, clock) (.cutOff call) (.closed w'.disk, clock)
  | cut {w : World} {clock : Nat} {call : CacheCall} {disk : Disk}
      (h : call.prog.Cut StoreServes StoreCuts ⟨w, clock⟩ disk) :
      CacheStep (.opened w, clock) (.cutOff call) (.closed disk, clock)

/-- Steps one after the other, each with the state and the clock behind it. -/
inductive CacheSteps [BloomSizing] : System × Nat → List (CacheLabel × (System × Nat)) → Prop where
  | nil (s : System × Nat) : CacheSteps s []
  | cons {s s' : System × Nat} {label : CacheLabel} {steps : List (CacheLabel × (System × Nat))}
      (hstep : CacheStep s label s') (hsteps : CacheSteps s' steps) :
      CacheSteps s ((label, s') :: steps)

/-! ## Entries with expiration times -/

/-- The expiration times and the values that have been set. -/
abbrev CacheEntries := String → Option (Nat × String)

/-- The value of an entry that has not expired. -/
def CacheEntries.lookup (entries : CacheEntries) (now : Nat) (key : String) : Option String :=
  (entries key).bind fun entry => if Expired entry.1 now then none else some entry.2

/-- What a call returns and does. Whether `delete` finds an expired entry depends on whether it has
been read since it expired. -/
inductive CacheCall.Explains (now : Nat) (entries : CacheEntries) :
    CacheCall → CacheReply → CacheEntries → Prop where
  | set (key value : String) (ttl : Duration) (hfits : expiry ttl now < 2 ^ 64) :
      Explains now entries (.set key value ttl) .done
        (Function.update entries key (some (expiry ttl now, value)))
  | get (key : String) : Explains now entries (.get key) (.value (entries.lookup now key)) entries
  | «exists» (key : String) :
      Explains now entries (.exists key) (.found (entries.lookup now key).isSome) entries
  | delete (key : String) (found : Bool) (hlives : entries.lookup now key ≠ none → found = true)
      (hnone : entries key = none → found = false) :
      Explains now entries (.delete key) (.found found) (Function.update entries key none)
  | clear : Explains now entries .clear .done fun _ => none

/-- What a call that is cut off may have done. -/
inductive CacheCall.Leaves (now : Nat) (entries : CacheEntries) :
    CacheCall → CacheEntries → Prop where
  | nothing (call : CacheCall) : Leaves now entries call entries
  | set (key value : String) (ttl : Duration) (hfits : expiry ttl now < 2 ^ 64) :
      Leaves now entries (.set key value ttl)
        (Function.update entries key (some (expiry ttl now, value)))
  | delete (key : String) : Leaves now entries (.delete key) (Function.update entries key none)
  | clear (entries' : CacheEntries)
      (hsome : ∀ key, entries' key = entries key ∨ entries' key = none) :
      Leaves now entries .clear entries'

/-- What a step does to the entries, at the time `now`. -/
inductive CacheLabel.Effect (now : Nat) (entries : CacheEntries) :
    CacheLabel → CacheEntries → Prop where
  | quiet : Effect now entries quiet entries
  | returned {call : CacheCall} {reply : CacheReply} {entries' : CacheEntries}
      (h : call.Explains now entries reply entries') : Effect now entries (returned call reply) entries'
  | cutOff {call : CacheCall} {entries' : CacheEntries} (h : call.Leaves now entries entries') :
      Effect now entries (cutOff call) entries'

/-- One map of entries after the other explains the steps. -/
inductive CacheFollows : CacheEntries → List (CacheLabel × (System × Nat)) → Prop where
  | nil (entries : CacheEntries) : CacheFollows entries []
  | cons {entries entries' : CacheEntries} {label : CacheLabel} {s : System × Nat}
      {steps : List (CacheLabel × (System × Nat))} (heffect : label.Effect s.2 entries entries')
      (hsteps : CacheFollows entries' steps) : CacheFollows entries ((label, s) :: steps)

section Lookup

variable {entries : CacheEntries} {entry : Nat × String} {now : Nat} {key : String}

theorem CacheEntries.lookup_of_none (hnone : entries key = none) : entries.lookup now key = none := by
  rw [lookup, hnone]
  rfl

theorem CacheEntries.lookup_of_expired (hentry : entries key = some entry)
    (hexpired : Expired entry.1 now) : entries.lookup now key = none := by
  rw [lookup, hentry]
  exact if_pos hexpired

theorem CacheEntries.lookup_of_lives (hentry : entries key = some entry)
    (hlives : ¬ Expired entry.1 now) : entries.lookup now key = some entry.2 := by
  rw [lookup, hentry]
  exact if_neg hlives

end Lookup

/-! ## What is stored -/

/-- The map stores the entries, all that have not expired at least. -/
structure Stores (entries : CacheEntries) (now : Nat) (m : Contents) : Prop where
  fits : ∀ key entry, entries key = some entry → entry.1 < 2 ^ 64
  stored : ∀ key, m (PebbleCache.cacheKey key) =
      (entries key).map (fun entry => PebbleCache.encode entry.1 entry.2) ∨
    m (PebbleCache.cacheKey key) = none ∧ entries.lookup now key = none

namespace Stores

variable {entries : CacheEntries} {now now' : Nat} {m : Contents} {key : String}

theorem empty (now : Nat) : Stores (fun _ => none) now fun _ => none where
  fits _ _ h := by cases h
  stored _ := Or.inl rfl

theorem later (h : Stores entries now m) (hle : now ≤ now') : Stores entries now' m where
  fits := h.fits
  stored key := by
    refine (h.stored key).imp_right fun ⟨hnone, hlookup⟩ => ⟨hnone, ?_⟩
    cases hentry : entries key with
    | none => exact CacheEntries.lookup_of_none hentry
    | some entry =>
      by_cases hexpired : Expired entry.1 now
      · exact CacheEntries.lookup_of_expired hentry (hexpired.mono hle)
      · rw [CacheEntries.lookup_of_lives hentry hexpired] at hlookup
        cases hlookup

/-- What is stored under a key is the encoding of its entry. -/
theorem exists_entry (h : Stores entries now m) {raw : String}
    (hraw : m (PebbleCache.cacheKey key) = some raw) :
    ∃ entry, entries key = some entry ∧ entry.1 < 2 ^ 64 ∧
      raw = PebbleCache.encode entry.1 entry.2 := by
  rcases h.stored key with hstored | ⟨hnone, -⟩
  · rw [hraw] at hstored
    obtain ⟨entry, hentry, heq⟩ := Option.map_eq_some_iff.mp hstored.symm
    exact ⟨entry, hentry, h.fits key entry hentry, heq.symm⟩
  · rw [hraw] at hnone
    cases hnone

/-- Nothing is stored under a key without an entry that lives. -/
theorem lookup_eq_none (h : Stores entries now m)
    (hnone : m (PebbleCache.cacheKey key) = none) : entries.lookup now key = none := by
  rcases h.stored key with hstored | ⟨-, hlookup⟩
  · rw [hnone] at hstored
    exact CacheEntries.lookup_of_none (Option.map_eq_none_iff.mp hstored.symm)
  · exact hlookup

/-- An entry is set, in both. -/
theorem store (h : Stores entries now m) {expiresAt : Nat} (hfits : expiresAt < 2 ^ 64)
    (value : String) : Stores (Function.update entries key (some (expiresAt, value))) now
      ((storeCall key value expiresAt).apply m) where
  fits key' entry hentry := by
    by_cases hkey : key' = key
    · subst hkey
      rw [Function.update_self] at hentry
      cases hentry
      exact hfits
    · rw [Function.update_of_ne hkey] at hentry
      exact h.fits key' entry hentry
  stored key' := by
    by_cases hkey : key' = key
    · subst hkey
      left
      rw [storeCall_apply_self, Function.update_self]
      rfl
    · have hne : PebbleCache.cacheKey key' ≠ PebbleCache.cacheKey key :=
        fun heq => hkey (PebbleCache.cacheKey_injective heq)
      rw [CacheEntries.lookup, Function.update_of_ne hkey]
      show Function.update m _ _ _ = _ ∨ Function.update m _ _ _ = _ ∧ _
      rw [Function.update_of_ne hne]
      exact h.stored key'

/-- Keys are removed from the map whose entries have expired or are removed as well. -/
theorem remove {entries' : CacheEntries} {m' : Contents} (h : Stores entries now m)
    (hentries : ∀ key, entries' key = entries key ∨ entries' key = none)
    (hkeys : ∀ key, m' (PebbleCache.cacheKey key) = m (PebbleCache.cacheKey key) ∧
        entries' key = entries key ∨
      m' (PebbleCache.cacheKey key) = none ∧ entries'.lookup now key = none) :
    Stores entries' now m' where
  fits key entry hentry := by
    rcases hentries key with heq | hnone
    · exact h.fits key entry (heq ▸ hentry)
    · rw [hnone] at hentry
      cases hentry
  stored key := by
    rcases hkeys key with ⟨hsame, heq⟩ | hnone
    · rw [CacheEntries.lookup, hsame, heq]
      exact h.stored key
    · exact Or.inr hnone

/-- The removal of an expired entry is not seen. -/
theorem removeExpired (h : Stores entries now m) (hlookup : entries.lookup now key = none) :
    Stores entries now ((removeCall key).apply m) := by
  refine h.remove (fun _ => Or.inl rfl) fun key' => ?_
  by_cases hkey : key' = key
  · subst hkey
    exact Or.inr ⟨removeCall_apply_self key' m, hlookup⟩
  · exact Or.inl ⟨Function.update_of_ne
      (fun heq => hkey (PebbleCache.cacheKey_injective heq)) _ _, rfl⟩

theorem delete (h : Stores entries now m) (key : String) :
    Stores (Function.update entries key none) now ((removeCall key).apply m) := by
  refine h.remove (fun key' => ?_) fun key' => ?_
  · by_cases hkey : key' = key
    · subst hkey
      exact Or.inr (Function.update_self _ _ _)
    · exact Or.inl (Function.update_of_ne hkey _ _)
  · by_cases hkey : key' = key
    · subst hkey
      exact Or.inr ⟨removeCall_apply_self key' m,
        CacheEntries.lookup_of_none (Function.update_self _ _ _)⟩
    · exact Or.inl ⟨Function.update_of_ne (fun heq => hkey (PebbleCache.cacheKey_injective heq)) _ _,
        Function.update_of_ne hkey _ _⟩

/-- Some keys are removed from the map, and the entries with them. -/
theorem exists_restrict {m' : Contents} (h : Stores entries now m)
    (hkeys : ∀ key, m' key = m key ∨ m' key = none) :
    ∃ entries', (∀ key, entries' key = entries key ∨ entries' key = none) ∧
      Stores entries' now m' := by
  classical
  refine ⟨fun key => if m' (PebbleCache.cacheKey key) = m (PebbleCache.cacheKey key)
    then entries key else none, fun key => ite_eq_or_eq _ _ _, ?_⟩
  refine h.remove (fun key => ite_eq_or_eq _ _ _) fun key => ?_
  by_cases hsame : m' (PebbleCache.cacheKey key) = m (PebbleCache.cacheKey key)
  · exact Or.inl ⟨hsame, if_pos hsame⟩
  · exact Or.inr ⟨(hkeys _).resolve_left hsame, CacheEntries.lookup_of_none (if_neg hsame)⟩

end Stores

/-! ## Calls on a map -/

/-- A write that does not return is done or not. -/
inductive Tears (s : CacheState) : CacheRequest → Contents → Prop where
  | lost (call : Call) : Tears s (.write call) s.db
  | done (call : Call) : Tears s (.write call) (call.apply s.db)

section Map

variable {entries : CacheEntries} {s s' : CacheState} {m : Contents} {key value : String}

theorem Tears.of_write {call : Call} (h : Tears s (.write call) m) :
    m = s.db ∨ m = call.apply s.db := by
  cases h with
  | lost => exact Or.inl rfl
  | done => exact Or.inr rfl

/-- A program that ends with a write is cut off in it. -/
theorem cut_write {call : Call} {α : Type} {f : Reply → α}
    (h : (Program.ask (.write call) fun reply => .done (f reply)).Cut (Serves Returned) Tears s m) :
    m = s.db ∨ m = call.apply s.db := by
  rcases h.of_ask with htears | ⟨reply, t, -, hrest⟩
  · exact htears.of_write
  · exact hrest.of_done.elim

/-- What `get` returns; the entries are the same. -/
theorem Stores.runs_get (hstores : Stores entries s.clock s.db) {b : Res (Option String)}
    (h : (PebbleCache.get key).run.Runs (Serves Returned) s b s') :
    b = .ok (entries.lookup s.clock key) ∧ Stores entries s.clock s'.db := by
  cases hraw : s.db (PebbleCache.cacheKey key) with
  | none =>
    rw [PebbleCache.get_eq] at h
    obtain ⟨found, t, hserves, hrest⟩ := h.of_ask
    obtain ⟨rfl, rfl⟩ := hserves.of_get
    rw [hraw] at hrest
    obtain ⟨rfl, rfl⟩ := hrest.of_done
    rw [hstores.lookup_eq_none hraw]
    exact ⟨rfl, hstores⟩
  | some raw =>
    obtain ⟨entry, hentry, hfits, rfl⟩ := hstores.exists_entry hraw
    rcases PebbleDB.runs_get hfits hraw h with ⟨hexpired, reply, hremove, rfl⟩ | ⟨hlives, rfl, hs⟩
    · have hlookup : entries.lookup s.clock key = none :=
        CacheEntries.lookup_of_expired hentry hexpired
      obtain ⟨rfl, hdb⟩ := hremove.eq
      rw [hlookup, hdb]
      exact ⟨rfl, hstores.removeExpired hlookup⟩
    · rw [CacheEntries.lookup_of_lives hentry hlives, hs]
      exact ⟨rfl, hstores⟩

/-- The only write of `get` is the removal of an expired entry. -/
theorem Stores.cut_readEntry (hstores : Stores entries s.clock s.db) {entry : Nat × String}
    (hentry : entries key = some entry)
    (h : (PebbleCache.readEntry key entry.1 entry.2).Cut (Serves Returned) Tears s m) :
    Stores entries s.clock m := by
  rw [PebbleCache.readEntry] at h
  by_cases hzero : entry.1 = 0
  · rw [if_pos hzero] at h
    exact h.of_done.elim
  rw [if_neg hzero] at h
  rcases h.of_ask with htears | ⟨now, t, hserves, hrest⟩
  · cases htears
  obtain ⟨rfl, rfl⟩ := hserves.of_nowMs
  by_cases hnow : entry.1 ≤ t.clock
  · rw [if_pos hnow] at hrest
    rcases cut_write hrest with rfl | rfl
    · exact hstores
    · exact hstores.removeExpired (CacheEntries.lookup_of_expired hentry ⟨hzero, hnow⟩)
  · rw [if_neg hnow] at hrest
    exact hrest.of_done.elim

theorem Stores.cut_get (hstores : Stores entries s.clock s.db)
    (h : (PebbleCache.get key).run.Cut (Serves Returned) Tears s m) :
    Stores entries s.clock m := by
  rw [PebbleCache.get_eq] at h
  rcases h.of_ask with htears | ⟨found, t, hserves, hrest⟩
  · cases htears
  obtain ⟨rfl, rfl⟩ := hserves.of_get
  cases hraw : t.db (PebbleCache.cacheKey key) with
  | none =>
    rw [hraw] at hrest
    exact hrest.of_done.elim
  | some raw =>
    obtain ⟨entry, hentry, hfits, rfl⟩ := hstores.exists_entry hraw
    rw [hraw] at hrest
    dsimp only at hrest
    rw [PebbleCache.decode_encode hfits] at hrest
    exact hstores.cut_readEntry hentry hrest

/-- A `set` is cut off in the write of the entry. -/
theorem cut_set {ttl : Duration}
    (h : (PebbleCache.set key value ttl).run.Cut (Serves Returned) Tears s m) :
    m = s.db ∨ expiry ttl s.clock < 2 ^ 64 ∧
      m = (storeCall key value (expiry ttl s.clock)).apply s.db := by
  cases hzero : ttl.isZero with
  | true =>
    rw [PebbleCache.set_eq_of_isZero key value hzero] at h
    rw [expiry_of_isZero hzero]
    exact (cut_write h).imp_right fun heq => ⟨by decide, heq⟩
  | false =>
    rw [PebbleCache.set_eq key value hzero] at h
    rw [expiry_of_not_isZero hzero]
    rcases h.of_ask with htears | ⟨now, t, hserves, hrest⟩
    · cases htears
    obtain ⟨rfl, rfl⟩ := hserves.of_nowMs
    by_cases hover : 2 ^ 64 ≤ t.clock + asU64 ttl.asMillis
    · rw [if_pos hover] at hrest
      exact hrest.of_done.elim
    · rw [if_neg hover] at hrest
      exact (cut_write hrest).imp_right fun heq => ⟨not_le.mp hover, heq⟩

theorem delete_eq (key : String) : (PebbleCache.delete key).run =
    .ask (.write (removeCall key)) fun (reply : Reply) =>
      match reply with
      | .returned existed => .done (.ok (existed.getD false))
      | .failed e => .done (err e) := PebbleCache.run_write_bind _ _

theorem returned_delete {b : Res Bool}
    (h : (PebbleCache.delete key).run.Runs (Serves Returned) s b s') :
    b = .ok (s.db (PebbleCache.cacheKey key)).isSome ∧ s'.db = (removeCall key).apply s.db := by
  rw [delete_eq] at h
  obtain ⟨reply, t, hserves, hrest⟩ := h.of_ask
  obtain ⟨rfl, hdb⟩ := hserves.of_write.1.eq
  obtain ⟨rfl, rfl⟩ := hrest.of_done
  exact ⟨rfl, hdb⟩

theorem cut_delete (h : (PebbleCache.delete key).run.Cut (Serves Returned) Tears s m) :
    m = s.db ∨ m = (removeCall key).apply s.db := by
  rw [delete_eq] at h
  rcases h.of_ask with htears | ⟨reply, t, hserves, hrest⟩
  · exact htears.of_write
  · obtain ⟨rfl, -⟩ := hserves.of_write.1.eq
    exact hrest.of_done.elim

/-- The loop of `clear` is cut off behind some of the keys. -/
theorem cut_deleteAll {keys : List String}
    (h : (PebbleCache.deleteAll keys).run.Cut (Serves Returned) Tears s m) (key : String) :
    m key = s.db key ∨ m key = none := by
  have hdeleted : ∀ (first : String) (db : Contents),
      (Call.delete first).apply db key = db key ∨ (Call.delete first).apply db key = none := by
    intro first db
    rw [Call.apply, Function.update_apply]
    by_cases hkey : key = first
    · exact Or.inr (if_pos hkey)
    · exact Or.inl (if_neg hkey)
  induction keys generalizing s with
  | nil => exact h.of_done.elim
  | cons first keys ih =>
    rw [deleteAll_cons] at h
    rcases h.of_ask with htears | ⟨reply, t, hserves, hrest⟩
    · rcases htears.of_write with rfl | rfl
      · exact Or.inl rfl
      · exact hdeleted first s.db
    · obtain ⟨rfl, hdb⟩ := hserves.of_write.1.eq
      rcases ih hrest with hsame | hnone
      · rw [hsame, hdb]
        exact hdeleted first s.db
      · exact Or.inr hnone

theorem cut_clear (h : PebbleCache.clear.run.Cut (Serves Returned) Tears s m) (key : String) :
    m key = s.db key ∨ m key = none := by
  rw [clear_eq] at h
  rcases h.of_ask with htears | ⟨records, t, hserves, hrest⟩
  · cases htears
  obtain ⟨rfl, -, -⟩ := Serves.of_range hserves.allowed
  exact cut_deleteAll hrest key

/-- A `set` that fails has panicked before it wrote. -/
theorem runs_set_error {ttl : Duration} {e : Exit}
    (h : (PebbleCache.set key value ttl).run.Runs (Serves Returned) s (.error e) s') : s' = s := by
  have hwrite : ∀ {call : Call}, ¬ (Program.ask (.write call) fun reply =>
      .done (PebbleCache.afterWrite () reply)).Runs (Serves Returned) s (.error e) s' := by
    intro call hruns
    obtain ⟨reply, hstore, heq⟩ := Serves.of_store hruns
    obtain ⟨rfl, -⟩ := hstore.eq
    cases heq
  cases hzero : ttl.isZero with
  | true =>
    rw [PebbleCache.set_eq_of_isZero key value hzero] at h
    exact absurd h hwrite
  | false =>
    rw [PebbleCache.set_eq key value hzero] at h
    obtain ⟨now, t, hserves, hrest⟩ := h.of_ask
    obtain ⟨rfl, rfl⟩ := hserves.of_nowMs
    by_cases hover : 2 ^ 64 ≤ t.clock + asU64 ttl.asMillis
    · rw [if_pos hover] at hrest
      exact hrest.of_done.2
    · rw [if_neg hover] at hrest
      exact absurd hrest hwrite

theorem returned_clear {result : Res Unit}
    (h : PebbleCache.clear.run.Runs (Serves Returned) s result s') : result = .ok () := by
  rw [clear_eq] at h
  obtain ⟨records, t, -, hrest⟩ := h.of_ask
  generalize listedKeys records = keys at hrest
  induction keys generalizing t with
  | nil => exact hrest.of_done.1
  | cons key keys ih =>
    rw [deleteAll_cons] at hrest
    obtain ⟨reply, u, hserves, hrest⟩ := hrest.of_ask
    obtain ⟨rfl, -⟩ := hserves.of_write.1.eq
    exact ih u hrest

namespace Stores

/-- What a call returns and does, for the entries. -/
theorem exists_explains (hstores : Stores entries s.clock s.db) {call : CacheCall}
    {reply : CacheReply} (h : call.prog.Runs (Serves Returned) s (.ok reply) s') :
    ∃ entries', call.Explains s.clock entries reply entries' ∧
      Stores entries' s.clock s'.db := by
  cases call with
  | set key value ttl =>
    obtain ⟨result, hset, heq⟩ := h.of_map
    rcases runs_set hset with ⟨-, rfl⟩ | ⟨hfits, reply', hstore, rfl⟩
    · cases heq
    · obtain ⟨rfl, hdb⟩ := hstore.eq
      cases heq
      rw [hdb]
      exact ⟨_, .set key value ttl hfits, hstores.store hfits value⟩
  | get key =>
    obtain ⟨result, hget, heq⟩ := h.of_map
    obtain ⟨rfl, hstores'⟩ := hstores.runs_get hget
    cases heq
    exact ⟨entries, .get key, hstores'⟩
  | delete key =>
    obtain ⟨result, hdelete, heq⟩ := h.of_map
    obtain ⟨rfl, hdb⟩ := returned_delete hdelete
    cases heq
    rw [hdb]
    refine ⟨_, .delete key _ (fun hlives => ?_) fun hnone => ?_, hstores.delete key⟩
    · exact Option.isSome_iff_ne_none.mpr fun hmissing => hlives (hstores.lookup_eq_none hmissing)
    · cases hraw : s.db (PebbleCache.cacheKey key) with
      | none => rfl
      | some raw =>
        obtain ⟨entry, hentry, -⟩ := hstores.exists_entry hraw
        rw [hnone] at hentry
        cases hentry
  | «exists» key =>
    rw [CacheCall.prog, exists_eq] at h
    obtain ⟨found, hexists, heq⟩ := h.of_map
    obtain ⟨result, hget, rfl⟩ := hexists.of_map
    obtain ⟨rfl, hstores'⟩ := hstores.runs_get hget
    cases heq
    exact ⟨entries, .exists key, hstores'⟩
  | clear =>
    obtain ⟨result, hclear, heq⟩ := h.of_map
    obtain rfl := returned_clear hclear
    cases heq
    refine ⟨_, .clear, hstores.remove (fun _ => Or.inr rfl) fun key => Or.inr ⟨?_, rfl⟩⟩
    exact runs_clear (hclear.mono fun _ _ _ _ => Serves.allowed) (isCacheKey_cacheKey key)

end Stores

theorem CacheCall.Explains.leaves {now : Nat} {call : CacheCall} {reply : CacheReply}
    {entries' : CacheEntries} (h : call.Explains now entries reply entries') :
    call.Leaves now entries entries' := by
  cases h with
  | set key value ttl hfits => exact .set key value ttl hfits
  | get key => exact .nothing _
  | «exists» key => exact .nothing _
  | delete key found => exact .delete key
  | clear => exact .clear _ fun _ => Or.inr rfl

namespace Stores

/-- A process ends behind a call, before it has said what the call returned. -/
theorem exists_leaves (hstores : Stores entries s.clock s.db) {call : CacheCall}
    {result : Res CacheReply} (h : call.prog.Runs (Serves Returned) s result s') :
    ∃ entries', call.Leaves s.clock entries entries' ∧ Stores entries' s.clock s'.db := by
  cases result with
  | ok reply =>
    obtain ⟨entries', hexplains, hstores'⟩ := hstores.exists_explains h
    exact ⟨entries', hexplains.leaves, hstores'⟩
  | error e =>
    cases call with
    | set key value ttl =>
      obtain ⟨result, hset, heq⟩ := h.of_map
      cases result with
      | ok u => cases heq
      | error e' =>
        rw [runs_set_error hset]
        exact ⟨entries, .nothing _, hstores⟩
    | get key =>
      obtain ⟨result, hget, heq⟩ := h.of_map
      rw [(hstores.runs_get hget).1] at heq
      cases heq
    | delete key =>
      obtain ⟨result, hdelete, heq⟩ := h.of_map
      rw [(returned_delete hdelete).1] at heq
      cases heq
    | «exists» key =>
      rw [CacheCall.prog, exists_eq] at h
      obtain ⟨found, hexists, heq⟩ := h.of_map
      obtain ⟨result, hget, rfl⟩ := hexists.of_map
      rw [(hstores.runs_get hget).1] at heq
      cases heq
    | clear =>
      obtain ⟨result, hclear, heq⟩ := h.of_map
      rw [returned_clear hclear] at heq
      cases heq

/-- A process ends in the middle of a call. -/
theorem exists_leaves_cut (hstores : Stores entries s.clock s.db) {call : CacheCall}
    (h : call.prog.Cut (Serves Returned) Tears s m) :
    ∃ entries', call.Leaves s.clock entries entries' ∧ Stores entries' s.clock m := by
  cases call with
  | set key value ttl =>
    rcases cut_set h.of_map with rfl | ⟨hfits, rfl⟩
    · exact ⟨entries, .nothing _, hstores⟩
    · exact ⟨_, .set key value ttl hfits, hstores.store hfits value⟩
  | get key => exact ⟨entries, .nothing _, hstores.cut_get h.of_map⟩
  | delete key =>
    rcases cut_delete h.of_map with rfl | rfl
    · exact ⟨entries, .nothing _, hstores⟩
    · exact ⟨_, .delete key, hstores.delete key⟩
  | «exists» key =>
    rw [CacheCall.prog, exists_eq] at h
    exact ⟨entries, .nothing _, hstores.cut_get h.of_map.of_map⟩
  | clear =>
    obtain ⟨entries', hsome, hstores'⟩ := hstores.exists_restrict (cut_clear h.of_map)
    exact ⟨entries', .clear entries' hsome, hstores'⟩

end Stores

end Map

/-! ## Calls on a directory -/

section Store

variable [BloomSizing] {s s' : CacheWorld} {t : CacheState}

/-- The handle and its directory hold this map at this time. -/
def Serving (s : CacheWorld) (t : CacheState) : Prop := Live t.db s.world ∧ t.clock = s.clock

omit [BloomSizing] in
theorem Serving.under (h : Serving s t) (listing : Listing) (stop : Option Stop) :
    Live t.db (s.world.under listing stop) :=
  ⟨h.1.ready, h.1.answers, h.1.stands, h.1.fails⟩

theorem StoreServes.serves {req : CacheRequest} {answer : req.Answer} (hserving : Serving s t)
    (h : StoreServes s req answer s') : ∃ t', Serves Returned t req answer t' ∧ Serving s' t' := by
  obtain ⟨hlive, hclock⟩ := hserving
  cases h with
  | nowMs => exact ⟨t, hclock ▸ .nowMs, hlive, hclock⟩
  | @get key value h =>
    rw [hlive.answers key, Except.ok.injEq] at h
    exact ⟨t, h ▸ .get key, hlive, hclock⟩
  | @range start stop records h =>
    refine ⟨t, ?_, hlive, hclock⟩
    obtain ⟨records', hrange, hsorted, hmem⟩ :=
      DbInner.exists_range hlive.ready.sound.tablesHold start stop
    rw [h, Except.ok.injEq] at hrange
    subst hrange
    refine .range hsorted fun k v => ?_
    rw [hmem, hlive.answers k, Except.ok.injEq]
  | @write listing stop fuel call existed world h hrecord hfits =>
    obtain ⟨rfl, hlive'⟩ := (live_rules.wp_call fuel call hrecord
      (Serving.under ⟨hlive, hclock⟩ listing stop)).ok_of_eq h hfits
    exact ⟨{ t with db := call.apply t.db }, .write .returned, hlive', hclock⟩

theorem StoreCuts.tears {req : CacheRequest} {disk : Disk} (hserving : Serving s t)
    (h : StoreCuts s req disk) :
    ∃ m, Tears t req m ∧ (System.closed disk).Safe m := by
  cases h with
  | @write listing stop fuel call e world h hrecord hfits =>
    have hlive := hserving.under listing stop
    have hframe : (s.world.under listing stop).Frame world :=
      (along_call fuel call _).exit_of_eq h
    have hfails : ∀ name, world.disk.unlinkFails name = false := fun name => by
      rw [hframe.disk.unlinkFails]
      exact hlive.fails name
    rcases (live_rules.wp_call fuel call hrecord hlive).exit_of_eq h hfits with
      hdurable | hdurable
    · exact ⟨t.db, .lost call, hdurable, hfails⟩
    · exact ⟨_, .done call, hdurable, hfails⟩

theorem Serving.runs {α : Type} {p : Program CacheRequest CacheRequest.Answer α} {a : α}
    (hserving : Serving s t) (h : p.Runs StoreServes s a s') :
    ∃ t', p.Runs (Serves Returned) t a t' ∧ Serving s' t' :=
  (h.simulate (R := Serving) (E := fun _ => True) (fun _ _ _ _ _ _ => trivial)
    (fun _ _ _ _ _ hR _ hserves => hserves.serves hR) trivial).2 t hserving

/-- What holds between the steps. -/
def CacheSafe (entries : CacheEntries) (s : System × Nat) : Prop :=
  ∃ m, s.1.Safe m ∧ Stores entries s.2 m

theorem CacheSafe.step {entries : CacheEntries} {s s' : System × Nat} {label : CacheLabel}
    (h : CacheSafe entries s) (hstep : CacheStep s label s') :
    ∃ entries', label.Effect s'.2 entries entries' ∧ CacheSafe entries' s' := by
  obtain ⟨m, hsafe, hstores⟩ := h
  cases hstep with
  | ticks s hle => exact ⟨entries, .quiet, m, hsafe, hstores.later hle⟩
  | database clock hstep hfits =>
    obtain ⟨m', heffect, hsafe'⟩ := hsafe.step hstep hfits fun _ h => absurd h (Option.not_mem_none _)
    cases heffect
    exact ⟨entries, .quiet, m, hsafe', hstores⟩
  | @returns w w' clock call reply hruns =>
    have hserving : Serving ⟨w, clock⟩ ⟨m, clock⟩ := ⟨hsafe, rfl⟩
    obtain ⟨⟨m', _⟩, hcall, hlive, -⟩ := hserving.runs hruns
    obtain ⟨entries', hexplains, hstores'⟩ := Stores.exists_explains (s := ⟨m, clock⟩) hstores hcall
    exact ⟨entries', .returned hexplains, m', hlive, hstores'⟩
  | @ends w w' clock call result hruns =>
    have hserving : Serving ⟨w, clock⟩ ⟨m, clock⟩ := ⟨hsafe, rfl⟩
    obtain ⟨⟨m', _⟩, hcall, hlive, -⟩ := hserving.runs hruns
    obtain ⟨entries', hleaves, hstores'⟩ := Stores.exists_leaves (s := ⟨m, clock⟩) hstores hcall
    exact ⟨entries', .cutOff hleaves, m', ⟨Live.durable hlive, Live.fails hlive⟩, hstores'⟩
  | @cut w clock call disk hcut =>
    have hserving : Serving ⟨w, clock⟩ ⟨m, clock⟩ := ⟨hsafe, rfl⟩
    obtain ⟨m', hcall, hsafe'⟩ := hcut.simulate (R := Serving)
      (fun _ _ _ _ _ hR hserves => hserves.serves hR) (fun _ _ _ _ hR hcuts => hcuts.tears hR)
      hserving
    obtain ⟨entries', hleaves, hstores'⟩ := Stores.exists_leaves_cut (s := ⟨m, clock⟩) hstores hcall
    exact ⟨entries', .cutOff hleaves, m', hsafe', hstores'⟩

theorem CacheSafe.run {entries : CacheEntries} {s : System × Nat}
    {steps : List (CacheLabel × (System × Nat))} (h : CacheSafe entries s)
    (hrun : CacheSteps s steps) : CacheFollows entries steps := by
  induction hrun generalizing entries with
  | nil s => exact .nil entries
  | cons hstep _ ih =>
    obtain ⟨entries', heffect, hsafe⟩ := h.step hstep
    exact .cons heffect (ih hsafe)

end Store

/-- The cache on a directory that was empty, through any number of processes. -/
theorem cacheSteps_follow [BloomSizing] {disk : Disk} (hempty : disk.dir = ∅)
    (hfails : ∀ name, disk.unlinkFails name = false) (clock : Nat)
    {steps : List (CacheLabel × (System × Nat))}
    (hrun : CacheSteps (.closed disk, clock) steps) : CacheFollows (fun _ => none) steps := by
  have hsafe : CacheSafe (fun _ => none) (.closed disk, clock) :=
    ⟨fun _ => none, ⟨durable_empty hempty, hfails⟩, .empty clock⟩
  exact hsafe.run hrun

/-- A time to live of two milliseconds. -/
def twoMillis : Duration := { noTtl with nanos := 2000000, nanos_lt := by decide }

/-- An entry is set for two milliseconds, a second `set` stops in its record, and the next process
reads the entry before and after it has expired. -/
theorem cacheSteps_follow_reopened : ∃ w₁ w₂ disk₃ w₄ w₇,
    CacheFollows (fun _ => none) [(.quiet, .opened w₁, 1),
      (.returned (.set "k" "v" twoMillis) .done, .opened w₂, 1),
      (.cutOff (.set "k" "w" noTtl), .closed disk₃, 1), (.quiet, .opened w₄, 1),
      (.returned (.get "k") (.value (some "v")), .opened w₄, 1), (.quiet, .opened w₄, 9),
      (.returned (.get "k") (.value none), .opened w₇, 9)] := by
  let _ : BloomSizing := .ofSmall
  let listing := emptyDisk.listing
  have hrun : check (openWithOptions .default) (emptyDisk.under listing none)
      (fun db disk₁ => decide disk₁.Fits &&
        check (Call.run 3 (storeCall "k" "v" 3)) (World.under ⟨db, disk₁⟩ listing none)
          (fun existed w₂ => decide (existed = none ∧ w₂.disk.Fits) &&
            checkExit (Call.run 3 (storeCall "k" "w" 0)) (w₂.under listing (some ⟨0, 3⟩))
              (fun _ w₃ => decide w₃.disk.Fits &&
                check (openWithOptions .default) (w₃.disk.under listing none) (fun db disk₄ =>
                  decide (disk₄.Fits ∧ db.get (PebbleCache.cacheKey "k") =
                    .ok (some (PebbleCache.encode 3 "v"))) &&
                  check (Call.run 3 (removeCall "k")) (World.under ⟨db, disk₄⟩ listing none)
                    (fun _ w₇ => decide w₇.disk.Fits))))) = true := by
    decide +kernel
  obtain ⟨db, disk₁, hopen, htest⟩ := exists_of_check hrun
  obtain ⟨hfits₁, htest⟩ := Bool.and_eq_true_iff.mp htest
  obtain ⟨existed, w₂, hset, htest⟩ := exists_of_check htest
  obtain ⟨htest₂, hrest⟩ := Bool.and_eq_true_iff.mp htest
  obtain ⟨rfl, hfits₂⟩ := of_decide_eq_true htest₂
  obtain ⟨e, w₃, hcut, htest⟩ := exists_of_checkExit hrest
  obtain ⟨hfits₃, htest⟩ := Bool.and_eq_true_iff.mp htest
  obtain ⟨db₄, disk₄, hopen₄, htest⟩ := exists_of_check htest
  obtain ⟨htest₄, htest⟩ := Bool.and_eq_true_iff.mp htest
  obtain ⟨hfits₄, hentry⟩ := of_decide_eq_true htest₄
  obtain ⟨existed₇, w₇, hremove, htest₇⟩ := exists_of_check htest
  have hrecord : ∀ record ∈ (storeCall "k" "v" 3).record?, record.Fits := by decide +kernel
  have hrecord₃ : ∀ record ∈ (storeCall "k" "w" 0).record?, record.Fits := by decide +kernel
  have hrecord₇ : ∀ record ∈ (removeCall "k").record?, record.Fits := by decide +kernel
  have hstored : (PebbleCache.set "k" "v" twoMillis).run.Runs StoreServes
      ⟨⟨db, disk₁⟩, 1⟩ (.ok ()) ⟨w₂, 1⟩ := by
    rw [PebbleCache.set_eq "k" "v" (show twoMillis.isZero = false by decide)]
    refine .ask .nowMs ?_
    rw [if_neg (show ¬ 2 ^ 64 ≤ 1 + asU64 twoMillis.asMillis by decide)]
    exact .ask (.write listing none 3 hset hrecord hfits₂) (.done _ _)
  have hlost : (PebbleCache.set "k" "w" noTtl).run.Cut StoreServes StoreCuts ⟨w₂, 1⟩ w₃.disk := by
    rw [PebbleCache.set_eq_of_isZero "k" "w" (rfl : noTtl.isZero = true)]
    exact .here (.write listing (some ⟨0, 3⟩) 3 hcut hrecord₃ (of_decide_eq_true hfits₃))
  have hread : ∀ {now : Nat} {reply : Option String} {s : CacheWorld},
      (PebbleCache.readEntry "k" 3 "v").Runs StoreServes ⟨⟨db₄, disk₄⟩, now⟩ (.ok reply) s →
      (PebbleCache.get "k").run.Runs StoreServes ⟨⟨db₄, disk₄⟩, now⟩ (.ok reply) s := by
    intro now reply s h
    rw [PebbleCache.get_eq]
    refine .ask (.get hentry) ?_
    dsimp only
    rw [PebbleCache.decode_encode (by decide)]
    exact h
  have hhit : (PebbleCache.get "k").run.Runs StoreServes ⟨⟨db₄, disk₄⟩, 1⟩ (.ok (some "v"))
      ⟨⟨db₄, disk₄⟩, 1⟩ := hread (.ask .nowMs (.done _ _))
  have hmiss : (PebbleCache.get "k").run.Runs StoreServes ⟨⟨db₄, disk₄⟩, 9⟩ (.ok none) ⟨w₇, 9⟩ := by
    refine hread (.ask .nowMs ?_)
    exact .ask (.write listing none 3 hremove hrecord₇ (of_decide_eq_true htest₇))
      (.done _ _)
  refine ⟨⟨db, disk₁⟩, w₂, w₃.disk, ⟨db₄, disk₄⟩, w₇,
    @cacheSteps_follow .ofSmall emptyDisk rfl (fun _ => rfl) 1 _ ?_⟩
  exact .cons (.database 1 (.opens _ _ _ _ _ _ hopen) (of_decide_eq_true hfits₁))
    (.cons (.returns (hstored.map _)) (.cons (.cut (hlost.map _))
    (.cons (.database 1 (.opens _ _ _ _ _ _ hopen₄) hfits₄)
    (.cons (.returns (hhit.map _)) (.cons (.ticks _ (by decide))
    (.cons (.returns (hmiss.map _)) (.nil _)))))))

end PebbleDB
