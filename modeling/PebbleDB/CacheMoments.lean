import PebbleDB.CacheNamespace

/-!
# What the calls of the cache see

Any number of calls run at the same time. Each that returns `Ok` has, for every key it is about, one
step of its own at which it takes effect: what it found is what was there then, and what it leaves is
there right afterwards (`CacheCall.acts`). What `get` gives was stored by a `set` of the key
(`get_stored`), and what `delete` or `clear` has removed does not come back (`removed_stays`).
-/

namespace PebbleDB

open Interleaving

/-- What is under a key of the cache at this time. -/
def CacheState.lookup (s : CacheState) (key : String) : Option String :=
  (s.db (PebbleCache.cacheKey key)).bind fun raw =>
    match PebbleCache.decode raw with
    | .error _ => none
    | .ok (expiresAt, value) => if Expired expiresAt s.clock then none else some value

theorem CacheState.lookup_of_none {s : CacheState} {key : String}
    (h : s.db (PebbleCache.cacheKey key) = none) : s.lookup key = none := by
  simp [lookup, h]

theorem CacheState.lookup_of_entry {s : CacheState} {key raw value : String} {expiresAt : Nat}
    (h : s.db (PebbleCache.cacheKey key) = some raw)
    (hdecode : PebbleCache.decode raw = .ok (expiresAt, value)) :
    s.lookup key = if Expired expiresAt s.clock then none else some value := by
  simp [lookup, h, hdecode]

/-- The keys a call is about. -/
def CacheCall.On : CacheCall → String → Prop
  | set key _ _, key' => key' = key
  | get key, key' => key' = key
  | delete key, key' => key' = key
  | «exists» key, key' => key' = key
  | clear, _ => True

/-- How a call takes effect on a key that has been started at this time and returns this. -/
inductive CacheCall.Acts (started : Nat) (before after : CacheState) (key : String) :
    CacheCall → CacheReply → Prop where
  | set {value : String} {ttl : Duration} {now : Nat} (hstarted : started ≤ now)
      (hnow : now ≤ after.clock) (hfits : expiry ttl now < 2 ^ 64)
      (hentry : after.db (PebbleCache.cacheKey key) =
        some (PebbleCache.encode (expiry ttl now) value)) :
      Acts started before after key (.set key value ttl) .done
  | get : Acts started before after key (.get key) (.value (after.lookup key))
  | delete (hentry : after.db (PebbleCache.cacheKey key) = none) :
      Acts started before after key (.delete key)
        (.found (before.db (PebbleCache.cacheKey key)).isSome)
  | «exists» : Acts started before after key (.exists key) (.found (after.lookup key).isSome)
  | clear (hentry : after.db (PebbleCache.cacheKey key) = none) :
      Acts started before after key .clear .done

/-! ## The answers of a call that has returned -/

section Histories

variable {key value : String} {history : List (Exchange CacheRequest CacheRequest.Answer)}

theorem exists_of_map_eq_ok {α β : Type} {f : α → β} {result : Res α} {b : β}
    (h : result.map f = .ok b) : ∃ a, result = .ok a ∧ f a = b := by
  cases result with
  | ok a => exact ⟨a, rfl, Except.ok.inj h⟩
  | error e => cases h

theorem afterWrite_eq_ok {α : Type} {a b : α} {reply : Reply}
    (h : PebbleCache.afterWrite a reply = .ok b) : b = a ∧ ∃ existed, reply = .returned existed := by
  cases reply with
  | returned existed => exact ⟨(Except.ok.inj h).symm, existed, rfl⟩
  | failed e => cases h

/-- A `set` ends with the write that stores the entry. -/
theorem set_history {ttl : Duration} {u : Unit}
    (h : (PebbleCache.set key value ttl).run.Resumes history (.done (.ok u))) :
    ∃ earlier now existed, expiry ttl now < 2 ^ 64 ∧
      history = earlier ++ [⟨.write (storeCall key value (expiry ttl now)), .returned existed⟩] ∧
      (ttl.isZero = true ∧ earlier = [] ∨ earlier = [⟨.nowMs, now⟩]) := by
  have hlast : ∀ {expiresAt : Nat} {history : List (Exchange CacheRequest CacheRequest.Answer)},
      (Program.ask (.write (storeCall key value expiresAt)) fun reply =>
        .done (PebbleCache.afterWrite () reply)).Resumes history (.done (.ok u)) →
      ∃ existed, history = [⟨.write (storeCall key value expiresAt), .returned existed⟩] := by
    intro expiresAt history h
    rcases h.of_ask with ⟨-, hrest⟩ | ⟨reply, later, rfl, hlater⟩
    · cases hrest
    · obtain ⟨rfl, hresult⟩ := hlater.of_done
      obtain ⟨-, existed, rfl⟩ := afterWrite_eq_ok (Program.done.inj hresult).symm
      exact ⟨existed, rfl⟩
  cases hzero : ttl.isZero with
  | true =>
    rw [PebbleCache.set_eq_of_isZero key value hzero] at h
    obtain ⟨existed, rfl⟩ := hlast h
    refine ⟨[], 0, existed, ?_, ?_, Or.inl ⟨rfl, rfl⟩⟩
    · rw [expiry_of_isZero hzero]
      decide
    · rw [expiry_of_isZero hzero]
      rfl
  | false =>
    rw [PebbleCache.set_eq key value hzero] at h
    rcases h.of_ask with ⟨-, hrest⟩ | ⟨now, later, rfl, hlater⟩
    · cases hrest
    · by_cases hfits : 2 ^ 64 ≤ (now : Nat) + asU64 ttl.asMillis
      · rw [if_pos hfits] at hlater
        cases hlater.of_done.2
      · rw [if_neg hfits, ← expiry_of_not_isZero hzero] at hlater
        obtain ⟨existed, rfl⟩ := hlast hlater
        refine ⟨[⟨.nowMs, now⟩], now, existed, ?_, rfl, Or.inr rfl⟩
        rw [expiry_of_not_isZero hzero]
        exact not_le.mp hfits

/-- A `delete` is one write. -/
theorem delete_history {found : Bool}
    (h : (PebbleCache.delete key).run.Resumes history (.done (.ok found))) :
    ∃ existed, history = [⟨.write (removeCall key), .returned existed⟩] ∧
      found = existed.getD false := by
  rw [PebbleCache.delete, PebbleCache.run_write_bind] at h
  rcases h.of_ask with ⟨-, hrest⟩ | ⟨reply, later, rfl, hlater⟩
  · cases hrest
  · cases (reply : Reply) with
    | returned existed =>
      obtain ⟨rfl, hresult⟩ := hlater.of_done
      exact ⟨existed, rfl, (Except.ok.inj (Program.done.inj hresult))⟩
    | failed e => cases hlater.of_done.2

/-- The loop of `clear` writes each of its keys. -/
theorem deleteAll_history {keys : List String} {u : Unit}
    (h : (PebbleCache.deleteAll keys).run.Resumes history (.done (.ok u))) :
    ∀ key ∈ keys, ∃ earlier later existed,
      history = earlier ++ ⟨.write (.delete key), .returned existed⟩ :: later := by
  induction keys generalizing history with
  | nil => exact fun key hkey => absurd hkey List.not_mem_nil
  | cons first keys ih =>
    intro key hkey
    rw [deleteAll_cons] at h
    rcases h.of_ask with ⟨-, hrest⟩ | ⟨reply, history, rfl, hlater⟩
    · cases hrest
    · cases (reply : Reply) with
      | failed e => cases hlater.of_done.2
      | returned existed =>
        rcases List.mem_cons.mp hkey with rfl | hkey
        · exact ⟨[], history, existed, rfl⟩
        · obtain ⟨earlier, later, existed', rfl⟩ := ih hlater key hkey
          exact ⟨_ :: earlier, later, existed', rfl⟩

/-- A `clear` lists the keys and deletes them. -/
theorem clear_history {u : Unit} (h : PebbleCache.clear.run.Resumes history (.done (.ok u))) :
    ∃ records later, history =
        ⟨.range (.included (String.ofList PebbleCache.keyPrefix)) .unbounded, records⟩ :: later ∧
      (PebbleCache.deleteAll (listedKeys records)).run.Resumes later (.done (.ok u)) := by
  rw [clear_eq] at h
  rcases h.of_ask with ⟨-, hrest⟩ | ⟨records, later, rfl, hlater⟩
  · cases hrest
  · exact ⟨records, later, rfl, hlater⟩

end Histories

/-- What `clear` does not list has no value. -/
theorem Serves.none_of_not_listed {s s' : CacheState} {records : List (String × String)}
    (h : Serves Allowed s (.range (.included (String.ofList PebbleCache.keyPrefix)) .unbounded)
      records s') {key : String} (hkey : IsCacheKey key) (hlisted : key ∉ listedKeys records) :
    s'.db key = none := by
  obtain ⟨rfl, hsorted, hmem⟩ := Serves.of_range h
  by_contra hne
  obtain ⟨value, hvalue⟩ := Option.ne_none_iff_exists'.mp hne
  refine hlisted (mem_takeWhile_of_isCacheKey (List.pairwise_map.mpr hsorted) ?_ ?_ hkey)
  · intro key' hkey'
    obtain ⟨⟨k, v⟩, hrecord, rfl⟩ := List.mem_map.mp hkey'
    exact ((hmem k v).mp hrecord).1.1
  · exact List.mem_map.mpr ⟨(key, value), (hmem key value).mpr ⟨⟨hkey.starts, trivial⟩, hvalue⟩, rfl⟩

theorem Serves.of_returned {s s' : CacheState} {call : Call} {existed : Option Bool}
    (h : Serves Allowed s (.write call) (.returned existed) s') :
    existed = call.reply s.db ∧ s'.db = call.apply s.db := by
  obtain ⟨hallowed, -⟩ := h.of_write
  generalize s'.db = m at hallowed ⊢
  cases hallowed
  exact ⟨rfl, rfl⟩

theorem removeCall_apply_self (key : String) (m : Contents) :
    (removeCall key).apply m (PebbleCache.cacheKey key) = none := Function.update_self _ _ _

/-! ## The moment of a call -/

section Moments

variable {ι : Type} [DecidableEq ι] {allowed : CachePool CacheState ι → CacheEvent ι → Prop}
  {p called q : CachePool CacheState ι} {i : ι} {call : CacheCall} {key : String}

/-- A step that a thread makes in its call, within a run of the cache. -/
abbrev CacheMoment {ι : Type} [DecidableEq ι]
    (allowed : CachePool CacheState ι → CacheEvent ι → Prop) :=
  Moment CacheCall.prog (Serves Allowed) Ticks allowed

theorem run_clock_le (h : CacheRun allowed p q) : p.shared.clock ≤ q.shared.clock := by
  apply h.invariant
  · intro q e r hstep _ hle
    exact hle.trans (clock_le hstep)
  · exact le_rfl

/-- A clock reading after the moment. -/
theorem clock_le_reading (m : CacheMoment allowed p q i)
    {t : Thread CacheCall CacheRequest CacheRequest.Answer (Res CacheReply)}
    (ht : q.thread i = some t) {earlier later : List (Exchange CacheRequest CacheRequest.Answer)}
    {now : Nat} (hhistory : t.history = earlier ++ ⟨.nowMs, now⟩ :: later)
    (hafter : ∀ t, m.after.thread i = some t → t.history = earlier) :
    m.after.shared.clock ≤ now := by
  obtain ⟨m', hserved, -⟩ := m.run_after.exists_moment ht hhistory
    fun t ht => (congrArg List.length (hafter t ht)).le
  rw [show now = _ from hserved.of_nowMs.1]
  exact run_clock_le m'.run_before

variable {t : Thread CacheCall CacheRequest CacheRequest.Answer (Res CacheReply)}

/-- A thread that had no answer when the run began has got each of its answers in a moment. -/
theorem exists_moment (hrun : CacheRun allowed p q)
    (hfresh : ∀ t, p.thread i = some t → t.history = []) (ht : q.thread i = some t)
    {earlier later : List (Exchange CacheRequest CacheRequest.Answer)}
    {x : Exchange CacheRequest CacheRequest.Answer} (hhistory : t.history = earlier ++ x :: later) :
    ∃ m : CacheMoment allowed p q i, Serves Allowed m.before.shared x.1 x.2 m.after.shared ∧
      ∀ t, m.after.thread i = some t → t.history = earlier ++ [x] :=
  hrun.exists_moment ht hhistory fun t ht => by simp [hfresh t ht]

theorem exists_moment_set (hrun : CacheRun allowed p q)
    (hfresh : ∀ t, p.thread i = some t → t.history = []) (ht : q.thread i = some t) {value : String}
    {ttl : Duration} {u : Unit}
    (h : (PebbleCache.set key value ttl).run.Resumes t.history (.done (.ok u))) :
    ∃ m : CacheMoment allowed p q i,
      CacheCall.Acts p.shared.clock m.before.shared m.after.shared key (.set key value ttl) .done := by
  obtain ⟨earlier, now, existed, hfits, hhistory, hearlier⟩ := set_history h
  obtain ⟨m, hserved, -⟩ := exists_moment hrun hfresh ht hhistory
  have hentry : m.after.shared.db (PebbleCache.cacheKey key) =
      some (PebbleCache.encode (expiry ttl now) value) := by
    rw [hserved.of_returned.2]
    exact storeCall_apply_self _ _
  rcases hearlier with ⟨hzero, -⟩ | rfl
  · rw [expiry_of_isZero hzero, ← expiry_of_isZero hzero m.before.shared.clock] at hfits hentry
    exact ⟨m, .set (run_clock_le m.run_before) hserved.of_write.2.ge hfits hentry⟩
  · obtain ⟨m', hserved', hafter⟩ := exists_moment hrun hfresh ht
      (show t.history = [] ++ ⟨.nowMs, now⟩ :: [_] from hhistory)
    obtain ⟨m'', hserved'', -⟩ := m'.run_after.exists_moment ht hhistory
      fun t ht => (congrArg List.length (hafter t ht)).le
    have hnow : now = m'.before.shared.clock := hserved'.of_nowMs.1
    have hstarted := hnow ▸ run_clock_le m'.run_before
    have hle : now ≤ m''.after.shared.clock := by
      rw [hnow, ← hserved'.clock_le]
      exact run_clock_le m''.run
    refine ⟨m''.earlier m'.run, .set hstarted hle hfits ?_⟩
    show m''.after.shared.db _ = _
    rw [hserved''.of_returned.2]
    exact storeCall_apply_self _ _

theorem exists_moment_get (hrun : CacheRun allowed p q)
    (hfresh : ∀ t, p.thread i = some t → t.history = []) (ht : q.thread i = some t)
    {result : Option String}
    (h : (PebbleCache.get key).run.Resumes t.history (.done (.ok result))) :
    ∃ m : CacheMoment allowed p q i, m.after.shared.lookup key = result := by
  generalize hhistory : t.history = history at h
  generalize hrest : (Program.done (.ok result) : Program CacheRequest CacheRequest.Answer
    (Res (Option String))) = rest at h
  cases getAt h with
  | reading => cases hrest
  | corrupt => cases hrest
  | missed =>
    obtain ⟨m, hserved, -⟩ := exists_moment hrun hfresh ht
      (show t.history = [] ++ _ :: [] from hhistory)
    obtain ⟨hentry, hsame⟩ := hserved.of_get
    refine ⟨m, ?_⟩
    rw [hsame, CacheState.lookup_of_none hentry.symm]
    exact (Except.ok.inj (Program.done.inj hrest)).symm
  | entry raw expiresAt value hdecode hat =>
    obtain ⟨m, hserved, hafter⟩ := exists_moment hrun hfresh ht
      (show t.history = [] ++ _ :: _ from hhistory)
    obtain ⟨hentry, hsame⟩ := hserved.of_get
    have hlookup := CacheState.lookup_of_entry hentry.symm hdecode
    cases hat with
    | asking => cases hrest
    | removing => cases hrest
    | unlimited hzero =>
      refine ⟨m, ?_⟩
      rw [hsame, hlookup, if_neg fun hexpired => hexpired.1 hzero]
      exact (Except.ok.inj (Program.done.inj hrest)).symm
    | fresh now hnow =>
      have hle := clock_le_reading m ht (show t.history = _ ++ _ :: [] from hhistory) hafter
      refine ⟨m, ?_⟩
      rw [hsame] at hle
      rw [hsame, hlookup, if_neg fun hexpired => hnow (hexpired.2.trans hle)]
      exact (Except.ok.inj (Program.done.inj hrest)).symm
    | removed now hexpired reply =>
      obtain ⟨rfl, existed, rfl⟩ := afterWrite_eq_ok (Program.done.inj hrest).symm
      obtain ⟨m', hserved', -⟩ := exists_moment hrun hfresh ht
        (show t.history = [_, _] ++ _ :: [] from hhistory)
      refine ⟨m', CacheState.lookup_of_none ?_⟩
      rw [hserved'.of_returned.2]
      exact removeCall_apply_self key _

theorem exists_moment_delete (hrun : CacheRun allowed p q)
    (hfresh : ∀ t, p.thread i = some t → t.history = []) (ht : q.thread i = some t) {found : Bool}
    (h : (PebbleCache.delete key).run.Resumes t.history (.done (.ok found))) :
    ∃ m : CacheMoment allowed p q i, CacheCall.Acts p.shared.clock m.before.shared m.after.shared
      key (.delete key) (.found found) := by
  obtain ⟨existed, hhistory, rfl⟩ := delete_history h
  obtain ⟨m, hserved, -⟩ := exists_moment hrun hfresh ht
    (show t.history = [] ++ _ :: [] from hhistory)
  obtain ⟨rfl, hdb⟩ := hserved.of_returned
  refine ⟨m, .delete ?_⟩
  rw [hdb]
  exact removeCall_apply_self key _

/-- A key of the cache is deleted in the loop of `clear`, or was not there when it listed the keys. -/
theorem exists_moment_clear (hrun : CacheRun allowed p q)
    (hfresh : ∀ t, p.thread i = some t → t.history = []) (ht : q.thread i = some t) {u : Unit}
    (h : PebbleCache.clear.run.Resumes t.history (.done (.ok u))) (key : String) :
    ∃ m : CacheMoment allowed p q i, CacheCall.Acts p.shared.clock m.before.shared m.after.shared
      key .clear .done := by
  obtain ⟨records, later, hhistory, hdeleted⟩ := clear_history h
  by_cases hlisted : PebbleCache.cacheKey key ∈ listedKeys records
  · obtain ⟨earlier', later', existed, rfl⟩ := deleteAll_history hdeleted _ hlisted
    obtain ⟨m, hserved, -⟩ := exists_moment hrun hfresh ht
      (show t.history = (_ :: earlier') ++ _ :: later' from hhistory)
    refine ⟨m, .clear ?_⟩
    rw [hserved.of_returned.2]
    exact removeCall_apply_self key _
  · obtain ⟨m, hserved, -⟩ := exists_moment hrun hfresh ht
      (show t.history = [] ++ _ :: later from hhistory)
    exact ⟨m, .clear (hserved.none_of_not_listed (isCacheKey_cacheKey key) hlisted)⟩

/-- A call that returns `Ok` takes effect on each key it is about in one of its steps. -/
theorem CacheCall.acts
    (hstart : Interleaving.Step CacheCall.prog (Serves Allowed) Ticks p (.start i call) called)
    (hrun : CacheRun allowed called q) (ht : q.thread i = some t) {reply : CacheReply}
    (hdone : t.rest = .done (.ok reply)) (hkey : call.On key) :
    ∃ m : CacheMoment allowed called q i,
      Acts p.shared.clock m.before.shared m.after.shared key call reply := by
  have hfresh : ∀ t, called.thread i = some t → t.history = [] := fun t => hstart.history_of_start
  have hclock : called.shared.clock = p.shared.clock := by rw [hstart.of_start.2, Pool.put_shared]
  obtain ⟨-, hresumes⟩ := hrun.resumes_of_start hstart ht
  rw [hdone] at hresumes
  rw [← hclock]
  cases call with
  | set key' value ttl =>
    obtain rfl : key = key' := hkey
    obtain ⟨result, hrest, heq⟩ := hresumes.of_map_done
    obtain ⟨u, rfl, rfl⟩ := exists_of_map_eq_ok heq
    exact exists_moment_set hrun hfresh ht hrest
  | get key' =>
    obtain rfl : key = key' := hkey
    obtain ⟨result, hrest, heq⟩ := hresumes.of_map_done
    obtain ⟨value, rfl, rfl⟩ := exists_of_map_eq_ok heq
    obtain ⟨m, rfl⟩ := exists_moment_get hrun hfresh ht hrest
    exact ⟨m, .get⟩
  | delete key' =>
    obtain rfl : key = key' := hkey
    obtain ⟨result, hrest, heq⟩ := hresumes.of_map_done
    obtain ⟨found, rfl, rfl⟩ := exists_of_map_eq_ok heq
    exact exists_moment_delete hrun hfresh ht hrest
  | «exists» key' =>
    obtain rfl : key = key' := hkey
    rw [prog, exists_eq] at hresumes
    obtain ⟨result, hrest, heq⟩ := hresumes.of_map_done
    obtain ⟨found, rfl, rfl⟩ := exists_of_map_eq_ok heq
    obtain ⟨result, hget, heq⟩ := hrest.of_map_done
    obtain ⟨value, rfl, rfl⟩ := exists_of_map_eq_ok heq
    obtain ⟨m, rfl⟩ := exists_moment_get hrun hfresh ht hget
    exact ⟨m, .exists⟩
  | clear =>
    obtain ⟨result, hrest, heq⟩ := hresumes.of_map_done
    obtain ⟨u, rfl, rfl⟩ := exists_of_map_eq_ok heq
    exact exists_moment_clear hrun hfresh ht hrest key

end Moments

/-- One entry that does not expire, and no call. -/
def oneEntry : CachePool CacheState Nat :=
  ⟨⟨Function.update (fun _ => none) (PebbleCache.cacheKey "k") (some (PebbleCache.encode 0 "v")), 1⟩,
    fun _ => none⟩

/-- A call may come to its end with no other call in between. -/
theorem exists_run_of_runs {p : CachePool CacheState Nat} {i : Nat} {call : CacheCall}
    {result : Res CacheReply} {s : CacheState}
    (h : call.prog.Runs (Serves Allowed) p.shared result s)
    {allowed : CachePool CacheState Nat → CacheEvent Nat → Prop}
    (hallowed : ∀ q req answer, allowed q (.answer i req answer)) :
    ∃ q t, CacheRun allowed (p.put i ⟨call, [], call.prog⟩ p.shared) q ∧ q.thread i = some t ∧
      t.call = call ∧ t.rest = .done result ∧ q.shared = s ∧
      ∀ j, j ≠ i → q.thread j = p.thread j := by
  obtain ⟨q, t, hrun, ht, hcall, -, hrest, hshared, hother⟩ := Interleaving.Run.of_runs
    (Pool.put_thread_self p i ⟨call, [], call.prog⟩ p.shared) h hallowed
  refine ⟨q, t, hrun, ht, hcall, hrest, hshared, fun j hj => ?_⟩
  rw [hother j hj]
  exact Pool.put_thread_of_ne _ hj _ _

theorem runs_delete (s : CacheState) (key : String) :
    (CacheCall.delete key).prog.Runs (Serves Allowed) s
      (.ok (.found (s.db (PebbleCache.cacheKey key)).isSome))
      { s with db := (removeCall key).apply s.db } := by
  have hdelete : (PebbleCache.delete key).run.Runs (Serves Allowed) s
      (.ok (s.db (PebbleCache.cacheKey key)).isSome)
      { s with db := (removeCall key).apply s.db } := by
    rw [PebbleCache.delete, PebbleCache.run_write_bind]
    exact .ask (.write .returned) (.done _ _)
  exact hdelete.map _

/-- A `delete` of the entry. -/
theorem CacheCall.acts_delete : ∃ (called q : CachePool CacheState Nat)
    (m : CacheMoment (fun _ _ => True) called q 0),
    Acts 1 m.before.shared m.after.shared "k" (.delete "k") (.found true) := by
  obtain ⟨q, t, hrun, ht, -, hrest, -⟩ := @exists_run_of_runs oneEntry 0 _ _ _
    (runs_delete oneEntry.shared "k") (fun _ _ => True) fun _ _ _ => trivial
  exact ⟨_, q, CacheCall.acts (.start _ rfl) hrun ht hrest rfl⟩

section Moments

variable {ι : Type} [DecidableEq ι] {allowed : CachePool CacheState ι → CacheEvent ι → Prop}
  {p q : CachePool CacheState ι} {i : ι} {call : CacheCall} {key : String}
  {t : Thread CacheCall CacheRequest CacheRequest.Answer (Res CacheReply)}

/-! ## Where an entry comes from -/

/-- The request stores nothing. -/
def StoresNothing : CacheRequest → Prop
  | .write (.set ..) => False
  | _ => True

theorem get_stores_nothing (key : String) : (PebbleCache.get key).run.Asks StoresNothing := by
  rw [PebbleCache.get_eq]
  refine ⟨trivial, fun (raw : Option String) => ?_⟩
  cases raw with
  | none => trivial
  | some raw =>
    dsimp only
    cases PebbleCache.decode raw with
    | error e => trivial
    | ok entry =>
      dsimp only
      rw [PebbleCache.readEntry]
      split
      · trivial
      · refine ⟨trivial, fun (now : Nat) => ?_⟩
        dsimp only
        split
        · exact ⟨trivial, fun _ => trivial⟩
        · trivial

theorem deleteAll_stores_nothing (keys : List String) :
    (PebbleCache.deleteAll keys).run.Asks StoresNothing := by
  induction keys with
  | nil => trivial
  | cons key keys ih =>
    rw [deleteAll_cons]
    refine ⟨trivial, fun reply => ?_⟩
    cases (reply : Reply) with
    | returned _ => exact ih
    | failed _ => trivial

/-- Only a `set` stores an entry. -/
theorem CacheCall.set_of_store {history : List (Exchange CacheRequest CacheRequest.Answer)}
    {stored raw : String}
    {next : Reply → Program CacheRequest CacheRequest.Answer (Res CacheReply)}
    (h : call.prog.Resumes history (.ask (.write (.set stored raw)) next)) :
    ∃ key value ttl now, call = .set key value ttl ∧ stored = PebbleCache.cacheKey key ∧
      expiry ttl now < 2 ^ 64 ∧ (ttl.isZero = true ∨ ⟨.nowMs, now⟩ ∈ history) ∧
      raw = PebbleCache.encode (expiry ttl now) value := by
  have hnothing : ¬ call.prog.Asks StoresNothing := fun hasks => (hasks.of_resumes h).1
  cases call with
  | set key value ttl =>
    obtain ⟨rest, hrest, heq⟩ := h.of_map
    obtain ⟨next', rfl, -⟩ := Program.map_eq_ask heq.symm
    rcases set_ask hrest with heq | ⟨hfits, hreading, heq⟩
    · cases (Program.ask.inj heq).1
    · obtain ⟨hkey, hraw⟩ := Call.set.inj (CacheRequest.write.inj (Program.ask.inj heq).1)
      exact ⟨key, value, ttl, _, rfl, hkey, hfits, hreading, hraw⟩
  | get key => exact absurd ((get_stores_nothing key).map _) hnothing
  | delete key =>
    refine absurd (Program.Asks.map ?_ _) hnothing
    rw [PebbleCache.delete, PebbleCache.run_write_bind]
    refine ⟨trivial, fun reply => ?_⟩
    cases (reply : Reply) <;> trivial
  | «exists» key =>
    refine absurd ?_ hnothing
    rw [prog, exists_eq]
    exact ((get_stores_nothing key).map _).map _
  | clear =>
    refine absurd (Program.Asks.map ?_ _) hnothing
    rw [clear_eq]
    exact ⟨trivial, fun _ => deleteAll_stores_nothing _⟩

/-- A `set` of the pool has stored this value with this expiration time, which its own reading of the
clock gives (or no reading, if the time to live is zero). -/
def SetBy (p : CachePool CacheState ι) (key value : String) (expiresAt : Nat) : Prop :=
  ∃ i t ttl now reply, p.thread i = some t ∧ t.call = .set key value ttl ∧
    (ttl.isZero = true ∨ ⟨.nowMs, now⟩ ∈ t.history) ∧ expiresAt = expiry ttl now ∧
    ⟨.write (storeCall key value expiresAt), reply⟩ ∈ t.history

/-- Every entry was there at the start or is of a `set` in the pool. -/
structure Stored (start : Contents) (p : CachePool CacheState ι) : Prop where
  resumed : p.Resumed CacheCall.prog
  stored : ∀ key raw, p.shared.db (PebbleCache.cacheKey key) = some raw →
    start (PebbleCache.cacheKey key) = some raw ∨ ∃ value expiresAt, expiresAt < 2 ^ 64 ∧
      raw = PebbleCache.encode expiresAt value ∧ SetBy p key value expiresAt

variable {e : CacheEvent ι} {start : Contents}

theorem SetBy.step {value : String} {expiresAt : Nat} (h : SetBy p key value expiresAt)
    (hstep : Interleaving.Step CacheCall.prog (Serves Allowed) Ticks p e q) :
    SetBy q key value expiresAt := by
  obtain ⟨i, t, ttl, now, reply, ht, hcall, hreading, hexpiry, hwrite⟩ := h
  obtain ⟨t', ht', hcall', hhistory⟩ := hstep.thread_of_some ht
  exact ⟨i, t', ttl, now, reply, ht', hcall'.trans hcall,
    hreading.imp_right fun hread => hhistory.subset hread, hexpiry, hhistory.subset hwrite⟩

theorem Allowed.entry {m m' : Contents} {call : Call} {reply : Reply}
    (h : Allowed m call reply m') {key raw : String} (hentry : m' key = some raw) :
    m key = some raw ∨ call = .set key raw := by
  rcases h.eq_or with rfl | rfl
  · cases call with
    | set key' value =>
      by_cases hkey : key = key'
      · subst hkey
        rw [Call.apply, Function.update_self] at hentry
        exact Or.inr (congrArg (Call.set key) (Option.some.inj hentry))
      · rw [Call.apply, Function.update_of_ne hkey] at hentry
        exact Or.inl hentry
    | delete key' =>
      by_cases hkey : key = key'
      · subst hkey
        rw [Call.apply, Function.update_self] at hentry
        cases hentry
      · rw [Call.apply, Function.update_of_ne hkey] at hentry
        exact Or.inl hentry
    | _ => exact Or.inl hentry
  · exact Or.inl hentry

/-- An answer leaves only entries that were there or that it stores. -/
theorem Serves.entry {s s' : CacheState} {req : CacheRequest} {answer : req.Answer}
    (h : Serves Allowed s req answer s') {key raw : String} (hentry : s'.db key = some raw) :
    s.db key = some raw ∨ req = .write (.set key raw) := by
  cases h with
  | nowMs => exact Or.inl hentry
  | get => exact Or.inl hentry
  | range => exact Or.inl hentry
  | write hallowed => exact (hallowed.entry hentry).imp id (congrArg CacheRequest.write)

theorem Stored.step (hp : Stored start p)
    (h : Interleaving.Step CacheCall.prog (Serves Allowed) Ticks p e q) : Stored start q := by
  refine ⟨h.resumed hp.resumed, fun key raw hentry => ?_⟩
  have hkeep : p.shared.db (PebbleCache.cacheKey key) = some raw →
      start (PebbleCache.cacheKey key) = some raw ∨ ∃ value expiresAt, expiresAt < 2 ^ 64 ∧
        raw = PebbleCache.encode expiresAt value ∧ SetBy q key value expiresAt :=
    fun hentry => (hp.stored key raw hentry).imp_right
      fun ⟨value, expiresAt, hfits, hraw, hset⟩ => ⟨value, expiresAt, hfits, hraw, hset.step h⟩
  cases h with
  | start => exact hkeep hentry
  | environment hticks =>
    rw [hticks.1] at hentry
    exact hkeep hentry
  | @answer j call history req next answer shared hthread hserves =>
    rcases hserves.entry hentry with hentry | rfl
    · exact hkeep hentry
    · obtain ⟨key', value, ttl, now, rfl, hkey, hfits, hreading, rfl⟩ :=
        CacheCall.set_of_store (hp.resumed j _ hthread)
      obtain rfl := PebbleCache.cacheKey_injective hkey
      exact Or.inr ⟨value, _, hfits, rfl, j, _, ttl, now, answer, Pool.put_thread_self _ _ _ _, rfl,
        hreading.imp_right fun hread => List.mem_append_left _ hread, rfl,
        List.mem_append_right _ List.mem_cons_self⟩

omit [DecidableEq ι] in
theorem Stored.of_none {p : CachePool CacheState ι} (h : ∀ i, p.thread i = none) :
    Stored p.shared.db p := by
  refine ⟨fun i t ht => ?_, fun key raw hentry => Or.inl hentry⟩
  rw [h i] at ht
  cases ht

/-- What `get` gives is the value of an entry that is there at one of its steps and has not expired
then. A `set` of the key has stored it, unless it was there before all calls. -/
theorem get_stored {p q : CachePool CacheState ι} (hnone : ∀ i, p.thread i = none)
    (hrun : CacheRun allowed p q) {i : ι} {value : String} (ht : q.thread i = some t)
    (hcall : t.call = .get key) (hdone : t.rest = .done (.ok (.value (some value)))) :
    ∃ (m : CacheMoment allowed p q i) (raw : String) (expiresAt : Nat),
      m.after.shared.db (PebbleCache.cacheKey key) = some raw ∧
      PebbleCache.decode raw = .ok (expiresAt, value) ∧
      ¬ Expired expiresAt m.after.shared.clock ∧
      (p.shared.db (PebbleCache.cacheKey key) = some raw ∨ SetBy m.after key value expiresAt) := by
  have hinv : ∀ {r : CachePool CacheState ι}, CacheRun allowed p r → Stored p.shared.db r :=
    fun hrun => hrun.invariant (fun _ _ _ hstep _ hp => hp.step hstep) (.of_none hnone)
  have hresumes := (hinv hrun).resumed i t ht
  rw [hcall, hdone] at hresumes
  obtain ⟨result, hrest, heq⟩ := hresumes.of_map_done
  obtain ⟨found, rfl, hfound⟩ := exists_of_map_eq_ok heq
  obtain rfl := CacheReply.value.inj hfound
  obtain ⟨m, hlookup⟩ := exists_moment_get hrun
    (fun t ht => by rw [hnone i] at ht; cases ht) ht hrest
  obtain ⟨raw, hentry, hread⟩ := Option.bind_eq_some_iff.mp hlookup
  cases hdecode : PebbleCache.decode raw with
  | error e =>
    rw [hdecode] at hread
    cases hread
  | ok entry =>
    obtain ⟨expiresAt, value'⟩ := entry
    rw [hdecode] at hread
    dsimp only at hread
    by_cases hexpired : Expired expiresAt m.after.shared.clock
    · rw [if_pos hexpired] at hread
      cases hread
    · rw [if_neg hexpired] at hread
      obtain rfl := Option.some.inj hread
      refine ⟨m, raw, expiresAt, hentry, hdecode, hexpired, ?_⟩
      rcases (hinv m.run).stored key raw hentry with hstart | ⟨value, expiresAt', hfits, rfl, hset⟩
      · exact Or.inl hstart
      · rw [PebbleCache.decode_encode hfits] at hdecode
        obtain ⟨rfl, rfl⟩ := Prod.mk.inj (Except.ok.inj hdecode)
        exact Or.inr hset

end Moments

/-- An entry is set, and a `get` gives it. -/
theorem get_stored_set : ∃ (p q : CachePool CacheState Nat)
    (m : CacheMoment (fun _ _ => True) p q 1) (raw : String) (expiresAt : Nat),
    m.after.shared.db (PebbleCache.cacheKey "k") = some raw ∧
    PebbleCache.decode raw = .ok (expiresAt, "v") ∧ ¬ Expired expiresAt m.after.shared.clock ∧
    SetBy m.after "k" "v" expiresAt := by
  let start : CachePool CacheState Nat := ⟨⟨fun _ => none, 1⟩, fun _ => none⟩
  obtain ⟨called, p, t, hcall, hrun, -, -, hshared, hother⟩ := @exists_set start 0 rfl "k" "v" noTtl
    (by decide) (fun _ _ => True) fun _ _ _ => trivial
  have hentry : p.shared.db (PebbleCache.cacheKey "k") = some (PebbleCache.encode 0 "v") := by
    rw [hshared]
    exact @storeCall_apply_self "k" "v" 0 start.shared.db
  obtain ⟨s, hget⟩ := get_returns (by decide) hentry
  rw [if_neg fun hexpired => hexpired.1 rfl] at hget
  obtain ⟨q, t', hrun', ht', hcall', hrest', -⟩ := @exists_run_of_runs p 1 (.get "k") _ _
    ((hget.map (Except.map CacheReply.value)).mono fun _ _ _ _ => Serves.allowed) (fun _ _ => True)
    fun _ _ _ => trivial
  have hwhole : CacheRun (fun _ _ => True) start q :=
    (((Interleaving.Run.refl start).step hcall trivial).trans hrun).trans
      (((Interleaving.Run.refl p).step (.start _ (hother 1 (by decide))) trivial).trans hrun')
  obtain ⟨m, raw, expiresAt, hfound, hdecode, hlives, hstored⟩ :=
    get_stored (fun _ => rfl) hwhole ht' hcall' hrest'
  exact ⟨start, q, m, raw, expiresAt, hfound, hdecode, hlives,
    hstored.resolve_left fun h => by cases h⟩

section Moments

variable {ι : Type} [DecidableEq ι] {allowed : CachePool CacheState ι → CacheEvent ι → Prop}
  {p q : CachePool CacheState ι} {e : CacheEvent ι} {key : String}

/-! ## What is removed stays away -/

/-- A `delete` of the key, or a `clear`, that returns `Ok` and that no `set` of the key overlaps or
follows, and then a `get` of the key that returns as well. -/
structure RemoveThenGet (ι : Type) [DecidableEq ι]
    (allowed : CachePool CacheState ι → CacheEvent ι → Prop) where
  key : String
  before : CachePool CacheState ι
  none_setting : ∀ i t, before.thread i = some t → (∃ value ttl, t.call = .set key value ttl) →
    ∃ a, t.rest = .done a
  resumed : before.Resumed CacheCall.prog
  remover : ι
  call : CacheCall
  removes : call.removes = true
  call_on : call.On key
  called : CachePool CacheState ι
  remove_called : Interleaving.Step CacheCall.prog (Serves Allowed) Ticks before
    (.start remover call) called
  returned : CachePool CacheState ι
  run_remove : CacheRun (fun p e => allowed p e ∧ NoSet key p e) called returned
  remove : Thread CacheCall CacheRequest CacheRequest.Answer (Res CacheReply)
  thread_remover : returned.thread remover = some remove
  reply : CacheReply
  remove_returned : remove.rest = .done (.ok reply)
  getter : ι
  asked : CachePool CacheState ι
  get_called : Interleaving.Step CacheCall.prog (Serves Allowed) Ticks returned
    (.start getter (.get key)) asked
  get_allowed : allowed returned (.start getter (.get key))
  final : CachePool CacheState ι
  run_get : CacheRun (fun p e => allowed p e ∧ NoSet key p e) asked final
  get : Thread CacheCall CacheRequest CacheRequest.Answer (Res CacheReply)
  thread_getter : final.thread getter = some get
  result : Res CacheReply
  get_returned : get.rest = .done result

/-- No call is setting the key. -/
structure Settled (key : String) (p : CachePool CacheState ι) : Prop where
  resumed : p.Resumed CacheCall.prog
  none_setting : ∀ i t, p.thread i = some t → (∃ value ttl, t.call = .set key value ttl) →
    ∃ a, t.rest = .done a

theorem Settled.step (hp : Settled key p)
    (h : Interleaving.Step CacheCall.prog (Serves Allowed) Ticks p e q)
    (hnew : ∀ i value ttl, e ≠ .start i (.set key value ttl)) : Settled key q := by
  refine ⟨h.resumed hp.resumed, ?_⟩
  refine h.finished (fun call => ∃ value ttl, call = .set key value ttl) ?_ hp.none_setting
  rintro i call rfl ⟨value, ttl, rfl⟩
  exact hnew i value ttl rfl

/-- While no call is setting a key nothing comes under it. -/
theorem Settled.none_step (hp : Settled key p)
    (h : Interleaving.Step CacheCall.prog (Serves Allowed) Ticks p e q)
    (hnone : p.shared.db (PebbleCache.cacheKey key) = none) :
    q.shared.db (PebbleCache.cacheKey key) = none := by
  cases h with
  | start => exact hnone
  | environment hticks => exact (congrFun hticks.1 _).trans hnone
  | @answer j call history req next answer shared hthread hserves =>
    by_contra hne
    obtain ⟨raw, hraw⟩ := Option.ne_none_iff_exists'.mp hne
    rcases hserves.entry hraw with hentry | rfl
    · rw [hnone] at hentry
      cases hentry
    · obtain ⟨key', value, ttl, now, hcall, hkey, -⟩ := CacheCall.set_of_store (hp.resumed j _ hthread)
      obtain rfl := PebbleCache.cacheKey_injective hkey
      obtain ⟨a, ha⟩ := hp.none_setting j _ hthread ⟨value, ttl, hcall⟩
      cases ha

/-- A `get` that finds nothing gives nothing. -/
theorem get_of_none {history : List (Exchange CacheRequest CacheRequest.Answer)}
    {result : Res (Option String)}
    (hread : ∀ raw, ⟨.get (PebbleCache.cacheKey key), raw⟩ ∈ history → raw = (none : Option String))
    (h : (PebbleCache.get key).run.Resumes history (.done result)) : result = .ok none := by
  generalize hrest : (Program.done result : Program CacheRequest CacheRequest.Answer
    (Res (Option String))) = rest at h
  cases getAt h with
  | reading => cases hrest
  | missed => exact Program.done.inj hrest
  | corrupt raw => cases hread (some raw) List.mem_cons_self
  | entry raw => cases hread (some raw) List.mem_cons_self

/-- No removal is lost: such a `get` finds nothing. -/
theorem removed_stays (run : RemoveThenGet ι allowed) : run.result = .ok (.value none) := by
  have hsettled : Settled run.key run.called :=
    Settled.step ⟨run.resumed, run.none_setting⟩ run.remove_called fun i value ttl heq => by
      obtain ⟨-, hcall⟩ := Event.start.inj heq
      have hremoves := run.removes
      rw [hcall] at hremoves
      cases hremoves
  have hkeeps : ∀ {p q : CachePool CacheState ι},
      CacheRun (fun p e => allowed p e ∧ NoSet run.key p e) p q → Settled run.key p →
      Settled run.key q := fun hrun hp =>
    hrun.invariant (fun _ _ _ hstep hallowed hp => hp.step hstep hallowed.2) hp
  have hgone : ∀ {p q : CachePool CacheState ι},
      CacheRun (fun p e => allowed p e ∧ NoSet run.key p e) p q → Settled run.key p →
      p.shared.db (PebbleCache.cacheKey run.key) = none →
      q.shared.db (PebbleCache.cacheKey run.key) = none := by
    intro p q hrun hp hnone
    have hboth : Settled run.key q ∧ q.shared.db (PebbleCache.cacheKey run.key) = none := by
      apply hrun.invariant
      · intro q e r hstep hallowed hq
        exact ⟨hq.1.step hstep hallowed.2, hq.1.none_step hstep hq.2⟩
      · exact ⟨hp, hnone⟩
    exact hboth.2
  obtain ⟨m, hacts⟩ := CacheCall.acts run.remove_called run.run_remove run.thread_remover
    run.remove_returned run.call_on
  have hremoved : m.after.shared.db (PebbleCache.cacheKey run.key) = none := by
    have hremoves := run.removes
    generalize run.call = call at hacts hremoves
    generalize run.reply = reply at hacts
    cases hacts with
    | delete hentry => exact hentry
    | clear hentry => exact hentry
    | _ => cases hremoves
  have hrun : CacheRun (fun p e => allowed p e ∧ NoSet run.key p e) m.after run.asked :=
    m.run_after.step run.get_called ⟨run.get_allowed, fun _ _ _ h => by cases h⟩
  have hasked := hkeeps m.run hsettled
  obtain ⟨hcall, hresumes⟩ := run.run_get.resumes_of_start run.get_called run.thread_getter
  rw [run.get_returned] at hresumes
  obtain ⟨result, hrest, heq⟩ := hresumes.of_map_done
  have hreads : ∀ raw : Option String,
      ⟨.get (PebbleCache.cacheKey run.key), raw⟩ ∈ run.get.history → raw = none := by
    intro raw hraw
    obtain ⟨earlier, later, hhistory⟩ := List.append_of_mem hraw
    obtain ⟨m', hserved, -⟩ := exists_moment run.run_get
      (fun t => run.get_called.history_of_start) run.thread_getter hhistory
    rw [show raw = _ from hserved.of_get.1]
    exact hgone (hrun.trans m'.run_before) hasked hremoved
  rw [get_of_none hreads hrest] at heq
  exact heq.symm

end Moments

/-- The entry is deleted, and a `get` does not find it. -/
theorem removed_stays_delete : ∃ run : RemoveThenGet Nat fun _ _ => True,
    run.call = .delete "k" ∧ run.before.shared.lookup "k" = some "v" ∧
      run.result = .ok (.value none) := by
  obtain ⟨p, t, hrun, ht, -, hrest, hshared, hother⟩ := @exists_run_of_runs oneEntry 0 _ _ _
    (runs_delete oneEntry.shared "k") (fun p e => True ∧ NoSet "k" p e)
    fun _ _ _ => ⟨trivial, fun _ _ _ h => by cases h⟩
  have hmissing : p.shared.db (PebbleCache.cacheKey "k") = none := by
    rw [hshared]
    exact removeCall_apply_self "k" oneEntry.shared.db
  obtain ⟨q, t', hrun', ht', -, hrest', -⟩ := @exists_run_of_runs p 1 (.get "k") _ _
    ((get_misses hmissing).map (Except.map CacheReply.value)) (fun p e => True ∧ NoSet "k" p e)
    fun _ _ _ => ⟨trivial, fun _ _ _ h => by cases h⟩
  have hresumed : oneEntry.Resumed CacheCall.prog := fun i t h => by cases h
  let run : RemoveThenGet Nat fun _ _ => True :=
    { key := "k", before := oneEntry, none_setting := fun _ _ h => (by cases h), resumed := hresumed,
      remover := 0, call := .delete "k", removes := rfl, call_on := rfl, called := _,
      remove_called := .start _ rfl, returned := p, run_remove := hrun, remove := t,
      thread_remover := ht, reply := _, remove_returned := hrest, getter := 1, asked := _,
      get_called := .start _ (hother 1 (by decide)), get_allowed := trivial, final := q,
      run_get := hrun', get := t', thread_getter := ht', result := _, get_returned := hrest' }
  have hlookup : oneEntry.shared.lookup "k" = some "v" := by decide +kernel
  exact ⟨run, rfl, hlookup, removed_stays run⟩

end PebbleDB
