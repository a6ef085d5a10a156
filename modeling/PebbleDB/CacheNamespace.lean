import Mathlib.Data.List.TakeWhile
import PebbleDB.CacheRuns
import PebbleDB.QuietCalls

/-!
# The keys of the cache

All keys the cache writes start with its prefix, and the keys with the prefix stand next to each other
in the order of strings. So the calls of the cache leave every other key alone, and `clear` finds all
keys of the cache before it stops at the first other one (`cacheCalls_isolated`).
-/

namespace PebbleDB

open Interleaving EarlyExit

/-- The key starts with the prefix of the cache. -/
def IsCacheKey (key : String) : Prop := PebbleCache.keyPrefix <+: key.toList

instance (key : String) : Decidable (IsCacheKey key) := inferInstanceAs (Decidable (_ <+: _))

theorem isCacheKey_cacheKey (key : String) : IsCacheKey (PebbleCache.cacheKey key) := by
  rw [IsCacheKey, PebbleCache.cacheKey, String.toList_ofList]
  exact List.prefix_append _ _

theorem isPrefixOf_keyPrefix {key : String} :
    PebbleCache.keyPrefix.isPrefixOf key.toList = true ↔ IsCacheKey key :=
  List.isPrefixOf_iff_prefix

/-! ## Prefixes in the order of strings -/

theorem cons_le_cons_iff {c d : Char} {a b : List Char} :
    c :: a ≤ d :: b ↔ c < d ∨ (c = d ∧ a ≤ b) := by
  rw [← not_lt, ← not_lt, List.cons_lt_cons_iff]
  constructor
  · intro h
    rcases lt_trichotomy c d with hlt | rfl | hgt
    · exact .inl hlt
    · exact .inr ⟨rfl, fun hlt => h (.inr ⟨rfl, hlt⟩)⟩
    · exact absurd (.inl hgt) h
  · rintro (hlt | ⟨rfl, hle⟩) (hgt | ⟨heq, hlt'⟩)
    · exact lt_asymm hlt hgt
    · exact absurd heq.symm hlt.ne
    · exact lt_irrefl _ hgt
    · exact hle hlt'

theorem le_of_prefix {pre a : List Char} (h : pre <+: a) : pre ≤ a := by
  obtain ⟨rest, rfl⟩ := h
  induction pre with
  | nil => exact not_lt.mp (List.not_lt_nil _)
  | cons c pre ih => exact cons_le_cons_iff.mpr (.inr ⟨rfl, ih⟩)

/-- What stands between a prefix and a text that starts with it starts with it, too. -/
theorem prefix_of_le_of_le {pre a b : List Char} (hpre : pre ≤ a) (hab : a ≤ b) (hb : pre <+: b) :
    pre <+: a := by
  induction pre generalizing a b with
  | nil => exact List.nil_prefix
  | cons c pre ih =>
    obtain ⟨rest, rfl⟩ := hb
    cases a with
    | nil => exact absurd (List.nil_lt_cons c pre) (not_lt.mpr hpre)
    | cons d a =>
      rcases cons_le_cons_iff.mp hpre with hlt | ⟨rfl, hle⟩
      · rcases cons_le_cons_iff.mp hab with hlt' | ⟨rfl, -⟩
        · exact absurd (hlt.trans hlt') (lt_irrefl _)
        · exact absurd hlt (lt_irrefl _)
      · rcases cons_le_cons_iff.mp hab with hlt' | ⟨-, hle'⟩
        · exact absurd hlt' (lt_irrefl _)
        · exact List.cons_prefix_cons.mpr ⟨rfl, ih hle hle' (List.prefix_append _ _)⟩

theorem IsCacheKey.starts {key : String} (h : IsCacheKey key) :
    (Bound.included (String.ofList PebbleCache.keyPrefix)).Starts key := by
  show String.ofList PebbleCache.keyPrefix ≤ key
  rw [String.le_iff_toList_le, String.toList_ofList]
  exact le_of_prefix h

/-- In a sorted listing from the prefix on no key of the cache stands behind another key. -/
theorem mem_takeWhile_of_isCacheKey {keys : List String} (hsorted : keys.Pairwise (· < ·))
    (hstart : ∀ key ∈ keys, String.ofList PebbleCache.keyPrefix ≤ key) {key : String}
    (hkey : key ∈ keys) (hcache : IsCacheKey key) :
    key ∈ keys.takeWhile fun key => PebbleCache.keyPrefix.isPrefixOf key.toList := by
  induction keys with
  | nil => cases hkey
  | cons first keys ih =>
    have hle : first ≤ key := by
      rcases List.mem_cons.mp hkey with rfl | hmem
      · exact le_rfl
      · exact (List.rel_of_pairwise_cons hsorted hmem).le
    have hfirst : IsCacheKey first := by
      have hstart := hstart first List.mem_cons_self
      rw [String.le_iff_toList_le, String.toList_ofList] at hstart
      exact prefix_of_le_of_le hstart (String.le_iff_toList_le.mp hle) hcache
    have htake : PebbleCache.keyPrefix.isPrefixOf first.toList = true :=
      isPrefixOf_keyPrefix.mpr hfirst
    rw [List.takeWhile_cons, if_pos htake]
    rcases List.mem_cons.mp hkey with rfl | hmem
    · exact List.mem_cons_self
    · exact List.mem_cons_of_mem _ (ih hsorted.of_cons
        (fun key hkey => hstart key (List.mem_cons_of_mem _ hkey)) hmem)

/-! ## The requests of the calls -/

/-- A write of the request is one of a key of the cache. -/
def OnCacheKeys : CacheRequest → Prop
  | .write (.set key _) => IsCacheKey key
  | .write (.delete key) => IsCacheKey key
  | .write _ => False
  | _ => True

theorem deleteAll_cons (key : String) (keys : List String) :
    (PebbleCache.deleteAll (key :: keys)).run =
      .ask (.write (.delete key)) fun (reply : Reply) =>
        match reply with
        | .returned _ => (PebbleCache.deleteAll keys).run
        | .failed e => .done (err e) := PebbleCache.run_write_bind _ _

/-- The keys of the cache among the listed records, as `clear` takes them. -/
def listedKeys (records : List (String × String)) : List String :=
  (records.map Prod.fst).takeWhile fun key => PebbleCache.keyPrefix.isPrefixOf key.toList

theorem clear_eq : PebbleCache.clear.run =
    .ask (.range (.included (String.ofList PebbleCache.keyPrefix)) .unbounded)
      fun (records : List (String × String)) =>
        (PebbleCache.deleteAll (listedKeys records)).run :=
  PebbleCache.run_ask_bind _ _

theorem isCacheKey_of_mem_listedKeys {records : List (String × String)} {key : String}
    (h : key ∈ listedKeys records) : IsCacheKey key :=
  isPrefixOf_keyPrefix.mp (List.mem_takeWhile_imp
    (p := fun key : String => PebbleCache.keyPrefix.isPrefixOf key.toList) h)

theorem asks_deleteAll {keys : List String} (h : ∀ key ∈ keys, IsCacheKey key) :
    (PebbleCache.deleteAll keys).run.Asks OnCacheKeys := by
  induction keys with
  | nil => trivial
  | cons key keys ih =>
    rw [deleteAll_cons]
    refine ⟨h key List.mem_cons_self, fun reply => ?_⟩
    cases (reply : Reply) with
    | returned _ => exact ih fun key hkey => h key (List.mem_cons_of_mem _ hkey)
    | failed _ => trivial

theorem asks_set (key value : String) (ttl : Duration) :
    (PebbleCache.set key value ttl).run.Asks OnCacheKeys := by
  cases hzero : ttl.isZero with
  | true =>
    rw [PebbleCache.set_eq_of_isZero key value hzero]
    exact ⟨isCacheKey_cacheKey key, fun _ => trivial⟩
  | false =>
    rw [PebbleCache.set_eq key value hzero]
    refine ⟨trivial, fun (now : Nat) => ?_⟩
    dsimp only
    split
    · trivial
    · exact ⟨isCacheKey_cacheKey key, fun _ => trivial⟩

theorem asks_get (key : String) : (PebbleCache.get key).run.Asks OnCacheKeys := by
  rw [PebbleCache.get_eq]
  refine ⟨trivial, fun (raw : Option String) => ?_⟩
  cases raw with
  | none => trivial
  | some raw =>
    dsimp only
    cases PebbleCache.decode raw with
    | error e => trivial
    | ok entry =>
      dsimp only
      rw [PebbleCache.readEntry]
      split
      · trivial
      · refine ⟨trivial, fun (now : Nat) => ?_⟩
        dsimp only
        split
        · exact ⟨isCacheKey_cacheKey key, fun _ => trivial⟩
        · trivial

/-- No call of the cache writes another key. -/
theorem CacheCall.asks_prog (call : CacheCall) : call.prog.Asks OnCacheKeys := by
  cases call with
  | set key value ttl => exact (asks_set key value ttl).map _
  | get key => exact (asks_get key).map _
  | delete key =>
    refine Program.Asks.map ?_ _
    rw [PebbleCache.delete, PebbleCache.run_write_bind]
    refine ⟨isCacheKey_cacheKey key, fun reply => ?_⟩
    cases (reply : Reply) <;> trivial
  | «exists» key =>
    rw [prog, exists_eq]
    exact ((asks_get key).map _).map _
  | clear =>
    refine Program.Asks.map ?_ _
    rw [clear_eq]
    exact ⟨trivial, fun _ => asks_deleteAll fun key => isCacheKey_of_mem_listedKeys⟩

/-! ## Calls on a map -/

section Map

variable {s s' : CacheState}

/-- The map is the same on the other keys. -/
def SameElsewhere (m m' : Contents) : Prop := ∀ key, ¬ IsCacheKey key → m' key = m key

theorem Serves.sameElsewhere {req : CacheRequest} {answer : req.Answer} (hreq : OnCacheKeys req)
    (h : Serves Allowed s req answer s') : SameElsewhere s.db s'.db := by
  intro key hkey
  have happly : ∀ {call : Call}, OnCacheKeys (.write call) → call.apply s.db key = s.db key := by
    intro call hcall
    have hne : ∀ key', IsCacheKey key' → key ≠ key' := by
      rintro key' hkey' rfl
      exact hkey hkey'
    cases call with
    | set key' value => exact Function.update_of_ne (hne key' hcall) _ _
    | delete key' => exact Function.update_of_ne (hne key' hcall) _ _
    | _ => exact absurd hcall id
  cases h with
  | nowMs => rfl
  | get => rfl
  | range => rfl
  | write hallowed =>
    cases hallowed with
    | returned => exact happly hreq
    | failedDone => exact happly hreq
    | failedNot => rfl

theorem CacheCall.sameElsewhere {call : CacheCall} {result : Res CacheReply}
    (h : call.prog.Runs (Serves Allowed) s result s') : SameElsewhere s.db s'.db := by
  refine call.asks_prog.preserves (I := fun t => SameElsewhere s.db t.db) ?_ h fun _ _ => rfl
  intro t req answer t' hreq hserves hsame key hkey
  rw [hserves.sameElsewhere hreq key hkey, hsame key hkey]

theorem Allowed.eq_of_returned {m m' : Contents} {call : Call} {existed : Option Bool}
    (h : Allowed m call (.returned existed) m') : m' = call.apply m := by
  cases h
  rfl

theorem runs_deleteAll {keys : List String} {u : Unit}
    (h : (PebbleCache.deleteAll keys).run.Runs (Serves Allowed) s (.ok u) s') (key : String) :
    s'.db key = if key ∈ keys then none else s.db key := by
  induction keys generalizing s with
  | nil =>
    obtain ⟨-, rfl⟩ := h.of_done
    rfl
  | cons first keys ih =>
    rw [deleteAll_cons] at h
    obtain ⟨reply, t, hserves, hrest⟩ := h.of_ask
    obtain ⟨hallowed, -⟩ := hserves.of_write
    cases (reply : Reply) with
    | failed e => cases hrest.of_done.1
    | returned existed =>
      rw [ih hrest, Allowed.eq_of_returned hallowed, Call.apply, Function.update_apply]
      by_cases hmem : key ∈ keys
      · rw [if_pos hmem, if_pos (List.mem_cons_of_mem _ hmem)]
      · rw [if_neg hmem]
        simp only [List.mem_cons, hmem, or_false]

theorem Serves.of_range {start stop : Bound} {records : List (String × String)}
    (h : Serves Allowed s (.range start stop) records s') :
    s' = s ∧ records.Pairwise (fun a b => a.1 < b.1) ∧
      ∀ k v, (k, v) ∈ records ↔ (start.Starts k ∧ stop.Ends k) ∧ s.db k = some v := by
  cases h with
  | range hsorted hmem => exact ⟨rfl, hsorted, hmem⟩

/-- After a `clear` that returned no key of the cache has a value. -/
theorem runs_clear {u : Unit} (h : PebbleCache.clear.run.Runs (Serves Allowed) s (.ok u) s')
    {key : String} (hkey : IsCacheKey key) : s'.db key = none := by
  rw [clear_eq] at h
  obtain ⟨records, t, hserves, hrest⟩ := h.of_ask
  obtain ⟨rfl, hsorted, hmem⟩ := Serves.of_range hserves
  rw [runs_deleteAll hrest]
  split
  · rfl
  · rename_i hlisted
    by_contra hne
    obtain ⟨value, hvalue⟩ := Option.ne_none_iff_exists'.mp hne
    refine hlisted (mem_takeWhile_of_isCacheKey ?_ ?_ ?_ hkey)
    · exact List.pairwise_map.mpr hsorted
    · intro key' hkey'
      obtain ⟨⟨k, v⟩, hrecord, rfl⟩ := List.mem_map.mp hkey'
      exact ((hmem k v).mp hrecord).1.1
    · exact List.mem_map.mpr ⟨(key, value), (hmem key value).mpr ⟨⟨hkey.starts, trivial⟩, hvalue⟩, rfl⟩

end Map

/-! ## Calls on a handle -/

/-- The requests on an open handle, whatever files it writes. -/
inductive HandleAnswers [BloomSizing] (s : CacheWorld) :
    (req : CacheRequest) → req.Answer → CacheWorld → Prop where
  | nowMs : HandleAnswers s .nowMs s.clock s
  | get {key : String} {value : Option String} (h : s.world.inner.get key = .ok value) :
      HandleAnswers s (.get key) value s
  | range {start stop : Bound} {records : List (String × String)}
      (h : s.world.inner.range start stop = .ok records) :
      HandleAnswers s (.range start stop) records s
  | write {call : Call} {reply : Reply} {world : World} (h : Step.From s.world ⟨call, reply, world⟩) :
      HandleAnswers s (.write call) reply { s with world }

/-- Calls of the cache one after the other on an open handle, each of which returns `Ok`. -/
inductive CacheCalls [BloomSizing] : CacheWorld → List CacheCall → CacheWorld → Prop where
  | nil (s : CacheWorld) : CacheCalls s [] s
  | ticks {s t u : CacheWorld} {calls : List CacheCall} (h : HandleTicks s t)
      (hrest : CacheCalls t calls u) : CacheCalls s calls u
  | call {s t u : CacheWorld} {call : CacheCall} {calls : List CacheCall} {reply : CacheReply}
      (h : call.prog.Runs HandleAnswers s (.ok reply) t) (hrest : CacheCalls t calls u) :
      CacheCalls s (call :: calls) u

section Handle

variable [BloomSizing] {s s' : CacheWorld}

theorem Step.From.frame {w : World} {step : Step} (h : step.From w) : w.Frame step.world := by
  cases h with
  | returned fuel call existed w' hrun => exact (along_call fuel call w).ok_of_eq hrun
  | failed fuel call e w' hrun => exact (along_call fuel call w).exit_of_eq hrun

/-- The files written so far fit if all files do. -/
theorem HandleAnswers.fits {req : CacheRequest} {answer : req.Answer}
    (h : HandleAnswers s req answer s') (hfits : s'.world.disk.Fits) : s.world.disk.Fits := by
  cases h with
  | write h => exact h.frame.disk.fits hfits
  | _ => exact hfits

theorem HandleAnswers.handleServes {req : CacheRequest} {answer : req.Answer}
    (h : HandleAnswers s req answer s') (hfits : s'.world.disk.Fits) :
    HandleServes s req answer s' := by
  cases h with
  | nowMs => exact .nowMs
  | get h => exact .get h
  | range h => exact .range h
  | write h => exact .write h hfits

/-- A call on a handle is one on the map it holds. -/
theorem runs_serves {α : Type} {p : Program CacheRequest CacheRequest.Answer α} {a : α}
    (h : p.Runs HandleAnswers s a s') (hfits : s'.world.disk.Fits) :
    s.world.disk.Fits ∧ ∀ x, Tracks s x → ∃ y, p.Runs (Serves Allowed) x a y ∧ Tracks s' y := by
  refine h.simulate (R := Tracks) (E := fun t => t.world.disk.Fits)
    (fun t req answer t' hanswers => hanswers.fits) ?_ hfits
  intro t x req answer t' htracks hends hanswers
  exact (hanswers.handleServes hends).serves htracks

/-- What the calls make of the map. -/
structure Isolated (calls : List CacheCall) (m m' : Contents) : Prop where
  unchanged : calls = [] → m' = m
  elsewhere : SameElsewhere m m'
  cleared : calls.getLast? = some .clear → ∀ key, IsCacheKey key → m' key = none

theorem CacheCalls.isolated {calls : List CacheCall} (h : CacheCalls s calls s')
    (hfits : s'.world.disk.Fits) : s.world.disk.Fits ∧
    ∀ x, Tracks s x → ∃ y, Tracks s' y ∧ Isolated calls x.db y.db := by
  induction h with
  | nil s =>
    exact ⟨hfits, fun x hx => ⟨x, hx, fun _ => rfl, fun _ _ => rfl, fun h => by cases h⟩⟩
  | @ticks s t u calls hticks _ ih =>
    obtain ⟨hfits', hrest⟩ := ih hfits
    obtain ⟨hworld, -, -⟩ := hticks
    exact ⟨hworld ▸ hfits', fun x hx => hrest { x with clock := t.clock } ⟨hworld ▸ hx.1, rfl⟩⟩
  | @call s t u call calls reply hcall hrun ih =>
    obtain ⟨hfits', hrest⟩ := ih hfits
    obtain ⟨hfits'', hstep⟩ := runs_serves hcall hfits'
    refine ⟨hfits'', fun x hx => ?_⟩
    obtain ⟨y, hruns, hy⟩ := hstep x hx
    obtain ⟨z, hz, hisolated⟩ := hrest y hy
    refine ⟨z, hz, fun hnil => absurd hnil (List.cons_ne_nil _ _), fun key hkey => ?_,
      fun hlast key hkey => ?_⟩
    · rw [hisolated.elsewhere key hkey, CacheCall.sameElsewhere hruns key hkey]
    · cases calls with
      | nil =>
        -- the call is the last one
        obtain rfl : call = .clear := Option.some.inj hlast
        obtain ⟨result, hclear, heq⟩ := hruns.of_map
        rw [hisolated.unchanged rfl]
        cases result with
        | ok u => exact runs_clear hclear hkey
        | error e => cases heq
      | cons call' calls =>
        rw [List.getLast?_cons_cons] at hlast
        exact hisolated.cleared hlast key hkey

/-- Calls of the cache on an open handle leave every key without the prefix as it was, and right
after a `clear` no key with the prefix has a value. -/
theorem cacheCalls_isolated (hready : Ready s.world.inner) {calls : List CacheCall}
    (hcalls : CacheCalls s calls s') (hfits : s'.world.disk.Fits) :
    (∀ key, ¬ IsCacheKey key → s'.world.inner.get key = s.world.inner.get key) ∧
      (calls.getLast? = some .clear → ∀ key, IsCacheKey key →
        s'.world.inner.get key = .ok none) := by
  obtain ⟨m, hm⟩ := hready.exists_answers
  obtain ⟨y, hy, hisolated⟩ := (hcalls.isolated hfits).2 ⟨m, s.clock⟩ ⟨⟨hready, hm⟩, rfl⟩
  refine ⟨fun key hkey => ?_, fun hlast key hkey => ?_⟩
  · rw [hy.1.2 key, hisolated.elsewhere key hkey, hm key]
  · rw [hy.1.2 key, hisolated.cleared hlast key hkey]

end Handle

/-- `Duration::ZERO`, with which an entry never expires. -/
def noTtl : Duration := ⟨0, 0, by decide, by decide⟩

/-- One key without the prefix. -/
def oneKey : World := ⟨⟨SortedMap.insert ∅ "a" (.value "1"), [[]], 0, .default, .new none⟩, emptyDisk⟩

/-- An entry is set next to it and cleared away. -/
theorem cacheCalls_isolated_oneKey : ∃ s',
    @CacheCalls .ofSmall ⟨oneKey, 1⟩ [.set "k" "v" noTtl, .clear] s' ∧
      s'.world.inner.get "a" = .ok (some "1") ∧ s'.world.inner.get "cache:k" = .ok none := by
  let _ : BloomSizing := .ofSmall
  have hrun : check (Call.run 1 (.set (PebbleCache.cacheKey "k") (PebbleCache.encode 0 "v"))) oneKey
      (fun existed w₁ => decide (existed = none ∧
        w₁.inner.range (.included (String.ofList PebbleCache.keyPrefix)) .unbounded =
          .ok [("cache:k", "0:v")]) &&
        check (Call.run 1 (.delete "cache:k")) w₁ fun _ w₂ => decide w₂.disk.Fits) = true := by
    decide +kernel
  obtain ⟨existed, w₁, hset, htest⟩ := exists_of_check hrun
  obtain ⟨htest₁, htest₂⟩ := Bool.and_eq_true_iff.mp htest
  obtain ⟨rfl, hrange⟩ := of_decide_eq_true htest₁
  obtain ⟨existed, w₂, hdelete, hfits⟩ := exists_of_check htest₂
  have hstored : (PebbleCache.set "k" "v" noTtl).run.Runs HandleAnswers ⟨oneKey, 1⟩ (.ok ())
      ⟨w₁, 1⟩ := by
    rw [PebbleCache.set_eq_of_isZero "k" "v" (rfl : noTtl.isZero = true)]
    exact .ask (.write (.returned 1 _ none w₁ hset)) (.done _ _)
  have hcleared : PebbleCache.clear.run.Runs HandleAnswers ⟨w₁, 1⟩ (.ok ()) ⟨w₂, 1⟩ := by
    rw [clear_eq]
    refine .ask (.range hrange) ?_
    have hlisted : listedKeys [("cache:k", "0:v")] = ["cache:k"] := by decide +kernel
    rw [hlisted, deleteAll_cons]
    exact .ask (.write (.returned 1 _ existed w₂ hdelete)) (.done _ _)
  have hset : (CacheCall.set "k" "v" noTtl).prog.Runs HandleAnswers ⟨oneKey, 1⟩ (.ok .done)
      ⟨w₁, 1⟩ := hstored.map _
  have hclear : CacheCall.clear.prog.Runs HandleAnswers ⟨w₁, 1⟩ (.ok .done) ⟨w₂, 1⟩ :=
    hcleared.map _
  have hcalls : CacheCalls ⟨oneKey, 1⟩ [.set "k" "v" noTtl, .clear] ⟨w₂, 1⟩ :=
    .call hset (.call hclear (.nil _))
  have hready : Ready oneKey.inner :=
    ⟨(ready_empty .default (.new none)).toCoherent.of_levels_eq rfl le_rfl, List.cons_ne_nil _ _⟩
  obtain ⟨hsame, hnone⟩ := cacheCalls_isolated (s := ⟨oneKey, 1⟩) hready hcalls
    (of_decide_eq_true hfits)
  exact ⟨⟨w₂, 1⟩, hcalls, (hsame "a" (by decide +kernel)).trans (by decide +kernel),
    hnone rfl "cache:k" (by decide +kernel)⟩

/-! ## A call that writes too large a file -/

/-- Every second write is flushed. -/
def flushingPairs : DbOptions := { DbOptions.default with flushThreshold := 2 }

/-- With an entry of the cache as the large value. -/
def cacheWrapping : SSTable.Wrapping :=
  ⟨"cache:", "zzzzzz", 45, by decide, by decide +kernel, by decide +kernel, by decide +kernel⟩

theorem cacheKey_empty : PebbleCache.cacheKey "" = cacheWrapping.second := by decide +kernel

theorem wraps_encode {value : String} (h : (asBytes value).length = 2 ^ 32 - 108) :
    cacheWrapping.Wraps (PebbleCache.encode 0 value) := by
  have hsecond : (asBytes cacheWrapping.second).length = 6 := by decide +kernel
  have hencode : (asBytes (PebbleCache.encode 0 value)).length = 2 + (asBytes value).length := by
    rw [PebbleCache.encode, asBytes_ofList, List.flatMap_append, List.flatMap_cons,
      List.length_append, List.length_append, ← asBytes_ofList, ← asBytes_ofList,
      String.ofList_toList]
    have hzero : (asBytes (String.ofList (Nat.toDigits 10 0))).length = 1 := by decide +kernel
    have hcolon : (String.utf8EncodeChar ':').length = 1 := by decide +kernel
    omega
  rw [SSTable.Wrapping.Wraps, hsecond, hencode, h]
  decide

/-- The flush that a `set` of the cache starts takes away the value of a key without the prefix. -/
theorem exists_lost_key [BloomSizing] {value : String} (h : (asBytes value).length = 2 ^ 32 - 108)
    {disk : Disk} (hstop : disk.stop = none) :
    ∃ w s', Run ⟨⟨∅, [[]], 0, flushingPairs, .new none⟩, disk⟩
        [⟨.set "" cacheWrapping.value, .returned none, w⟩] ∧
      CacheCalls ⟨w, 1⟩ [.set "" value noTtl] s' ∧
      w.inner.get "" = .ok (some cacheWrapping.value) ∧ s'.world.inner.get "" = .ok none := by
  have hquiet : World.Quiet ⟨⟨∅, [[]], 0, flushingPairs, .new none⟩, disk⟩ := ⟨rfl, hstop⟩
  obtain ⟨w₁, hset₁, hquiet₁, hinner₁⟩ := hquiet.set_eq 0
    (by decide +kernel : (WalRecord.set "" cacheWrapping.value).totalLenOverflows = false)
    (show 1 < 2 by decide)
  have hwraps := wraps_encode h
  obtain ⟨file, sst, hwrite, hload, hmisread, -⟩ :=
    SSTable.load_wrapped hwraps 0 (sstableFileName 0 0)
  have hpick : pickCompaction (DbInner.fileMetas ⟨∅, [[sst]], 1, flushingPairs, .new none⟩)
      flushingPairs.levelConfig = .ok none := by
    rw [DbInner.fileMetas, DbInner.fileMetasFrom, hmisread.levelMetas_eq]
    rfl
  have hmap : (w₁.inner.memtable.insert cacheWrapping.second
      (.value (PebbleCache.encode 0 value))).map toSstEntry =
        cacheWrapping.records (PebbleCache.encode 0 value) := by
    rw [hinner₁]
    rfl
  have hnext : w₁.inner.nextSstId = 0 := by rw [hinner₁]
  obtain ⟨w₂, hset₂, hinner₂⟩ := hquiet₁.set_flush_eq 0 hwraps.totalLenOverflows_eq
    (by rw [hinner₁]; exact show 2 ≤ 2 by decide) (by rw [hmap]; exact hwrite)
    (by rw [hnext]; decide) (by rw [hnext]; exact hload) (by rw [hinner₁]; rfl) hpick
  refine ⟨w₁, ⟨w₂, 1⟩, ?_, ?_, ?_, ?_⟩
  · exact .cons (.returned 0 _ none w₁ (returns_none hset₁)) (.nil w₁)
  · have hset : (PebbleCache.set "" value noTtl).run.Runs HandleAnswers ⟨w₁, 1⟩ (.ok ()) ⟨w₂, 1⟩ := by
      rw [PebbleCache.set_eq_of_isZero "" value (rfl : noTtl.isZero = true), cacheKey_empty]
      exact .ask (.write (.returned 1 (.set cacheWrapping.second (PebbleCache.encode 0 value)) none
        w₂ (returns_none hset₂))) (.done _ _)
    have hcall : (CacheCall.set "" value noTtl).prog.Runs HandleAnswers ⟨w₁, 1⟩ (.ok .done) ⟨w₂, 1⟩ :=
      hset.map _
    exact .call hcall (.nil _)
  · rw [hinner₁]
    rfl
  · rw [hinner₂]
    exact hmisread.get_eq 1 flushingPairs (.new none) ""

/-- A fresh directory, a key without the prefix, and a large entry of the cache. -/
theorem not_cacheCalls_isolated_wrapped : ∃ db disk w s', emptyDisk.dir = ∅ ∧
    openWithOptions flushingPairs emptyDisk = .ok db disk ∧
    @Run .ofSmall ⟨db, disk⟩ [⟨.set "" cacheWrapping.value, .returned none, w⟩] ∧
    @CacheCalls .ofSmall ⟨w, 1⟩ [.set "" (text (2 ^ 32 - 108)) noTtl] s' ∧ ¬ IsCacheKey "" ∧
    w.inner.get "" = .ok (some cacheWrapping.value) ∧ s'.world.inner.get "" = .ok none := by
  have hopened : check (openWithOptions flushingPairs) emptyDisk
      (fun _ disk => decide (disk.stop = none)) = true := by decide +kernel
  obtain ⟨db, disk, hopen, htest⟩ := exists_of_check hopened
  obtain rfl := open_empty rfl hopen
  obtain ⟨w, s', hrun, hcalls, hbefore, hafter⟩ :=
    @exists_lost_key .ofSmall _ (length_text (2 ^ 32 - 108)) disk (of_decide_eq_true htest)
  exact ⟨_, disk, w, s', rfl, hopen, hrun, hcalls, by decide +kernel, hbefore, hafter⟩

end PebbleDB
