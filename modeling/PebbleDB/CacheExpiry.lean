import PebbleDB.Cache

/-!
# Time to live

What `set` stores about the expiration of an entry and what a later `get` makes of it, over the
whole range of durations. The number of milliseconds is cut down to a `u64` and added to the clock
reading; `ttlLaw_iff` says when the entry still lives as long as it was meant to.
-/

namespace PebbleDB

open Interleaving

/-- The expiration time of an entry that is set at this clock reading, if it fits a `u64`. -/
def expiry (ttl : Duration) (now : Nat) : Nat :=
  if ttl.isZero then 0 else now + asU64 ttl.asMillis

theorem expiry_of_isZero {ttl : Duration} (h : ttl.isZero = true) (now : Nat) :
    expiry ttl now = 0 := if_pos h

theorem expiry_of_not_isZero {ttl : Duration} (h : ttl.isZero = false) (now : Nat) :
    expiry ttl now = now + asU64 ttl.asMillis := if_neg (by rw [h]; exact Bool.false_ne_true)

/-- The entry has an expiration time, and it is over. -/
def Expired (expiresAt now : Nat) : Prop := expiresAt ≠ 0 ∧ expiresAt ≤ now

instance (expiresAt now : Nat) : Decidable (Expired expiresAt now) :=
  inferInstanceAs (Decidable (_ ∧ _))

theorem Expired.mono {expiresAt now now' : Nat} (h : Expired expiresAt now) (hle : now ≤ now') :
    Expired expiresAt now' := ⟨h.1, h.2.trans hle⟩

section Calls

variable {step : Contents → Call → Reply → Contents → Prop} {s s' : CacheState} {key value : String}

/-- The write that stores an entry. -/
def storeCall (key value : String) (expiresAt : Nat) : Call :=
  .set (PebbleCache.cacheKey key) (PebbleCache.encode expiresAt value)

/-- The write that removes an expired entry. -/
def removeCall (key : String) : Call := .delete (PebbleCache.cacheKey key)

theorem storeCall_apply_self (expiresAt : Nat) (m : Contents) :
    (storeCall key value expiresAt).apply m (PebbleCache.cacheKey key) =
      some (PebbleCache.encode expiresAt value) := Function.update_self _ _ _

theorem Serves.store {call : Call} {reply : Reply} {db : Contents} (h : step s.db call reply db)
    {α : Type} (f : Reply → α) :
    (Program.ask (.write call) fun reply => .done (f reply)).Runs (Serves step) s (f reply)
      { s with db } := .ask (.write h) (.done _ _)

theorem Serves.of_store {call : Call} {α : Type} {f : Reply → α} {a : α}
    (h : (Program.ask (.write call) fun reply => .done (f reply)).Runs (Serves step) s a s') :
    ∃ reply, step s.db call reply s'.db ∧ a = f reply := by
  obtain ⟨reply, t, hserves, hrest⟩ := h.of_ask
  obtain ⟨rfl, rfl⟩ := hrest.of_done
  exact ⟨reply, hserves.of_write.1, rfl⟩

/-- `set` panics when the expiration time does not fit, and otherwise stores it with the value. -/
theorem runs_set {ttl : Duration} {a : Res Unit}
    (h : (PebbleCache.set key value ttl).run.Runs (Serves step) s a s') :
    (2 ^ 64 ≤ expiry ttl s.clock ∧ a = .error .panic) ∨
    (expiry ttl s.clock < 2 ^ 64 ∧ ∃ reply,
      step s.db (storeCall key value (expiry ttl s.clock)) reply s'.db ∧
      a = PebbleCache.afterWrite () reply) := by
  cases hzero : ttl.isZero with
  | true =>
    rw [PebbleCache.set_eq_of_isZero key value hzero] at h
    rw [expiry_of_isZero hzero]
    exact Or.inr ⟨by decide, Serves.of_store h⟩
  | false =>
    rw [PebbleCache.set_eq key value hzero] at h
    obtain ⟨now, t, hserves, hrest⟩ := h.of_ask
    obtain ⟨rfl, rfl⟩ := hserves.of_nowMs
    rw [expiry_of_not_isZero hzero]
    by_cases hfits : 2 ^ 64 ≤ t.clock + asU64 ttl.asMillis
    · rw [if_pos hfits] at hrest
      exact Or.inl ⟨hfits, hrest.of_done.1⟩
    · rw [if_neg hfits] at hrest
      exact Or.inr ⟨not_le.mp hfits, Serves.of_store hrest⟩

/-- `get` removes an expired entry and gives the value of any other. -/
theorem runs_get {expiresAt : Nat} {b : Res (Option String)} (hfits : expiresAt < 2 ^ 64)
    (hentry : s.db (PebbleCache.cacheKey key) = some (PebbleCache.encode expiresAt value))
    (h : (PebbleCache.get key).run.Runs (Serves step) s b s') :
    (Expired expiresAt s.clock ∧ ∃ reply, step s.db (removeCall key) reply s'.db ∧
      b = PebbleCache.afterWrite none reply) ∨
    (¬ Expired expiresAt s.clock ∧ b = .ok (some value) ∧ s' = s) := by
  rw [PebbleCache.get_eq] at h
  obtain ⟨raw, t, hserves, hrest⟩ := h.of_ask
  obtain ⟨rfl, rfl⟩ := hserves.of_get
  rw [hentry] at hrest
  dsimp only at hrest
  rw [PebbleCache.decode_encode hfits] at hrest
  dsimp only at hrest
  rw [PebbleCache.readEntry] at hrest
  by_cases hzero : expiresAt = 0
  · rw [if_pos hzero] at hrest
    obtain ⟨hb, hs⟩ := hrest.of_done
    exact Or.inr ⟨fun hexpired => hexpired.1 hzero, hb, hs⟩
  · rw [if_neg hzero] at hrest
    obtain ⟨now, t', hserves', hrest⟩ := hrest.of_ask
    obtain ⟨rfl, rfl⟩ := hserves'.of_nowMs
    by_cases hnow : expiresAt ≤ t'.clock
    · rw [if_pos hnow] at hrest
      exact Or.inl ⟨⟨hzero, hnow⟩, Serves.of_store hrest⟩
    · rw [if_neg hnow] at hrest
      obtain ⟨hb, hs⟩ := hrest.of_done
      exact Or.inr ⟨fun hexpired => hnow hexpired.2, hb, hs⟩

theorem set_panics {ttl : Duration} (hzero : ttl.isZero = false)
    (h : 2 ^ 64 ≤ s.clock + asU64 ttl.asMillis) :
    (PebbleCache.set key value ttl).run.Runs (Serves step) s (.error .panic) s := by
  rw [PebbleCache.set_eq key value hzero]
  refine .ask .nowMs ?_
  rw [if_pos h]
  exact .done _ _

theorem set_returns {ttl : Duration} (h : expiry ttl s.clock < 2 ^ 64) :
    (PebbleCache.set key value ttl).run.Runs (Serves Returned) s (.ok ())
      { s with db := (storeCall key value (expiry ttl s.clock)).apply s.db } := by
  cases hzero : ttl.isZero with
  | true =>
    rw [PebbleCache.set_eq_of_isZero key value hzero, expiry_of_isZero hzero]
    exact Serves.store Returned.returned _
  | false =>
    rw [expiry_of_not_isZero hzero] at h ⊢
    rw [PebbleCache.set_eq key value hzero]
    refine .ask .nowMs ?_
    rw [if_neg (not_le.mpr h)]
    exact Serves.store Returned.returned _

theorem get_misses (h : s.db (PebbleCache.cacheKey key) = none) :
    (PebbleCache.get key).run.Runs (Serves step) s (.ok none) s := by
  rw [PebbleCache.get_eq]
  refine .ask (.get _) ?_
  rw [h]
  exact .done _ _

theorem get_returns {expiresAt : Nat} (hfits : expiresAt < 2 ^ 64)
    (hentry : s.db (PebbleCache.cacheKey key) = some (PebbleCache.encode expiresAt value)) :
    ∃ s', (PebbleCache.get key).run.Runs (Serves Returned) s
      (.ok (if Expired expiresAt s.clock then none else some value)) s' := by
  rw [PebbleCache.get_eq]
  by_cases hexpired : Expired expiresAt s.clock
  · refine ⟨{ s with db := (removeCall key).apply s.db }, .ask (.get _) ?_⟩
    rw [hentry, if_pos hexpired]
    dsimp only
    rw [PebbleCache.decode_encode hfits]
    dsimp only
    rw [PebbleCache.readEntry, if_neg hexpired.1]
    refine .ask .nowMs ?_
    rw [if_pos hexpired.2]
    exact Serves.store Returned.returned _
  · refine ⟨s, .ask (.get _) ?_⟩
    rw [hentry, if_neg hexpired]
    dsimp only
    rw [PebbleCache.decode_encode hfits]
    dsimp only
    rw [PebbleCache.readEntry]
    by_cases hzero : expiresAt = 0
    · rw [if_pos hzero]
      exact .done _ _
    · rw [if_neg hzero]
      refine .ask .nowMs ?_
      rw [if_neg fun hle => hexpired ⟨hzero, hle⟩]
      exact .done _ _

end Calls

/-! ## The law -/

/-- An entry set at `t0` is there at `t1` as long as its time to live, counted in full, is not over,
whatever happens to other keys in between. -/
def TtlLaw (key value : String) (ttl : Duration) (t0 t1 : Nat) : Prop :=
  ∀ (s s₁ s₂ s₃ : CacheState) (a : Res Unit) (b : Res (Option String)), s.clock = t0 →
    (PebbleCache.set key value ttl).run.Runs (Serves Returned) s a s₁ →
    s₂.db (PebbleCache.cacheKey key) = s₁.db (PebbleCache.cacheKey key) → s₂.clock = t1 →
    (PebbleCache.get key).run.Runs (Serves Returned) s₂ b s₃ →
    a = .ok () ∧
      b = .ok (if ttl.isZero = true ∨ t1 < t0 + ttl.asMillis then some value else none)

/-- The cut to a `u64` makes no difference at this time. -/
theorem not_expired_iff {ttl : Duration} {t0 t1 : Nat} (hpos : 1 ≤ t0)
    (h : ttl.asMillis < 2 ^ 64 ∨ t1 < t0 + asU64 ttl.asMillis) :
    ¬ Expired (expiry ttl t0) t1 ↔ ttl.isZero = true ∨ t1 < t0 + ttl.asMillis := by
  have hcut : asU64 ttl.asMillis ≤ ttl.asMillis := Nat.mod_le _ _
  cases hzero : ttl.isZero with
  | true => simp [Expired, expiry_of_isZero hzero]
  | false =>
    have hexpiry := expiry_of_not_isZero hzero t0
    rw [Expired, hexpiry]
    rcases h with hlt | hlt
    · rw [asU64_of_lt hlt]
      simp only [Bool.false_eq_true, false_or]
      omega
    · simp only [Bool.false_eq_true, false_or]
      omega

/-- The sum fits a `u64`, and the cut to a `u64` does not make the entry expire before its time. -/
def TtlFits (ttl : Duration) (t0 t1 : Nat) : Prop :=
  t0 + asU64 ttl.asMillis < 2 ^ 64 ∧ (ttl.asMillis < 2 ^ 64 ∨ t1 < t0 + asU64 ttl.asMillis)

section Law

variable {key value : String} {ttl : Duration} {t0 t1 : Nat}

theorem TtlLaw.fits (hlaw : TtlLaw key value ttl t0 t1) (hpos : 1 ≤ t0)
    (hclock : t1 < 2 ^ 64) : ttl.isZero = true ∨ TtlFits ttl t0 t1 := by
  by_contra hcon
  rw [not_or] at hcon
  obtain ⟨hnonzero, hcon⟩ := hcon
  have hzero : ttl.isZero = false := Bool.not_eq_true _ ▸ hnonzero
  have hexpiry := expiry_of_not_isZero hzero t0
  let empty : Contents := fun _ => none
  by_cases hfits : t0 + asU64 ttl.asMillis < 2 ^ 64
  · have hover : ¬ (ttl.asMillis < 2 ^ 64 ∨ t1 < t0 + asU64 ttl.asMillis) :=
      fun h => hcon ⟨hfits, h⟩
    rw [← hexpiry] at hfits hover
    let s₂ : CacheState := ⟨(storeCall key value (expiry ttl t0)).apply empty, t1⟩
    have hentry : s₂.db (PebbleCache.cacheKey key) =
        some (PebbleCache.encode (expiry ttl t0) value) := @storeCall_apply_self key value _ empty
    obtain ⟨s₃, hget⟩ := get_returns hfits hentry
    have hset := @set_returns ⟨empty, t0⟩ key value ttl hfits
    have hresult := (hlaw _ _ s₂ s₃ _ _ rfl hset rfl rfl hget).2
    rw [if_pos (show Expired (expiry ttl t0) t1 by unfold Expired; omega),
      if_pos (show ttl.isZero = true ∨ t1 < t0 + ttl.asMillis by omega)] at hresult
    cases hresult
  · have hset := @set_panics Returned ⟨fun _ => none, t0⟩ key value ttl hzero (not_lt.mp hfits)
    have hget := @get_misses Returned ⟨empty, t1⟩ key rfl
    cases (hlaw _ _ ⟨empty, t1⟩ _ _ _ rfl hset rfl rfl hget).1

theorem TtlFits.ttlLaw (h : ttl.isZero = true ∨ TtlFits ttl t0 t1) (hpos : 1 ≤ t0) :
    TtlLaw key value ttl t0 t1 := by
  intro s s₁ s₂ s₃ a b hs hset hkept hs₂ hget
  subst hs hs₂
  have hfits : expiry ttl s.clock < 2 ^ 64 := by
    rw [expiry]
    split
    · decide
    · rcases h with hzero | ⟨hfits, -⟩
      · contradiction
      · exact hfits
  rcases runs_set hset with ⟨hover, -⟩ | ⟨-, reply, hstore, rfl⟩
  · exact absurd hover (not_le.mpr hfits)
  · obtain ⟨rfl, hdb⟩ := hstore.eq
    have hentry : s₂.db (PebbleCache.cacheKey key) =
        some (PebbleCache.encode (expiry ttl s.clock) value) := by
      rw [hkept, hdb]
      exact storeCall_apply_self _ _
    refine ⟨rfl, ?_⟩
    have hlives : ¬ Expired (expiry ttl s.clock) s₂.clock ↔
        ttl.isZero = true ∨ s₂.clock < s.clock + ttl.asMillis := by
      rcases h with hzero | ⟨-, h⟩
      · simp [Expired, expiry_of_isZero hzero, hzero]
      · exact not_expired_iff hpos h
    rcases runs_get hfits hentry hget with ⟨hexpired, reply, hremove, rfl⟩ | ⟨hexpired, rfl, -⟩
    · obtain ⟨rfl, -⟩ := hremove.eq
      rw [if_neg fun h => hlives.mpr h hexpired]
      rfl
    · rw [if_pos (hlives.mp hexpired)]

end Law

/-- The law holds exactly of an entry without a time to live and of one whose sum fits a `u64` and
that the cut to a `u64` does not make expire before its time. -/
theorem ttlLaw_iff (key value : String) (ttl : Duration) {t0 t1 : Nat} (hpos : 1 ≤ t0)
    (hclock : t1 < 2 ^ 64) :
    TtlLaw key value ttl t0 t1 ↔ ttl.isZero = true ∨ TtlFits ttl t0 t1 :=
  ⟨fun hlaw => hlaw.fits hpos hclock, fun h => TtlFits.ttlLaw h hpos⟩

/-- A time to live of twenty milliseconds that has run out. -/
theorem ttlLaw_iff_short :
    TtlLaw "k" "http://example.com" ⟨0, 20000000, by decide, by decide⟩ 100 120 :=
  (ttlLaw_iff "k" "http://example.com" ⟨0, 20000000, by decide, by decide⟩
    (by decide) (by decide)).mpr (Or.inr (by unfold TtlFits; decide))

/-- More than `u64` milliseconds: the entry expires within the first second. -/
theorem not_ttlLaw_long :
    ¬ TtlLaw "k" "v" ⟨18446744073709552, 0, by decide, by decide⟩ 1 385 := by
  intro hlaw
  have h := hlaw.fits (by decide) (by decide)
  exact absurd h (by unfold TtlFits; decide)

end PebbleDB
