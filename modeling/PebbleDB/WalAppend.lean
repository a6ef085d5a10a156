import PebbleDB.Frame
import PebbleDB.WalFraming

/-!
# Appending to a log

What the reader makes of a log that was appended to: behind a part that it accepted
(`recover_append`), with a torn record at the end (`read_tornLog`), and by calls of which some
failed (`recover_logOf`). It gives back only records that fit their fields, so exactly the logs of
such records are read back (`recover_encodeAll_iff`).
-/

namespace PebbleDB

open LittleEndian EarlyExit

/-! ## Behind an accepted part -/

/-- The reader ends on every log. The part that it accepts can be appended to. -/
theorem recover_append (log : Bytes) :
    ((∃ r, recover log = .ok r) ∨ ∃ message, recover log = err (.walCorruption message)) ∧
      ∀ rs n, recover log = .ok ⟨rs, n⟩ → n ≤ log.length ∧
        ∀ more : List WalRecord, (∀ r ∈ more, r.Fits) →
          recover (log.take n ++ encodeAll more) =
            .ok ⟨rs ++ more, (log.take n ++ encodeAll more).length⟩ := by
  constructor
  · have hends := @readLoop_ends _ 0 _ [] (Nat.lt_succ_self log.length)
    rwa [Nat.zero_add] at hends
  · intro rs n hrecover
    refine ⟨(recover_take hrecover).1, fun more hmore => ?_⟩
    obtain ⟨hle, fuel, hfuel, hread⟩ := recover_take_append hrecover (encodeAll more)
    have hlen := length_le_encodeAll more
    obtain ⟨rest, rfl⟩ : ∃ rest, fuel = rest + 1 + more.length := ⟨fuel - 1 - more.length, by omega⟩
    have hall := @readLoop_encodeAll (n + (encodeAll more).length) (rest + 1) n true rs more hmore []
      le_rfl
    rw [List.append_nil, readLoop_nil] at hall
    rw [hread]
    refine hall.trans ?_
    rw [List.length_append, List.length_take_of_le hle]

/-! ## A torn record at the end -/

/-- A log with a strict prefix of a record at its end. -/
theorem read_tornLog {rs : List WalRecord} (hrs : ∀ r ∈ rs, r.Fits) {r : WalRecord} (hr : r.Fits)
    {p : Bytes} (hp : p <+: r.encode) (hne : p ≠ r.encode) :
    recover (encodeAll rs ++ p) = .ok ⟨rs, (encodeAll rs).length⟩ ∧
      readAll (encodeAll rs ++ p) = if p = [] then .ok rs else err .walIncomplete := by
  have htorn : TornTail p := ⟨r, hr, hp, hne⟩
  refine ⟨recover_encodeAll hrs htorn, ?_⟩
  rw [readAll, readRecords_encodeAll hrs htorn]
  split
  · rfl
  · rfl

/-- A deletion torn inside its header. -/
theorem read_tornLog_deletion :
    recover (encodeAll [.set "a" "1"] ++ (WalRecord.delete "b").encode.take 10) =
      .ok ⟨[.set "a" "1"], (encodeAll [.set "a" "1"]).length⟩ ∧
    readAll (encodeAll [.set "a" "1"] ++ (WalRecord.delete "b").encode.take 10) =
      err .walIncomplete := by
  have htorn := @read_tornLog [.set "a" "1"] (by decide) (.delete "b") (by decide)
    ((WalRecord.delete "b").encode.take 10) (List.take_prefix _ _) (by decide +kernel)
  have hne : (WalRecord.delete "b").encode.take 10 ≠ [] := by decide +kernel
  rwa [if_neg hne] at htorn

/-! ## Failed appends -/

/-- A call of `append_record`. One that fails is assumed to leave a strict prefix of the record in
the log and nothing in the writer. A record of 8 KiB or more is handed to the file directly; a
shorter one goes through the buffer of `BufWriter`, which may keep what the file did not take. -/
inductive Append where
  | returned (record : WalRecord)
  | failed (record : WalRecord) (written : Fin record.encode.length)

/-- The bytes that the call adds to the log. -/
def Append.bytes : Append → Bytes
  | returned record => record.encode
  | failed record written => record.encode.take written

/-- The bytes that the failed calls have left. -/
def Append.torn : Append → Bytes
  | returned _ => []
  | failed record written => record.encode.take written

/-- The record, if the call returned. -/
def Append.acknowledged : Append → List WalRecord
  | returned record => [record]
  | failed _ _ => []

/-- The log behind these calls. -/
def logOf (calls : List Append) : Bytes := calls.flatMap Append.bytes

/-- What the failed ones of them have left in it. -/
def tornOf (calls : List Append) : Bytes := calls.flatMap Append.torn

/-- The records of those that returned. -/
def acknowledgedOf (calls : List Append) : List WalRecord := calls.flatMap Append.acknowledged

/-- The reader stops at these bytes without a report: they are shorter than a length prefix, or
declare less than a record header, or more than is there. -/
def QuietTail (tail : Bytes) : Prop :=
  tail.length < 4 ∨ ofLe (tail.take 4) < 9 ∨ tail.length < 8 + ofLe (tail.take 4)

/-- The call does no harm to the log of these earlier calls: a record is only acknowledged where
nothing torn is in front of it and fits its fields, and what failed calls leave together is still
a quiet tail. -/
def Append.Safe (before : List Append) : Append → Prop
  | returned record => tornOf before = [] ∧ record.Fits
  | failed record written => QuietTail (tornOf before ++ record.encode.take written)

/-- Calls, each of which is safe where it is made. -/
inductive SafeCalls : List Append → Prop where
  | nil : SafeCalls []
  | snoc {calls : List Append} {call : Append} (h : SafeCalls calls) (hcall : call.Safe calls) :
      SafeCalls (calls ++ [call])

theorem readLoop_quietTail {fileLen fuel validLen : Nat} {records : List WalRecord} {tail : Bytes}
    (h : QuietTail tail) (hend : fileLen = validLen + tail.length) :
    readLoop fileLen true (fuel + 1) tail records validLen = .ok ⟨records, validLen⟩ := by
  by_cases hnil : tail = []
  · rw [hnil, readLoop_nil]
  by_cases hlen : tail.length < 4
  · rw [readLoop_shortLength hnil hlen]
    rfl
  by_cases hsize : ofLe (tail.take 4) < 9
  · exact readLoop_short_record (by omega) hsize
  · have hpast : tail.length < 8 + ofLe (tail.take 4) := (h.resolve_left hlen).resolve_left hsize
    rw [readLoop_past_end (by omega) (by omega) (by omega)]
    rfl

/-- The acknowledged records stand in front, whole, and all that is torn behind them. -/
structure Intact (calls : List Append) : Prop where
  log : logOf calls = encodeAll (acknowledgedOf calls) ++ tornOf calls
  fits : ∀ r ∈ acknowledgedOf calls, r.Fits
  quiet : QuietTail (tornOf calls)

theorem Intact.append {calls : List Append} {call : Append} (h : Intact calls)
    (hcall : call.Safe calls) : Intact (calls ++ [call]) := by
  have hlog : logOf (calls ++ [call]) = logOf calls ++ call.bytes := by simp [logOf]
  have htorn : tornOf (calls ++ [call]) = tornOf calls ++ call.torn := by simp [tornOf]
  have hack : acknowledgedOf (calls ++ [call]) = acknowledgedOf calls ++ call.acknowledged := by
    simp [acknowledgedOf]
  have hencode : ∀ rs rs' : List WalRecord, encodeAll (rs ++ rs') = encodeAll rs ++ encodeAll rs' :=
    fun rs rs' => List.flatMap_append
  cases call with
  | returned record =>
    obtain ⟨hempty, hfits⟩ := hcall
    refine ⟨?_, ?_, ?_⟩
    · rw [hlog, htorn, hack, h.log, hempty, hencode]
      simp [Append.bytes, Append.torn, Append.acknowledged, encodeAll]
    · rw [hack]
      intro r hr
      rcases List.mem_append.mp hr with hr | hr
      · exact h.fits r hr
      · rw [List.mem_singleton.mp hr]
        exact hfits
    · rw [htorn, hempty]
      exact Or.inl (show ([] : Bytes).length < 4 by decide)
  | failed record written =>
    refine ⟨?_, ?_, ?_⟩
    · rw [hlog, htorn, hack, h.log]
      simp [Append.bytes, Append.torn, Append.acknowledged]
    · rw [hack]
      simpa [Append.acknowledged] using h.fits
    · rw [htorn]
      exact hcall

theorem SafeCalls.intact {calls : List Append} (h : SafeCalls calls) : Intact calls := by
  induction h with
  | nil => exact ⟨rfl, fun _ hr => absurd hr List.not_mem_nil, Or.inl (by decide)⟩
  | snoc _ hcall ih => exact ih.append hcall

theorem Intact.recover_eq {calls : List Append} (h : Intact calls) :
    recover (logOf calls) =
      .ok ⟨acknowledgedOf calls, (encodeAll (acknowledgedOf calls)).length⟩ := by
  have hle := length_le_encodeAll (acknowledgedOf calls)
  obtain ⟨fuel, hfuel⟩ : ∃ fuel, (logOf calls).length + 1 =
      fuel + 1 + (acknowledgedOf calls).length := by
    refine ⟨(logOf calls).length - (acknowledgedOf calls).length, ?_⟩
    rw [h.log, List.length_append]
    omega
  rw [recover, readRecords, hfuel, h.log, readLoop_encodeAll h.fits _ (by simp),
    readLoop_quietTail h.quiet (by simp)]
  simp

/-- After safe calls of which any failed, the reader gives back the acknowledged records. -/
theorem recover_logOf {calls : List Append} (h : SafeCalls calls) :
    ∃ rs n, recover (logOf calls) = .ok ⟨rs, n⟩ ∧ (acknowledgedOf calls).Sublist rs :=
  ⟨_, _, h.intact.recover_eq, List.Sublist.refl _⟩

/-- A record of more than the 8 KiB that `BufWriter` holds back. -/
def largeRecord : WalRecord := .set "" (text 8193)

theorem largeRecord_fits : largeRecord.Fits ∧ largeRecord.totalLen = 8202 := by
  have hlengths : largeRecord.lengths = (0, 8193) := by
    rw [largeRecord, WalRecord.lengths, length_text]
    rfl
  constructor
  · rw [WalRecord.Fits, hlengths]
    decide
  · rw [WalRecord.totalLen, hlengths]
    decide

theorem length_largeRecord : largeRecord.encode.length = 8210 := by
  rw [largeRecord_fits.1.length_encode, largeRecord_fits.2]

/-- The first four bytes of the record are written, and then a deletion that is acknowledged. -/
def swallowedDeletion : List Append :=
  [.failed largeRecord ⟨4, by rw [length_largeRecord]; decide⟩, .returned (.delete "b")]

/-- The reader takes the torn record and the deletion behind it for one torn tail. -/
theorem recover_swallowedDeletion : recover (logOf swallowedDeletion) = .ok ⟨[], 0⟩ ∧
    acknowledgedOf swallowedDeletion = [.delete "b"] ∧
    ¬ ∃ rs n, recover (logOf swallowedDeletion) = .ok ⟨rs, n⟩ ∧
      (acknowledgedOf swallowedDeletion).Sublist rs := by
  have htake : largeRecord.encode.take 4 = u32ToLe 8202 := by
    rw [WalRecord.encode, WalRecord.framed, largeRecord_fits.2, List.append_assoc]
    exact List.take_left' (by simp)
  have hlog : logOf swallowedDeletion = u32ToLe 8202 ++ (WalRecord.delete "b").encode := by
    simp [logOf, swallowedDeletion, Append.bytes, htake]
  have hquiet : QuietTail (u32ToLe 8202 ++ (WalRecord.delete "b").encode) := by
    unfold QuietTail
    decide +kernel
  have hrecover : recover (logOf swallowedDeletion) = .ok ⟨[], 0⟩ := by
    rw [hlog, recover, readRecords]
    exact readLoop_quietTail hquiet (Nat.zero_add _).symm
  refine ⟨hrecover, rfl, ?_⟩
  intro h
  obtain ⟨rs, n, hok, hsub⟩ := h
  rw [hrecover, Except.ok.injEq, WalRecovery.mk.injEq] at hok
  rw [← hok.1] at hsub
  exact absurd hsub (by decide)

/-- Two appends, the second of which is torn inside its header. -/
theorem recover_logOf_torn : ∃ rs n,
    recover (logOf [.returned (.set "a" "1"), .failed (.delete "b") ⟨10, by decide⟩]) =
      .ok ⟨rs, n⟩ ∧ [WalRecord.set "a" "1"].Sublist rs := by
  refine recover_logOf ?_
  refine @SafeCalls.snoc [.returned (.set "a" "1")] _ ?_ ?_
  · exact @SafeCalls.snoc [] _ .nil ⟨rfl, by decide⟩
  · unfold Append.Safe QuietTail
    decide +kernel

/-! ## Records beyond the fields -/

/-- What the reader gives back fits. -/
theorem fits_of_readLoop {fuel validLen : Nat} {rest : Bytes} {records : List WalRecord}
    {r : WalRecovery} (h : readLoop (validLen + rest.length) true fuel rest records validLen = .ok r)
    (hfits : ∀ record ∈ records, record.Fits) : ∀ record ∈ r.records, record.Fits := by
  induction fuel generalizing rest records validLen with
  | zero => cases h
  | succ fuel ih =>
    have hturn := turn_readLoop fuel records validLen rest
    rw [h] at hturn
    generalize hr : (Except.ok r : Res WalRecovery) = result at hturn
    cases hturn with
    | stops =>
      cases hr
      exact hfits
    | corrupt message => cases hr
    | frame p body sum more record hrest hp hbody hsize hsum hcrc hdecode =>
      have hlen : rest.length = 8 + ofLe p + more.length := by
        rw [hrest]
        simp only [List.length_append, hp, hbody, hsum]
        omega
      rw [show validLen + rest.length = validLen + (8 + ofLe p) + more.length by omega] at hr
      refine ih hr.symm fun other hother => ?_
      rcases List.mem_append.mp hother with hother | hother
      · exact hfits other hother
      · have hle := WalRecord.decode_eq_ok hdecode
        have hlt := ofLe_lt p
        rw [hp] at hlt
        rw [List.mem_singleton.mp hother, WalRecord.Fits]
        omega

/-- The log of some records is read back exactly if all of them fit. -/
theorem recover_encodeAll_iff (rs : List WalRecord) :
    recover (encodeAll rs) = .ok ⟨rs, (encodeAll rs).length⟩ ↔ ∀ r ∈ rs, r.Fits := by
  constructor
  · intro h
    rw [recover, readRecords, ← Nat.zero_add (encodeAll rs).length] at h
    exact fits_of_readLoop h fun _ hr => absurd hr List.not_mem_nil
  · intro h
    have hrecover := recover_encodeAll h tornTail_nil
    rwa [List.append_nil] at hrecover

/-- `encode` computes its lengths without losing a bit. -/
def WalRecord.KeepsBits (r : WalRecord) : Prop :=
  asU32 r.lengths.1 = r.lengths.1 ∧ asU32 r.lengths.2 = r.lengths.2 ∧
    asU32 r.totalLen = 1 + 4 + 4 + r.lengths.1 + r.lengths.2

theorem WalRecord.keepsBits_iff (r : WalRecord) : r.KeepsBits ↔ r.Fits := by
  constructor
  · intro h
    have hlt := asU32_lt r.totalLen
    rw [h.2.2] at hlt
    exact hlt
  · intro h
    have htotal := h.totalLen_eq
    have hlt := h.totalLen_lt
    unfold WalRecord.Fits at h
    refine ⟨asU32_of_lt (by omega), asU32_of_lt (by omega), ?_⟩
    rw [asU32_of_lt hlt, htotal]

/-- A call that returns passed the check of the sum. -/
theorem totalLenOverflows_of_set [BloomSizing] {fuel : Nat} {key value : String} {w w' : World}
    (h : set fuel key value w = .ok () w') :
    (WalRecord.set key value).totalLenOverflows = false := by
  have hconst : ∀ {α : Type} {p : Prop} (x : OpM α) (w : World), p →
      Wp x (fun _ _ => p) (fun _ _ => True) w := by
    intro α p x w hp
    rw [Wp]
    split
    · exact hp
    · trivial
  have hwp : Wp (set fuel key value)
      (fun _ _ => (WalRecord.set key value).totalLenOverflows = false) (fun _ _ => True) w := by
    rw [set, writeRecord]
    refine Wp.bind (wp_hit (fun _ => ?_) fun _ _ => trivial)
    rw [appendRecord]
    refine Wp.bind (Wp.ite (fun _ => Wp.throw trivial) fun hsum => ?_)
    have hsum := Bool.eq_false_iff.mpr hsum
    exact (hconst _ _ hsum).mono (fun _ w₁ _ => hconst _ w₁ hsum) fun _ _ _ => trivial
  exact hwp.ok_of_eq h

/-- Where `set` returns, its record and those around it in the log are recovered, and its lengths
kept their bits, exactly if all of them fit. -/
theorem set_recoverable_iff [BloomSizing] {fuel : Nat} {key value : String} {w w' : World}
    (h : set fuel key value w = .ok () w') (before after : List WalRecord) :
    (WalRecord.set key value).totalLenOverflows = false ∧
      ((WalRecord.set key value).KeepsBits ∧
          recover (encodeAll (before ++ .set key value :: after)) =
            .ok ⟨before ++ .set key value :: after,
              (encodeAll (before ++ .set key value :: after)).length⟩ ↔
        ∀ r ∈ before ++ .set key value :: after, r.Fits) := by
  refine ⟨totalLenOverflows_of_set h, ?_⟩
  rw [recover_encodeAll_iff, WalRecord.keepsBits_iff]
  exact and_iff_right_of_imp fun hall => hall _ (by simp)

/-- A handle on an empty directory. -/
def freshHandle : World where
  inner := ⟨∅, [[]], 0, .default, .new none⟩
  disk := ⟨∅, [], ⟨fun _ names => names, fun _ _ => .refl _⟩, fun _ => false, none⟩

/-- The first write on it does not flush. -/
theorem set_freshHandle [BloomSizing] {key value : String}
    (h : (WalRecord.set key value).totalLenOverflows = false) :
    ∃ w', set 0 key value freshHandle = .ok () w' := by
  simp only [set, writeRecord, appendRecord, h]
  exact ⟨_, rfl⟩

theorem set_recoverable_iff_small : ∃ w', @set .ofSmall 0 "k" "v" freshHandle = .ok () w' ∧
    recover (encodeAll [.delete "a", .set "k" "v"]) =
      .ok ⟨[.delete "a", .set "k" "v"], (encodeAll [.delete "a", .set "k" "v"]).length⟩ := by
  obtain ⟨w', hset⟩ := @set_freshHandle .ofSmall "k" "v" (by decide)
  refine ⟨w', hset, ?_⟩
  have hiff := (@set_recoverable_iff .ofSmall _ _ _ _ _ hset [.delete "a"] []).2
  exact (hiff.mpr (by decide)).2

/-- A key of four gibibytes. -/
def hugeKey : String := text (2 ^ 32)

/-- `set` acknowledges it, its length is cut to zero, and the log does not give it back. -/
theorem set_hugeKey : ∃ w', @set .ofSmall 0 hugeKey "" freshHandle = .ok () w' ∧
    asU32 (WalRecord.set hugeKey "").lengths.1 = 0 ∧
    ¬ ((WalRecord.set hugeKey "").KeepsBits ∧
      recover (encodeAll [.set hugeKey ""]) =
        .ok ⟨[.set hugeKey ""], (encodeAll [.set hugeKey ""]).length⟩) := by
  have hlengths : (WalRecord.set hugeKey "").lengths = (2 ^ 32, 0) := by
    rw [WalRecord.lengths, hugeKey, length_text]
    rfl
  have hsum : (WalRecord.set hugeKey "").totalLenOverflows = false := by
    rw [WalRecord.totalLenOverflows, WalRecord.totalLen, hlengths]
    decide
  obtain ⟨w', hset⟩ := @set_freshHandle .ofSmall hugeKey "" hsum
  refine ⟨w', hset, ?_, fun h => ?_⟩
  · rw [hlengths]
    decide
  · have hfits := (WalRecord.keepsBits_iff _).mp h.1
    rw [WalRecord.Fits, hlengths] at hfits
    exact absurd hfits (by decide)

end PebbleDB
