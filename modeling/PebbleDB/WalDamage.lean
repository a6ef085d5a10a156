import PebbleDB.WalFraming

/-!
# A damaged byte in the middle of the log

Which single-byte changes of a complete record, followed by at least one more, the reader
reports. Behind the length prefix every change is reported: the checksum covers prefix and
payload, and CRC-32 tells any two strings apart that differ in one byte. A change of the length
prefix re-frames everything after it. The reader then follows its policy for tails: a declared
size below a record header, or past the end of the file, ends the log there.
-/

namespace PebbleDB

open LittleEndian

/-- The log of `before`, then `r` with its `i`-th byte overwritten by `b`, then `after`. -/
def damagedLog (before : List WalRecord) (r : WalRecord) (after : List WalRecord) (i : Nat)
    (b : UInt8) : Bytes :=
  (encodeAll (before ++ r :: after)).set ((encodeAll before).length + i) b

/-- The size that the length prefix at the start of `tail` declares. -/
def declaredLen (tail : Bytes) : Nat := ofLe (tail.take 4)

/-- The frame at the start of `tail`, of the declared size, carries its own checksum. -/
def FrameChecks (tail : Bytes) : Prop :=
  crc32 (tail.take (4 + declaredLen tail)) = ofLe ((tail.drop (4 + declaredLen tail)).take 4)

instance (tail : Bytes) : Decidable (FrameChecks tail) := inferInstanceAs (Decidable (_ = _))

section Damage

variable {before after : List WalRecord} {r : WalRecord} {i : Nat} {b : UInt8}

theorem encodeAll_append (rs ss : List WalRecord) :
    encodeAll (rs ++ ss) = encodeAll rs ++ encodeAll ss := List.flatMap_append

theorem damagedLog_eq (hi : i < r.encode.length) :
    damagedLog before r after i b =
      encodeAll before ++ (r.encode.set i b ++ encodeAll after) := by
  have hcons : encodeAll (r :: after) = r.encode ++ encodeAll after := rfl
  rw [damagedLog, encodeAll_append, hcons, List.set_append_right _ _ (by omega),
    Nat.add_sub_cancel_left, List.set_append_left _ _ hi]

theorem length_damagedLog :
    (damagedLog before r after i b).length = (encodeAll (before ++ r :: after)).length := by
  simp [damagedLog]

/-- The reader gets through the records before the damaged one. -/
theorem recover_damagedLog (hbefore : ∀ x ∈ before, x.Fits) (hi : i < r.encode.length) :
    ∃ fuel, recover (damagedLog before r after i b) =
      readLoop (damagedLog before r after i b).length true (fuel + 1)
        (r.encode.set i b ++ encodeAll after) before (encodeAll before).length := by
  have hle := length_le_encodeAll before
  have heq : damagedLog before r after i b = _ := damagedLog_eq hi
  refine ⟨(damagedLog before r after i b).length - before.length, ?_⟩
  have hlen : (encodeAll before).length ≤ (damagedLog before r after i b).length := by
    rw [heq, List.length_append]
    omega
  have hfuel : (damagedLog before r after i b).length + 1 =
      (damagedLog before r after i b).length - before.length + 1 + before.length := by omega
  rw [recover, readRecords, hfuel]
  conv => lhs; arg 4; rw [heq]
  rw [readLoop_encodeAll hbefore _ (by omega)]
  simp

/-- A damaged payload or checksum behind an intact length prefix. -/
theorem readLoop_damaged_body (hr : r.Fits) (h4 : 4 ≤ i) (hi : i < r.encode.length)
    (hb : r.encode[i]? ≠ some b) {fileLen fuel validLen : Nat} {records : List WalRecord}
    (more : Bytes) (hend : validLen + r.encode.length ≤ fileLen) :
    readLoop fileLen true (fuel + 1) (r.encode.set i b ++ more) records validLen =
      err (.walCorruption "checksum mismatch") := by
  have hle : ofLe (u32ToLe r.totalLen) = r.totalLen := ofLe_u32ToLe hr.totalLen_lt
  have hnine : 9 ≤ r.totalLen := by rw [hr.totalLen_eq]; omega
  have hpl := hr.length_payload
  have hlen := hr.length_encode
  have hframed : r.framed.length = 4 + r.totalLen := by
    simp [WalRecord.framed, hpl]
  rcases Nat.lt_or_ge i (4 + r.totalLen) with hlt | hge
  · -- the change is in the payload, which the checksum covers
    have hset : r.encode.set i b =
        u32ToLe r.totalLen ++ r.payload.set (i - 4) b ++ u32ToLe (crc32 r.framed) := by
      rw [WalRecord.encode, List.set_append_left _ _ (by omega), WalRecord.framed,
        List.set_append_right _ _ (by simpa using h4), length_u32ToLe]
    have hcrc : crc32 (u32ToLe r.totalLen ++ r.payload.set (i - 4) b) ≠ crc32 r.framed := by
      have heq : u32ToLe r.totalLen ++ r.payload.set (i - 4) b = r.framed.set i b := by
        rw [WalRecord.framed, List.set_append_right _ _ (by simpa using h4), length_u32ToLe]
      rw [heq]
      refine crc32_set_ne (by omega) fun h => hb ?_
      rw [WalRecord.encode, List.getElem?_append_left (by omega), h]
    rw [hset, readLoop_frame (by simp) (by rw [List.length_set, hpl, hle]) (by omega)
      (by simp) (by omega), ofLe_u32ToLe (crc32_lt _), if_pos hcrc]
  · -- the change is in the checksum itself
    have hset : r.encode.set i b = u32ToLe r.totalLen ++ r.payload ++
        (u32ToLe (crc32 r.framed)).set (i - (4 + r.totalLen)) b := by
      rw [WalRecord.encode, List.set_append_right _ _ (by omega), hframed, WalRecord.framed]
    have hsum : (u32ToLe (crc32 r.framed)).set (i - (4 + r.totalLen)) b ≠
        u32ToLe (crc32 r.framed) := by
      refine set_ne_self (by simp; omega) fun h => hb ?_
      rw [WalRecord.encode, List.getElem?_append_right (by omega), hframed, h]
    have hcrc : crc32 (u32ToLe r.totalLen ++ r.payload) ≠
        ofLe ((u32ToLe (crc32 r.framed)).set (i - (4 + r.totalLen)) b) := by
      intro h
      apply hsum
      apply ofLe_injective (by simp)
      rw [← h, ofLe_u32ToLe (crc32_lt _), WalRecord.framed]
    rw [hset, readLoop_frame (by simp) (by rw [hpl, hle]) (by omega) (by simp) (by omega),
      if_pos hcrc]

theorem length_set_encode (hr : r.Fits) : (r.encode.set i b).length = 8 + r.totalLen := by
  rw [List.length_set, hr.length_encode]

theorem set_prefix_append (h4 : i < 4) (more : Bytes) :
    r.encode.set i b ++ more =
      (u32ToLe r.totalLen).set i b ++ (r.payload ++ u32ToLe (crc32 r.framed) ++ more) := by
  rw [WalRecord.encode, WalRecord.framed, List.append_assoc,
    List.set_append_left _ _ (by simpa using h4)]
  simp

/-- A damaged length prefix whose frame ends inside the file is reported, unless the frame is
longer than the record and its checksum happens to match. -/
theorem readLoop_damaged_prefix (hr : r.Fits) (h4 : i < 4)
    {fileLen fuel validLen : Nat} {records : List WalRecord} (more : Bytes)
    (hlen : fileLen = validLen + (r.encode.length + more.length))
    (hnine : 9 ≤ declaredLen (r.encode.set i b ++ more))
    (hend : validLen + 8 + declaredLen (r.encode.set i b ++ more) ≤ fileLen)
    (hcheck : declaredLen (r.encode.set i b ++ more) < r.totalLen ∨
      ¬ FrameChecks (r.encode.set i b ++ more)) :
    ∃ msg, readLoop fileLen true (fuel + 1) (r.encode.set i b ++ more) records validLen =
      err (.walCorruption msg) := by
  obtain ⟨p, hp⟩ : ∃ p, p = (u32ToLe r.totalLen).set i b := ⟨_, rfl⟩
  obtain ⟨behind, hbehind⟩ : ∃ behind, behind = r.payload ++ u32ToLe (crc32 r.framed) ++ more :=
    ⟨_, rfl⟩
  have hplen : p.length = 4 := by simp [hp]
  have htail : r.encode.set i b ++ more = p ++ behind := by rw [set_prefix_append h4, hp, hbehind]
  have hdecl : declaredLen (r.encode.set i b ++ more) = ofLe p := by
    rw [htail, declaredLen, ← hplen, List.take_left]
  rw [hdecl] at hnine hend hcheck
  have hbehindLen : behind.length = r.totalLen + 4 + more.length := by
    simp [hbehind, hr.length_payload]
    omega
  have hroom : ofLe p + 4 ≤ behind.length := by
    rw [hlen, hr.length_encode] at hend
    omega
  -- cut the bytes after the prefix into the frame's payload, its checksum and the rest
  have hcut : p ++ behind = p ++ behind.take (ofLe p) ++ (behind.drop (ofLe p)).take 4 ++
      (behind.drop (ofLe p)).drop 4 := by
    rw [List.append_assoc, List.append_assoc, List.take_append_drop, List.take_append_drop]
  have hturn : readLoop fileLen true (fuel + 1) (p ++ behind.take (ofLe p) ++
      (behind.drop (ofLe p)).take 4 ++ (behind.drop (ofLe p)).drop 4) records validLen = _ :=
    readLoop_frame hplen (by rw [List.length_take]; omega) hnine
    (by rw [List.length_take, List.length_drop]; omega) (by omega)
  rw [htail, hcut, hturn]
  by_cases hcrc : crc32 (p ++ behind.take (ofLe p)) = ofLe ((behind.drop (ofLe p)).take 4)
  · -- only a shorter frame is left, and it cuts the payload
    have hshort : ofLe p < r.totalLen := by
      refine hcheck.resolve_right fun hno => hno ?_
      rw [FrameChecks, hdecl, htail]
      rw [List.take_append, hplen, List.take_of_length_le (by omega), Nat.add_sub_cancel_left,
        List.drop_append, hplen, Nat.add_sub_cancel_left, List.drop_of_length_le (by omega)]
      exact hcrc
    have htake : behind.take (ofLe p) = r.payload.take (ofLe p) := by
      rw [hbehind, List.append_assoc, List.take_append_of_le_length]
      rw [hr.length_payload]
      omega
    refine ⟨"record truncated", ?_⟩
    rw [if_neg (not_not.mpr hcrc), htake, hr.decode_take hnine hshort]
    rfl
  · exact ⟨"checksum mismatch", if_pos hcrc⟩

/-- A change of one byte of a complete record, whatever records follow it, is
reported as corruption when it lies behind the length prefix. In the length prefix it is
reported when the new size is that of a frame inside the file that is shorter than the record
or whose checksum fails; a size below a record header or past the end of the file is taken for
a tail, and the records before it are returned. -/
theorem recover_damagedLog_cases {before after : List WalRecord} {r : WalRecord} {i : Nat}
    {b : UInt8} (hfits : ∀ x ∈ before ++ r :: after, x.Fits)
    (hi : i < r.encode.length) (hb : r.encode[i]? ≠ some b) :
    let tail := r.encode.set i b ++ encodeAll after
    let inFile := (encodeAll before).length + 8 + declaredLen tail ≤
      (encodeAll (before ++ r :: after)).length
    (4 ≤ i → ∃ msg, recover (damagedLog before r after i b) = err (.walCorruption msg)) ∧
    (i < 4 → 9 ≤ declaredLen tail → inFile →
      declaredLen tail < r.totalLen ∨ ¬ FrameChecks tail →
      ∃ msg, recover (damagedLog before r after i b) = err (.walCorruption msg)) ∧
    (i < 4 → declaredLen tail < 9 ∨ ¬ inFile →
      recover (damagedLog before r after i b) = .ok ⟨before, (encodeAll before).length⟩) := by
  intro tail inFile
  have hr : r.Fits := hfits r (by simp)
  have hbefore : ∀ x ∈ before, x.Fits := fun x hx => hfits x (by simp [hx])
  obtain ⟨fuel, hrec⟩ := @recover_damagedLog before after r i b hbefore hi
  have hlen : (damagedLog before r after i b).length =
      (encodeAll before).length + (r.encode.length + (encodeAll after).length) := by
    rw [damagedLog_eq hi]
    simp
  have htailLen : 4 ≤ tail.length := by
    have := length_set_encode (i := i) (b := b) hr
    simp only [tail, List.length_append, this]
    omega
  rw [hrec]
  refine ⟨fun h4 => ?_, fun h4 hnine hin hcheck => ?_, fun h4 hout => ?_⟩
  · exact ⟨_, readLoop_damaged_body hr h4 hi hb _ (by omega)⟩
  · simp only [inFile, ← length_damagedLog (i := i) (b := b)] at hin
    exact readLoop_damaged_prefix hr h4 _ hlen hnine hin hcheck
  · rcases Nat.lt_or_ge (declaredLen tail) 9 with hlt | hge
    · exact readLoop_short_record htailLen hlt
    · have hpast : ¬ inFile := hout.resolve_left (by omega)
      simp only [inFile, ← length_damagedLog (i := i) (b := b), not_le] at hpast
      exact readLoop_past_end htailLen hge hpast

theorem recover_damagedLog_cases_put :
    (∃ msg, recover (damagedLog [] (.set "a" "1") [.delete "a"] 6 255) =
      err (.walCorruption msg)) ∧
    recover (damagedLog [] (.set "a" "1") [.delete "a"] 3 1) = .ok ⟨[], 0⟩ :=
  ⟨(@recover_damagedLog_cases [] [.delete "a"] (.set "a" "1") 6 255 (by decide) (by decide) (by decide)).1 (by decide),
    (@recover_damagedLog_cases [] [.delete "a"] (.set "a" "1") 3 1 (by decide) (by decide) (by decide)).2.2 (by decide)
      (Or.inr (by decide +kernel))⟩

/-- A length prefix whose high byte is flipped swallows itself and the whole log after it. -/
theorem recover_damagedLog_loses_records :
    (∀ x ∈ [WalRecord.set "a" "1", .delete "a"], x.Fits) ∧
    3 < (WalRecord.set "a" "1").encode.length ∧
    (WalRecord.set "a" "1").encode[3]? ≠ some 1 ∧
    ¬ ∃ msg, recover (damagedLog [] (.set "a" "1") [.delete "a"] 3 1) =
      err (.walCorruption msg) := by
  refine ⟨by decide, by decide, by decide, ?_⟩
  rintro ⟨msg, hmsg⟩
  have hok : recover (damagedLog [] (.set "a" "1") [.delete "a"] 3 1) = .ok ⟨[], 0⟩ := by
    decide +kernel
  rw [hok] at hmsg
  cases hmsg

end Damage

end PebbleDB
