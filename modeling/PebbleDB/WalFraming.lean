import PebbleDB.Wal

/-!
# Framing of the write-ahead log

What one turn of the reader loop does at a frame, at the end of the log and at a torn tail, and
from these what the reader returns on the encodings of a list of records followed by a torn
tail (`readRecords_encodeAll`).
-/

namespace PebbleDB

open LittleEndian

/-! ## Encoding and decoding one record -/

theorem WalRecord.Fits.totalLen_eq {r : WalRecord} (h : r.Fits) :
    r.totalLen = 9 + r.lengths.1 + r.lengths.2 := by
  unfold WalRecord.Fits at h
  rw [WalRecord.totalLen, asU32_of_lt (by omega), asU32_of_lt (by omega)]

theorem WalRecord.Fits.totalLen_lt {r : WalRecord} (h : r.Fits) : r.totalLen < 2 ^ 32 := by
  have hsum := h.totalLen_eq
  unfold WalRecord.Fits at h
  omega

theorem WalRecord.length_payload (r : WalRecord) :
    r.payload.length = 9 + r.lengths.1 + r.lengths.2 := by
  cases r <;> simp [WalRecord.payload, WalRecord.lengths] <;> omega

theorem WalRecord.Fits.length_payload {r : WalRecord} (h : r.Fits) :
    r.payload.length = r.totalLen := by rw [r.length_payload, h.totalLen_eq]

theorem WalRecord.length_encode (r : WalRecord) :
    r.encode.length = 17 + r.lengths.1 + r.lengths.2 := by
  simp only [WalRecord.encode, WalRecord.framed, List.length_append, length_u32ToLe,
    r.length_payload]
  omega

theorem WalRecord.Fits.length_encode {r : WalRecord} (h : r.Fits) :
    r.encode.length = 8 + r.totalLen := by
  rw [r.length_encode, h.totalLen_eq]
  omega

/-- The two length fields of a payload, whatever follows it. -/
theorem WalRecord.Fits.readU32_payload {r : WalRecord} (h : r.Fits) (more : Bytes) :
    readU32 (r.payload ++ more) 1 = .ok r.lengths.1 ∧
      readU32 (r.payload ++ more) 5 = .ok r.lengths.2 := by
  unfold WalRecord.Fits at h
  cases r with
  | set key value =>
    simp only [WalRecord.lengths] at h
    constructor
    · have := readU32_append (a := [walOpSet])
        (c := u32ToLe (asBytes value).length ++ asBytes key ++ asBytes value ++ more)
        (n := (asBytes key).length) (by omega) (o := 1) rfl
      simpa [WalRecord.payload, WalRecord.lengths] using this
    · have := readU32_append (a := [walOpSet] ++ u32ToLe (asBytes key).length)
        (c := asBytes key ++ asBytes value ++ more)
        (n := (asBytes value).length) (by omega) (o := 5) (by simp)
      simpa [WalRecord.payload, WalRecord.lengths] using this
  | delete key =>
    simp only [WalRecord.lengths] at h
    constructor
    · have := readU32_append (a := [walOpDelete]) (c := u32ToLe 0 ++ asBytes key ++ more)
        (n := (asBytes key).length) (by omega) (o := 1) rfl
      simpa [WalRecord.payload, WalRecord.lengths] using this
    · have := readU32_append (a := [walOpDelete] ++ u32ToLe (asBytes key).length)
        (c := asBytes key ++ more) (n := 0) (by omega) (o := 5) (by simp)
      simpa [WalRecord.payload, WalRecord.lengths] using this

theorem WalRecord.byteAt_payload (r : WalRecord) (more : Bytes) :
    byteAt (r.payload ++ more) 0 =
      .ok (match r with | .set .. => walOpSet | .delete .. => walOpDelete) := by
  cases r <;> rfl

/-- Decoding reads a payload back, also when more bytes follow it. -/
theorem WalRecord.Fits.decode_payload_append {r : WalRecord} (h : r.Fits) (more : Bytes) :
    WalRecord.decode (r.payload ++ more) = .ok r := by
  have hlen := r.length_payload
  obtain ⟨hkey, hvalue⟩ := h.readU32_payload more
  rw [WalRecord.decode, if_neg (by simp only [List.length_append]; omega), r.byteAt_payload,
    hkey, hvalue]
  simp only [bind, Except.bind]
  rw [if_neg (by simp only [List.length_append]; omega)]
  cases r with
  | set key value =>
    have hk : slice ((WalRecord.set key value).payload ++ more) 9 (9 + (asBytes key).length) =
        .ok (asBytes key) := by
      have := slice_append (a := [walOpSet] ++ u32ToLe (asBytes key).length ++
        u32ToLe (asBytes value).length) (b := asBytes key) (c := asBytes value ++ more)
        (s := 9) (t := 9 + (asBytes key).length) (by simp) (by simp)
      simpa [WalRecord.payload] using this
    have hv : slice ((WalRecord.set key value).payload ++ more) (9 + (asBytes key).length)
        (9 + (asBytes key).length + (asBytes value).length) = .ok (asBytes value) := by
      have := slice_append (a := [walOpSet] ++ u32ToLe (asBytes key).length ++
        u32ToLe (asBytes value).length ++ asBytes key) (b := asBytes value) (c := more)
        (s := 9 + (asBytes key).length)
        (t := 9 + (asBytes key).length + (asBytes value).length) (by simp; omega)
        (by simp; omega)
      simpa [WalRecord.payload] using this
    simp only [WalRecord.lengths, hk, hv, fromUtf8_asBytes, if_true]
    rfl
  | delete key =>
    have hk : slice ((WalRecord.delete key).payload ++ more) 9 (9 + (asBytes key).length) =
        .ok (asBytes key) := by
      have := slice_append (a := [walOpDelete] ++ u32ToLe (asBytes key).length ++ u32ToLe 0)
        (b := asBytes key) (c := more) (s := 9) (t := 9 + (asBytes key).length)
        (by simp) (by simp)
      simpa [WalRecord.payload] using this
    simp only [WalRecord.lengths, hk, fromUtf8_asBytes, ne_eq, not_true_eq_false, if_false,
      if_true]
    rfl

theorem WalRecord.Fits.decode_payload {r : WalRecord} (h : r.Fits) :
    WalRecord.decode r.payload = .ok r := by
  simpa using h.decode_payload_append []

/-- A payload that is cut short, but still holds both length fields, is reported. -/
theorem WalRecord.Fits.decode_take {r : WalRecord} (h : r.Fits) {n : Nat} (hn : 9 ≤ n)
    (hlt : n < r.totalLen) :
    WalRecord.decode (r.payload.take n) = err (.walCorruption "record truncated") := by
  have hlen : (r.payload.take n).length = n := by
    rw [List.length_take, h.length_payload]
    omega
  have hsplit : ∀ off, off + 4 ≤ n → readU32 (r.payload.take n) off = readU32 (r.payload ++ []) off := by
    intro off hoff
    have hpl := h.length_payload
    rw [List.append_nil, readU32, readU32, slice_eq (by omega), slice_eq (by omega)]
    congr 1
    rw [List.drop_take, List.take_take]
    congr 2
    omega
  obtain ⟨hkey, hvalue⟩ := h.readU32_payload []
  have hop : ∃ op, byteAt (r.payload.take n) 0 = .ok op := by
    refine ⟨(r.payload.take n).get ⟨0, by omega⟩, ?_⟩
    rw [byteAt, List.getElem?_eq_getElem (by omega)]
    rfl
  obtain ⟨op, hop⟩ := hop
  rw [WalRecord.decode, if_neg (by omega), hop, hsplit 1 (by omega), hsplit 5 (by omega), hkey,
    hvalue]
  simp only [bind, Except.bind]
  have htotal := h.totalLen_eq
  rw [if_pos (by omega)]

/-! ## One turn of the reader loop -/

section ReadLoop

variable {fileLen fuel validLen : Nat} {tolerate : Bool} {records : List WalRecord}

theorem readLoop_nil :
    readLoop fileLen tolerate (fuel + 1) [] records validLen = .ok ⟨records, validLen⟩ := rfl

/-- Fewer bytes than a length prefix. -/
theorem readLoop_shortLength {rest : Bytes} (hne : rest ≠ []) (hlen : rest.length < 4) :
    readLoop fileLen tolerate (fuel + 1) rest records validLen =
      stopAtTail records validLen tolerate := by
  have hpos : 0 < rest.length := List.length_pos_iff.mpr hne
  rw [readLoop]
  simp only [List.length_take]
  rw [if_neg (by omega), if_pos (by omega)]

/-- A declared size below a record header. -/
theorem readLoop_short_record {rest : Bytes} (hlen : 4 ≤ rest.length)
    (hsize : ofLe (rest.take 4) < 9) :
    readLoop fileLen tolerate (fuel + 1) rest records validLen = .ok ⟨records, validLen⟩ := by
  rw [readLoop]
  simp only [List.length_take]
  rw [if_neg (by omega), if_neg (by omega), if_pos hsize]
  rfl

/-- A declared size that passes the end of the file. -/
theorem readLoop_past_end {rest : Bytes} (hlen : 4 ≤ rest.length)
    (hsize : 9 ≤ ofLe (rest.take 4)) (hend : fileLen < validLen + 8 + ofLe (rest.take 4)) :
    readLoop fileLen tolerate (fuel + 1) rest records validLen =
      stopAtTail records validLen tolerate := by
  rw [readLoop]
  simp only [List.length_take]
  rw [if_neg (by omega), if_neg (by omega), if_neg (by omega), if_pos hend]

/-- A complete frame: prefix `p` declaring the length of `body`, then four checksum bytes. -/
theorem readLoop_frame {p body sum more : Bytes} (hp : p.length = 4) (hbody : body.length = ofLe p)
    (hsize : 9 ≤ ofLe p) (hsum : sum.length = 4) (hend : validLen + 8 + ofLe p ≤ fileLen) :
    readLoop fileLen tolerate (fuel + 1) (p ++ body ++ sum ++ more) records validLen =
      if crc32 (p ++ body) ≠ ofLe sum then err (.walCorruption "checksum mismatch")
      else WalRecord.decode body >>= fun record =>
        readLoop fileLen tolerate fuel more (records ++ [record]) (validLen + (8 + ofLe p)) := by
  have htake : (p ++ body ++ sum ++ more).take 4 = p := by
    rw [List.append_assoc, List.append_assoc, ← hp, List.take_left]
  have hdrop : ((p ++ body ++ sum ++ more).drop 4).take (ofLe p + 4) = body ++ sum := by
    rw [List.append_assoc, List.append_assoc, ← hp, List.drop_left, ← List.append_assoc]
    have : ofLe p + p.length = (body ++ sum).length := by simp [hbody, hsum, hp]
    rw [this, List.take_left]
  have hrest : (p ++ body ++ sum ++ more).drop (8 + ofLe p) = more := by
    have : 8 + ofLe p = (p ++ body ++ sum).length := by simp [hp, hbody, hsum]; omega
    rw [this, List.drop_left]
  have hslice : slice (p ++ (body ++ sum)) 4 (4 + ofLe p) = .ok body := by
    rw [← List.append_assoc]
    exact slice_append hp.symm (by omega)
  have hcovered : slice (p ++ (body ++ sum)) 0 (4 + ofLe p) = .ok (p ++ body) := by
    have := slice_append (a := []) (b := p ++ body) (c := sum) (s := 0)
      (t := 4 + ofLe p) rfl (by simp [hp, hbody])
    simpa using this
  have hstored : readU32 (p ++ (body ++ sum)) (4 + ofLe p) = .ok (ofLe sum) := by
    rw [readU32, ← List.append_assoc]
    have := slice_append (a := p ++ body) (b := sum) (c := []) (s := 4 + ofLe p)
      (t := 4 + ofLe p + 4) (by simp [hp, hbody]) (by simp [hp, hbody, hsum])
    rw [List.append_nil] at this
    rw [this]
    rfl
  rw [readLoop]
  simp only [htake, hdrop, hrest, hslice, hcovered, hstored, hp]
  rw [if_neg (by decide), if_neg (by decide), if_neg (by omega), if_neg (by omega),
    if_neg (by simp [hbody, hsum])]
  rfl

/-- A turn at a record the writer encoded. -/
theorem readLoop_encode {r : WalRecord} (h : r.Fits) (more : Bytes)
    (hend : validLen + (8 + r.totalLen) ≤ fileLen) :
    readLoop fileLen tolerate (fuel + 1) (r.encode ++ more) records validLen =
      readLoop fileLen tolerate fuel more (records ++ [r]) (validLen + (8 + r.totalLen)) := by
  have hle : ofLe (u32ToLe r.totalLen) = r.totalLen := ofLe_u32ToLe h.totalLen_lt
  have hnine : 9 ≤ r.totalLen := by rw [h.totalLen_eq]; omega
  have : readLoop fileLen tolerate (fuel + 1) (u32ToLe r.totalLen ++ r.payload ++
      u32ToLe (crc32 r.framed) ++ more) records validLen = _ :=
    readLoop_frame (by simp) (by rw [hle, h.length_payload])
    (by rw [hle]; exact hnine) (by simp) (by rw [hle]; omega)
  rw [hle, ofLe_u32ToLe (crc32_lt _), if_neg (by simp [WalRecord.framed]),
    h.decode_payload] at this
  exact this

/-- The reader reads a list of encoded records and goes on with what follows them. -/
theorem readLoop_encodeAll {rs : List WalRecord} (h : ∀ r ∈ rs, r.Fits) (more : Bytes)
    (hend : validLen + (encodeAll rs).length ≤ fileLen) :
    readLoop fileLen tolerate (fuel + rs.length) (encodeAll rs ++ more) records validLen =
      readLoop fileLen tolerate fuel more (records ++ rs) (validLen + (encodeAll rs).length) := by
  induction rs generalizing records validLen with
  | nil => simp [encodeAll]
  | cons r rs ih =>
    have hr : r.Fits := h r List.mem_cons_self
    have hlen := hr.length_encode
    have hall : encodeAll (r :: rs) = r.encode ++ encodeAll rs := rfl
    rw [hall, List.length_append, hlen] at hend
    rw [hall, List.append_assoc, List.length_cons, ← Nat.add_assoc,
      readLoop_encode hr _ (by omega),
      ih (fun r hr => h r (List.mem_cons_of_mem _ hr)) (by omega)]
    congr 1
    · simp
    · rw [List.length_append, hlen]
      omega

end ReadLoop

/-! ## Torn tails -/

/-- What an append of a fitting record can leave when it is cut: a strict prefix. -/
def TornTail (p : Bytes) : Prop := ∃ r : WalRecord, r.Fits ∧ p <+: r.encode ∧ p ≠ r.encode

theorem tornTail_nil : TornTail [] :=
  ⟨.delete "", by decide, List.nil_prefix, by decide⟩

theorem TornTail.of_take {r : WalRecord} (h : r.Fits) {n : Nat} (hn : n < r.encode.length) :
    TornTail (r.encode.take n) := by
  refine ⟨r, h, List.take_prefix _ _, fun heq => ?_⟩
  have := congrArg List.length heq
  rw [List.length_take] at this
  omega

theorem readLoop_tornTail {fileLen fuel validLen : Nat} {tolerate : Bool}
    {records : List WalRecord} {p : Bytes} (h : TornTail p) (hend : fileLen = validLen + p.length) :
    readLoop fileLen tolerate (fuel + 1) p records validLen =
      if p = [] then .ok ⟨records, validLen⟩ else stopAtTail records validLen tolerate := by
  obtain ⟨r, hr, ⟨t, ht⟩, hne⟩ := h
  by_cases hnil : p = []
  · rw [if_pos hnil, hnil, readLoop_nil]
  rw [if_neg hnil]
  rcases Nat.lt_or_ge p.length 4 with hlt | hge
  · exact readLoop_shortLength hnil hlt
  · -- the prefix is whole, and declares more bytes than the tail has
    have hlen : p.length < r.encode.length := by
      rw [← ht, List.length_append]
      have : t ≠ [] := by
        rintro rfl
        exact hne (by simpa using ht)
      have := List.length_pos_iff.mpr this
      omega
    have htake : p.take 4 = u32ToLe r.totalLen := by
      have h1 : (p ++ t).take 4 = p.take 4 := List.take_append_of_le_length hge
      rw [← h1, ht, WalRecord.encode, WalRecord.framed, List.append_assoc]
      exact List.take_left' (by simp)
    have hle : ofLe (p.take 4) = r.totalLen := by rw [htake, ofLe_u32ToLe hr.totalLen_lt]
    have htotal := hr.totalLen_eq
    rw [hr.length_encode] at hlen
    exact readLoop_past_end hge (by rw [hle]; omega) (by rw [hle]; omega)

theorem length_le_encodeAll (rs : List WalRecord) : rs.length ≤ (encodeAll rs).length := by
  induction rs with
  | nil => simp
  | cons r rs ih =>
    have : 0 < r.encode.length := by
      simp only [WalRecord.encode, List.length_append, length_u32ToLe]
      omega
    simp only [encodeAll, List.flatMap_cons, List.length_append, List.length_cons] at ih ⊢
    omega

/-- What the reader returns on the log of `rs` followed by a torn tail. -/
theorem readRecords_encodeAll {rs : List WalRecord} (h : ∀ r ∈ rs, r.Fits) {p : Bytes}
    (hp : TornTail p) (tolerate : Bool) :
    readRecords (encodeAll rs ++ p) tolerate =
      if p = [] then .ok ⟨rs, (encodeAll rs).length⟩
      else stopAtTail rs (encodeAll rs).length tolerate := by
  have hle := length_le_encodeAll rs
  obtain ⟨fuel, hfuel⟩ : ∃ fuel, (encodeAll rs ++ p).length + 1 = fuel + 1 + rs.length :=
    ⟨(encodeAll rs ++ p).length - rs.length, by simp only [List.length_append]; omega⟩
  rw [readRecords, hfuel, readLoop_encodeAll h p (by simp), readLoop_tornTail hp (by simp)]
  simp

theorem recover_encodeAll {rs : List WalRecord} (h : ∀ r ∈ rs, r.Fits) {p : Bytes}
    (hp : TornTail p) : recover (encodeAll rs ++ p) = .ok ⟨rs, (encodeAll rs).length⟩ := by
  rw [recover, readRecords_encodeAll h hp]
  split <;> rfl

/-! ## Truncated logs -/

/-- A frame at the front of the bytes, if they are long enough for the size they declare. -/
theorem exists_frame {rest : Bytes} (hend : 8 + ofLe (rest.take 4) ≤ rest.length) :
    ∃ p body sum more, rest = p ++ body ++ sum ++ more ∧ rest.take 4 = p ∧ p.length = 4 ∧
      body.length = ofLe p ∧ sum.length = 4 := by
  refine ⟨rest.take 4, (rest.drop 4).take (ofLe (rest.take 4)),
    ((rest.drop 4).drop (ofLe (rest.take 4))).take 4,
    ((rest.drop 4).drop (ofLe (rest.take 4))).drop 4, ?_, rfl, ?_, ?_, ?_⟩
  · simp only [List.append_assoc, List.take_append_drop]
  all_goals
    simp only [List.length_take, List.length_drop]
    omega

/-- The outcomes of one turn of the reader that tolerates a torn tail. -/
inductive ReadTurn (fileLen fuel : Nat) (records : List WalRecord) (validLen : Nat) (rest : Bytes) :
    Res WalRecovery → Prop where
  | stops : ReadTurn fileLen fuel records validLen rest (.ok ⟨records, validLen⟩)
  | corrupt (message : String) :
      ReadTurn fileLen fuel records validLen rest (err (.walCorruption message))
  | frame (p body sum more : Bytes) (record : WalRecord) (hrest : rest = p ++ body ++ sum ++ more)
      (hp : p.length = 4) (hbody : body.length = ofLe p) (hsize : 9 ≤ ofLe p)
      (hsum : sum.length = 4) (hcrc : crc32 (p ++ body) = ofLe sum)
      (hdecode : WalRecord.decode body = .ok record) :
      ReadTurn fileLen fuel records validLen rest
        (readLoop fileLen true fuel more (records ++ [record]) (validLen + (8 + ofLe p)))

/-- Decoding reports a defect, or gives a record that the data has room for. -/
theorem WalRecord.decode_ends (data : Bytes) :
    (∃ message, WalRecord.decode data = err (.walCorruption message)) ∨
      ∃ r, WalRecord.decode data = .ok r ∧ 9 + r.lengths.1 + r.lengths.2 ≤ data.length := by
  rw [WalRecord.decode]
  split
  · exact Or.inl ⟨_, rfl⟩
  rename_i hlen
  obtain ⟨op, hop⟩ := exists_byteAt (show 0 < data.length by omega)
  obtain ⟨keyLen, hkeyLen⟩ := exists_readU32 (show 1 + 4 ≤ data.length by omega)
  obtain ⟨valueLen, hvalueLen⟩ := exists_readU32 (show 5 + 4 ≤ data.length by omega)
  rw [hop, hkeyLen, hvalueLen]
  simp only [bind, Except.bind]
  split
  · exact Or.inl ⟨_, rfl⟩
  rename_i hfits
  obtain ⟨keyBytes, hkey⟩ := exists_slice (Nat.le_add_right 9 keyLen)
    (show 9 + keyLen ≤ data.length by omega)
  obtain ⟨valueBytes, hvalue⟩ := exists_slice (Nat.le_add_right (9 + keyLen) valueLen)
    (Nat.not_lt.mp hfits)
  have hkeyLength := length_of_slice hkey
  have hvalueLength := length_of_slice hvalue
  rw [hkey, hvalue]
  dsimp only
  split
  · exact Or.inl ⟨_, rfl⟩
  rename_i key hkeyText
  have hkeyText := congrArg List.length (asBytes_of_fromUtf8 hkeyText)
  split
  · split
    · exact Or.inl ⟨_, rfl⟩
    · rename_i value hvalueText
      have hvalueText := congrArg List.length (asBytes_of_fromUtf8 hvalueText)
      refine Or.inr ⟨_, rfl, ?_⟩
      simp only [WalRecord.lengths]
      omega
  · split
    · split
      · exact Or.inl ⟨_, rfl⟩
      · refine Or.inr ⟨_, rfl, ?_⟩
        simp only [WalRecord.lengths]
        omega
    · exact Or.inl ⟨_, rfl⟩

theorem WalRecord.decode_eq_ok {data : Bytes} {r : WalRecord} (h : WalRecord.decode data = .ok r) :
    9 + r.lengths.1 + r.lengths.2 ≤ data.length := by
  rcases WalRecord.decode_ends data with ⟨message, hdecode⟩ | ⟨r', hdecode, hle⟩
  · rw [hdecode] at h
    cases h
  · rw [hdecode] at h
    cases h
    exact hle

theorem turn_readLoop (fuel : Nat) (records : List WalRecord) (validLen : Nat) (rest : Bytes) :
    ReadTurn (validLen + rest.length) fuel records validLen rest
      (readLoop (validLen + rest.length) true (fuel + 1) rest records validLen) := by
  rcases eq_or_ne rest [] with rfl | hne
  · exact .stops
  rcases Nat.lt_or_ge rest.length 4 with hlen | hlen
  · rw [readLoop_shortLength hne hlen]
    exact .stops
  rcases Nat.lt_or_ge (ofLe (rest.take 4)) 9 with hsize | hsize
  · rw [readLoop_short_record hlen hsize]
    exact .stops
  rcases Nat.lt_or_ge rest.length (8 + ofLe (rest.take 4)) with hend | hend
  · rw [readLoop_past_end hlen hsize (by omega)]
    exact .stops
  obtain ⟨p, body, sum, more, hrest, htake, hp, hbody, hsum⟩ := exists_frame hend
  rw [htake] at hsize hend
  have hread := @readLoop_frame (validLen + rest.length) fuel validLen true records p body sum more
    hp hbody hsize hsum (by omega)
  rw [← hrest] at hread
  rw [hread]
  split
  · exact .corrupt _
  · rename_i hcrc
    rcases WalRecord.decode_ends body with ⟨message, hdecode⟩ | ⟨record, hdecode, -⟩
    · rw [hdecode]
      exact .corrupt message
    · rw [hdecode]
      exact .frame p body sum more record hrest hp hbody hsize hsum (not_not.mp hcrc) hdecode


/-- How the reader that tolerates a torn tail ends. -/
theorem readLoop_ends {fuel validLen : Nat} {rest : Bytes} (records : List WalRecord)
    (hfuel : rest.length < fuel) :
    (∃ r, readLoop (validLen + rest.length) true fuel rest records validLen = .ok r) ∨
      ∃ message, readLoop (validLen + rest.length) true fuel rest records validLen =
        err (.walCorruption message) := by
  induction fuel generalizing rest records validLen with
  | zero => exact absurd hfuel (Nat.not_lt_zero _)
  | succ fuel ih =>
    have hturn := turn_readLoop fuel records validLen rest
    generalize readLoop (validLen + rest.length) true (fuel + 1) rest records validLen = r at hturn
    cases hturn with
    | stops => exact Or.inl ⟨_, rfl⟩
    | corrupt message => exact Or.inr ⟨message, rfl⟩
    | frame p body sum more record hrest hp hbody hsize hsum _ _ =>
      have hlen : rest.length = 8 + ofLe p + more.length := by
        rw [hrest]
        simp only [List.length_append, hp, hbody, hsum]
        omega
      rw [show validLen + rest.length = validLen + (8 + ofLe p) + more.length by omega]
      exact ih _ (by omega)

/-- What the reader accepts it reads in the same way in front of any other bytes: it goes on with
these. -/
theorem readLoop_accepted {fuel validLen : Nat} {rest : Bytes} {records : List WalRecord}
    {r : WalRecovery} (h : readLoop (validLen + rest.length) true fuel rest records validLen = .ok r) :
    ∃ n turns, n ≤ rest.length ∧ turns ≤ n ∧ r.validLen = validLen + n ∧
      ∀ fileLen fuel' more, validLen + n ≤ fileLen →
        readLoop fileLen true (fuel' + turns) (rest.take n ++ more) records validLen =
          readLoop fileLen true fuel' more r.records r.validLen := by
  induction fuel generalizing rest records validLen with
  | zero => cases h
  | succ fuel ih =>
    have hturn := turn_readLoop fuel records validLen rest
    rw [h] at hturn
    generalize hr : (Except.ok r : Res WalRecovery) = result at hturn
    cases hturn with
    | stops =>
      cases hr
      exact ⟨0, 0, Nat.zero_le _, le_rfl, rfl, fun _ _ _ _ => rfl⟩
    | corrupt message => cases hr
    | frame p body sum more record hrest hp hbody hsize hsum hcrc hdecode =>
      have hlen : rest.length = 8 + ofLe p + more.length := by
        rw [hrest]
        simp only [List.length_append, hp, hbody, hsum]
        omega
      rw [show validLen + rest.length = validLen + (8 + ofLe p) + more.length by omega] at hr
      obtain ⟨n, turns, hn, hturns, hvalid, hread⟩ := ih hr.symm
      refine ⟨8 + ofLe p + n, turns + 1, by omega, by omega, by omega, ?_⟩
      intro fileLen fuel' tail hfile
      have hfront : (p ++ body ++ sum).length = 8 + ofLe p := by
        simp only [List.length_append, hp, hbody, hsum]
        omega
      have htake : rest.take (8 + ofLe p + n) = p ++ body ++ sum ++ more.take n := by
        rw [hrest, List.take_append, hfront, Nat.add_sub_cancel_left,
          List.take_of_length_le (by omega)]
      rw [htake, List.append_assoc, ← Nat.add_assoc, readLoop_frame hp hbody hsize hsum (by omega),
        if_neg (not_not.mpr hcrc), hdecode]
      exact hread fileLen fuel' tail (by omega)

/-- The accepted part of a log, with more bytes behind it. -/
theorem recover_take_append {data : Bytes} {r : WalRecovery} (h : recover data = .ok r)
    (more : Bytes) : r.validLen ≤ data.length ∧ ∃ fuel, more.length < fuel ∧
      recover (data.take r.validLen ++ more) =
        readLoop (r.validLen + more.length) true fuel more r.records r.validLen := by
  rw [recover, readRecords, ← Nat.zero_add data.length] at h
  obtain ⟨n, turns, hn, hturns, hvalid, hread⟩ := readLoop_accepted h
  rw [Nat.zero_add] at hvalid hread
  rw [hvalid] at hread ⊢
  have hlen : (data.take n ++ more).length = n + more.length := by
    rw [List.length_append, List.length_take_of_le hn]
  refine ⟨hn, n + more.length + 1 - turns, by omega, ?_⟩
  rw [recover, readRecords, hlen, ← hread _ _ _ (Nat.le_add_right _ _)]
  congr 1
  omega

/-- The accepted part, read alone, gives the same records. -/
theorem recover_take {data : Bytes} {r : WalRecovery} (h : recover data = .ok r) :
    r.validLen ≤ data.length ∧ recover (data.take r.validLen) = .ok r := by
  obtain ⟨hle, fuel, hfuel, hread⟩ := recover_take_append h []
  obtain ⟨fuel, rfl⟩ := Nat.exists_eq_add_one.mpr (Nat.zero_lt_of_lt hfuel)
  rw [List.append_nil, readLoop_nil] at hread
  exact ⟨hle, hread⟩

end PebbleDB
