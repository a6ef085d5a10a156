import PebbleDB.CursorRuns
import PebbleDB.TableDamage

/-!
# Arbitrary table files

What `SSTable::load` and the calls on an accepted table do with any bytes at all. The sections of the
index and of the filter are taken from the footer without a look at the length of the file, and a
filter of no bits is accepted with any number of hash functions; everything else is checked where it
is read. `SSTable.loadsSafely_iff` is the exact condition.
-/

namespace PebbleDB

open LittleEndian

/-- A value or an `Err` about a corrupt table, but no panic. -/
def Decodes {α : Type} (r : Res α) : Prop := (∃ a, r = .ok a) ∨ ∃ msg, r = sstErr msg

theorem decodes_ok {α : Type} (a : α) : Decodes (.ok a : Res α) := .inl ⟨a, rfl⟩

theorem decodes_err {α : Type} (msg : String) : Decodes (sstErr msg : Res α) := .inr ⟨msg, rfl⟩

theorem Decodes.bind {α β : Type} {r : Res α} {f : α → Res β} (h : Decodes r)
    (hf : ∀ a, Decodes (f a)) : Decodes (r >>= f) := by
  rcases h with ⟨a, rfl⟩ | ⟨msg, rfl⟩
  · exact hf a
  · exact .inr ⟨msg, rfl⟩

theorem fieldAt_lt (data : Bytes) (off : Nat) : fieldAt data off < 2 ^ 32 := by
  have hlen : ((data.drop off).take 4).length ≤ 4 := List.length_take_le _ _
  exact Nat.lt_of_lt_of_le (ofLe_lt _) (Nat.pow_le_pow_right (by decide) hlen)

/-- The four bytes of a field. -/
theorem u32ToLe_fieldAt {data : Bytes} {off : Nat} (h : off + 4 ≤ data.length) :
    u32ToLe (fieldAt data off) = (data.drop off).take 4 := by
  have hlen : ((data.drop off).take 4).length = 4 := by
    rw [List.length_take, List.length_drop]
    omega
  have heq := toLe_ofLe ((data.drop off).take 4)
  rw [hlen] at heq
  exact heq

theorem take_append_drop_add (data : Bytes) (off n : Nat) :
    (data.drop off).take n ++ data.drop (off + n) = data.drop off := by
  rw [← List.drop_drop, List.take_append_drop]

namespace SSTable

/-! ## The index -/

/-- The bytes are those of the entries, but for less than eight at the end. -/
def IndexBytes (index : List IndexEntry) (data : Bytes) : Prop :=
  (∀ ie ∈ index, IndexFits ie) ∧
    ∃ rest : Bytes, rest.length < 8 ∧ data = index.flatMap encodeIndexEntry ++ rest

theorem parseIndexLoop_of_bytes {index : List IndexEntry} {data : Bytes} (h : IndexBytes index data)
    {fuel : Nat} (hfuel : index.length < fuel) : parseIndexLoop fuel data = .ok index := by
  obtain ⟨hfits, rest, hrest, rfl⟩ := h
  induction index generalizing fuel with
  | nil =>
    obtain ⟨fuel, rfl⟩ := Nat.exists_eq_succ_of_ne_zero (Nat.ne_of_gt hfuel)
    rw [parseIndexLoop, List.flatMap_nil, List.nil_append, if_pos hrest]
    rfl
  | cons ie index ih =>
    obtain ⟨fuel, rfl⟩ := Nat.exists_eq_succ_of_ne_zero (Nat.ne_of_gt (Nat.zero_lt_of_lt hfuel))
    rw [List.length_cons] at hfuel
    rw [List.flatMap_cons, List.append_assoc,
      parseIndexLoop_encodeIndexEntry _ (hfits ie List.mem_cons_self),
      ih (by omega) fun ie hie => hfits ie (List.mem_cons_of_mem _ hie)]
    rfl

/-- One turn of `parse_index` finds an entry, or gives up. -/
theorem parseIndexLoop_turn (fuel : Nat) {rest : Bytes} (h : 8 ≤ rest.length) :
    (∃ msg, parseIndexLoop (fuel + 1) rest = sstErr msg) ∨
      ∃ ie more, IndexFits ie ∧ rest = encodeIndexEntry ie ++ more := by
  have hfield : ∀ {off}, off + 4 ≤ rest.length → readU32 rest off = .ok (fieldAt rest off) :=
    readU32_eq_fieldAt
  rw [parseIndexLoop, if_neg (by omega), hfield (by omega)]
  simp only [bind, Except.bind]
  generalize hkeyLen : fieldAt rest 0 = keyLen
  by_cases hlen : rest.length < 4 + keyLen + 8
  · rw [if_pos hlen]
    exact .inl ⟨_, rfl⟩
  · rw [if_neg hlen, slice_eq (by omega), Nat.add_sub_cancel_left]
    dsimp only
    cases hkey : fromUtf8 ((rest.drop 4).take keyLen) with
    | none => exact .inl ⟨_, rfl⟩
    | some firstKey =>
      right
      have hbytes := asBytes_of_fromUtf8 hkey
      have hkeyLength : (asBytes firstKey).length = keyLen := by
        rw [hbytes, List.length_take, List.length_drop]
        omega
      refine ⟨⟨firstKey, fieldAt rest (4 + keyLen), fieldAt rest (4 + keyLen + 4)⟩,
        rest.drop (4 + keyLen + 4 + 4), ⟨?_, fieldAt_lt _ _, fieldAt_lt _ _⟩, ?_⟩
      · rw [hkeyLength, ← hkeyLen]
        exact fieldAt_lt _ _
      · have hfirst := u32ToLe_fieldAt (show 0 + 4 ≤ rest.length by omega)
        rw [hkeyLen] at hfirst
        simp only [encodeIndexEntry, hkeyLength]
        rw [hfirst, hbytes, u32ToLe_fieldAt (by omega), u32ToLe_fieldAt (by omega)]
        simp only [List.append_assoc]
        rw [take_append_drop_add, take_append_drop_add, take_append_drop_add,
          take_append_drop_add rest 0 4, List.drop_zero]

theorem parseIndexLoop_cases {data : Bytes} {fuel : Nat} (h : data.length < fuel) :
    (∃ msg, parseIndexLoop fuel data = sstErr msg) ∨
      ∃ index, parseIndexLoop fuel data = .ok index ∧ IndexBytes index data := by
  induction fuel generalizing data with
  | zero => omega
  | succ fuel ih =>
    by_cases hlen : data.length < 8
    · refine .inr ⟨[], ?_, by simp, data, hlen, rfl⟩
      rw [parseIndexLoop, if_pos hlen]
      rfl
    · rcases parseIndexLoop_turn fuel (not_lt.mp hlen) with herr | ⟨ie, more, hfits, rfl⟩
      · exact .inl herr
      · rw [List.length_append, length_encodeIndexEntry] at h
        rw [parseIndexLoop_encodeIndexEntry fuel hfits]
        rcases @ih more (by omega) with ⟨msg, hmsg⟩ | ⟨index, hindex, hall, rest, hrest, rfl⟩
        · exact .inl ⟨msg, by rw [hmsg]; rfl⟩
        · refine .inr ⟨ie :: index, by rw [hindex]; rfl, ?_, rest, hrest, by simp⟩
          exact List.forall_mem_cons.mpr ⟨hfits, hall⟩

/-- `parse_index` accepts the encodings of entries and nothing else. -/
theorem parseIndex_cases (data : Bytes) :
    (∃ msg, parseIndex data = sstErr msg) ∨
      ∃ index, parseIndex data = .ok index ∧ IndexBytes index data :=
  parseIndexLoop_cases (Nat.lt_succ_self _)

theorem parseIndex_of_bytes {index : List IndexEntry} {data : Bytes} (h : IndexBytes index data) :
    parseIndex data = .ok index := by
  have hlen : index.length ≤ data.length := by
    obtain ⟨-, rest, -, rfl⟩ := h
    exact (length_le_encodeIndex index).trans (by simp)
  exact parseIndexLoop_of_bytes h (by omega)

/-! ## Blocks -/

theorem decodes_decodeEntry (op : UInt8) {rest : Bytes} {off valueLen : Nat}
    (h : off + valueLen ≤ rest.length) : Decodes (decodeEntry op rest off valueLen) := by
  rw [decodeEntry]
  split
  · rw [slice_eq ⟨Nat.le_add_right _ _, h⟩]
    simp only [bind, Except.bind]
    split
    · exact decodes_err _
    · exact decodes_ok _
  · split
    · exact decodes_ok _
    · exact decodes_err _

theorem decodes_decodeBlockLoop {fuel : Nat} {rest : Bytes} (h : rest.length < fuel) :
    Decodes (decodeBlockLoop fuel rest) := by
  induction fuel generalizing rest with
  | zero => omega
  | succ fuel ih =>
    rw [decodeBlockLoop]
    split
    · exact decodes_ok _
    · rename_i hlen
      obtain ⟨op, hop⟩ := exists_byteAt (show 0 < rest.length by omega)
      obtain ⟨keyLen, hkeyLen⟩ := exists_readU32 (show 1 + 4 ≤ rest.length by omega)
      obtain ⟨valueLen, hvalueLen⟩ := exists_readU32 (show 5 + 4 ≤ rest.length by omega)
      rw [hop, hkeyLen, hvalueLen]
      simp only [bind, Except.bind]
      split
      · exact decodes_err _
      · rename_i hfits
        rw [slice_eq ⟨Nat.le_add_right _ _, by omega⟩]
        dsimp only
        split
        · exact decodes_err _
        · refine (decodes_decodeEntry op (by omega)).bind fun entry => ?_
          refine (ih (by rw [List.length_drop]; omega)).bind fun records => ?_
          exact decodes_ok _

theorem decodes_decodeBlock (data : Bytes) : Decodes (decodeBlock data) :=
  decodes_decodeBlockLoop (Nat.lt_succ_self _)

/-- `read_block` with its panics: `.ok()` drops an `Err`, but nothing else. -/
def readBlockOrPanic (sst : SSTable) (idx : Nat) : Res (Option Block) :=
  match sst.index[idx]? with
  | none => .ok none
  | some entry => do
    let start := entry.blockOffset
    let stop := start + entry.blockSize
    if sst.data.length < stop then return none
    else
      let bytes ← slice sst.data start stop
      match decodeBlock bytes with
      | .ok block => return some block
      | .error (.error _) => return none
      | .error exit => .error exit

/-- There are none, whatever the index says. -/
theorem readBlockOrPanic_eq (sst : SSTable) (idx : Nat) :
    sst.readBlockOrPanic idx = .ok (sst.readBlock idx) := by
  rw [readBlockOrPanic, readBlock]
  cases sst.index[idx]? with
  | none => rfl
  | some entry =>
    dsimp only
    split
    · rfl
    · rename_i hstop
      rw [slice_eq ⟨Nat.le_add_right _ _, not_lt.mp hstop⟩]
      simp only [bind, Except.bind]
      rcases decodes_decodeBlock ((sst.data.drop entry.blockOffset).take
        (entry.blockOffset + entry.blockSize - entry.blockOffset)) with ⟨block, hblock⟩ | ⟨msg, herr⟩
      · rw [hblock]
        rfl
      · rw [herr]
        rfl

end SSTable

/-! ## Filters -/

namespace BloomFilter

theorem exists_decodeWords {data : Bytes} {is : List Nat}
    (h : ∀ i ∈ is, 8 + i * 8 + 8 ≤ data.length) :
    ∃ words, decodeWords data is = .ok words ∧ words.length = is.length := by
  induction is with
  | nil => exact ⟨[], rfl, rfl⟩
  | cons i is ih =>
    obtain ⟨words, hwords, hlen⟩ := ih fun j hj => h j (List.mem_cons_of_mem _ hj)
    rw [decodeWords, slice_eq ⟨Nat.le_add_right _ _, h i List.mem_cons_self⟩]
    simp only [bind, Except.bind, hwords]
    exact ⟨_, rfl, congrArg (· + 1) hlen⟩

/-- `decode` checks the number of bits, but not that there are any. -/
theorem decode_cases (data : Bytes) :
    decode data = .ok none ∨
      ∃ filter, decode data = .ok (some filter) ∧ 8 ≤ data.length ∧
        filter.bits.length = wordCount filter.numBits ∧
        filter.numBits = fieldAt data 0 ∧ filter.numHashes = fieldAt data 4 := by
  rw [decode]
  split
  · exact .inl rfl
  · rename_i hlen
    rw [readU32_eq_fieldAt (by omega), readU32_eq_fieldAt (by omega)]
    simp only [bind, Except.bind]
    split
    · exact .inl rfl
    · rename_i hwords
      obtain ⟨words, hok, hlength⟩ := @exists_decodeWords data
        (List.range (wordCount (fieldAt data 0))) fun i hi => by
          have := List.mem_range.mp hi
          omega
      rw [hok]
      exact .inr ⟨_, rfl, not_lt.mp hlen, by rw [hlength, List.length_range], rfl, rfl⟩

/-- Without bits no word is needed. -/
theorem decode_of_zero {data : Bytes} (hlen : 8 ≤ data.length) (hzero : fieldAt data 0 = 0) :
    decode data = .ok (some ⟨[], 0, fieldAt data 4⟩) := by
  rw [decode, if_neg (not_lt.mpr hlen), readU32_eq_fieldAt (by omega),
    readU32_eq_fieldAt (by omega), hzero]
  simp only [bind, Except.bind]
  rw [if_neg (by rw [wordCount]; omega)]
  rfl

/-- A filter answers every key, unless it divides by its number of bits and has none. -/
theorem mightContain_ok_iff {filter : BloomFilter}
    (h : filter.bits.length = wordCount filter.numBits) (key : String) :
    (∃ found, filter.mightContain key = .ok found) ↔
      (filter.numBits = 0 → filter.numHashes = 0) := by
  rcases Nat.eq_zero_or_pos filter.numBits with hzero | hpos
  · cases hhashes : filter.numHashes with
    | zero => exact iff_of_true ⟨true, by rw [mightContain, hhashes]; rfl⟩ fun _ => rfl
    | succ n =>
      refine iff_of_false ?_ fun himp => Nat.succ_ne_zero n (himp hzero)
      rintro ⟨found, hfound⟩
      rw [mightContain, hhashes, List.range_succ_eq_map, mightContainLoop, bitIndex, if_pos hzero]
        at hfound
      cases hfound
  · refine iff_of_true ?_ fun hzero => absurd hzero (Nat.ne_of_gt hpos)
    obtain ⟨found, hfound, -⟩ := (show filter.Sized from ⟨hpos, h⟩).mightContainLoop_eq
      (keyHashes key) (List.range filter.numHashes)
    exact ⟨found, hfound⟩

end BloomFilter

/-! ## Cursors -/

namespace SSTableIterator

/-- The block number grows in every turn of the loop of `ensure_entry`. -/
theorem exists_ensureEntryLoop {it : SSTableIterator} {fuel : Nat}
    (h : it.sst.blockCount ≤ it.block + fuel) (hpos : 0 < fuel) :
    ∃ found it', ensureEntryLoop fuel it = .ok (found, it') := by
  induction fuel generalizing it with
  | zero => omega
  | succ fuel ih =>
    rw [ensureEntryLoop]
    split
    · split
      · exact ⟨_, _, rfl⟩
      · refine ih ?_ (by omega)
        simp only [loadBlock]
        omega
    · exact ⟨_, _, rfl⟩

theorem exists_ensureEntry (it : SSTableIterator) :
    ∃ found it', it.ensureEntry = .ok (found, it') :=
  exists_ensureEntryLoop (by omega) (Nat.succ_pos _)

/-- No call on a cursor panics, whatever its table holds. -/
theorem exists_runCall (it : SSTableIterator) (call : CursorCall) :
    ∃ it', StorageIterator.runCall it call = .ok it' := by
  have hsettle : ∀ (it : SSTableIterator) (f : Bool × SSTableIterator → Res SSTableIterator),
      (∀ x, f x = .ok x.2) → ∃ it', it.ensureEntry >>= f = .ok it' := by
    intro it f hf
    obtain ⟨found, it', hok⟩ := it.exists_ensureEntry
    exact ⟨it', by rw [hok]; exact hf _⟩
  cases call with
  | seekToFirst => exact hsettle _ _ fun _ => rfl
  | seek target => exact hsettle _ _ fun _ => rfl
  | advance => exact hsettle _ _ fun _ => rfl

theorem exists_runCalls (it : SSTableIterator) (calls : List CursorCall) :
    ∃ it', StorageIterator.runCalls it calls = .ok it' := by
  induction calls generalizing it with
  | nil => exact ⟨it, rfl⟩
  | cons call calls ih =>
    obtain ⟨it₁, hcall⟩ := it.exists_runCall call
    obtain ⟨it₂, hcalls⟩ := ih it₁
    refine ⟨it₂, ?_⟩
    rw [StorageIterator.runCalls, hcall]
    exact hcalls

end SSTableIterator

namespace SSTable

/-! ## Loading -/

/-- No call on the table panics. `entries`, `derive_last_key`, `get` and the cursor read the table
through `read_block` only. -/
structure Safe (sst : SSTable) : Prop where
  get : ∀ key, ∃ found, sst.get key = .ok found
  bloomMightContain : ∀ key, ∃ found, sst.bloomMightContain key = .ok found
  readBlock : ∀ idx, sst.readBlockOrPanic idx = .ok (sst.readBlock idx)
  iterate : ∀ calls, ∃ it, StorageIterator.runCalls (SSTableIterator.new sst) calls = .ok it

theorem safe_iff {sst : SSTable} (h : sst.bloom.bits.length = BloomFilter.wordCount sst.bloom.numBits) :
    sst.Safe ↔ (sst.bloom.numBits = 0 → sst.bloom.numHashes = 0) := by
  constructor
  · intro hsafe
    exact (BloomFilter.mightContain_ok_iff h "").mp (hsafe.bloomMightContain "")
  · intro hbits
    have hbloom := fun key => (BloomFilter.mightContain_ok_iff h key).mpr hbits
    refine ⟨fun key => ?_, hbloom, sst.readBlockOrPanic_eq,
      (SSTableIterator.new sst).exists_runCalls⟩
    obtain ⟨found, hfound⟩ := hbloom key
    rw [SSTable.get, hfound]
    cases found <;> exact ⟨_, rfl⟩

/-- `load` accepts the file and the table is safe to use, or it reports a corrupt table. -/
def LoadsSafely (id : Nat) (path : String) (data : Bytes) : Prop :=
  (∃ msg, load id path data = sstErr msg) ∨ ∃ sst, load id path data = .ok sst ∧ sst.Safe

/-- The index lies in the file; so does the filter, if the index is one; and with no bits the filter
has no hash functions. -/
structure SectionsFit (data : Bytes) : Prop where
  index : storedIndexOffset data + storedIndexSize data ≤ data.length
  bloom : ∀ index,
    IndexBytes index ((data.drop (storedIndexOffset data)).take (storedIndexSize data)) →
    storedBloomOffset data + storedBloomSize data ≤ data.length
  bits : ∀ index,
    IndexBytes index ((data.drop (storedIndexOffset data)).take (storedIndexSize data)) →
    8 ≤ storedBloomSize data → fieldAt data (storedBloomOffset data) = 0 →
    fieldAt data (storedBloomOffset data + 4) = 0

variable {id : Nat} {path : String} {data : Bytes}

theorem slice_section {off size : Nat} : slice data off (off + size) =
    if off + size ≤ data.length then .ok ((data.drop off).take size) else .error .panic := by
  rw [slice, Nat.add_sub_cancel_left]
  simp only [Nat.le_add_right, true_and]

theorem fieldAt_section {off size i : Nat} (h : i + 4 ≤ size) :
    fieldAt ((data.drop off).take size) i = fieldAt data (off + i) := by
  rw [fieldAt, fieldAt, List.drop_take, List.drop_drop, List.take_take, Nat.min_eq_left (by omega)]

theorem length_section {off size : Nat} (h : off + size ≤ data.length) :
    ((data.drop off).take size).length = size := by
  rw [List.length_take, List.length_drop]
  omega

theorem load_of_checked (h : Checked data) :
    load id path data = (parseSections id path data).map deriveLastKey := by
  rw [load, h.parse_eq]
  cases parseSections id path data <;> rfl

theorem bloom_deriveLastKey (sst : SSTable) : sst.deriveLastKey.bloom = sst.bloom := by
  rw [deriveLastKey]
  split <;> rfl

/-- The sections of a checked file one by one. -/
theorem loadsSafely_of_checked (h : Checked data) :
    LoadsSafely id path data ↔ SectionsFit data := by
  rw [LoadsSafely, load_of_checked h, parseSections]
  simp only [slice_section, bind, Except.bind]
  by_cases hindex : storedIndexOffset data + storedIndexSize data ≤ data.length
  swap
  · rw [if_neg hindex]
    refine iff_of_false ?_ fun hfit => hindex hfit.index
    rintro (⟨msg, herr⟩ | ⟨sst, hok, -⟩)
    · cases herr
    · cases hok
  rw [if_pos hindex]
  dsimp only
  rcases parseIndex_cases ((data.drop (storedIndexOffset data)).take (storedIndexSize data)) with
    ⟨msg, hmsg⟩ | ⟨index, hparse, hbytes⟩
  · rw [hmsg]
    refine iff_of_true (.inl ⟨msg, rfl⟩) ⟨hindex, fun index hindex => ?_, fun index hindex => ?_⟩
    all_goals
      rw [parseIndex_of_bytes hindex] at hmsg
      cases hmsg
  rw [hparse]
  dsimp only
  by_cases hbloom : storedBloomOffset data + storedBloomSize data ≤ data.length
  swap
  · rw [if_neg hbloom]
    refine iff_of_false ?_ fun hfit => hbloom (hfit.bloom index hbytes)
    rintro (⟨msg, herr⟩ | ⟨sst, hok, -⟩)
    · cases herr
    · cases hok
  rw [if_pos hbloom]
  dsimp only
  have hlength := length_section hbloom
  rcases BloomFilter.decode_cases
      ((data.drop (storedBloomOffset data)).take (storedBloomSize data)) with
    hnone | ⟨filter, hsome, hsize, hwords, hnumBits, hnumHashes⟩
  · rw [hnone]
    refine iff_of_true (.inl ⟨_, rfl⟩) ⟨hindex, fun _ _ => hbloom, fun _ _ hsize hzero => ?_⟩
    rw [BloomFilter.decode_of_zero (hlength.symm ▸ hsize)
      (by rw [fieldAt_section (by omega)]; exact hzero)] at hnone
    cases hnone
  · rw [hsome]
    rw [hlength] at hsize
    rw [fieldAt_section (by omega), Nat.add_zero] at hnumBits
    rw [fieldAt_section (by omega)] at hnumHashes
    have hsafe : (⟨id, path, data, index, filter, fieldAt data 8, fieldAt data 12, none⟩ :
        SSTable).deriveLastKey.Safe ↔ (filter.numBits = 0 → filter.numHashes = 0) := by
      rw [safe_iff (by rw [bloom_deriveLastKey]; exact hwords), bloom_deriveLastKey]
    constructor
    · rintro (⟨msg, herr⟩ | ⟨sst, hok, hall⟩)
      · cases herr
      · obtain rfl := Except.ok.inj hok
        refine ⟨hindex, fun _ _ => hbloom, fun _ _ _ hzero => ?_⟩
        rw [← hnumHashes]
        exact hsafe.mp hall (hnumBits.trans hzero)
    · intro hfit
      refine .inr ⟨_, rfl, hsafe.mpr fun hzero => ?_⟩
      rw [hnumHashes]
      exact hfit.bits index hbytes hsize (hnumBits.symm.trans hzero)

/-- A file gets past the checksum only to sections that fit, or it is dealt with safely. -/
theorem loadsSafely_iff (id : Nat) (path : String) (data : Bytes) :
    LoadsSafely id path data ↔ (Checked data → SectionsFit data) := by
  by_cases h : Checked data
  · rw [loadsSafely_of_checked h]
    exact ⟨fun hfit _ => hfit, fun hfit => hfit h⟩
  · refine iff_of_true (.inl ?_) fun hchecked => absurd hchecked h
    obtain ⟨msg, hmsg⟩ := @parse_of_not_checked id path data h
    exact ⟨msg, by rw [load, hmsg]; rfl⟩

/-- A file of header, filter and footer with a right checksum. -/
def forged (filter : Bytes) (indexOffset indexSize bloomOffset bloomSize : Nat) : Bytes :=
  let body := encodeHeader 0 0 defaultBlockSize ++ filter ++ u32ToLe indexOffset ++
    u32ToLe indexSize ++ u32ToLe bloomOffset ++ u32ToLe bloomSize
  body ++ u32ToLe (crc32 body)

/-- An index that ends one byte behind the file, and a filter with one hash function for no bits. -/
theorem not_loadsSafely_forged :
    ¬ LoadsSafely 0 "t" (forged [] 20 21 20 0) ∧
      ¬ LoadsSafely 0 "t" (forged (u32ToLe 0 ++ u32ToLe 1) 20 0 20 8) := by
  constructor
  · have hpanic : load 0 "t" (forged [] 20 21 20 0) = .error .panic := by decide +kernel
    rintro (⟨msg, herr⟩ | ⟨sst, hok, -⟩)
    · rw [hpanic] at herr
      cases herr
    · rw [hpanic] at hok
      cases hok
  · have hpanic : ((load 0 "t" (forged (u32ToLe 0 ++ u32ToLe 1) 20 0 20 8)).bind
        fun sst => sst.get "a") = .error .panic := by decide +kernel
    rintro (⟨msg, herr⟩ | ⟨sst, hok, hsafe⟩)
    · rw [herr] at hpanic
      cases hpanic
    · obtain ⟨found, hfound⟩ := hsafe.get "a"
      rw [hok] at hpanic
      rw [show sst.get "a" = .error .panic from hpanic] at hfound
      cases hfound

end SSTable

end PebbleDB
