import PebbleDB.Crc32

/-!
# Bloom filters

`src/bloom.rs`. The number of bits and of hash functions comes from floating-point formulas
(`optimal_bits`, `optimal_hashes`); they enter as the parameter `BloomSizing`, of which only the
clamps of the source are used and, as an assumption, that the number of bits stays below `2 ^ 32`.
The filter answers `true` for every key inserted into it, also after it has been written to bytes
and read back (`BloomFilter.mightContain_of_fromEntries`, `BloomFilter.decode_encode`).
-/

namespace PebbleDB

open LittleEndian

/-- `optimal_bits` at the false positive rate `0.01`, and `optimal_hashes`. The lower bounds and the
30 are their clamps. That the bits stay below `2 ^ 32` is an assumption, which `optimal_bits` breaks
from about 448 million keys on; the records of so many keys end behind byte `2 ^ 32` of a table. -/
class BloomSizing where
  optimalBits : Nat → Nat
  optimalHashes : Nat → Nat → Nat
  bits_range : ∀ n, 64 ≤ optimalBits n ∧ optimalBits n < 2 ^ 32
  hashes_range : ∀ m n, 1 ≤ optimalHashes m n ∧ optimalHashes m n ≤ 30

/-- The values of the two formulas for at most six keys, at which the lower clamp still decides
the number of bits. -/
@[reducible] def BloomSizing.ofSmall : BloomSizing where
  optimalBits _ := 64
  optimalHashes _ n :=
    match n with
    | 0 | 1 => 30
    | 2 => 22
    | 3 => 15
    | 4 => 11
    | 5 => 9
    | _ => 7
  bits_range _ := by decide
  hashes_range _ n := by
    split <;> decide

/-- The words hold the bits from the lowest one up. `decode` takes `num_bits` and `num_hashes` as they
stand in the file. -/
structure BloomFilter where
  bits : List (BitVec 64)
  numBits : Nat
  numHashes : Nat
  deriving DecidableEq

namespace BloomFilter

/-- `num_bits.div_ceil(64)` -/
def wordCount (numBits : Nat) : Nat := (numBits + 63) / 64

/-- The empty filter of the given dimensions. -/
def empty (numBits numHashes : Nat) : BloomFilter :=
  ⟨List.replicate (wordCount numBits) 0#64, numBits, numHashes⟩

/-- `BloomFilter::new` -/
def new [BloomSizing] (expectedItems : Nat) : BloomFilter :=
  let numBits := BloomSizing.optimalBits expectedItems
  empty numBits (BloomSizing.optimalHashes numBits expectedItems)

/-- `key_hashes` -/
def keyHashes (key : String) : Nat × Nat := (crc32 (asBytes key), crc32 (asBytes key).reverse)

/-- The `i`-th bit number of a key: `(h1 + i * h2) % num_bits` in wrapping 64-bit arithmetic. A
zero modulus panics. -/
def bitIndex (filter : BloomFilter) (hashes : Nat × Nat) (i : Nat) : Res Nat :=
  if filter.numBits = 0 then .error .panic
  else .ok ((hashes.1 + i * hashes.2 % 2 ^ 64) % 2 ^ 64 % filter.numBits)

/-- `self.bits[bit / 64] |= 1 << (bit % 64)` -/
def setBit (filter : BloomFilter) (bit : Nat) : Res BloomFilter :=
  if bit / 64 < filter.bits.length then
    .ok { filter with bits := filter.bits.modify (bit / 64) (· ||| 1#64 <<< (bit % 64)) }
  else .error .panic

/-- `self.bits[bit / 64] & (1 << (bit % 64)) != 0` -/
def testBit (filter : BloomFilter) (bit : Nat) : Res Bool :=
  match filter.bits[bit / 64]? with
  | some word => .ok (decide (word &&& 1#64 <<< (bit % 64) ≠ 0#64))
  | none => .error .panic

/-- The loop of `insert` over the hash functions in `is`. -/
def insertLoop (hashes : Nat × Nat) : List Nat → BloomFilter → Res BloomFilter
  | [], filter => .ok filter
  | i :: is, filter => do
    let bit ← filter.bitIndex hashes i
    let filter ← filter.setBit bit
    insertLoop hashes is filter

/-- `insert` sets the bits of the key, one for each hash function. -/
def insert (filter : BloomFilter) (key : String) : Res BloomFilter :=
  insertLoop (keyHashes key) (List.range filter.numHashes) filter

/-- The loop of `might_contain` over the hash functions in `is`. -/
def mightContainLoop (filter : BloomFilter) (hashes : Nat × Nat) : List Nat → Res Bool
  | [] => .ok true
  | i :: is => do
    let bit ← filter.bitIndex hashes i
    let found ← filter.testBit bit
    if found then mightContainLoop filter hashes is else return false

/-- `might_contain`: all bits of the key are set. -/
def mightContain (filter : BloomFilter) (key : String) : Res Bool :=
  mightContainLoop filter (keyHashes key) (List.range filter.numHashes)

/-- The loop of `from_entries`. -/
def insertAll : List String → BloomFilter → Res BloomFilter
  | [], filter => .ok filter
  | key :: keys, filter => do
    let filter ← filter.insert key
    insertAll keys filter

/-- `from_entries` sizes the filter for at least one key. -/
def fromEntries [BloomSizing] (keys : List String) : Res BloomFilter :=
  insertAll keys (new (max keys.length 1))

/-- `encode`: the two dimensions and the words, all little-endian. -/
def encode (filter : BloomFilter) : Bytes :=
  u32ToLe filter.numBits ++ u32ToLe filter.numHashes ++
    filter.bits.flatMap fun word => u64ToLe word.toNat

/-- The loop of `decode` that reads the words numbered by `is`. -/
def decodeWords (data : Bytes) : List Nat → Res (List (BitVec 64))
  | [] => .ok []
  | i :: is => do
    let bytes ← slice data (8 + i * 8) (8 + i * 8 + 8)
    let words ← decodeWords data is
    return BitVec.ofNat 64 (ofLe bytes) :: words

/-- `decode` gives no filter for data that ends before its last word; what follows is left alone. -/
def decode (data : Bytes) : Res (Option BloomFilter) := do
  if data.length < 8 then
    return none
  else
    let numBits ← readU32 data 0
    let numHashes ← readU32 data 4
    let words := wordCount numBits
    if data.length < 8 + words * 8 then
      return none
    else
      let bits ← decodeWords data (List.range words)
      return some ⟨bits, numBits, numHashes⟩

/-! ## Bits stay set -/

/-- Every bit number below `numBits` falls into the word array, and there is at least one. -/
structure Sized (filter : BloomFilter) : Prop where
  pos : 0 < filter.numBits
  words : filter.bits.length = wordCount filter.numBits

/-- The bit with the given number; no bit lies outside the words. -/
def bitAt (filter : BloomFilter) (bit : Nat) : Bool :=
  ((filter.bits[bit / 64]?).getD 0#64).getLsbD (bit % 64)

theorem Sized.word_lt {filter : BloomFilter} (h : filter.Sized) {bit : Nat}
    (hbit : bit < filter.numBits) : bit / 64 < filter.bits.length := by
  rw [h.words, wordCount]
  omega

theorem Sized.bitIndex_eq {filter : BloomFilter} (h : filter.Sized) (hashes : Nat × Nat) (i : Nat) :
    ∃ bit, filter.bitIndex hashes i = .ok bit ∧ bit < filter.numBits :=
  ⟨_, if_neg (Nat.pos_iff_ne_zero.mp h.pos), Nat.mod_lt _ h.pos⟩

theorem and_shift_ne_zero (word : BitVec 64) {i : Nat} (hi : i < 64) :
    (word &&& 1#64 <<< i ≠ 0#64) ↔ word.getLsbD i = true := by
  have hand : ∀ j, j < 64 →
      (word &&& 1#64 <<< i).getLsbD j = (word.getLsbD j && decide (j = i)) := by
    intro j hj
    rw [BitVec.getLsbD_and, BitVec.getLsbD_shiftLeft, BitVec.getLsbD_one]
    congr 1
    by_cases h : j = i
    · simp [h, hi]
    · have : ¬ (i ≤ j ∧ j - i = 0) := by omega
      simp only [hj, h, decide_true, decide_false, Bool.true_and]
      simp only [decide_eq_false_iff_not, Bool.and_eq_false_iff, Bool.not_eq_eq_eq_not]
      by_cases hlt : j < i
      · simp [hlt]
      · have : j - i ≠ 0 := by omega
        simp [this]
  constructor
  · intro hne
    by_contra hbit
    apply hne
    apply BitVec.eq_of_getLsbD_eq
    intro j hj
    rw [hand j hj]
    by_cases h : j = i
    · subst h
      simpa using hbit
    · simp [h]
  · intro hbit hzero
    have := hand i hi
    rw [hzero, hbit] at this
    simp at this

theorem Sized.testBit_eq {filter : BloomFilter} (h : filter.Sized) {bit : Nat}
    (hbit : bit < filter.numBits) : filter.testBit bit = .ok (filter.bitAt bit) := by
  have hlt := h.word_lt hbit
  rw [testBit, bitAt, List.getElem?_eq_getElem hlt]
  simp only [Option.getD_some]
  congr 1
  rw [← Bool.coe_iff_coe, decide_eq_true_iff]
  exact and_shift_ne_zero _ (Nat.mod_lt _ (by decide))

/-- Setting a bit keeps the dimensions and every bit already set. -/
theorem Sized.setBit_eq {filter : BloomFilter} (h : filter.Sized) {bit : Nat}
    (hbit : bit < filter.numBits) :
    ∃ filter', filter.setBit bit = .ok filter' ∧ filter'.Sized ∧
      filter'.numBits = filter.numBits ∧ filter'.numHashes = filter.numHashes ∧
      ∀ j, filter'.bitAt j = (filter.bitAt j || decide (j = bit)) := by
  have hlt := h.word_lt hbit
  refine ⟨_, if_pos hlt, ⟨h.pos, by simpa using h.words⟩, rfl, rfl, fun j => ?_⟩
  simp only [bitAt, List.getElem?_modify]
  by_cases hword : bit / 64 = j / 64
  · have hj : j / 64 < filter.bits.length := hword ▸ hlt
    simp only [hword, if_true, List.getElem?_eq_getElem hj, Option.map_eq_map, Option.map_some,
      Option.getD_some, BitVec.getLsbD_or]
    congr 1
    rw [BitVec.getLsbD_shiftLeft, BitVec.getLsbD_one]
    have hmod : j % 64 < 64 := Nat.mod_lt _ (by decide)
    by_cases hjb : j = bit
    · subst hjb
      simp [hmod]
    · have : j % 64 ≠ bit % 64 := by omega
      by_cases hlt' : j % 64 < bit % 64
      · simp [hlt', hjb]
      · have : j % 64 - bit % 64 ≠ 0 := by omega
        simp [this, hjb]
  · have hjb : j ≠ bit := by
      rintro rfl
      exact hword rfl
    simp [hword, hjb]

/-- The bits of a key are all set. -/
def Holds (filter : BloomFilter) (hashes : Nat × Nat) (is : List Nat) : Prop :=
  ∀ i ∈ is, ∀ bit, filter.bitIndex hashes i = .ok bit → filter.bitAt bit = true

theorem Sized.insertLoop_eq {filter : BloomFilter} (h : filter.Sized) (hashes : Nat × Nat)
    (is : List Nat) :
    ∃ filter', insertLoop hashes is filter = .ok filter' ∧ filter'.Sized ∧
      filter'.numBits = filter.numBits ∧ filter'.numHashes = filter.numHashes ∧
      (∀ j, filter.bitAt j = true → filter'.bitAt j = true) ∧ filter'.Holds hashes is := by
  induction is generalizing filter with
  | nil => exact ⟨filter, rfl, h, rfl, rfl, fun _ hj => hj, by simp [Holds]⟩
  | cons i is ih =>
    obtain ⟨bit, hbit, hlt⟩ := h.bitIndex_eq hashes i
    obtain ⟨f1, hset, hs1, hn1, hk1, hbits1⟩ := h.setBit_eq hlt
    obtain ⟨f2, hloop, hs2, hn2, hk2, hkeep, hholds⟩ := ih hs1
    refine ⟨f2, ?_, hs2, hn2.trans hn1, hk2.trans hk1, fun j hj => ?_, ?_⟩
    · rw [insertLoop, hbit]
      simp only [bind, Except.bind, hset, hloop]
    · exact hkeep j (by rw [hbits1, hj, Bool.true_or])
    · intro i' hi' bit' hbit'
      rcases List.mem_cons.mp hi' with rfl | hi'
      · -- the bit just set is kept by the rest of the loop
        have heq : bit' = bit := by
          rw [bitIndex, hn2, hn1] at hbit'
          rw [bitIndex] at hbit
          rw [hbit] at hbit'
          exact (Except.ok.inj hbit').symm
        subst heq
        exact hkeep bit' (by simp [hbits1])
      · exact hholds i' hi' bit' hbit'

theorem Sized.mightContainLoop_eq {filter : BloomFilter} (h : filter.Sized) (hashes : Nat × Nat)
    (is : List Nat) :
    ∃ found, filter.mightContainLoop hashes is = .ok found ∧
      (filter.Holds hashes is → found = true) := by
  induction is with
  | nil => exact ⟨true, rfl, fun _ => rfl⟩
  | cons i is ih =>
    obtain ⟨bit, hbit, hlt⟩ := h.bitIndex_eq hashes i
    obtain ⟨found, hfound, himp⟩ := ih
    rw [mightContainLoop, hbit]
    simp only [bind, Except.bind, h.testBit_eq hlt]
    by_cases hset : filter.bitAt bit = true
    · refine ⟨found, by rw [if_pos hset, hfound], fun hh => himp fun i' hi' => ?_⟩
      exact hh i' (List.mem_cons_of_mem _ hi')
    · refine ⟨false, by rw [if_neg hset]; rfl, fun hh => ?_⟩
      exact absurd (hh i List.mem_cons_self bit hbit) hset

theorem bitAt_empty (numBits numHashes bit : Nat) : (empty numBits numHashes).bitAt bit = false := by
  have hword : ((empty numBits numHashes).bits[bit / 64]?).getD 0#64 = 0#64 := by
    rw [empty, List.getElem?_replicate]
    split <;> rfl
  rw [bitAt, hword, BitVec.getLsbD_zero]

/-- An empty filter rejects every key. -/
theorem mightContain_empty {numBits numHashes : Nat} (hbits : 0 < numBits) (hhashes : 0 < numHashes)
    (key : String) : (empty numBits numHashes).mightContain key = .ok false := by
  obtain ⟨n, rfl⟩ : ∃ n, numHashes = n + 1 := ⟨numHashes - 1, by omega⟩
  have hsized : (empty numBits (n + 1)).Sized := ⟨hbits, by simp [empty]⟩
  obtain ⟨bit, hbit, hlt⟩ := hsized.bitIndex_eq (keyHashes key) 0
  rw [mightContain, show (empty numBits (n + 1)).numHashes = n + 1 from rfl, List.range_succ_eq_map,
    mightContainLoop, hbit]
  simp only [bind, Except.bind, hsized.testBit_eq hlt, bitAt_empty]
  rfl

/-- A filter that has been given `keys`: it has sane dimensions and answers `true` for them. -/
structure Covers (filter : BloomFilter) (keys : List String) : Prop where
  sized : filter.Sized
  holds : ∀ key ∈ keys, filter.Holds (keyHashes key) (List.range filter.numHashes)

theorem Covers.mightContain_eq {filter : BloomFilter} {keys : List String}
    (h : filter.Covers keys) (key : String) :
    ∃ found, filter.mightContain key = .ok found ∧ (key ∈ keys → found = true) := by
  obtain ⟨found, hfound, himp⟩ :=
    h.sized.mightContainLoop_eq (keyHashes key) (List.range filter.numHashes)
  exact ⟨found, hfound, fun hkey => himp (h.holds key hkey)⟩

theorem Covers.insert_eq {filter : BloomFilter} {keys : List String} (h : filter.Covers keys)
    (key : String) :
    ∃ filter', filter.insert key = .ok filter' ∧ filter'.Covers (keys ++ [key]) ∧
      filter'.numBits = filter.numBits ∧ filter'.numHashes = filter.numHashes := by
  obtain ⟨f, hf, hs, hn, hk, hkeep, hholds⟩ :=
    h.sized.insertLoop_eq (keyHashes key) (List.range filter.numHashes)
  refine ⟨f, hf, ⟨hs, fun k hk' => ?_⟩, hn, hk⟩
  rw [hk]
  rcases List.mem_append.mp hk' with hk' | hk'
  · intro i hi bit hbit
    rw [bitIndex, hn] at hbit
    exact hkeep bit (h.holds k hk' i hi bit hbit)
  · rw [List.mem_singleton.mp hk']
    exact hholds

theorem Covers.insertAll_eq {filter : BloomFilter} {keys : List String} (h : filter.Covers keys)
    (more : List String) :
    ∃ filter', insertAll more filter = .ok filter' ∧ filter'.Covers (keys ++ more) ∧
      filter'.numBits = filter.numBits ∧ filter'.numHashes = filter.numHashes := by
  induction more generalizing filter keys with
  | nil => exact ⟨filter, rfl, by simpa using h, rfl, rfl⟩
  | cons key more ih =>
    obtain ⟨f1, hf1, hc1, hn1, hk1⟩ := h.insert_eq key
    obtain ⟨f2, hf2, hc2, hn2, hk2⟩ := ih hc1
    refine ⟨f2, ?_, by simpa using hc2, hn2.trans hn1, hk2.trans hk1⟩
    rw [insertAll, hf1]
    exact hf2

theorem covers_empty {n : Nat} (numHashes : Nat) (h : 0 < n) :
    (empty n numHashes).Covers [] := ⟨⟨h, by simp [empty]⟩, by simp⟩

/-- The filter a table is written with exists, covers the keys and fits its `u32` fields. -/
theorem fromEntries_eq [BloomSizing] (keys : List String) :
    ∃ filter, fromEntries keys = .ok filter ∧ filter.Covers keys ∧
      filter.numBits < 2 ^ 32 ∧ filter.numHashes < 2 ^ 32 := by
  have hbits := BloomSizing.bits_range (max keys.length 1)
  obtain ⟨f, hf, hc, hn, hk⟩ := (covers_empty (BloomSizing.optimalHashes
    (BloomSizing.optimalBits (max keys.length 1)) (max keys.length 1))
    (n := BloomSizing.optimalBits (max keys.length 1)) (by omega)).insertAll_eq keys
  have hhashes := BloomSizing.hashes_range (BloomSizing.optimalBits (max keys.length 1))
    (max keys.length 1)
  refine ⟨f, hf, by simpa using hc, ?_, ?_⟩
  · rw [hn]
    exact hbits.2
  · rw [hk]
    simp only [empty]
    omega

/-! ## Round trip -/

theorem length_flatMap_u64ToLe (words : List (BitVec 64)) :
    (words.flatMap fun word => u64ToLe word.toNat).length = words.length * 8 := by
  induction words with
  | nil => rfl
  | cons w words ih => simp only [List.flatMap_cons, List.length_append, ih, length_u64ToLe,
      List.length_cons]; omega

theorem length_encode (filter : BloomFilter) :
    filter.encode.length = 8 + filter.bits.length * 8 := by
  simp only [encode, List.length_append, length_u32ToLe, length_flatMap_u64ToLe]

/-- A filter takes at most half a gibibyte, and its two numbers. -/
theorem Sized.length_encode_le {filter : BloomFilter} (h : filter.Sized)
    (hbits : filter.numBits < 2 ^ 32) : filter.encode.length ≤ 8 + 2 ^ 29 := by
  rw [length_encode, h.words, wordCount]
  omega

theorem Sized.length_encode_lt {filter : BloomFilter} (h : filter.Sized)
    (hbits : filter.numBits < 2 ^ 32) : filter.encode.length < 2 ^ 32 :=
  (h.length_encode_le hbits).trans_lt (by decide)

/-- It has at least one word. -/
theorem Sized.le_length_encode {filter : BloomFilter} (h : filter.Sized) :
    16 ≤ filter.encode.length := by
  have hpos := h.pos
  rw [length_encode, h.words, wordCount]
  omega

/-- Reading the last `words.length` words of the array back, one slice each. -/
theorem decodeWords_eq (head : Bytes) (before words : List (BitVec 64)) (more : Bytes)
    (hhead : head.length = 8) :
    decodeWords (head ++ ((before ++ words).flatMap fun word => u64ToLe word.toNat) ++ more)
      (List.range' before.length words.length) = .ok words := by
  induction words generalizing before with
  | nil => rfl
  | cons w words ih =>
    have hslice : slice (head ++ ((before ++ w :: words).flatMap fun word => u64ToLe word.toNat) ++
        more) (8 + before.length * 8) (8 + before.length * 8 + 8) = .ok (u64ToLe w.toNat) := by
      have := slice_append (a := head ++ before.flatMap fun word => u64ToLe word.toNat)
        (b := u64ToLe w.toNat) (c := (words.flatMap fun word => u64ToLe word.toNat) ++ more)
        (s := 8 + before.length * 8) (t := 8 + before.length * 8 + 8)
        (by simp [hhead]) (by simp [hhead])
      simpa using this
    have hrest := ih (before ++ [w])
    simp only [List.append_assoc, List.singleton_append, List.length_append, List.length_singleton]
      at hrest
    rw [List.length_cons, List.range'_succ, decodeWords, hslice]
    simp only [bind, Except.bind, List.append_assoc]
    rw [hrest]
    have hword : ofLe (u64ToLe w.toNat) = w.toNat := ofLe_toLe_of_lt (by simpa using w.isLt)
    simp [hword, pure, Except.pure]

/-- A filter with sane dimensions is read back as it was written, whatever stands behind it. -/
theorem decode_append {filter : BloomFilter} (h : filter.Sized) (hbits : filter.numBits < 2 ^ 32)
    (hhashes : filter.numHashes < 2 ^ 32) (more : Bytes) :
    decode (filter.encode ++ more) = .ok (some filter) := by
  have hlen := filter.length_encode
  have hnb : readU32 (filter.encode ++ more) 0 = .ok filter.numBits := by
    have := readU32_append (a := []) (n := filter.numBits)
      (c := u32ToLe filter.numHashes ++ (filter.bits.flatMap fun word => u64ToLe word.toNat) ++ more)
      hbits (o := 0) rfl
    simpa [encode] using this
  have hnh : readU32 (filter.encode ++ more) 4 = .ok filter.numHashes := by
    have := readU32_append (a := u32ToLe filter.numBits) (n := filter.numHashes)
      (c := (filter.bits.flatMap fun word => u64ToLe word.toNat) ++ more) hhashes (o := 4) (by simp)
    simpa [encode] using this
  have hwords := decodeWords_eq (u32ToLe filter.numBits ++ u32ToLe filter.numHashes) [] filter.bits
    more (by simp)
  rw [List.nil_append, List.length_nil, ← List.range_eq_range'] at hwords
  rw [decode, if_neg (by rw [List.length_append]; omega), hnb]
  simp only [bind, Except.bind, hnh]
  rw [if_neg (by rw [List.length_append, hlen, h.words]; omega), ← h.words, encode, hwords]
  rfl

theorem decode_encode {filter : BloomFilter} (h : filter.Sized) (hbits : filter.numBits < 2 ^ 32)
    (hhashes : filter.numHashes < 2 ^ 32) : decode filter.encode = .ok (some filter) := by
  rw [← List.append_nil filter.encode, decode_append h hbits hhashes]

/-- No bit number of a key leaves the word array. -/
def InRange (filter : BloomFilter) : Prop :=
  ∀ key i, ∃ bit, filter.bitIndex (keyHashes key) i = .ok bit ∧ bit / 64 < filter.bits.length

theorem Sized.inRange {filter : BloomFilter} (h : filter.Sized) : filter.InRange := by
  intro key i
  obtain ⟨bit, hbit, hlt⟩ := h.bitIndex_eq (keyHashes key) i
  exact ⟨bit, hbit, h.word_lt hlt⟩

/-- A filter of any dimensions in the ranges of the clamps answers `true` for all keys it was given,
also after it has been to a file and back. -/
theorem exists_decode_insertAll {numBits numHashes : Nat} (hbits : 64 ≤ numBits ∧ numBits < 2 ^ 32)
    (hhashes : 1 ≤ numHashes ∧ numHashes ≤ 30) (keys : List String) :
    ∃ filter decoded, insertAll keys (empty numBits numHashes) = .ok filter ∧
      decode filter.encode = .ok (some decoded) ∧
      (∀ key ∈ keys, decoded.mightContain key = .ok true) ∧
      (∀ key, ∃ found, filter.mightContain key = .ok found ∧
        decoded.mightContain key = .ok found) ∧
      filter.InRange ∧ decoded.InRange := by
  obtain ⟨filter, hinsert, hcovers, hn, hk⟩ :=
    (covers_empty numHashes (show 0 < numBits by omega)).insertAll_eq keys
  rw [List.nil_append] at hcovers
  have hdecode : decode filter.encode = .ok (some filter) := by
    refine decode_encode hcovers.sized (hn ▸ hbits.2) ?_
    rw [hk]
    exact Nat.lt_of_le_of_lt hhashes.2 (by decide)
  refine ⟨filter, filter, hinsert, hdecode, fun key hkey => ?_, fun key => ?_,
    hcovers.sized.inRange, hcovers.sized.inRange⟩
  · obtain ⟨found, hfound, htrue⟩ := hcovers.mightContain_eq key
    rw [hfound, htrue hkey]
  · obtain ⟨found, hfound, -⟩ := hcovers.mightContain_eq key
    exact ⟨found, hfound, hfound⟩

/-- Two keys in 65 bits, so that the last word is used in part. -/
theorem exists_decode_insertAll_two :
    ∃ filter decoded, insertAll ["a", "b"] (empty 65 3) = .ok filter ∧
      decode filter.encode = .ok (some decoded) ∧ decoded.mightContain "a" = .ok true ∧
      decoded.mightContain "b" = .ok true := by
  obtain ⟨filter, decoded, hinsert, hdecode, hkeys, -⟩ :=
    @exists_decode_insertAll 65 3 (by decide) (by decide) ["a", "b"]
  exact ⟨filter, decoded, hinsert, hdecode, hkeys "a" (by simp), hkeys "b" (by simp)⟩

end BloomFilter

end PebbleDB
