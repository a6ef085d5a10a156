import PebbleDB.Bytes
import PebbleDB.Lib.Lfsr

/-!
# The checksum of `src/wal.rs`

`crc32` runs a 32-bit register over the bytes with a table of 256 words. `Lfsr` supplies what
the table is for: one table step is eight shifts of the register after the byte is added to its
low end (`crc32Step_eq`), so a step is injective in the register and in the byte, and two
strings that differ in a single byte never share a checksum (`crc32_ne_of_single_change`). Up to four
bytes go through the register like one number added to it (`crc32Run_eq_shift`), so the same holds
of strings that differ in four bytes in a row.
-/

namespace PebbleDB

open LittleEndian

/-- `CRC32_POLY` -/
def crc32Poly : BitVec 32 := 0xEDB88320#32

/-- One turn of the inner loop that fills `CRC32_TABLE`. -/
def crc32TableStep (crc : BitVec 32) : BitVec 32 :=
  if crc &&& 1#32 ≠ 0#32 then (crc >>> 1) ^^^ crc32Poly else crc >>> 1

/-- `CRC32_TABLE[i]` -/
def crc32Table (i : Nat) : BitVec 32 := crc32TableStep^[8] (BitVec.ofNat 32 i)

/-- `byte as u32` -/
def byteToU32 (b : UInt8) : BitVec 32 := BitVec.ofNat 32 b.toNat

/-- One turn of the loop of `crc32`, for a byte. -/
def crc32Step (crc : BitVec 32) (byte : UInt8) : BitVec 32 :=
  (crc >>> 8) ^^^ crc32Table ((crc ^^^ byteToU32 byte) &&& 0xFF#32).toNat

/-- The register after the bytes of `data`. -/
def crc32Run (crc : BitVec 32) (data : Bytes) : BitVec 32 := data.foldl crc32Step crc

/-- `crc32` starts with all bits set and inverts the result. -/
def crc32 (data : Bytes) : Nat := (crc32Run 0xFFFFFFFF#32 data ^^^ 0xFFFFFFFF#32).toNat

theorem crc32_lt (data : Bytes) : crc32 data < 2 ^ 32 := BitVec.isLt _

/-! ## One step -/

theorem crc32TableStep_eq_shift (c : BitVec 32) : crc32TableStep c = Lfsr.shift crc32Poly c := by
  have hbit : c &&& 1#32 = BitVec.setWidth 32 (BitVec.ofBool (c.getLsbD 0)) :=
    BitVec.and_one_eq_setWidth_ofBool_getLsbD
  rw [crc32TableStep, Lfsr.shift, hbit]
  cases c.getLsbD 0
  · rw [if_neg (by decide), if_neg (by decide)]
  · rw [if_pos (by decide), if_pos rfl]

theorem crc32Table_eq (i : Nat) :
    crc32Table i = (Lfsr.shift crc32Poly)^[8] (BitVec.ofNat 32 i) := by
  rw [crc32Table, funext crc32TableStep_eq_shift]

theorem getLsbD_ff (i : Nat) : (0xFF#32).getLsbD i = decide (i < 8) := by
  rw [BitVec.getLsbD_ofNat, show (255 : Nat) = 2 ^ 8 - 1 by rfl, Nat.testBit_two_pow_sub_one]
  rcases Nat.lt_or_ge i 8 with h | h
  · have : i < 32 := by omega
    simp [h, this]
  · simp [h]

/-- A word is its low byte plus the rest of it. -/
theorem xor_low_high (x : BitVec 32) : (x &&& 0xFF#32) ^^^ (x &&& ~~~0xFF#32) = x := by
  apply BitVec.eq_of_getLsbD_eq
  intro i hi
  simp only [BitVec.getLsbD_xor, BitVec.getLsbD_and, BitVec.getLsbD_not, hi, decide_true,
    Bool.true_and]
  cases x.getLsbD i <;> cases (0xFF#32).getLsbD i <;> rfl

theorem iterate_shift_eight (x : BitVec 32) :
    (Lfsr.shift crc32Poly)^[8] x =
      (x >>> 8) ^^^ (Lfsr.shift crc32Poly)^[8] (x &&& 0xFF#32) := by
  have hlow : ∀ i, i < 8 → (x &&& ~~~0xFF#32).getLsbD i = false := by
    intro i hi
    rw [BitVec.getLsbD_and, BitVec.getLsbD_not, getLsbD_ff]
    simp [hi]
  have hhigh : (x &&& ~~~0xFF#32) >>> 8 = x >>> 8 := by
    apply BitVec.eq_of_getLsbD_eq
    intro i hi
    rw [BitVec.getLsbD_ushiftRight, BitVec.getLsbD_ushiftRight, BitVec.getLsbD_and,
      BitVec.getLsbD_not, getLsbD_ff]
    by_cases h : 8 + i < 32
    · simp [h]
    · simp [BitVec.getLsbD_of_ge x (8 + i) (by omega)]
  conv => lhs; rw [← xor_low_high x]
  rw [Lfsr.iterate_shift_xor, Lfsr.iterate_shift_of_low_clear _ _ 8 hlow, hhigh, BitVec.xor_comm]

theorem byteToU32_shift (b : UInt8) : byteToU32 b >>> 8 = 0#32 := by
  apply BitVec.eq_of_toNat_eq
  have hb := b.toNat_lt
  rw [byteToU32, BitVec.toNat_ushiftRight, BitVec.toNat_ofNat, Nat.shiftRight_eq_div_pow,
    Nat.mod_eq_of_lt (by omega)]
  exact Nat.div_eq_of_lt hb

/-- A table step is eight shifts of the register with the byte added to its low end. -/
theorem crc32Step_eq (crc : BitVec 32) (b : UInt8) :
    crc32Step crc b = (Lfsr.shift crc32Poly)^[8] (crc ^^^ byteToU32 b) := by
  rw [iterate_shift_eight, BitVec.ushiftRight_xor_distrib, byteToU32_shift, BitVec.xor_zero,
    crc32Step, crc32Table_eq, BitVec.ofNat_toNat, BitVec.setWidth_eq]

theorem crc32Poly_msb : crc32Poly.msb = true := by decide

theorem xor_left_cancel {a b c : BitVec 32} (h : a ^^^ b = a ^^^ c) : b = c := by
  have := congrArg (a ^^^ ·) h
  simpa only [← BitVec.xor_assoc, BitVec.xor_self, BitVec.zero_xor] using this

theorem crc32Step_injective (b : UInt8) : Function.Injective (crc32Step · b) := by
  intro c d h
  simp only [crc32Step_eq] at h
  have := Lfsr.iterate_shift_injective crc32Poly_msb 8 h
  rw [BitVec.xor_comm c, BitVec.xor_comm d] at this
  exact xor_left_cancel this

theorem byteToU32_injective : Function.Injective byteToU32 := by
  intro a b h
  have := congrArg BitVec.toNat h
  have ha := a.toNat_lt
  have hb := b.toNat_lt
  rw [byteToU32, byteToU32, BitVec.toNat_ofNat, BitVec.toNat_ofNat, Nat.mod_eq_of_lt (by omega),
    Nat.mod_eq_of_lt (by omega)] at this
  exact UInt8.toNat_inj.mp this

theorem crc32Step_byte_injective (crc : BitVec 32) : Function.Injective (crc32Step crc) := by
  intro a b h
  rw [crc32Step_eq, crc32Step_eq] at h
  exact byteToU32_injective (xor_left_cancel (Lfsr.iterate_shift_injective crc32Poly_msb 8 h))

/-! ## Whole strings -/

theorem crc32Run_append (crc : BitVec 32) (a b : Bytes) :
    crc32Run crc (a ++ b) = crc32Run (crc32Run crc a) b := List.foldl_append

theorem crc32Run_injective (data : Bytes) : Function.Injective (crc32Run · data) := by
  induction data with
  | nil => exact fun _ _ h => h
  | cons b data ih => exact fun c d h => crc32Step_injective b (ih h)

theorem crc32_eq_iff (a b : Bytes) :
    crc32 a = crc32 b ↔ crc32Run 0xFFFFFFFF#32 a = crc32Run 0xFFFFFFFF#32 b := by
  rw [crc32, crc32]
  constructor
  · intro h
    have := BitVec.eq_of_toNat_eq h
    rw [BitVec.xor_comm _ 0xFFFFFFFF#32, BitVec.xor_comm _ 0xFFFFFFFF#32] at this
    exact xor_left_cancel this
  · intro h
    rw [h]

/-- Changing one byte changes the checksum. -/
theorem crc32_ne_of_single_change (a c : Bytes) {x y : UInt8} (h : x ≠ y) :
    crc32 (a ++ x :: c) ≠ crc32 (a ++ y :: c) := by
  rw [Ne, crc32_eq_iff, crc32Run_append, crc32Run_append]
  intro hrun
  exact h (crc32Step_byte_injective _ (crc32Run_injective c hrun))

theorem set_eq_append {α : Type} {l : List α} {i : Nat} (h : i < l.length) (b : α) :
    l.set i b = l.take i ++ b :: l.drop (i + 1) := by
  rw [List.set_eq_take_append_cons_drop, if_pos h]

/-- Changing one byte of a string changes its checksum. -/
theorem crc32_set_ne {data : Bytes} {i : Nat} (hi : i < data.length) {b : UInt8}
    (hb : data[i]? ≠ some b) : crc32 (data.set i b) ≠ crc32 data := by
  have hsplit : data = data.take i ++ data[i] :: data.drop (i + 1) := by simp
  rw [set_eq_append hi]
  conv => rhs; rw [hsplit]
  apply crc32_ne_of_single_change
  rintro rfl
  exact hb (List.getElem?_eq_getElem hi)

theorem set_ne_self {α : Type} {l : List α} {i : Nat} {b : α} (hi : i < l.length)
    (hb : l[i]? ≠ some b) : l.set i b ≠ l := by
  intro h
  apply hb
  rw [← h]
  simp [hi]

/-! ## Bursts -/

/-- A number is its low byte and, moved up, the rest of it. -/
theorem byteToU32_xor_shiftLeft (b : UInt8) (n : Nat) :
    byteToU32 b ^^^ (BitVec.ofNat 32 n <<< 8) = BitVec.ofNat 32 (b.toNat + 256 * n) := by
  have hb : b.toNat < 2 ^ 8 := b.toNat_lt
  apply BitVec.eq_of_getLsbD_eq
  intro i hi
  rw [BitVec.getLsbD_xor, byteToU32, BitVec.getLsbD_shiftLeft, BitVec.getLsbD_ofNat,
    BitVec.getLsbD_ofNat, BitVec.getLsbD_ofNat, Nat.add_comm, show 256 = 2 ^ 8 from rfl,
    Nat.testBit_two_pow_mul_add n hb]
  by_cases hlow : i < 8
  · simp [hi, hlow]
  · have hout : b.toNat.testBit i = false := by
      refine Nat.testBit_lt_two_pow (hb.trans_le (Nat.pow_le_pow_right (by decide) (by omega)))
    have hless : i - 8 < 32 := by omega
    simp [hi, hlow, hout, hless]

/-- Up to four bytes go through the register like one number added to it. -/
theorem crc32Run_eq_shift (crc : BitVec 32) {data : Bytes} (h : data.length ≤ 4) :
    crc32Run crc data =
      (Lfsr.shift crc32Poly)^[8 * data.length] (crc ^^^ BitVec.ofNat 32 (ofLe data)) := by
  induction data generalizing crc with
  | nil => simp [crc32Run, ofLe]
  | cons b data ih =>
    rw [List.length_cons] at h
    have hlt : ofLe data < 256 ^ 3 :=
      (ofLe_lt data).trans_le (Nat.pow_le_pow_right (by decide) (by omega))
    have hfree : (BitVec.ofNat 32 (ofLe data)).toNat * 2 ^ 8 < 2 ^ 32 := by
      rw [BitVec.toNat_ofNat, Nat.mod_eq_of_lt (by omega)]
      omega
    calc crc32Run crc (b :: data) = crc32Run (crc32Step crc b) data := rfl
      _ = (Lfsr.shift crc32Poly)^[8 * data.length] ((Lfsr.shift crc32Poly)^[8] (crc ^^^ byteToU32 b) ^^^
            (Lfsr.shift crc32Poly)^[8] (BitVec.ofNat 32 (ofLe data) <<< 8)) := by
        rw [ih _ (by omega), crc32Step_eq, Lfsr.iterate_shift_shiftLeft crc32Poly hfree]
      _ = _ := by
        rw [← Lfsr.iterate_shift_xor, ← Function.iterate_add_apply, BitVec.xor_assoc,
          byteToU32_xor_shiftLeft, List.length_cons, ofLe]
        rfl

theorem crc32Run_injective_of_length_le (crc : BitVec 32) {x y : Bytes} (hlen : x.length = y.length)
    (h : y.length ≤ 4) (hrun : crc32Run crc x = crc32Run crc y) : x = y := by
  rw [crc32Run_eq_shift crc (hlen.trans_le h), crc32Run_eq_shift crc h, hlen] at hrun
  have hword := congrArg BitVec.toNat
    (xor_left_cancel (Lfsr.iterate_shift_injective crc32Poly_msb _ hrun))
  have hlt : ∀ {z : Bytes}, z.length ≤ 4 → ofLe z < 2 ^ 32 := fun {z} hz =>
    (ofLe_lt z).trans_le ((Nat.pow_le_pow_right (by decide) hz).trans (by decide))
  rw [BitVec.toNat_ofNat, BitVec.toNat_ofNat, Nat.mod_eq_of_lt (hlt (hlen.trans_le h)),
    Nat.mod_eq_of_lt (hlt h)] at hword
  exact ofLe_injective hlen hword

/-- Two strings of one length that differ in no more than four consecutive places have different
checksums. -/
theorem crc32_ne_of_burst {a b : Bytes} (hlen : a.length = b.length) (hne : a ≠ b) {i : Nat}
    (hburst : ∀ j, a[j]? ≠ b[j]? → i ≤ j ∧ j < i + 4) : crc32 a ≠ crc32 b := by
  have htake : a.take i = b.take i := by
    refine List.ext_getElem? fun j => ?_
    rw [List.getElem?_take, List.getElem?_take]
    split
    · by_contra hj
      have := (hburst j hj).1
      omega
    · rfl
  have hdrop : (a.drop i).drop 4 = (b.drop i).drop 4 := by
    refine List.ext_getElem? fun j => ?_
    rw [List.drop_drop, List.drop_drop, List.getElem?_drop, List.getElem?_drop]
    by_contra hj
    have := (hburst _ hj).2
    omega
  have hsplit : ∀ data : Bytes, data = data.take i ++ ((data.drop i).take 4 ++ (data.drop i).drop 4) :=
    fun data => by rw [List.take_append_drop, List.take_append_drop]
  intro heq
  rw [crc32_eq_iff, hsplit a, hsplit b, crc32Run_append, crc32Run_append, crc32Run_append,
    crc32Run_append, htake, hdrop] at heq
  have hmiddle := crc32Run_injective_of_length_le _ (by simp [hlen]) (by simp)
    (crc32Run_injective _ heq)
  exact hne (by rw [hsplit a, hsplit b, htake, hdrop, hmiddle])

/-- The third of the four bytes is the same. -/
theorem crc32_ne_of_burst_five : crc32 [1, 2, 3, 4, 5] ≠ crc32 [1, 7, 3, 0, 9] :=
  crc32_ne_of_burst rfl (by decide) (i := 1) fun j hj => by
    match j with
    | 0 => exact absurd rfl hj
    | 1 => omega
    | 2 => omega
    | 3 => omega
    | 4 => omega
    | j + 5 => exact absurd rfl hj

end PebbleDB
