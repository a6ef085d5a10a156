import Mathlib.Algebra.Group.Nat.Defs
import Mathlib.Tactic.Common

/-!
# Little-endian digits

A natural number as a fixed number of bytes, least significant first, and back. Writing keeps
the number modulo `256 ^ w` (`ofLe_toLe`), which is what storing a wider integer in `w` bytes
does; reading `w` bytes and writing them again gives the same bytes (`toLe_ofLe`).
-/

namespace LittleEndian

/-- The `w` least significant bytes of `n`, lowest first. -/
def toLe : Nat → Nat → List UInt8
  | 0, _ => []
  | w + 1, n => UInt8.ofNat n :: toLe w (n / 256)

/-- The number whose bytes are given, lowest first. -/
def ofLe : List UInt8 → Nat
  | [] => 0
  | b :: bs => b.toNat + 256 * ofLe bs

@[simp] theorem length_toLe (w n : Nat) : (toLe w n).length = w := by
  induction w generalizing n with
  | zero => rfl
  | succ w ih => simp [toLe, ih]

theorem ofLe_toLe (w n : Nat) : ofLe (toLe w n) = n % 256 ^ w := by
  induction w generalizing n with
  | zero => simp [toLe, ofLe, Nat.mod_one]
  | succ w ih =>
    rw [toLe, ofLe, ih, Nat.pow_succ', Nat.mod_mul, UInt8.toNat_ofNat']

theorem ofLe_toLe_of_lt {w n : Nat} (h : n < 256 ^ w) : ofLe (toLe w n) = n := by
  rw [ofLe_toLe, Nat.mod_eq_of_lt h]

theorem ofLe_lt (bs : List UInt8) : ofLe bs < 256 ^ bs.length := by
  induction bs with
  | nil => simp [ofLe]
  | cons b bs ih =>
    have hb : b.toNat < 256 := b.toNat_lt
    rw [ofLe, List.length_cons, Nat.pow_succ]
    omega

theorem toLe_ofLe (bs : List UInt8) : toLe bs.length (ofLe bs) = bs := by
  induction bs with
  | nil => rfl
  | cons b bs ih =>
    have hb : b.toNat < 256 := b.toNat_lt
    rw [List.length_cons, ofLe, toLe]
    congr 1
    · apply UInt8.toNat_inj.mp
      rw [UInt8.toNat_ofNat']
      omega
    · rw [Nat.add_mul_div_left _ _ (by omega), Nat.div_eq_of_lt hb, Nat.zero_add, ih]

/-- Equally many bytes that stand for one number are the same bytes. -/
theorem ofLe_injective {bs cs : List UInt8} (hlen : bs.length = cs.length)
    (h : ofLe bs = ofLe cs) : bs = cs := by
  rw [← toLe_ofLe bs, ← toLe_ofLe cs, hlen, h]

theorem toLe_mod (w n : Nat) : toLe w (n % 256 ^ w) = toLe w n := by
  apply ofLe_injective
  · simp
  · rw [ofLe_toLe, ofLe_toLe, Nat.mod_mod]

end LittleEndian
