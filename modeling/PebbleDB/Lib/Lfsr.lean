import Mathlib.Data.BitVec
import Mathlib.Logic.Function.Iterate

/-!
# Right-shifting feedback registers

The register behind a bit-reflected cyclic redundancy check, for any width and polynomial: one
shift drops the low bit and, when it was set, adds the polynomial. Shifts are linear over
exclusive or (`shift_xor`); when the polynomial has its top bit set they are injective
(`shift_injective`), because the top bit of the result tells whether the polynomial was added.
-/

namespace Lfsr

variable {w : Nat}

/-- One shift of the register `c` with feedback polynomial `poly`. -/
def shift (poly c : BitVec w) : BitVec w :=
  if c.getLsbD 0 then (c >>> 1) ^^^ poly else c >>> 1

theorem xor_cancel_right (a b p : BitVec w) : a ^^^ p ^^^ (b ^^^ p) = a ^^^ b := by
  rw [BitVec.xor_assoc, BitVec.xor_comm b p, ← BitVec.xor_assoc p p b, BitVec.xor_self,
    BitVec.zero_xor]

theorem shift_xor (poly a b : BitVec w) :
    shift poly (a ^^^ b) = shift poly a ^^^ shift poly b := by
  unfold shift
  rw [BitVec.getLsbD_xor, BitVec.ushiftRight_xor_distrib]
  cases a.getLsbD 0 <;> cases b.getLsbD 0
  · rfl
  · simp only [Bool.false_xor, if_true, Bool.false_eq_true, if_false, BitVec.xor_assoc]
  · simp only [Bool.xor_false, if_true, Bool.false_eq_true, if_false]
    rw [BitVec.xor_assoc, BitVec.xor_comm _ poly, ← BitVec.xor_assoc]
  · simp only [Bool.xor_self, Bool.false_eq_true, if_false, if_true]
    exact (xor_cancel_right _ _ _).symm

theorem iterate_shift_xor (poly : BitVec w) (n : Nat) (a b : BitVec w) :
    (shift poly)^[n] (a ^^^ b) = (shift poly)^[n] a ^^^ (shift poly)^[n] b := by
  induction n generalizing a b with
  | zero => rfl
  | succ n ih => simp only [Function.iterate_succ_apply, shift_xor, ih]

/-- A register whose low `k` bits are clear only moves down through `k` shifts. -/
theorem iterate_shift_of_low_clear (poly c : BitVec w) :
    ∀ k, (∀ i, i < k → c.getLsbD i = false) → (shift poly)^[k] c = c >>> k := by
  intro k
  induction k with
  | zero => simp
  | succ k ih =>
    intro hlow
    rw [Function.iterate_succ_apply', ih fun i hi => hlow i (by omega)]
    have hbit : (c >>> k).getLsbD 0 = false := by simpa using hlow k (by omega)
    rw [shift, hbit, BitVec.shiftRight_add]
    rfl

/-- A register with `k` free bits at its top comes back from being moved up by `k` places. -/
theorem iterate_shift_shiftLeft (poly : BitVec w) {c : BitVec w} {k : Nat}
    (h : c.toNat * 2 ^ k < 2 ^ w) : (shift poly)^[k] (c <<< k) = c := by
  have hlow : ∀ i, i < k → (c <<< k).getLsbD i = false := by
    intro i hi
    rw [BitVec.getLsbD_shiftLeft, decide_eq_true hi]
    simp
  rw [iterate_shift_of_low_clear poly _ k hlow]
  apply BitVec.eq_of_toNat_eq
  rw [BitVec.toNat_ushiftRight, BitVec.toNat_shiftLeft, Nat.shiftLeft_eq, Nat.mod_eq_of_lt h,
    Nat.shiftRight_eq_div_pow, Nat.mul_div_cancel _ (Nat.two_pow_pos k)]

theorem shift_eq_zero {poly c : BitVec w} (hp : poly.msb = true) (h : shift poly c = 0#w) :
    c = 0#w := by
  have hbit : c.getLsbD 0 = false := by
    by_contra hb
    -- the polynomial was added, so the top bit of the result is set
    have htop : (shift poly c).msb = true := by
      rw [shift, if_pos (by simpa using hb)]
      simp [hp]
    rw [h] at htop
    simp at htop
  rw [shift, hbit] at h
  apply BitVec.eq_of_getLsbD_eq
  intro i _
  rcases i with _ | i
  · simpa using hbit
  · have hi : (c >>> 1).getLsbD i = false := by
      rw [if_neg (by simp)] at h
      rw [h]
      simp
    rw [BitVec.getLsbD_ushiftRight, Nat.add_comm] at hi
    simpa using hi

theorem shift_injective {poly : BitVec w} (hp : poly.msb = true) :
    Function.Injective (shift poly) := by
  intro a b hab
  have hzero : shift poly (a ^^^ b) = 0#w := by rw [shift_xor, hab, BitVec.xor_self]
  have := shift_eq_zero hp hzero
  exact BitVec.xor_eq_zero_iff.mp this

theorem iterate_shift_injective {poly : BitVec w} (hp : poly.msb = true) (n : Nat) :
    Function.Injective (shift poly)^[n] := (shift_injective hp).iterate n

end Lfsr
