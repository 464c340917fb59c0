import Mathlib.Algebra.Group.Nat.Defs
import Mathlib.Data.Nat.Basic

/-! # Masks of low bits

`x & (2^k - 1)` is the remainder of a word at a power of two, and `x & ~(2^k - 1)` the word rounded down to
a multiple of it.
-/

namespace Masks

variable {w k : ℕ}

/-- The bits below `k`. -/
def low (w k : ℕ) : BitVec w := BitVec.ofNat w (2 ^ k - 1)

theorem toNat_low (inside : k ≤ w) : (low w k).toNat = 2 ^ k - 1 := by
  have bound : 2 ^ k ≤ 2 ^ w := Nat.pow_le_pow_right (by decide) inside
  have positive : 0 < 2 ^ k := Nat.two_pow_pos k
  rw [low, BitVec.toNat_ofNat, Nat.mod_eq_of_lt (by omega)]

theorem toNat_and_low (inside : k ≤ w) (x : BitVec w) : (x &&& low w k).toNat = x.toNat % 2 ^ k := by
  rw [BitVec.toNat_and, toNat_low inside, Nat.and_two_pow_sub_one_eq_mod]

theorem toNat_and_not_low (inside : k ≤ w) (x : BitVec w) :
    (x &&& ~~~ low w k).toNat = x.toNat / 2 ^ k * 2 ^ k := by
  have shifts : x &&& ~~~ low w k = (x >>> k) <<< k := by
    apply BitVec.eq_of_getLsbD_eq
    intro i less
    have bit : (low w k).getLsbD i = decide (i < k) := by
      rw [BitVec.getLsbD, toNat_low inside, Nat.testBit_two_pow_sub_one]
    rw [BitVec.getLsbD_and, BitVec.getLsbD_not, bit, BitVec.getLsbD_shiftLeft, BitVec.getLsbD_ushiftRight]
    rcases Nat.lt_or_ge i k with below | above
    · simp [below]
    · simp [less, Nat.not_lt.mpr above, Nat.add_sub_cancel' above]
  have bound : x.toNat / 2 ^ k * 2 ^ k < 2 ^ w := Nat.lt_of_le_of_lt (Nat.div_mul_le_self ..) x.isLt
  rw [shifts, BitVec.toNat_shiftLeft, BitVec.toNat_ushiftRight, Nat.shiftLeft_eq, Nat.shiftRight_eq_div_pow,
    Nat.mod_eq_of_lt bound]

end Masks
