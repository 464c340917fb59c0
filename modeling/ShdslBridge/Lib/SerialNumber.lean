import Mathlib.Algebra.Group.Nat.Defs
import Mathlib.Data.Nat.Basic

/-! # Comparing numbers that wrap

A counter of finite width stands for a natural number that only grows. The difference of two such
counters, taken in their width, tells which number is larger as long as the numbers are close to
each other: the differences below a bound are those of a number that is not smaller.
-/

namespace SerialNumber

variable {w a b : ℕ}

theorem sub_of_le (le : b ≤ a) : BitVec.ofNat w a - BitVec.ofNat w b = BitVec.ofNat w (a - b) := by
  have sum : BitVec.ofNat w a = BitVec.ofNat w (a - b) + BitVec.ofNat w b := by
    rw [← BitVec.ofNat_add, Nat.sub_add_cancel le]
  rw [sum, BitVec.add_sub_cancel]

theorem toNat_sub_of_le (le : b ≤ a) (near : a < b + 2 ^ w) :
    (BitVec.ofNat w a - BitVec.ofNat w b).toNat = a - b := by
  rw [sub_of_le le, BitVec.toNat_ofNat, Nat.mod_eq_of_lt (by omega)]

theorem toNat_sub_of_lt (lt : a < b) (near : b < a + 2 ^ w) :
    (BitVec.ofNat w a - BitVec.ofNat w b).toNat = 2 ^ w - (b - a) := by
  have negated : BitVec.ofNat w a - BitVec.ofNat w b = - BitVec.ofNat w (b - a) := by
    rw [← sub_of_le (Nat.le_of_lt lt), BitVec.neg_sub, BitVec.sub_eq_add_neg, BitVec.add_comm]
  rw [negated, BitVec.toNat_neg, BitVec.toNat_ofNat, @Nat.mod_eq_of_lt (b - a) (2 ^ w) (by omega),
    Nat.mod_eq_of_lt (by omega)]

/-- The comparison of close numbers. -/
theorem sub_lt_iff {half : BitVec w} (ahead : a < b + half.toNat) (behind : b + half.toNat ≤ a + 2 ^ w) :
    BitVec.ofNat w a - BitVec.ofNat w b < half ↔ b ≤ a := by
  have bound : half.toNat < 2 ^ w := half.isLt
  rw [BitVec.lt_def]
  rcases Nat.lt_or_ge a b with lt | le
  · rcases Nat.lt_or_ge b (a + 2 ^ w) with near | far
    · rw [toNat_sub_of_lt lt near]
      omega
    · have zero : half.toNat = 0 := by omega
      omega
  · rw [toNat_sub_of_le le (by omega)]
    omega

theorem sub_eq_zero_iff (ahead : a < b + 2 ^ w) (behind : b < a + 2 ^ w) :
    BitVec.ofNat w a - BitVec.ofNat w b = 0 ↔ a = b := by
  constructor
  · intro zero
    have none : (BitVec.ofNat w a - BitVec.ofNat w b).toNat = 0 := by simp [zero]
    rcases Nat.lt_or_ge a b with lt | le
    · rw [toNat_sub_of_lt lt behind] at none
      omega
    · rw [toNat_sub_of_le le ahead] at none
      omega
  · rintro rfl
    exact BitVec.sub_self _

end SerialNumber
