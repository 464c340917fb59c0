import Mathlib.Data.List.Basic
import Mathlib.Tactic.IntervalCases

/-! # The first bit set

`__rt_ffs` finds the lowest bit of a word with a table of the lowest bits of the bytes. The scheduler
reads the highest ready priority with it.
-/

namespace RtThread

/-- `__lowest_bit_bitmap`. -/
def lowestBitBitmap : List ℕ :=
  [0, 0, 1, 0, 2, 0, 1, 0, 3, 0, 1, 0, 2, 0, 1, 0,
   4, 0, 1, 0, 2, 0, 1, 0, 3, 0, 1, 0, 2, 0, 1, 0,
   5, 0, 1, 0, 2, 0, 1, 0, 3, 0, 1, 0, 2, 0, 1, 0,
   4, 0, 1, 0, 2, 0, 1, 0, 3, 0, 1, 0, 2, 0, 1, 0,
   6, 0, 1, 0, 2, 0, 1, 0, 3, 0, 1, 0, 2, 0, 1, 0,
   4, 0, 1, 0, 2, 0, 1, 0, 3, 0, 1, 0, 2, 0, 1, 0,
   5, 0, 1, 0, 2, 0, 1, 0, 3, 0, 1, 0, 2, 0, 1, 0,
   4, 0, 1, 0, 2, 0, 1, 0, 3, 0, 1, 0, 2, 0, 1, 0,
   7, 0, 1, 0, 2, 0, 1, 0, 3, 0, 1, 0, 2, 0, 1, 0,
   4, 0, 1, 0, 2, 0, 1, 0, 3, 0, 1, 0, 2, 0, 1, 0,
   5, 0, 1, 0, 2, 0, 1, 0, 3, 0, 1, 0, 2, 0, 1, 0,
   4, 0, 1, 0, 2, 0, 1, 0, 3, 0, 1, 0, 2, 0, 1, 0,
   6, 0, 1, 0, 2, 0, 1, 0, 3, 0, 1, 0, 2, 0, 1, 0,
   4, 0, 1, 0, 2, 0, 1, 0, 3, 0, 1, 0, 2, 0, 1, 0,
   5, 0, 1, 0, 2, 0, 1, 0, 3, 0, 1, 0, 2, 0, 1, 0,
   4, 0, 1, 0, 2, 0, 1, 0, 3, 0, 1, 0, 2, 0, 1, 0]

/-- `__rt_ffs`: the lowest bit that is set, counted from 1, or 0 if none is. -/
def rtFfs (value : BitVec 32) : ℕ :=
  if value = 0 then 0
  else if value &&& 0xff ≠ 0 then lowestBitBitmap.getD (value &&& 0xff).toNat 0 + 1
  else if value &&& 0xff00 ≠ 0 then lowestBitBitmap.getD ((value &&& 0xff00) >>> 8).toNat 0 + 9
  else if value &&& 0xff0000 ≠ 0 then lowestBitBitmap.getD ((value &&& 0xff0000) >>> 16).toNat 0 + 17
  else lowestBitBitmap.getD ((value &&& 0xff000000) >>> 24).toNat 0 + 25

def IsLowestBit (value : BitVec 32) (bit : ℕ) : Prop :=
  value.getLsbD bit = true ∧ ∀ lower < bit, value.getLsbD lower = false

theorem lowestBitBitmap_spec : ∀ byte < 256, byte ≠ 0 →
    lowestBitBitmap.getD byte 0 < 8 ∧ byte.testBit (lowestBitBitmap.getD byte 0) = true ∧
      ∀ lower < lowestBitBitmap.getD byte 0, byte.testBit lower = false := by
  decide +kernel

theorem getLsbD_byte (value : BitVec 32) (shift bit : ℕ) :
    ((value &&& (0xff#32 <<< shift)) >>> shift).getLsbD bit = (decide (bit < 8) && value.getLsbD (shift + bit)) := by
  rw [BitVec.getLsbD_ushiftRight, BitVec.getLsbD_and, BitVec.getLsbD_shiftLeft]
  rcases Nat.lt_or_ge bit 8 with inside | outside
  · have ones : (0xff#32).getLsbD bit = true := by interval_cases bit <;> rfl
    rcases Nat.lt_or_ge (shift + bit) 32 with within | beyond
    · simp [inside, within, ones]
    · simp [BitVec.getLsbD_of_ge value _ beyond]
  · have zeros : (0xff#32).getLsbD bit = false := by
      rw [BitVec.getLsbD_ofNat]
      have small : 255 < 2 ^ bit := lt_of_lt_of_le (by decide) (Nat.pow_le_pow_right (by decide) outside)
      simp [Nat.testBit_lt_two_pow small]
    simp [zeros, Nat.not_lt.mpr outside]

variable {value : BitVec 32}

/-- The lowest bit of a word, found in its first byte that is not zero. -/
theorem isLowestBit_byte {shift : ℕ} (some : value &&& (0xff#32 <<< shift) ≠ 0)
    (below : ∀ bit < shift, value.getLsbD bit = false) :
    IsLowestBit value (lowestBitBitmap.getD ((value &&& (0xff#32 <<< shift)) >>> shift).toNat 0 + shift) := by
  generalize byteEq : (value &&& (0xff#32 <<< shift)) >>> shift = byte
  have bits (bit : ℕ) : byte.toNat.testBit bit = (decide (bit < 8) && value.getLsbD (shift + bit)) := by
    rw [← BitVec.getLsbD, ← byteEq, getLsbD_byte]
  have small : byte.toNat < 256 := by
    apply Nat.lt_pow_two_of_testBit (n := 8)
    intro bit high
    rw [bits]
    simp [Nat.not_lt.mpr high]
  have nonzero : byte.toNat ≠ 0 := by
    intro zero
    apply some
    apply BitVec.eq_of_getLsbD_eq
    intro bit _
    have none (k : ℕ) : (value &&& (0xff#32 <<< shift)).getLsbD (shift + k) = false := by
      rw [← BitVec.getLsbD_ushiftRight, byteEq, BitVec.getLsbD, zero, Nat.zero_testBit]
    rcases Nat.lt_or_ge bit shift with low | high
    · simp [below bit low]
    · simpa [Nat.add_sub_cancel' high] using none (bit - shift)
  obtain ⟨bound, set, lower⟩ := lowestBitBitmap_spec byte.toNat small nonzero
  generalize lowestBitBitmap.getD byte.toNat 0 = place at bound set lower
  rw [bits] at set
  constructor
  · rw [Nat.add_comm]
    exact (Bool.and_eq_true _ _ ▸ set).2
  · intro bit before
    rcases Nat.lt_or_ge bit shift with low | high
    · exact below bit low
    · have unset := lower (bit - shift) (by omega)
      have inside : bit - shift < 8 := by omega
      simpa [bits, inside, Nat.add_sub_cancel' high] using unset

theorem getLsbD_of_byte_zero {shift : ℕ} (zero : value &&& (0xff#32 <<< shift) = 0) {bit : ℕ} (low : shift ≤ bit)
    (high : bit < shift + 8) : value.getLsbD bit = false := by
  have none := getLsbD_byte value shift (bit - shift)
  rw [zero, Nat.add_sub_cancel' low, decide_eq_true (by omega : bit - shift < 8), Bool.true_and] at none
  rw [← none]
  simp

/-- `__rt_ffs` finds the lowest bit. -/
theorem rtFfs_spec (nonzero : value ≠ 0) : ∃ bit, rtFfs value = bit + 1 ∧ IsLowestBit value bit := by
  have first : (0xff : BitVec 32) = 0xff#32 <<< 0 := by decide
  have second : (0xff00 : BitVec 32) = 0xff#32 <<< 8 := by decide
  have third : (0xff0000 : BitVec 32) = 0xff#32 <<< 16 := by decide
  have fourth : (0xff000000 : BitVec 32) = 0xff#32 <<< 24 := by decide
  unfold rtFfs
  rw [if_neg nonzero, first, second, third, fourth]
  split
  · rename_i some
    have lowest := isLowestBit_byte some (by simp)
    rw [BitVec.ushiftRight_zero] at lowest
    exact ⟨_, rfl, lowest⟩
  · rename_i none
    have below (bit : ℕ) (low : bit < 8) : value.getLsbD bit = false :=
      getLsbD_of_byte_zero (not_not.mp none) (Nat.zero_le bit) (by omega)
    split
    · rename_i some
      exact ⟨_, rfl, isLowestBit_byte some below⟩
    · rename_i none
      have below (bit : ℕ) (low : bit < 16) : value.getLsbD bit = false := by
        rcases Nat.lt_or_ge bit 8 with lower | higher
        · exact below bit lower
        · exact getLsbD_of_byte_zero (not_not.mp none) higher low
      split
      · rename_i some
        exact ⟨_, rfl, isLowestBit_byte some below⟩
      · rename_i none
        have below (bit : ℕ) (low : bit < 24) : value.getLsbD bit = false := by
          rcases Nat.lt_or_ge bit 16 with lower | higher
          · exact below bit lower
          · exact getLsbD_of_byte_zero (not_not.mp none) higher low
        have some : value &&& (0xff#32 <<< 24) ≠ 0 := by
          intro zero
          apply nonzero
          apply BitVec.eq_of_getLsbD_eq
          intro bit inside
          rw [BitVec.ofNat_eq_ofNat, BitVec.getLsbD_zero]
          rcases Nat.lt_or_ge bit 24 with lower | higher
          · exact below bit lower
          · exact getLsbD_of_byte_zero zero higher (by omega)
        exact ⟨_, rfl, isLowestBit_byte some below⟩

end RtThread
