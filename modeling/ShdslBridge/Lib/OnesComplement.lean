import Mathlib.Data.Nat.ModEq

/-! # Sums with an end-around carry

Words are added so that the carry out of the top comes in again at the bottom. The result is the sum modulo
`2 ^ w - 1`, where zero has two words: the empty one only for a sum of empty words, and the full one for
every other sum that the modulus divides. A message is checked by a full sum.
-/

namespace OnesComplement

variable {w : ℕ}

/-- One addition. -/
def add (sum word : BitVec w) : BitVec w := if sum + word < word then sum + word + 1 else sum + word

/-- The word stands for the number. -/
structure Represents (word : BitVec w) (number : ℕ) : Prop where
  residue : word.toNat ≡ number [MOD 2 ^ w - 1]
  empty : word = 0 ↔ number = 0

theorem eq_zero_iff (word : BitVec w) : word = 0 ↔ word.toNat = 0 := by
  rw [← BitVec.toNat_inj]
  simp

theorem toNat_add (sum word : BitVec w) :
    (add sum word).toNat = if sum.toNat + word.toNat < 2 ^ w then sum.toNat + word.toNat
      else sum.toNat + word.toNat - (2 ^ w - 1) := by
  have first := sum.isLt
  have second := word.isLt
  by_cases small : sum.toNat + word.toNat < 2 ^ w
  · rw [if_pos small, add, if_neg, BitVec.toNat_add, Nat.mod_eq_of_lt small]
    rw [BitVec.lt_def, BitVec.toNat_add, Nat.mod_eq_of_lt small]
    omega
  · have carried : (sum + word).toNat = sum.toNat + word.toNat - 2 ^ w := by
      rw [BitVec.toNat_add, Nat.mod_eq_sub_mod (not_lt.mp small), Nat.mod_eq_of_lt (by omega)]
    have wide : w ≠ 0 := by
      rintro rfl
      omega
    have one : (1 : BitVec w).toNat = 1 := by
      simp
      omega
    rw [if_neg small, add, if_pos, BitVec.toNat_add, carried, one, Nat.mod_eq_of_lt (by omega)]
    · omega
    · rw [BitVec.lt_def, carried]
      omega

theorem Represents.add {sum : BitVec w} {number : ℕ} (represents : Represents sum number) (word : BitVec w) :
    Represents (add sum word) (number + word.toNat) := by
  have first := sum.isLt
  have second := word.isLt
  have value := toNat_add sum word
  constructor
  · refine Nat.ModEq.trans ?_ (represents.residue.add_right _)
    rw [value]
    split
    · rfl
    · apply (Nat.modEq_iff_dvd' (by omega)).mpr
      exact ⟨1, by omega⟩
  · have zero := represents.empty
    rw [eq_zero_iff] at zero ⊢
    rw [value]
    split <;> omega

/-- A full word stands for the multiples of the modulus except zero. -/
theorem Represents.full_iff (wide : 0 < w) {word : BitVec w} {number : ℕ} (represents : Represents word number) :
    word = BitVec.allOnes w ↔ 0 < number ∧ 2 ^ w - 1 ∣ number := by
  have bound := word.isLt
  have two : 2 ^ 1 ≤ 2 ^ w := Nat.pow_le_pow_right Nat.two_pos wide
  have zero := represents.empty
  rw [eq_zero_iff] at zero
  have divides : 2 ^ w - 1 ∣ word.toNat ↔ 2 ^ w - 1 ∣ number := represents.residue.dvd_iff dvd_rfl
  rw [← BitVec.toNat_inj, BitVec.toNat_allOnes, ← divides]
  constructor
  · intro full
    rw [full]
    exact ⟨by omega, dvd_rfl⟩
  · rintro ⟨positive, multiple⟩
    have large := Nat.le_of_dvd (by omega) multiple
    omega

end OnesComplement
