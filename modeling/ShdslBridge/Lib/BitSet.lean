import Mathlib.Data.Nat.Basic

/-! # Words as sets of bits

Flags are kept in words, one bit for each. Tests with masks are statements about these sets of bits.
-/

namespace BitSet

variable {w : ℕ}

/-- A word lies within another one. -/
theorem and_eq_left_iff {left right : BitVec w} :
    left &&& right = left ↔ ∀ i, left.getLsbD i = true → right.getLsbD i = true := by
  constructor
  · intro same i member
    have bit := congrArg (fun bits : BitVec w => bits.getLsbD i) same
    simpa [BitVec.getLsbD_and, member] using bit
  · intro all
    apply BitVec.eq_of_getLsbD_eq
    intro i _
    rcases member : left.getLsbD i with _ | _
    · simp [member]
    · simp [member, all i member]

/-- Two words have a bit in common. -/
theorem and_ne_zero_iff {left right : BitVec w} :
    left &&& right ≠ 0 ↔ ∃ i, left.getLsbD i = true ∧ right.getLsbD i = true := by
  constructor
  · intro some
    by_contra none
    refine some (BitVec.eq_of_getLsbD_eq fun i _ => ?_)
    rw [BitVec.getLsbD_and, BitVec.ofNat_eq_ofNat, BitVec.getLsbD_zero, Bool.and_eq_false_imp]
    intro member
    exact Bool.eq_false_iff.mpr fun there => none ⟨i, member, there⟩
  · rintro ⟨i, member, there⟩ zero
    have bit := congrArg (fun bits : BitVec w => bits.getLsbD i) zero
    simp [member, there] at bit

/-- The word of one bit. -/
theorem getLsbD_single (place bit : ℕ) :
    (1#w <<< place).getLsbD bit = (decide (bit < w) && decide (bit = place)) := by
  rw [BitVec.getLsbD_shiftLeft]
  rcases Nat.lt_trichotomy bit place with lt | rfl | gt
  · simp [lt, Nat.ne_of_lt lt]
  · rcases Nat.eq_zero_or_pos w with rfl | positive
    · simp
    · simp [positive]
  · have one : (1#w).getLsbD (bit - place) = false := by
      rw [BitVec.getLsbD_one]
      simp
      omega
    simp [one, Nat.ne_of_gt gt]

end BitSet
