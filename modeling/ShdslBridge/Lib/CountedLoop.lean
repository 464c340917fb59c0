import Mathlib.Data.Nat.Basic

/-! # Loops that count down

`while (count >= size) { body; count -= size; }`, which with a size of 1 is `while (count--) body`. What
the body keeps, with the count that is left, holds behind the loop, and less than one size is left.
-/

namespace CountedLoop

variable {S : Type*}

/-- Runs the body as long as the count is not below the size; the count that is left comes back. -/
def whileAtLeast (size : ℕ) (body : S → S) (count : ℕ) (state : S) : S × ℕ :=
  if 0 < size ∧ size ≤ count then whileAtLeast size body (count - size) (body state) else (state, count)
termination_by count

variable {size : ℕ} {body : S → S}

variable {count : ℕ}

theorem whileAtLeast_of_le (positive : 0 < size) (more : size ≤ count) (state : S) :
    whileAtLeast size body count state = whileAtLeast size body (count - size) (body state) := by
  rw [whileAtLeast, if_pos ⟨positive, more⟩]

theorem whileAtLeast_of_lt (less : count < size) (state : S) : whileAtLeast size body count state = (state, count) := by
  rw [whileAtLeast, if_neg fun both => Nat.not_le.mpr less both.2]

/-- The rule of the loop. -/
theorem whileAtLeast_rule {inv : S → ℕ → Prop} (positive : 0 < size)
    (keeps : ∀ state count, size ≤ count → inv state count → inv (body state) (count - size)) {state : S}
    (start : inv state count) :
    inv (whileAtLeast size body count state).1 (whileAtLeast size body count state).2 ∧
      (whileAtLeast size body count state).2 < size := by
  induction count using Nat.strong_induction_on generalizing state with
  | _ count ih =>
    rcases Nat.lt_or_ge count size with less | more
    · rw [whileAtLeast_of_lt less]
      exact ⟨start, less⟩
    · rw [whileAtLeast_of_le positive more]
      exact ih (count - size) (by omega) (keeps state count more start)

/-- Behind a loop that counts by one nothing is left. -/
theorem whileAtLeast_one {inv : S → ℕ → Prop} (keeps : ∀ state count, inv state (count + 1) → inv (body state) count)
    {state : S} (start : inv state count) : inv (whileAtLeast 1 body count state).1 0 := by
  have step (state : S) (count : ℕ) (more : 1 ≤ count) (holds : inv state count) : inv (body state) (count - 1) := by
    obtain ⟨rest, rfl⟩ := Nat.exists_eq_add_one.mpr more
    exact keeps state rest holds
  obtain ⟨holds, less⟩ := whileAtLeast_rule Nat.one_pos step start
  rwa [Nat.lt_one_iff.mp less] at holds

end CountedLoop
