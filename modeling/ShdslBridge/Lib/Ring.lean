import Mathlib.Algebra.Group.Fin.Basic
import Mathlib.Algebra.GroupWithZero.Nat
import Mathlib.Data.List.Basic

/-! # Bounded rings with a read and a write cursor

A ring of `n` cells is read through a window: the `count` cells that start at the read cursor. The
window is the abstract content of the ring, oldest first. Writing the cell behind the window
appends to the content, and stepping the read cursor drops its head. Two equal cursors mean an
empty or a full ring, so the cursors alone do not determine the content.
-/

namespace Ring

variable {n : ℕ} [NeZero n] {α : Type*}

/-- The cell `i` places behind the cursor `out`. -/
def slot (out : Fin n) (i : ℕ) : Fin n := out + Fin.ofNat n i

/-- The `count` cells that start at `out`, oldest first. -/
def window (cells : Fin n → α) (out : Fin n) (count : ℕ) : List α :=
  (List.range count).map fun i => cells (slot out i)

@[simp] theorem slot_zero (out : Fin n) : slot out 0 = out := by
  simp [slot]

theorem slot_val (out : Fin n) (i : ℕ) : (slot out i).val = (out.val + i) % n := by
  simp [slot, Fin.val_add]

theorem slot_succ (out : Fin n) (i : ℕ) : slot out (i + 1) = slot out i + 1 := by
  apply Fin.ext
  rw [slot_val, Fin.val_add, slot_val, Fin.val_one', Nat.add_mod_mod, Nat.mod_add_mod, Nat.add_assoc]

theorem slot_next (out : Fin n) (i : ℕ) : slot (out + 1) i = slot out (i + 1) := by
  apply Fin.ext
  rw [slot_val, Fin.val_add, slot_val, Fin.val_one', Nat.add_mod_mod, Nat.mod_add_mod]
  congr 1
  omega

@[simp] theorem slot_size (out : Fin n) : slot out n = out := by
  apply Fin.ext
  rw [slot_val, Nat.add_mod_right, Nat.mod_eq_of_lt out.isLt]

theorem slot_injective (out : Fin n) {i j : ℕ} (iBound : i < n) (jBound : j < n) (same : slot out i = slot out j) :
    i = j := by
  have values : Fin.ofNat n i = Fin.ofNat n j := add_left_cancel same
  simpa [Fin.ofNat, Fin.ext_iff, Nat.mod_eq_of_lt iBound, Nat.mod_eq_of_lt jBound] using values

variable {count : ℕ}

/-- The two cursors meet exactly in an empty and in a full ring. -/
theorem slot_eq_self_iff (out : Fin n) (bound : count ≤ n) : slot out count = out ↔ count = 0 ∨ count = n := by
  constructor
  · intro meet
    rcases Nat.lt_or_ge count n with less | full
    · exact .inl (slot_injective out less (Nat.pos_of_ne_zero (NeZero.ne n)) (meet.trans (slot_zero out).symm))
    · exact .inr (by omega)
  · rintro (rfl | rfl)
    · exact slot_zero out
    · exact slot_size out

@[simp] theorem window_zero (cells : Fin n → α) (out : Fin n) : window cells out 0 = [] := rfl

@[simp] theorem window_length (cells : Fin n → α) (out : Fin n) (count : ℕ) :
    (window cells out count).length = count := by
  simp [window]

/-- The content depends only on the cells inside the window. -/
theorem window_congr {cells other : Fin n → α} {out : Fin n}
    (agree : ∀ i < count, cells (slot out i) = other (slot out i)) :
    window cells out count = window other out count := by
  apply List.map_congr_left
  intro i member
  exact agree i (List.mem_range.mp member)

/-- Writing the cell behind the window of a ring with space appends to its content. -/
theorem window_push (cells : Fin n → α) (out : Fin n) (space : count < n) (cell : α) :
    window (Function.update cells (slot out count) cell) out (count + 1) =
      window cells out count ++ [cell] := by
  have kept : window (Function.update cells (slot out count) cell) out count = window cells out count := by
    apply window_congr
    intro i less
    apply Function.update_of_ne
    intro same
    exact absurd (slot_injective out (less.trans space) space same) less.ne
  rw [← kept]
  simp [window, List.range_succ]

/-- Stepping the read cursor drops the head of the content. -/
theorem window_pop (cells : Fin n → α) (out : Fin n) (count : ℕ) :
    window cells out (count + 1) = cells out :: window cells (out + 1) count := by
  simp [window, List.range_succ_eq_map, Function.comp_def, slot_next]

/-- A cell that the window does not reach can be overwritten freely. -/
theorem window_update_behind (cells : Fin n → α) (out : Fin n) (space : count < n) (cell : α) :
    window (Function.update cells out cell) (out + 1) count = window cells (out + 1) count := by
  apply window_congr
  intro i less
  apply Function.update_of_ne
  rw [slot_next]
  intro same
  exact absurd (slot_injective out (by omega) (Nat.pos_of_ne_zero (NeZero.ne n))
    (same.trans (slot_zero out).symm)) (by omega)

end Ring
