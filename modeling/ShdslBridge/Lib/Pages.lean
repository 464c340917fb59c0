import Mathlib.Data.List.Basic
import Mathlib.Data.List.GetD

/-! # Pages of a text

A text cut into pages of one size. Behind the end of the text a page is filled up. A writer that
buffers the text symbol by symbol completes a page with every symbol that brings the length to a
multiple of the size.
-/

namespace Pages

variable {α : Type*} (fill : α) (size : ℕ)

/-- The symbols of page `k`. -/
def page (text : List α) (k : ℕ) : List α :=
  (List.range size).map fun i => text.getD (k * size + i) fill

/-- The pages that the text fills. -/
def fullPages (text : List α) : List (List α) :=
  (List.range (text.length / size)).map (page fill size text)

/-- All pages of the text. -/
def allPages (text : List α) : List (List α) :=
  (List.range ((text.length + size - 1) / size)).map (page fill size text)

variable {fill size}

@[simp] theorem fullPages_length (text : List α) : (fullPages fill size text).length = text.length / size := by
  simp [fullPages]

theorem page_getElem? {i : ℕ} (inside : i < size) (text : List α) (k : ℕ) :
    (page fill size text k)[i]? = some (text.getD (k * size + i) fill) := by
  simp [page, inside]

variable {text : List α}

theorem map_range_eq_page {k : ℕ} {content : ℕ → α} (same : ∀ i < size, content i = text.getD (k * size + i) fill) :
    (List.range size).map content = page fill size text k :=
  List.map_congr_left fun i member => same i (List.mem_range.mp member)

/-- A full page does not change when the text grows. -/
theorem page_append {k : ℕ} (full : (k + 1) * size ≤ text.length) (more : List α) :
    page fill size (text ++ more) k = page fill size text k := by
  refine List.map_congr_left fun i member => ?_
  have inside : i < size := List.mem_range.mp member
  have bound : (k + 1) * size = k * size + size := Nat.succ_mul k size
  exact List.getD_append _ _ _ _ (by omega)

theorem succ_div_mod_of_full {size length : ℕ} (full : length % size + 1 = size) :
    (length + 1) / size = length / size + 1 ∧ (length + 1) % size = 0 := by
  have positive : 0 < size := by omega
  have whole := Nat.div_add_mod length size
  have next : length + 1 = size * (length / size + 1) := by
    rw [Nat.mul_add, Nat.mul_one]
    omega
  rw [next, Nat.mul_div_cancel_left _ positive, Nat.mul_mod_right]
  exact ⟨rfl, rfl⟩

theorem succ_div_mod_of_room {size length : ℕ} (positive : 0 < size) (room : length % size + 1 ≠ size) :
    (length + 1) / size = length / size ∧ (length + 1) % size = length % size + 1 := by
  have bound := Nat.mod_lt length positive
  have whole := Nat.div_add_mod length size
  have next : length + 1 = (length % size + 1) + size * (length / size) := by omega
  rw [next, Nat.add_mul_div_left _ _ positive, Nat.add_mul_mod_self_left, Nat.div_eq_of_lt (by omega),
    Nat.mod_eq_of_lt (by omega), Nat.zero_add]
  exact ⟨rfl, rfl⟩

/-- A symbol that completes a page. -/
theorem fullPages_of_full (full : text.length % size + 1 = size) (symbol : α) :
    fullPages fill size (text ++ [symbol]) =
      fullPages fill size text ++ [page fill size (text ++ [symbol]) (text.length / size)] := by
  obtain ⟨pages, -⟩ := succ_div_mod_of_full full
  rw [fullPages, List.length_append, List.length_singleton, pages, List.range_succ, List.map_append]
  congr 1
  refine List.map_congr_left fun k member => page_append ?_ [symbol]
  have less : k + 1 ≤ text.length / size := List.mem_range.mp member
  exact Nat.le_trans (Nat.mul_le_mul_right size less) (Nat.div_mul_le_self _ _)

/-- A symbol that leaves room on its page. -/
theorem fullPages_of_room (positive : 0 < size) (room : text.length % size + 1 ≠ size) (symbol : α) :
    fullPages fill size (text ++ [symbol]) = fullPages fill size text := by
  obtain ⟨pages, -⟩ := succ_div_mod_of_room positive room
  rw [fullPages, List.length_append, List.length_singleton, pages]
  refine List.map_congr_left fun k member => page_append ?_ [symbol]
  have less : k + 1 ≤ text.length / size := List.mem_range.mp member
  exact Nat.le_trans (Nat.mul_le_mul_right size less) (Nat.div_mul_le_self _ _)

/-- What follows the text without filling another page adds no full page. -/
theorem fullPages_append {text more : List α} (room : (text.length + more.length) / size = text.length / size) :
    fullPages fill size (text ++ more) = fullPages fill size text := by
  rw [fullPages, List.length_append, room]
  refine List.map_congr_left fun k member => page_append ?_ more
  have less : k + 1 ≤ text.length / size := List.mem_range.mp member
  exact Nat.le_trans (Nat.mul_le_mul_right size less) (Nat.div_mul_le_self _ _)

/-- The pages are the full ones and the begun one. -/
theorem allPages_eq (positive : 0 < size) (text : List α) :
    allPages fill size text =
      fullPages fill size text ++
        if text.length % size ≠ 0 then [page fill size text (text.length / size)] else [] := by
  have whole := Nat.div_add_mod text.length size
  have bound := Nat.mod_lt text.length positive
  rw [allPages, fullPages]
  split
  · rename_i begun
    have count : (text.length + size - 1) / size = text.length / size + 1 := by
      have sum : text.length + size - 1 = (text.length % size - 1) + size * (text.length / size + 1) := by
        rw [Nat.mul_add, Nat.mul_one]
        omega
      rw [sum, Nat.add_mul_div_left _ _ positive, Nat.div_eq_of_lt (by omega), Nat.zero_add]
    rw [count, List.range_succ, List.map_append, List.map_singleton]
  · rename_i even
    have count : (text.length + size - 1) / size = text.length / size := by
      have sum : text.length + size - 1 = (size - 1) + size * (text.length / size) := by omega
      rw [sum, Nat.add_mul_div_left _ _ positive, Nat.div_eq_of_lt (by omega), Nat.zero_add]
    rw [count, List.append_nil]

end Pages
