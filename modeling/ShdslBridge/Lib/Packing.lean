import Mathlib.Data.List.Basic
import Mathlib.Data.Nat.Find

/-! # Packing

Items of different lengths go in their order into blocks of one size. A block takes items until it is
full or the next item does not fit; an item is never divided. When every item fits an empty block, an
empty block is the last one, and the blocks together hold all items.
-/

namespace Packing

variable {Item β : Type*} (cells : Item → List β)

/-- What a block takes that has room for `room` cells. -/
def fill : ℕ → List Item → List Item
  | _, [] => []
  | room, item :: items =>
    if room = 0 then []
    else if (cells item).length ≤ room then item :: fill (room - (cells item).length) items
    else []

/-- What is left behind the first `k` blocks. -/
def left (room : ℕ) (items : List Item) : ℕ → List Item
  | 0 => items
  | k + 1 => (left room items k).drop (fill cells room (left room items k)).length

/-- The cells of the block with the number `k`. -/
def block (room : ℕ) (items : List Item) (k : ℕ) : List β :=
  (fill cells room (left cells room items k)).flatMap cells

variable {cells}

theorem fill_zero (items : List Item) : fill cells 0 items = [] := by
  cases items with
  | nil => rfl
  | cons item items => rw [fill, if_pos rfl]

/-- A block takes the first items. -/
theorem fill_append_drop (room : ℕ) (items : List Item) :
    fill cells room items ++ items.drop (fill cells room items).length = items := by
  induction items generalizing room with
  | nil => rfl
  | cons item items ih =>
    rw [fill]
    split_ifs with full fits
    · rfl
    · rw [List.length_cons, List.drop_succ_cons, List.cons_append, ih]
    · rfl

theorem fill_length_le (room : ℕ) (items : List Item) : ((fill cells room items).flatMap cells).length ≤ room := by
  induction items generalizing room with
  | nil => exact Nat.zero_le room
  | cons item items ih =>
    rw [fill]
    split_ifs with full fits
    · exact Nat.zero_le room
    · have rest := ih (room - (cells item).length)
      rw [List.flatMap_cons, List.length_append]
      omega
    · exact Nat.zero_le room

/-- A block without cells has taken all items. -/
theorem fill_of_empty {room : ℕ} (some : 0 < room) {items : List Item}
    (fits : ∀ item ∈ items, (cells item).length ≤ room) (empty : (fill cells room items).flatMap cells = []) :
    fill cells room items = items := by
  induction items with
  | nil => rfl
  | cons item items ih =>
    have itemFits := fits item List.mem_cons_self
    rw [fill, if_neg (by omega), if_pos itemFits] at empty ⊢
    rw [List.flatMap_cons] at empty
    obtain ⟨none, rest⟩ := List.append_eq_nil_iff.mp empty
    rw [none, List.length_nil, Nat.sub_zero] at rest ⊢
    rw [ih (fun other member => fits other (List.mem_cons_of_mem _ member)) rest]

theorem fill_ne_nil {room : ℕ} (some : 0 < room) {items : List Item}
    (fits : ∀ item ∈ items, (cells item).length ≤ room) (nonempty : items ≠ []) : fill cells room items ≠ [] := by
  obtain ⟨item, rest, rfl⟩ := List.exists_cons_of_ne_nil nonempty
  rw [fill, if_neg (by omega), if_pos (fits item List.mem_cons_self)]
  exact List.cons_ne_nil _ _

/-- Items of one cell each fill a block one after the other. -/
theorem fill_run {run : List Item} (single : ∀ item ∈ run, (cells item).length = 1) (room : ℕ) (items : List Item) :
    fill cells room (run ++ items) =
      if room ≤ run.length then run.take room else run ++ fill cells (room - run.length) items := by
  induction run generalizing room with
  | nil =>
    rw [List.length_nil, List.nil_append, List.take_nil, Nat.sub_zero]
    split_ifs with full
    · rw [Nat.le_zero.mp full, fill_zero]
    · rfl
  | cons item run ih =>
    have one := single item List.mem_cons_self
    have rest := ih (fun other member => single other (List.mem_cons_of_mem _ member))
    cases room with
    | zero => rw [fill_zero, if_pos (Nat.zero_le _), List.take_zero]
    | succ room =>
      rw [List.cons_append, fill, if_neg (Nat.succ_ne_zero room), one, if_pos (by omega), Nat.add_sub_cancel, rest,
        List.length_cons, Nat.add_sub_add_right]
      split_ifs with short long
      · rfl
      · omega
      · omega
      · rfl

section Blocks

variable {room : ℕ} {items : List Item}

theorem block_length_le (k : ℕ) : (block cells room items k).length ≤ room := fill_length_le ..

/-- The first `k` blocks and what is left hold all items. -/
theorem blocks_append_left (k : ℕ) :
    (List.range k).flatMap (block cells room items) ++ (left cells room items k).flatMap cells =
      items.flatMap cells := by
  induction k with
  | zero => rfl
  | succ k ih =>
    rw [List.range_succ, List.flatMap_append, List.flatMap_singleton, List.append_assoc, left, block,
      ← List.flatMap_append, fill_append_drop, ih]

theorem left_fits (fits : ∀ item ∈ items, (cells item).length ≤ room) (k : ℕ) :
    ∀ item ∈ left cells room items k, (cells item).length ≤ room := by
  induction k with
  | zero => exact fits
  | succ k ih => exact fun item member => ih item (List.mem_of_mem_drop member)

/-- Every block takes an item as long as there is one. -/
theorem left_length_le (some : 0 < room) (fits : ∀ item ∈ items, (cells item).length ≤ room) (k : ℕ) :
    (left cells room items k).length ≤ items.length - k := by
  induction k with
  | zero => exact Nat.le_refl _
  | succ k ih =>
    rw [left, List.length_drop]
    by_cases none : left cells room items k = []
    · rw [none, List.length_nil]
      omega
    · have taken := List.length_pos_of_ne_nil (fill_ne_nil some (left_fits fits k) none)
      omega

/-- The blocks in front of the first empty one hold all items. -/
theorem exists_blocks (some : 0 < room) (fits : ∀ item ∈ items, (cells item).length ≤ room) :
    ∃ n, (∀ k < n, block cells room items k ≠ []) ∧ (∀ k, n ≤ k → block cells room items k = []) ∧
      (List.range n).flatMap (block cells room items) = items.flatMap cells := by
  classical
  have ends : ∃ n, block cells room items n = [] := by
    refine ⟨items.length, ?_⟩
    have none : left cells room items items.length = [] := by
      have short := left_length_le some fits items.length
      exact List.eq_nil_of_length_eq_zero (by omega)
    rw [block, none]
    rfl
  have last : fill cells room (left cells room items (Nat.find ends)) = left cells room items (Nat.find ends) :=
    fill_of_empty some (left_fits fits _) (Nat.find_spec ends)
  have behind (more : ℕ) : left cells room items (Nat.find ends + 1 + more) = [] := by
    induction more with
    | zero => rw [Nat.add_zero, left, last, List.drop_length]
    | succ more ih => rw [← Nat.add_assoc, left, ih, List.drop_nil]
  refine ⟨Nat.find ends, fun k below => Nat.find_min ends below, fun k above => ?_, ?_⟩
  · rcases Nat.eq_or_lt_of_le above with rfl | more
    · exact Nat.find_spec ends
    · obtain ⟨more, rfl⟩ := Nat.exists_eq_add_of_le more
      rw [block, behind]
      rfl
  · have all := @blocks_append_left _ _ cells room items (Nat.find ends)
    have empty : (left cells room items (Nat.find ends)).flatMap cells = [] := last ▸ Nat.find_spec ends
    rwa [empty, List.append_nil] at all

end Blocks

end Packing
