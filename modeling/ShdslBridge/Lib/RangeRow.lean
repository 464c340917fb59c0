import Mathlib.Algebra.GroupWithZero.Nat
import Mathlib.Algebra.Order.BigOperators.Group.Finset
import Mathlib.Order.Interval.Finset.Nat

/-! # Ranges that are laid out in a row

A range is a start and a length. Ranges that share no address and lie in a window are no longer together
than the window. Items that are laid out one behind the other share no address, if each of them moves the
place of the next one by its length; one that does not move it may only be followed by empty ones.
-/

namespace RangeRow

/-- The addresses from `start` on. -/
structure Range where
  start : ℕ
  len : ℕ
  deriving DecidableEq

namespace Range

/-- The addresses of a range. -/
def addresses (r : Range) : Finset ℕ := Finset.Ico r.start (r.start + r.len)

/-- No address is in both ranges. -/
def Apart (x y : Range) : Prop := ∀ i, ¬ ((x.start ≤ i ∧ i < x.start + x.len) ∧ y.start ≤ i ∧ i < y.start + y.len)

/-- A range lies in a window. -/
def Inside (low high : ℕ) (r : Range) : Prop := low ≤ r.start ∧ r.start + r.len ≤ high

theorem apart_of_empty {x y : Range} (empty : x.len = 0 ∨ y.len = 0) : x.Apart y := by
  intro i both
  omega

theorem apart_of_before {x y : Range} (before : x.start + x.len ≤ y.start) : x.Apart y := by
  intro i both
  omega

end Range

open Range

/-- Ranges in a window that share no address are no longer together than the window. -/
theorem sum_len_le {ranges : List Range} (apart : ranges.Pairwise Apart) {low high : ℕ}
    (inside : ∀ r ∈ ranges, r.Inside low high) : (ranges.map (·.len)).sum ≤ high - low := by
  suffices count : ∃ taken : Finset ℕ, taken ⊆ Finset.Ico low high ∧ taken.card = (ranges.map (·.len)).sum ∧
      ∀ i ∈ taken, ∃ r ∈ ranges, r.start ≤ i ∧ i < r.start + r.len by
    obtain ⟨taken, subset, card, -⟩ := count
    rw [← card, ← Nat.card_Ico]
    exact Finset.card_le_card subset
  induction ranges with
  | nil => exact ⟨∅, Finset.empty_subset _, rfl, nofun⟩
  | cons r rest ih =>
    obtain ⟨first, apart⟩ := List.pairwise_cons.mp apart
    obtain ⟨⟨above, below⟩, insideRest⟩ := List.forall_mem_cons.mp inside
    obtain ⟨taken, subset, card, covered⟩ := ih apart insideRest
    have clear : Disjoint r.addresses taken := by
      rw [Finset.disjoint_left]
      intro i here there
      obtain ⟨other, member, within⟩ := covered i there
      exact first other member i ⟨Finset.mem_Ico.mp here, within⟩
    refine ⟨r.addresses ∪ taken, Finset.union_subset ?_ subset, ?_, ?_⟩
    · exact Finset.Ico_subset_Ico above below
    · rw [Finset.card_union_of_disjoint clear, card, addresses, Nat.card_Ico, Nat.add_sub_cancel_left,
        List.map_cons, List.sum_cons]
    · intro i member
      rcases Finset.mem_union.mp member with here | there
      · exact ⟨r, List.mem_cons_self, Finset.mem_Ico.mp here⟩
      · obtain ⟨other, inRest, within⟩ := covered i there
        exact ⟨other, List.mem_cons_of_mem r inRest, within⟩

variable {Item : Type*}

/-- Items laid out from a place on; those that move it move the place of the next one by their length. -/
def layOut (moves : Item → Bool) (len : Item → ℕ) : ℕ → List Item → List Range
  | _, [] => []
  | place, item :: rest => ⟨place, len item⟩ :: layOut moves len (if moves item then place + len item else place) rest

variable {moves : Item → Bool} {len : Item → ℕ} {items : List Item} {place : ℕ}

theorem layOut_lens : (layOut moves len place items).map (·.len) = items.map len := by
  induction items generalizing place with
  | nil => rfl
  | cons item rest ih => rw [layOut, List.map_cons, List.map_cons, ih]

/-- The ranges lie between the first place and the place behind all of them. -/
theorem layOut_inside {high : ℕ} (room : place + (items.map len).sum ≤ high) :
    ∀ r ∈ layOut moves len place items, r.Inside place high := by
  induction items generalizing place with
  | nil => nofun
  | cons item rest ih =>
    rw [List.map_cons, List.sum_cons] at room
    refine List.forall_mem_cons.mpr ⟨⟨Nat.le_refl place, by dsimp only; omega⟩, fun r member => ?_⟩
    have inside := ih (by split_ifs <;> omega) r member
    refine ⟨Nat.le_trans ?_ inside.1, inside.2⟩
    split_ifs <;> omega

/-- Behind an item that does not move the place, the first item that is not empty is laid out over it. -/
theorem exists_at_place {item : Item} (member : item ∈ items) (nonempty : len item ≠ 0) :
    ∃ r ∈ layOut moves len place items, r.start = place ∧ r.len ≠ 0 := by
  induction items with
  | nil => cases member
  | cons first rest ih =>
    rw [layOut]
    by_cases empty : len first = 0
    · have later : item ∈ rest := by
        rcases List.mem_cons.mp member with rfl | later
        · exact absurd empty nonempty
        · exact later
      obtain ⟨r, inside, at_, long⟩ := ih later
      refine ⟨r, List.mem_cons_of_mem _ ?_, at_, long⟩
      rwa [empty, Nat.add_zero, ite_self]
    · exact ⟨_, List.mem_cons_self, rfl, empty⟩

/-- The ranges share no address exactly if every item that does not move the place, and is not empty, is
followed by empty ones only. -/
theorem layOut_apart_iff :
    (layOut moves len place items).Pairwise Apart ↔
      items.Pairwise fun x y => moves x = false → len x = 0 ∨ len y = 0 := by
  induction items generalizing place with
  | nil => simp [layOut]
  | cons item rest ih =>
    rw [layOut, List.pairwise_cons, List.pairwise_cons, ih]
    refine and_congr_left fun _ => ?_
    cases stays : moves item with
    | true =>
      refine iff_of_true (fun r member => ?_) fun _ _ => nofun
      rw [if_pos rfl] at member
      exact apart_of_before (layOut_inside (Nat.le_refl _) r member).1
    | false =>
      rw [if_neg Bool.false_ne_true]
      constructor
      · intro apart y member _
        by_contra nonempty
        push Not at nonempty
        obtain ⟨r, inside, at_, long⟩ := exists_at_place member nonempty.2
        refine apart r inside place ⟨⟨Nat.le_refl _, ?_⟩, at_.le, ?_⟩
        · dsimp only
          omega
        · omega
      · intro empty r member
        by_cases here : len item = 0
        · exact apart_of_empty (.inl here)
        · have lens : (layOut moves len place rest).map (·.len) = rest.map len := layOut_lens
          have listed : r.len ∈ rest.map len := lens ▸ List.mem_map_of_mem member
          obtain ⟨y, inside, same⟩ := List.mem_map.mp listed
          exact apart_of_empty (.inr (same ▸ (empty y inside rfl).resolve_left here))

end RangeRow
