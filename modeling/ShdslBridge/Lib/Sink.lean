import Mathlib.Data.List.Basic

/-! # Output through a bounded sink

A program that prints to a buffer of bounded size goes on counting when the buffer is full. It is written over a
`Sink`, which takes one cell after the other and says whether the next one still fits; a list takes all of them.

A `Piece` is a part of the output that looks at one of its own positions: its cells may depend on whether this
position fits. `produced_of_steady` and `steady_of_length` say when a bound leaves the pieces as they are without one.
-/

/-- Something that takes cells, and knows whether the next one is kept. -/
structure Sink (σ α : Type) where
  fits : σ → Bool
  emit : α → σ → σ

namespace Sink

variable {σ α : Type} (sink : Sink σ α)

/-- Emits the cells one after the other. -/
def emits (cells : List α) (out : σ) : σ := cells.foldl (fun out cell => sink.emit cell out) out

@[simp] theorem emits_nil (out : σ) : sink.emits [] out = out := rfl

@[simp] theorem emits_cons (cell : α) (cells : List α) (out : σ) :
    sink.emits (cell :: cells) out = sink.emits cells (sink.emit cell out) := rfl

theorem emits_append (front back : List α) (out : σ) :
    sink.emits (front ++ back) out = sink.emits back (sink.emits front out) := List.foldl_append

/-- A list takes every cell. -/
def list : Sink (List α) α := ⟨fun _ => true, fun cell cells => cells ++ [cell]⟩

theorem list_emits (cells out : List α) : list.emits cells out = out ++ cells := by
  induction cells generalizing out with
  | nil => simp
  | cons cell cells ih => rw [emits_cons, ih, list, List.append_assoc, List.singleton_append]

end Sink

/-- Some output, with the cells in front of the position that it looks at, and the cells by whether this position
fits. -/
structure Piece (α : Type) where
  lead : List α
  text : Bool → List α

namespace Piece

variable {α σ : Type}

/-- Prints a piece. -/
def print (sink : Sink σ α) (piece : Piece α) (out : σ) : σ :=
  sink.emits (piece.text (sink.fits (sink.emits piece.lead out))) out

/-- The cells of pieces from position `n` on, where a position fits or does not. -/
def produced (fits : ℕ → Bool) : List (Piece α) → ℕ → List α
  | [], _ => []
  | piece :: rest, n =>
    let text := piece.text (fits (n + piece.lead.length))
    text ++ produced fits rest (n + text.length)

/-- The cells of pieces when all positions fit. -/
def whole (pieces : List (Piece α)) : List α := pieces.flatMap (·.text true)

/-- The piece does not look, or it is longer without room. -/
def Grows (piece : Piece α) : Prop :=
  piece.text false = piece.text true ∨ (piece.text true).length < (piece.text false).length

/-- Each piece that depends on its position has room there. -/
def Steady (fits : ℕ → Bool) : List (Piece α) → ℕ → Prop
  | [], _ => True
  | piece :: rest, n =>
    (piece.text false ≠ piece.text true → fits (n + piece.lead.length) = true) ∧
      Steady fits rest (n + (piece.text true).length)

variable {fits : ℕ → Bool}

/-- What is printed, if the sink looks at the number of cells only. -/
theorem foldl_print (sink : Sink σ α) (start : σ)
    (counts : ∀ cells, sink.fits (sink.emits cells start) = fits cells.length)
    (pieces : List (Piece α)) (front : List α) :
    pieces.foldl (fun out piece => piece.print sink out) (sink.emits front start) =
      sink.emits (front ++ produced fits pieces front.length) start := by
  induction pieces generalizing front with
  | nil => rw [produced, List.append_nil, List.foldl_nil]
  | cons piece rest ih =>
    rw [List.foldl_cons, print, ← Sink.emits_append, ← Sink.emits_append, counts, List.length_append, ih, produced,
      List.length_append, List.append_assoc]

theorem whole_eq_produced (pieces : List (Piece α)) (n : ℕ) : produced (fun _ => true) pieces n = whole pieces := by
  induction pieces generalizing n with
  | nil => rfl
  | cons piece rest ih =>
    rw [produced, ih]
    rfl

variable {pieces : List (Piece α)}

theorem produced_of_steady {n : ℕ} (steady : Steady fits pieces n) : produced fits pieces n = whole pieces := by
  induction pieces generalizing n with
  | nil => rfl
  | cons piece rest ih =>
    obtain ⟨here, later⟩ := steady
    have same : piece.text (fits (n + piece.lead.length)) = piece.text true := by
      by_cases room : fits (n + piece.lead.length) = true
      · rw [room]
      · rw [Bool.eq_false_iff.mpr room]
        by_contra differ
        exact room (here differ)
    rw [produced, same, ih later]
    rfl

theorem whole_length_le (grow : ∀ piece ∈ pieces, piece.Grows) (n : ℕ) :
    (whole pieces).length ≤ (produced fits pieces n).length := by
  induction pieces generalizing n with
  | nil => exact Nat.le_refl _
  | cons piece rest ih =>
    have later := ih (fun other member => grow other (List.mem_cons_of_mem _ member))
      (n + (piece.text (fits (n + piece.lead.length))).length)
    have here : (piece.text true).length ≤ (piece.text (fits (n + piece.lead.length))).length := by
      cases fits (n + piece.lead.length) with
      | true => exact Nat.le_refl _
      | false =>
        rcases grow piece List.mem_cons_self with same | longer
        · exact Nat.le_of_eq (congrArg List.length same).symm
        · exact Nat.le_of_lt longer
    rw [produced, whole, List.flatMap_cons, List.length_append, List.length_append]
    exact Nat.add_le_add here later

/-- A bound that keeps the number of cells keeps the cells. -/
theorem steady_of_length (grow : ∀ piece ∈ pieces, piece.Grows) {n : ℕ}
    (same : (produced fits pieces n).length = (whole pieces).length) : Steady fits pieces n := by
  induction pieces generalizing n with
  | nil => trivial
  | cons piece rest ih =>
    have others : ∀ piece ∈ rest, piece.Grows := fun other member => grow other (List.mem_cons_of_mem _ member)
    rw [produced, whole, List.flatMap_cons, List.length_append, List.length_append] at same
    cases room : fits (n + piece.lead.length) with
    | true =>
      rw [room] at same
      exact ⟨fun _ => room, ih others (Nat.add_left_cancel same)⟩
    | false =>
      rw [room] at same
      have later : (whole rest).length ≤ (produced fits rest (n + (piece.text false).length)).length :=
        whole_length_le others _
      rcases grow piece List.mem_cons_self with rigid | longer
      · rw [rigid] at same
        exact ⟨fun differ => absurd rigid differ, ih others (Nat.add_left_cancel same)⟩
      · rw [whole] at later
        omega

end Piece
