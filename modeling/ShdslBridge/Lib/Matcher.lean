import Mathlib.Data.List.Infix

/-! # Counting matchers

A parser that reads one symbol at a time can look for a pattern with a counter: a symbol that fits
the next place of the pattern advances the counter, and any other symbol sets it back to 0. The
symbol that sets it back is not tried again at place 0, so the matcher can miss an occurrence that
overlaps a failed attempt. It never reports a false one: a counter of `n` means that the last `n`
symbols fit the first `n` places.
-/

namespace Matcher

variable {α : Type*} (fits : ℕ → α → Prop) [∀ place symbol, Decidable (fits place symbol)]

/-- The counter after one more symbol. -/
def advance (matched : ℕ) (symbol : α) : ℕ := if fits matched symbol then matched + 1 else 0

/-- The symbols fit the places of the pattern from `place` on. -/
def Fits : ℕ → List α → Prop
  | _, [] => True
  | place, symbol :: rest => fits place symbol ∧ Fits (place + 1) rest

instance decidableFits : ∀ (place : ℕ) (symbols : List α), Decidable (Fits fits place symbols)
  | _, [] => .isTrue trivial
  | place, symbol :: rest =>
    have : Decidable (Fits fits (place + 1) rest) := decidableFits (place + 1) rest
    inferInstanceAs (Decidable (fits place symbol ∧ Fits fits (place + 1) rest))

variable {fits}

@[simp] theorem advance_fits {matched : ℕ} {symbol : α} (fit : fits matched symbol) :
    advance fits matched symbol = matched + 1 := if_pos fit

@[simp] theorem advance_misfits {matched : ℕ} {symbol : α} (misfit : ¬ fits matched symbol) :
    advance fits matched symbol = 0 := if_neg misfit

omit [∀ place symbol, Decidable (fits place symbol)] in
theorem fits_append {place : ℕ} {left right : List α} :
    Fits fits place (left ++ right) ↔ Fits fits place left ∧ Fits fits (place + left.length) right := by
  induction left generalizing place with
  | nil => simp [Fits]
  | cons symbol rest ih =>
    simp only [List.cons_append, Fits, ih, List.length_cons, and_assoc]
    rw [show place + 1 + rest.length = place + (rest.length + 1) by omega]

omit [∀ place symbol, Decidable (fits place symbol)] in
theorem fits_iff {place : ℕ} {symbols : List α} :
    Fits fits place symbols ↔ ∀ i symbol, symbols[i]? = some symbol → fits (place + i) symbol := by
  induction symbols generalizing place with
  | nil => simp [Fits]
  | cons first rest ih =>
    rw [Fits, ih]
    constructor
    · rintro ⟨fit, later⟩ i symbol present
      cases i with
      | zero =>
        obtain rfl : first = symbol := by simpa using present
        exact fit
      | succ i =>
        have there := later i symbol (by simpa using present)
        rwa [show place + 1 + i = place + (i + 1) by omega] at there
    · intro all
      refine ⟨all 0 first rfl, fun i symbol present => ?_⟩
      have there := all (i + 1) symbol (by simpa using present)
      rwa [show place + 1 + i = place + (i + 1) by omega]

/-- Symbols that fit one after the other advance the counter by their number. -/
theorem foldl_advance_fits {place : ℕ} {symbols : List α} (fit : Fits fits place symbols) :
    symbols.foldl (advance fits) place = place + symbols.length := by
  induction symbols generalizing place with
  | nil => rfl
  | cons symbol rest ih =>
    rw [List.foldl_cons, advance_fits fit.1, ih fit.2, List.length_cons]
    omega

/-- A counter is backed by that many symbols at the end of the text. -/
theorem foldl_advance_suffix (text : List α) :
    ∃ left right, text = left ++ right ∧ right.length = text.foldl (advance fits) 0 ∧ Fits fits 0 right := by
  induction text using List.reverseRecOn with
  | nil => exact ⟨[], [], rfl, rfl, trivial⟩
  | append_singleton text symbol ih =>
    obtain ⟨left, right, rfl, counted, fit⟩ := ih
    rw [List.foldl_append, ← counted, List.foldl_cons, List.foldl_nil]
    by_cases next : fits right.length symbol
    · refine ⟨left, right ++ [symbol], by simp, by simp [advance_fits next], ?_⟩
      rw [fits_append, Nat.zero_add]
      exact ⟨fit, next, trivial⟩
    · exact ⟨left ++ right ++ [symbol], [], by simp, by simp [advance_misfits next], trivial⟩

/-- A text without an occurrence of the pattern keeps the counter below its length. -/
theorem foldl_advance_lt {text : List α} {size : ℕ}
    (absent : ∀ word, word <:+: text → word.length = size → ¬ Fits fits 0 word) {start : List α}
    (isPrefix : start <+: text) : start.foldl (advance fits) 0 < size ∨ size = 0 := by
  by_contra reached
  have atLeast : size ≤ start.foldl (advance fits) 0 := by omega
  obtain ⟨left, right, rfl, counted, fit⟩ := @foldl_advance_suffix _ fits _ start
  have long : size ≤ right.length := by omega
  have cut : right = right.take size ++ right.drop size := (List.take_append_drop size right).symm
  have found : right.take size <:+: text := by
    have inside : right.take size <:+: left ++ right := ⟨left, right.drop size, by simp⟩
    exact inside.trans isPrefix.isInfix
  refine absent _ found (by simp [long]) ?_
  rw [cut] at fit
  exact (fits_append.mp fit).1

section Spells

/-- The places spell out a pattern, each with one symbol. -/
def Spells (fits : ℕ → α → Prop) (pattern : List α) : Prop :=
  ∀ place < pattern.length, ∀ symbol, fits place symbol ↔ pattern[place]? = some symbol

variable {pattern : List α}

omit [∀ place symbol, Decidable (fits place symbol)] in
theorem Spells.fits_iff_prefix (spells : Spells fits pattern) {word : List α}
    (bound : word.length ≤ pattern.length) : Fits fits 0 word ↔ word <+: pattern := by
  rw [fits_iff, List.prefix_iff_getElem?]
  constructor
  · intro all i inside
    have fit := all i word[i] (List.getElem?_eq_getElem inside)
    rwa [Nat.zero_add, spells i (by omega)] at fit
  · intro all i symbol present
    obtain ⟨inside, rfl⟩ := List.getElem?_eq_some_iff.mp present
    rw [Nat.zero_add, spells i (by omega)]
    exact all i inside

/-- Behind a prefix of the pattern the counter is its length. -/
theorem Spells.foldl_prefix (spells : Spells fits pattern) {start : List α} (isPrefix : start <+: pattern) :
    start.foldl (advance fits) 0 = start.length := by
  rw [foldl_advance_fits ((spells.fits_iff_prefix isPrefix.length_le).mpr isPrefix), Nat.zero_add]

/-- A symbol that is not in the pattern sets the counter to 0. -/
theorem Spells.advance_other (spells : Spells fits pattern) {symbol : α} (other : symbol ∉ pattern) {matched : ℕ}
    (within : matched < pattern.length) : advance fits matched symbol = 0 := by
  refine advance_misfits fun fit => other ?_
  rw [spells matched within] at fit
  exact List.mem_of_getElem? fit

/-- Without the pattern in the text the counter stays below its length. -/
theorem Spells.foldl_lt (spells : Spells fits pattern) (nonempty : pattern ≠ []) {text : List α}
    (absent : ¬ pattern <:+: text) {start : List α} (isPrefix : start <+: text) :
    start.foldl (advance fits) 0 < pattern.length := by
  have noWord : ∀ word, word <:+: text → word.length = pattern.length → ¬ Fits fits 0 word := by
    intro word inside length fit
    have whole := ((spells.fits_iff_prefix length.le).mp fit).eq_of_length length
    exact absent (whole ▸ inside)
  exact (foldl_advance_lt noWord isPrefix).resolve_right (by simpa using nonempty)

end Spells

end Matcher
