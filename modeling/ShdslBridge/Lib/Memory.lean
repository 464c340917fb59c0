import Mathlib.Data.List.Basic

/-! # Flat memory as a function of the address

A buffer is a total function from addresses to cells. Bounds are not built in: an access outside
the array that the program meant is visible as an address, and a proof that needs the bound states
it. `readAt` and `writeAt` are the block copies of C.
-/

namespace Memory

variable {α : Type*}

/-- The `len` cells from `start` on. -/
def readAt (buffer : ℕ → α) (start len : ℕ) : List α :=
  (List.range len).map fun i => buffer (start + i)

/-- Copies `cells` to the addresses from `start` on. -/
def writeAt (buffer : ℕ → α) (start : ℕ) (cells : List α) : ℕ → α := fun address =>
  if start ≤ address then cells[address - start]?.getD (buffer address) else buffer address

@[simp] theorem readAt_length (buffer : ℕ → α) (start len : ℕ) : (readAt buffer start len).length = len := by
  simp [readAt]

@[simp] theorem readAt_zero (buffer : ℕ → α) (start : ℕ) : readAt buffer start 0 = [] := rfl

theorem readAt_add (buffer : ℕ → α) (start left right : ℕ) :
    readAt buffer start (left + right) = readAt buffer start left ++ readAt buffer (start + left) right := by
  simp [readAt, List.range_add, Function.comp_def, Nat.add_assoc]

theorem take_readAt (buffer : ℕ → α) (start len count : ℕ) :
    (readAt buffer start len).take count = readAt buffer start (min count len) := by
  rw [readAt, ← List.map_take, List.take_range, readAt]

theorem readAt_congr {buffer other : ℕ → α} {start len : ℕ}
    (agree : ∀ i < len, buffer (start + i) = other (start + i)) :
    readAt buffer start len = readAt other start len := by
  apply List.map_congr_left
  intro i member
  exact agree i (List.mem_range.mp member)

theorem readAt_getElem? (buffer : ℕ → α) (start len i : ℕ) :
    (readAt buffer start len)[i]? = if i < len then some (buffer (start + i)) else none := by
  by_cases inside : i < len
  · simp [readAt, inside]
  · simp [readAt, inside]

/-- Below the block and behind it the buffer is unchanged. -/
theorem writeAt_outside (buffer : ℕ → α) (start : ℕ) (cells : List α) {address : ℕ}
    (outside : address < start ∨ start + cells.length ≤ address) :
    writeAt buffer start cells address = buffer address := by
  rcases outside with below | behind
  · simp [writeAt, Nat.not_le.mpr below]
  · have past : cells.length ≤ address - start := by omega
    simp [writeAt, show start ≤ address by omega, List.getElem?_eq_none past]

theorem writeAt_inside (buffer : ℕ → α) (start : ℕ) (cells : List α) {i : ℕ} (inside : i < cells.length) :
    writeAt buffer start cells (start + i) = cells[i] := by
  simp [writeAt, inside]

/-- A block copied to two buffers that agree at an address. -/
theorem writeAt_congr {buffer other : ℕ → α} (start : ℕ) (cells : List α) {address : ℕ}
    (agree : buffer address = other address) :
    writeAt buffer start cells address = writeAt other start cells address := by
  rw [writeAt, writeAt, agree]

/-- Reading a block back right after writing it. -/
@[simp] theorem readAt_writeAt (buffer : ℕ → α) (start : ℕ) (cells : List α) :
    readAt (writeAt buffer start cells) start cells.length = cells := by
  apply List.ext_getElem (by simp)
  intro i inside _
  simp only [readAt_length] at inside
  simp [readAt, writeAt_inside buffer start cells inside]

/-- Copying a block behind another one and reading both. -/
theorem readAt_writeAt_behind (buffer : ℕ → α) (start len : ℕ) (cells : List α) :
    readAt (writeAt buffer (start + len) cells) start (len + cells.length) = readAt buffer start len ++ cells := by
  rw [readAt_add, readAt_writeAt]
  congr 1
  apply readAt_congr
  intro i inside
  exact writeAt_outside buffer (start + len) cells (.inl (by omega))

theorem readAt_writeAt_append (buffer : ℕ → α) (len : ℕ) (cells : List α) :
    readAt (writeAt buffer len cells) 0 (len + cells.length) = readAt buffer 0 len ++ cells := by
  have appended := readAt_writeAt_behind buffer 0 len cells
  rw [Nat.zero_add] at appended
  exact appended

@[simp] theorem writeAt_nil (buffer : ℕ → α) (start : ℕ) : writeAt buffer start [] = buffer := by
  funext address
  exact writeAt_outside buffer start [] (by simp [Nat.lt_or_ge])

/-- Copying a block onto itself. -/
theorem writeAt_readAt (buffer : ℕ → α) (start len : ℕ) : writeAt buffer start (readAt buffer start len) = buffer := by
  funext address
  by_cases outside : address < start ∨ start + len ≤ address
  · exact writeAt_outside _ _ _ (by rwa [readAt_length])
  · obtain ⟨i, rfl⟩ := Nat.exists_eq_add_of_le (show start ≤ address by omega)
    rw [writeAt_inside _ _ _ (by rw [readAt_length]; omega)]
    simp [readAt]

theorem drop_readAt (buffer : ℕ → α) (start len count : ℕ) (within : count ≤ len) :
    (readAt buffer start len).drop count = readAt buffer (start + count) (len - count) := by
  obtain ⟨rest, rfl⟩ := Nat.exists_eq_add_of_le within
  rw [readAt_add, List.drop_left' (readAt_length ..), Nat.add_sub_cancel_left]

/-- A second copy of the same length to the same place replaces the first. -/
theorem writeAt_writeAt (buffer : ℕ → α) (start : ℕ) {cells other : List α}
    (same : cells.length = other.length) :
    writeAt (writeAt buffer start cells) start other = writeAt buffer start other := by
  funext address
  by_cases outside : address < start ∨ start + other.length ≤ address
  · rw [writeAt_outside _ _ _ outside, writeAt_outside _ _ _ outside, writeAt_outside _ _ _ (same ▸ outside)]
  · have inside : address - start < other.length := by omega
    rw [show address = start + (address - start) by omega, writeAt_inside _ _ _ inside,
      writeAt_inside _ _ _ inside]

/-- Two copies behind one another are one copy. -/
theorem writeAt_append (buffer : ℕ → α) (start : ℕ) (cells other : List α) :
    writeAt (writeAt buffer start cells) (start + cells.length) other = writeAt buffer start (cells ++ other) := by
  funext address
  rcases Nat.lt_or_ge address (start + cells.length) with low | high
  · rw [writeAt_outside _ _ _ (.inl low)]
    rcases Nat.lt_or_ge address start with below | above
    · rw [writeAt_outside _ _ _ (.inl below), writeAt_outside _ _ _ (.inl below)]
    · obtain ⟨i, rfl⟩ := Nat.exists_eq_add_of_le above
      have inside : i < cells.length := by omega
      rw [writeAt_inside _ _ _ inside, writeAt_inside _ _ _ (by rw [List.length_append]; omega),
        List.getElem_append_left inside]
  · rcases Nat.lt_or_ge address (start + cells.length + other.length) with within | behind
    · obtain ⟨i, rfl⟩ := Nat.exists_eq_add_of_le high
      have inside : i < other.length := by omega
      rw [writeAt_inside _ _ _ inside, Nat.add_assoc start, writeAt_inside _ _ _ (by rw [List.length_append]; omega),
        List.getElem_append_right (Nat.le_add_right ..)]
      simp only [Nat.add_sub_cancel_left]
    · rw [writeAt_outside _ _ _ (.inr behind), writeAt_outside _ _ _ (.inr high),
        writeAt_outside _ _ _ (.inr (by rw [List.length_append]; omega))]

/-- One cell in front of others. -/
theorem writeAt_update (buffer : ℕ → α) (start : ℕ) (cell : α) (cells : List α) :
    writeAt (Function.update buffer start cell) (start + 1) cells = writeAt buffer start (cell :: cells) := by
  have first : Function.update buffer start cell = writeAt buffer start [cell] := by
    funext i
    rcases Nat.lt_trichotomy i start with below | rfl | above
    · rw [Function.update_of_ne (Nat.ne_of_lt below), writeAt_outside _ _ _ (.inl below)]
    · simp [writeAt]
    · rw [Function.update_of_ne (Nat.ne_of_gt above), writeAt_outside _ _ _ (.inr (Nat.succ_le_of_lt above))]
  rw [first]
  exact writeAt_append buffer start [cell] cells

/-- A cell in front of a block. -/
theorem writeAt_front (buffer : ℕ → α) (start : ℕ) (cell : α) (cells : List α) :
    writeAt (writeAt buffer (start + 1) cells) start [cell] = writeAt buffer start (cell :: cells) := by
  funext address
  rcases Nat.lt_trichotomy address start with below | rfl | above
  · rw [writeAt_outside _ _ _ (.inl below), writeAt_outside _ _ _ (.inl (Nat.lt_succ_of_lt below)),
      writeAt_outside _ _ _ (.inl below)]
  · simp [writeAt]
  · obtain ⟨i, rfl⟩ := Nat.exists_eq_add_of_lt above
    have shift : start + i + 1 - start = i + 1 := by omega
    have shift' : start + i + 1 - (start + 1) = i := by omega
    rw [writeAt_outside _ _ _ (.inr (Nat.succ_le_of_lt above))]
    rw [writeAt, writeAt, if_pos (by omega), if_pos (by omega), shift, shift', List.getElem?_cons_succ]

/-- A block that a write does not touch reads as before. -/
theorem readAt_writeAt_outside (buffer : ℕ → α) (start : ℕ) (cells : List α) {at_ len : ℕ}
    (outside : at_ + len ≤ start ∨ start + cells.length ≤ at_) :
    readAt (writeAt buffer start cells) at_ len = readAt buffer at_ len := by
  apply readAt_congr
  intro i inside
  exact writeAt_outside buffer start cells (by omega)

/-- Overwriting a part of a block: the cells in front of it and behind it stay. -/
theorem readAt_writeAt_within (buffer : ℕ → α) (start offset : ℕ) (cells : List α) {len : ℕ}
    (inside : offset + cells.length ≤ len) :
    readAt (writeAt buffer (start + offset) cells) start len =
      (readAt buffer start len).take offset ++ cells ++ (readAt buffer start len).drop (offset + cells.length) := by
  obtain ⟨rest, rfl⟩ := Nat.exists_eq_add_of_le inside
  have front : readAt (writeAt buffer (start + offset) cells) start offset = readAt buffer start offset :=
    readAt_writeAt_outside _ _ _ (.inl (Nat.le_refl _))
  have behind : readAt (writeAt buffer (start + offset) cells) (start + (offset + cells.length)) rest =
      readAt buffer (start + (offset + cells.length)) rest :=
    readAt_writeAt_outside _ _ _ (.inr (by omega))
  have kept : (readAt buffer start (offset + cells.length + rest)).take offset = readAt buffer start offset := by
    rw [take_readAt, Nat.min_eq_left (by omega)]
  rw [kept, readAt_add, readAt_add, front, readAt_writeAt, behind, readAt_add buffer start (offset + cells.length),
    List.drop_left' (by simp)]

/-- The cells stand in the buffer from `pos` on. -/
def Stands (cells : List α) (buffer : ℕ → α) (pos : ℕ) : Prop := readAt buffer pos cells.length = cells

variable {buffer : ℕ → α} {pos : ℕ}

theorem stands_append {left right : List α} :
    Stands (left ++ right) buffer pos ↔ Stands left buffer pos ∧ Stands right buffer (pos + left.length) := by
  rw [Stands, List.length_append, readAt_add]
  constructor
  · exact fun both => List.append_inj both (readAt_length ..)
  · rintro ⟨front, back⟩
    rw [front, back]

theorem stands_cons {cell : α} {rest : List α} :
    Stands (cell :: rest) buffer pos ↔ buffer pos = cell ∧ Stands rest buffer (pos + 1) := by
  have split := @stands_append α buffer pos [cell] rest
  rw [List.singleton_append] at split
  rw [split]
  refine and_congr_left fun _ => ?_
  change [buffer (pos + 0)] = [cell] ↔ _
  rw [List.cons.injEq, and_iff_left rfl, Nat.add_zero]

theorem Stands.getElem? {cells : List α} {i : ℕ} (stands : Stands cells buffer pos) (inside : i < cells.length) :
    cells[i]? = some (buffer (pos + i)) := by
  rw [← stands, readAt_getElem?, if_pos inside]

end Memory
