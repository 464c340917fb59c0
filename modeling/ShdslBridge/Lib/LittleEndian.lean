import ShdslBridge.Lib.Memory
import Mathlib.Tactic.Ring

/-! # Little-endian integers in flat memory

A field of a C structure is a number in a few consecutive bytes, the lowest byte first. A field
that was just written reads as the number modulo its width, and a field that shares no byte with
the written one reads as before.
-/

namespace LittleEndian

/-- The lowest `len` bytes of a number, lowest first. -/
def bytes : ℕ → ℕ → List (BitVec 8)
  | 0, _ => []
  | len + 1, number => BitVec.ofNat 8 number :: bytes len (number / 256)

/-- The number that a list of bytes stands for. -/
def value : List (BitVec 8) → ℕ
  | [] => 0
  | low :: rest => low.toNat + 256 * value rest

@[simp] theorem bytes_length (len number : ℕ) : (bytes len number).length = len := by
  induction len generalizing number with
  | zero => rfl
  | succ len ih => simp [bytes, ih]

theorem value_bytes (len number : ℕ) : value (bytes len number) = number % 256 ^ len := by
  induction len generalizing number with
  | zero => simp [bytes, value, Nat.mod_one]
  | succ len ih =>
    have split : number % 256 ^ (len + 1) = number % 256 + 256 * (number / 256 % 256 ^ len) := by
      rw [Nat.pow_succ', Nat.mod_mul]
    rw [bytes, value, ih, BitVec.toNat_ofNat, split]

/-- The bytes of the number that some bytes stand for. -/
theorem bytes_value (cells : List (BitVec 8)) : bytes cells.length (value cells) = cells := by
  induction cells with
  | nil => rfl
  | cons low rest ih =>
    have byte : low.toNat < 256 := low.isLt
    have front : BitVec.ofNat 8 (low.toNat + 256 * value rest) = low := by
      apply BitVec.eq_of_toNat_eq
      rw [BitVec.toNat_ofNat]
      omega
    have back : (low.toNat + 256 * value rest) / 256 = value rest := by omega
    rw [List.length_cons, value, bytes, front, back, ih]

theorem value_lt (cells : List (BitVec 8)) : value cells < 256 ^ cells.length := by
  induction cells with
  | nil => exact Nat.one_pos
  | cons low rest ih =>
    have byte : low.toNat < 256 := low.isLt
    rw [value, List.length_cons, Nat.pow_succ']
    omega

/-- The number in the `len` bytes at an address. -/
def readNat (buffer : ℕ → BitVec 8) (address len : ℕ) : ℕ :=
  value (Memory.readAt buffer address len)

/-- Stores a number in the `len` bytes at an address. -/
def writeNat (buffer : ℕ → BitVec 8) (address len number : ℕ) : ℕ → BitVec 8 :=
  Memory.writeAt buffer address (bytes len number)

/-- A field that was just written. -/
theorem readNat_writeNat_mod (buffer : ℕ → BitVec 8) (address len number : ℕ) :
    readNat (writeNat buffer address len number) address len = number % 256 ^ len := by
  have read := Memory.readAt_writeAt buffer address (bytes len number)
  rw [bytes_length] at read
  rw [readNat, writeNat, read, value_bytes]

/-- A number that fits its field is read back. -/
theorem readNat_writeNat (buffer : ℕ → BitVec 8) (address len number : ℕ) (fits : number < 256 ^ len) :
    readNat (writeNat buffer address len number) address len = number := by
  rw [readNat_writeNat_mod, Nat.mod_eq_of_lt fits]

theorem readNat_lt (buffer : ℕ → BitVec 8) (address len : ℕ) : readNat buffer address len < 256 ^ len := by
  have := value_lt (Memory.readAt buffer address len)
  rwa [Memory.readAt_length] at this

theorem readNat_congr {buffer other : ℕ → BitVec 8} {address len : ℕ}
    (agree : ∀ i, address ≤ i → i < address + len → buffer i = other i) :
    readNat buffer address len = readNat other address len := by
  rw [readNat, readNat, Memory.readAt_congr fun i inside => agree (address + i) (by omega) (by omega)]

theorem value_append (left right : List (BitVec 8)) :
    value (left ++ right) = value left + 256 ^ left.length * value right := by
  induction left with
  | nil => simp [value]
  | cons low rest ih =>
    rw [List.cons_append, value, value, ih, List.length_cons]
    ring

/-- A number and the one in the bytes behind it. -/
theorem readNat_add (buffer : ℕ → BitVec 8) (address left right : ℕ) :
    readNat buffer address (left + right) =
      readNat buffer address left + 256 ^ left * readNat buffer (address + left) right := by
  rw [readNat, Memory.readAt_add, value_append, Memory.readAt_length]
  rfl

/-- Outside its field a store changes nothing. -/
theorem writeNat_outside (buffer : ℕ → BitVec 8) (address len number : ℕ) {i : ℕ}
    (outside : i < address ∨ address + len ≤ i) : writeNat buffer address len number i = buffer i := by
  apply Memory.writeAt_outside
  rw [bytes_length]
  exact outside

/-- A store to two buffers that agree at an address. -/
theorem writeNat_congr {buffer other : ℕ → BitVec 8} (address len number : ℕ) {i : ℕ} (agree : buffer i = other i) :
    writeNat buffer address len number i = writeNat other address len number i :=
  Memory.writeAt_congr address (bytes len number) agree

/-- A store to one field leaves a field that shares no byte with it. -/
theorem readNat_writeNat_outside (buffer : ℕ → BitVec 8) (address len number : ℕ) {other width : ℕ}
    (apart : other + width ≤ address ∨ address + len ≤ other) :
    readNat (writeNat buffer address len number) other width = readNat buffer other width := by
  apply readNat_congr
  intro i above below
  exact writeNat_outside buffer address len number (by omega)

/-- Storing the number that a field already holds changes nothing. -/
theorem writeNat_readNat (buffer : ℕ → BitVec 8) (address len : ℕ) :
    writeNat buffer address len (readNat buffer address len) = buffer := by
  have cells : bytes len (readNat buffer address len) = Memory.readAt buffer address len := by
    have back := bytes_value (Memory.readAt buffer address len)
    rwa [Memory.readAt_length] at back
  rw [writeNat, cells, Memory.writeAt_readAt]

/-- A store to the lowest bytes of a field leaves the others. -/
theorem readNat_writeNat_front (buffer : ℕ → BitVec 8) (address len more number : ℕ) :
    readNat (writeNat buffer address len number) address (len + more) =
      number % 256 ^ len + readNat buffer address (len + more) / 256 ^ len * 256 ^ len := by
  have low := readNat_lt buffer address len
  have others : readNat buffer address (len + more) / 256 ^ len = readNat buffer (address + len) more := by
    rw [readNat_add, Nat.add_mul_div_left _ _ (Nat.pow_pos (by decide)), Nat.div_eq_of_lt low, Nat.zero_add]
  rw [others, readNat_add, readNat_writeNat_mod, readNat_writeNat_outside _ _ _ _ (.inr le_rfl), Nat.mul_comm]

end LittleEndian
