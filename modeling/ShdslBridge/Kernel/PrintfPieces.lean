import ShdslBridge.Kernel.Printf
import Mathlib.Data.Int.Order.Basic

/-! # The pieces of formatted output

The loops of `rt_vsnprintf` in closed form, and each item as a piece of output that looks at the position of its
sign at most.
-/

namespace RtThread

theorem int32_eq {x : ℤ} (low : -2 ^ 31 ≤ x) (high : x < 2 ^ 31) : int32 x = x := by
  rw [int32, Int.bmod_eq_of_le] <;> omega

/-- What `while (size-- > 0)` leaves in `size`. -/
def drained (size : ℤ) : ℤ := if 0 < size then -1 else int32 (size - 1)

section Loops

variable {σ : Type} (sink : Sink σ UInt8) (c : UInt8) (out : σ)

theorem padWhile_eq (size : ℤ) :
    padWhile sink c size out = (sink.emits (List.replicate size.toNat c) out, drained size) := by
  fun_induction padWhile sink c size out with
  | case1 size out positive ih =>
    have one : size.toNat = (size - 1).toNat + 1 := by omega
    rw [ih, one, List.replicate_succ, Sink.emits_cons, drained, drained, if_pos positive]
    split_ifs with more
    · rfl
    · rw [show size - 1 = 0 by omega]
      rfl
  | case2 size out done =>
    rw [show size.toNat = 0 by omega, drained, if_neg done]
    rfl

theorem padRounds_eq (width : ℤ) :
    padRounds sink c width out = (sink.emits (List.replicate width.toNat c) out, min width 0) := by
  fun_induction padRounds sink c width out with
  | case1 width out positive ih =>
    have one : width.toNat = (width - 1).toNat + 1 := by omega
    rw [ih, one, List.replicate_succ, Sink.emits_cons, min_eq_right (by omega), min_eq_right (by omega)]
  | case2 width out done =>
    rw [show width.toNat = 0 by omega, min_eq_left (by omega)]
    rfl

theorem padBelow_eq (len width : ℤ) :
    padBelow sink c len width out =
      (sink.emits (List.replicate (width - len).toNat c) out, int32 (min len width - 1)) := by
  fun_induction padBelow sink c len width out with
  | case1 width out below ih =>
    have one : (width - len).toNat = (width - 1 - len).toNat + 1 := by omega
    rw [ih, one, List.replicate_succ, Sink.emits_cons, min_eq_left (by omega), min_eq_left (by omega)]
  | case2 width out done =>
    rw [show (width - len).toNat = 0 by omega, min_eq_right (by omega)]
    rfl

end Loops

/-! ## Numbers -/

structure NumberParts where
  /-- The sign, 0 for none. -/
  sign : UInt8
  /-- The digits, the last one first. -/
  tmp : List UInt8
  /-- The number of zeros in front of the digits. -/
  zeros : ℕ
  /-- What the digits leave of the field. -/
  size : ℤ
  zeropad : Bool
  left : Bool

namespace NumberParts

variable (parts : NumberParts)

/-- `c`. -/
def pad : UInt8 := if parts.zeropad then '0'.toUInt8 else ' '.toUInt8

def padsBehind : Bool := parts.zeropad || parts.left

/-- `size` for the spaces in front of the sign. -/
def front : ℤ := if parts.sign ≠ 0 ∧ parts.size > 0 then parts.size - 1 else parts.size

def lead : List UInt8 := if parts.padsBehind then [] else List.replicate parts.front.toNat ' '.toUInt8

/-- `size` behind these spaces. -/
def atSign : ℤ := if parts.padsBehind then parts.size else drained parts.front

/-- `size` behind the sign, which is stored or not. -/
def behindSign (stored : Bool) : ℤ :=
  if parts.sign ≠ 0 then if stored then int32 (parts.atSign - 1) else parts.atSign else parts.atSign

/-- What stands behind the sign, by `size` there. -/
def rest (size : ℤ) : List UInt8 :=
  (if parts.left then [] else List.replicate size.toNat parts.pad) ++
    (List.replicate parts.zeros '0'.toUInt8 ++ (parts.tmp.reverse ++
      List.replicate (if parts.left then size else drained size).toNat ' '.toUInt8))

def piece : Piece UInt8 where
  lead := parts.lead
  text stored :=
    parts.lead ++ ((if parts.sign ≠ 0 then [parts.sign] else []) ++ parts.rest (parts.behindSign stored))

theorem text_eq (parts : NumberParts) (stored : Bool) :
    parts.piece.text stored =
      parts.lead ++ ((if parts.sign ≠ 0 then [parts.sign] else []) ++ parts.rest (parts.behindSign stored)) := rfl

end NumberParts

/-- The parts of a number as `print_number` computes them. -/
def numberParts (num : BitVec 32) (base : ℕ) (s precision : ℤ) (flags : PrintFlags) : NumberParts :=
  let (sign, num) := numberSign flags num
  let tmp := numberTmp flags base num
  let precision := max (tmp.length : ℤ) precision
  { sign
    tmp
    zeros := (precision - tmp.length).toNat
    size := int32 (s - precision)
    zeropad := flags.zeropad && !flags.left
    left := flags.left }

theorem tmpDigits_ne_nil (digits : List UInt8) (base : ℕ) {num : ℕ} (positive : num ≠ 0) :
    tmpDigits digits base num ≠ [] := by
  rw [tmpDigits, if_neg positive]
  exact List.cons_ne_nil _ _

theorem numberTmp_ne_nil (flags : PrintFlags) (base : ℕ) (num : BitVec 32) : numberTmp flags base num ≠ [] := by
  rw [numberTmp]
  split_ifs with zero
  · exact List.cons_ne_nil _ _
  · exact tmpDigits_ne_nil _ _ fun none_ => zero (BitVec.eq_of_toNat_eq none_)
  · exact tmpDigits_ne_nil _ _ fun none_ => zero (BitVec.eq_of_toNat_eq none_)

theorem printNumber_eq {σ : Type} (sink : Sink σ UInt8) (num : BitVec 32) (base : ℕ) (s precision : ℤ)
    (flags : PrintFlags) (out : σ) :
    printNumber sink num base s precision flags out =
        (numberParts num base s precision flags).piece.print sink out := by
  rw [printNumber, numberParts]
  generalize numberSign flags num = signed
  obtain ⟨sign, num⟩ := signed
  dsimp only
  generalize numberTmp flags base num = tmp
  have larger : (if (tmp.length : ℤ) > precision then (tmp.length : ℤ) else precision) =
      max (tmp.length : ℤ) precision := by
    rw [max_def]
    split_ifs <;> omega
  rw [larger]
  generalize max (tmp.length : ℤ) precision = precision
  generalize int32 (s - precision) = size
  simp only [padWhile_eq, padBelow_eq, Piece.print, NumberParts.piece, NumberParts.lead, NumberParts.padsBehind,
    NumberParts.front, NumberParts.behindSign, NumberParts.atSign, NumberParts.rest, NumberParts.pad]
  by_cases signed : sign = 0
  · subst signed
    cases flags.left <;> cases flags.zeropad <;> simp [Sink.emits_append]
  · cases flags.left <;> cases flags.zeropad <;> simp [signed, Sink.emits_append]

/-! ## Items -/

/-- The text of a `%c`. -/
def charText (flags : PrintFlags) (width : ℤ) (c : UInt8) : List UInt8 :=
  let rounds := int32 (width - 1)
  let front := if flags.left then 0 else rounds.toNat
  let behind := int32 ((if flags.left then width else min rounds 0) - 1)
  List.replicate front ' '.toUInt8 ++ (c :: List.replicate behind.toNat ' '.toUInt8)

/-- The text of a `%s`. -/
def stringText (flags : PrintFlags) (width precision : ℤ) (s : List UInt8) : List UInt8 :=
  let len := int32 s.length
  let len := if precision > 0 ∧ len > precision then precision else len
  let front := if flags.left then 0 else (width - len).toNat
  let behind := (if flags.left then width else int32 (min len width - 1)) - len
  List.replicate front ' '.toUInt8 ++ (s.take len.toNat ++ List.replicate behind.toNat ' '.toUInt8)

/-- The piece of an item. Only a number looks at a position, that of its sign. -/
def PrintItem.piece : PrintItem → Piece UInt8
  | .chars text => ⟨[], fun _ => text⟩
  | .char flags width c => ⟨[], fun _ => charText flags width c⟩
  | .string flags width precision s => ⟨[], fun _ => stringText flags width precision s⟩
  | .number flags base width precision num => (numberParts num base width precision flags).piece

def PrintItem.text (item : PrintItem) : List UInt8 := item.piece.text true

theorem PrintItem.print_eq {σ : Type} (sink : Sink σ UInt8) (item : PrintItem) (out : σ) :
    item.print sink out = item.piece.print sink out := by
  cases item with
  | chars text => rfl
  | char flags width c =>
    simp only [PrintItem.print, padBefore, padRounds_eq, Piece.print, PrintItem.piece, charText]
    cases flags.left <;> simp [Sink.emits_append]
  | string flags width precision s =>
    simp only [PrintItem.print, padBelow_eq, Piece.print, PrintItem.piece, stringText]
    cases flags.left <;> simp [Sink.emits_append]
  | number flags base width precision num => exact printNumber_eq sink num base width precision flags out

theorem printAll_eq {σ : Type} (sink : Sink σ UInt8) (items : List PrintItem) (out : σ) :
    printAll sink items out = (items.map PrintItem.piece).foldl (fun out piece => piece.print sink out) out := by
  rw [printAll, List.foldl_map]
  simp only [PrintItem.print_eq]

def itemsText (items : List PrintItem) : List UInt8 := Piece.whole (items.map PrintItem.piece)

theorem printText_eq (string : BitVec 32 → List UInt8) (fmt : List UInt8) (args : ℕ → BitVec 32) :
    printText string fmt args = itemsText (printItems string args ⟨fmt, 0⟩) := by
  have whole := @Piece.foldl_print UInt8 (List UInt8) (fun _ => true) Sink.list [] (fun _ => rfl)
    ((printItems string args ⟨fmt, 0⟩).map PrintItem.piece) []
  rw [Sink.emits_nil, Sink.list_emits, Piece.whole_eq_produced] at whole
  rw [printText, printAll_eq, whole]
  rfl

end RtThread
