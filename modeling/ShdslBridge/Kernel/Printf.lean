import ShdslBridge.Lib.Sink
import Mathlib.Algebra.Group.Int.Defs
import Mathlib.Algebra.Group.Nat.Defs
import Mathlib.Data.Nat.Basic

/-! # Formatted output

`rt_vsnprintf` of `kservice.c` with `RT_PRINTF_PRECISION`. Every character is stored by itself and only up to
`end`, and counted in any case; `Sink` is this pair of operations. `print_number` looks at `end` once more: a sign
that is not stored leaves one more place of the field.

What is read from the format and from the arguments does not depend on the output, so the conversions of a format
are its `printItems`, and `rt_vsnprintf` prints one after the other. A string argument is given by its characters,
which do not overlap the buffer.
-/

namespace RtThread

/-- The value of an `int` that wraps around. -/
def int32 (x : ℤ) : ℤ := x.bmod (2 ^ 32)

/-- `flags` of a conversion. -/
structure PrintFlags where
  zeropad : Bool := false
  sign : Bool := false
  plus : Bool := false
  space : Bool := false
  left : Bool := false
  special : Bool := false
  large : Bool := false
  deriving DecidableEq

def smallDigits : List UInt8 := ['0', '1', '2', '3', '4', '5', '6', '7', '8', '9', 'a', 'b', 'c', 'd', 'e', 'f'].map
  Char.toUInt8

def largeDigits : List UInt8 := ['0', '1', '2', '3', '4', '5', '6', '7', '8', '9', 'A', 'B', 'C', 'D', 'E', 'F'].map
  Char.toUInt8

/-- `divide`: the remainder, and what is left in `*n`. Any base but 10 is 16. -/
def divide (n base : ℕ) : ℕ × ℕ := if base = 10 then (n % 10, n / 10) else (n % 16, n / 16)

/-- The digits in `tmp`, the last one first. -/
def tmpDigits (digits : List UInt8) (base num : ℕ) : List UInt8 :=
  if num = 0 then [] else digits.getD (divide num base).1 0 :: tmpDigits digits base (divide num base).2
termination_by num
decreasing_by
  rw [divide]
  split_ifs <;> exact Nat.div_lt_self (Nat.pos_of_ne_zero ‹_›) (by decide)

section Loops

variable {σ : Type} (sink : Sink σ UInt8)

/-- `while (size-- > 0)` around the output of a character: the output, and `size` behind the loop. -/
def padWhile (c : UInt8) (size : ℤ) (out : σ) : σ × ℤ :=
  if 0 < size then padWhile c (size - 1) (sink.emit c out) else (out, int32 (size - 1))
termination_by size.toNat

/-- `while (len < width--)` around the output of a character. -/
def padBelow (c : UInt8) (len width : ℤ) (out : σ) : σ × ℤ :=
  if len < width then padBelow c len (width - 1) (sink.emit c out) else (out, int32 (width - 1))
termination_by (width - len).toNat

/-- The rounds of `while (--width > 0)` with `width` already decremented. -/
def padRounds (c : UInt8) (width : ℤ) (out : σ) : σ × ℤ :=
  if 0 < width then padRounds c (width - 1) (sink.emit c out) else (out, width)
termination_by width.toNat

/-- `while (--width > 0)` around the output of a character. -/
def padBefore (c : UInt8) (width : ℤ) (out : σ) : σ × ℤ := padRounds sink c (int32 (width - 1)) out

/-- The sign of a number, 0 for none, and the number without it. -/
def numberSign (flags : PrintFlags) (num : BitVec 32) : UInt8 × BitVec 32 :=
  if flags.sign then
    if num.toInt < 0 then ('-'.toUInt8, -num)
    else if flags.plus then ('+'.toUInt8, num)
    else if flags.space then (' '.toUInt8, num)
    else (0, num)
  else (0, num)

def numberTmp (flags : PrintFlags) (base : ℕ) (num : BitVec 32) : List UInt8 :=
  let digits := if flags.large then largeDigits else smallDigits
  if num = 0 then ['0'.toUInt8] else tmpDigits digits base num.toNat

/-- `print_number`. -/
def printNumber (num : BitVec 32) (base : ℕ) (s precision : ℤ) (flags : PrintFlags) (out : σ) : σ :=
  let zeropad := flags.zeropad && !flags.left
  let c := if zeropad then '0'.toUInt8 else ' '.toUInt8
  let (sign, num) := numberSign flags num
  let tmp := numberTmp flags base num
  let i : ℤ := tmp.length
  let precision := if i > precision then i else precision
  let size := int32 (s - precision)
  let (out, size) :=
    if !(zeropad || flags.left) then
      padWhile sink ' '.toUInt8 (if sign ≠ 0 ∧ size > 0 then size - 1 else size) out
    else (out, size)
  let (out, size) :=
    if sign ≠ 0 then (sink.emit sign out, if sink.fits out then int32 (size - 1) else size) else (out, size)
  let (out, size) := if !flags.left then padWhile sink c size out else (out, size)
  let (out, _) := padBelow sink '0'.toUInt8 i precision out
  let out := sink.emits tmp.reverse out
  (padWhile sink ' '.toUInt8 size out).1

/-- A part of a format with its arguments. -/
inductive PrintItem
  | chars (text : List UInt8)
  | char (flags : PrintFlags) (width : ℤ) (c : UInt8)
  | string (flags : PrintFlags) (width precision : ℤ) (s : List UInt8)
  | number (flags : PrintFlags) (base : ℕ) (width precision : ℤ) (num : BitVec 32)
  deriving DecidableEq

def PrintItem.print : PrintItem → σ → σ
  | .chars text, out => sink.emits text out
  | .char flags width c, out =>
    let (out, width) := if !flags.left then padBefore sink ' '.toUInt8 width out else (out, width)
    let out := sink.emit c out
    (padBefore sink ' '.toUInt8 width out).1
  | .string flags width precision s, out =>
    let len := int32 s.length
    let len := if precision > 0 ∧ len > precision then precision else len
    let (out, width) := if !flags.left then padBelow sink ' '.toUInt8 len width out else (out, width)
    let out := sink.emits (s.take len.toNat) out
    (padBelow sink ' '.toUInt8 len width out).1
  | .number flags base width precision num, out => printNumber sink num base width precision flags out

end Loops

/-! ## The format -/

/-- `isdigit`. -/
def printDigit (c : UInt8) : Bool := c - '0'.toUInt8 < 10

/-- `skip_atoi`: the number behind the digits, with `i` in front of them. -/
def skipAtoi : List UInt8 → ℤ → ℤ × List UInt8
  | [], i => (i, [])
  | c :: rest, i =>
    if printDigit c then skipAtoi rest (int32 (i * 10 + c.toNat - '0'.toNat)) else (i, c :: rest)

def parseFlags : List UInt8 → PrintFlags → PrintFlags × List UInt8
  | [], flags => (flags, [])
  | c :: rest, flags =>
    if c = '-'.toUInt8 then parseFlags rest { flags with left := true }
    else if c = '+'.toUInt8 then parseFlags rest { flags with plus := true }
    else if c = ' '.toUInt8 then parseFlags rest { flags with space := true }
    else if c = '#'.toUInt8 then parseFlags rest { flags with special := true }
    else if c = '0'.toUInt8 then parseFlags rest { flags with zeropad := true }
    else (flags, c :: rest)

structure FormatPlace where
  fmt : List UInt8
  index : ℕ

/-- `*fmt`. -/
def FormatPlace.char (place : FormatPlace) : UInt8 := place.fmt.headD 0

/-- `++ fmt`. -/
def FormatPlace.next (place : FormatPlace) : FormatPlace := { place with fmt := place.fmt.tail }

/-- `va_arg`. -/
def FormatPlace.took (place : FormatPlace) : FormatPlace := { place with index := place.index + 1 }

def parseWidth (args : ℕ → BitVec 32) (flags : PrintFlags) (place : FormatPlace) : ℤ × PrintFlags × FormatPlace :=
  if printDigit place.char then
    let (width, fmt) := skipAtoi place.fmt 0
    (width, flags, { place with fmt })
  else if place.char = '*'.toUInt8 then
    let width := (args place.index).toInt
    if width < 0 then (int32 (-width), { flags with left := true }, place.next.took)
    else (width, flags, place.next.took)
  else (-1, flags, place)

def parsePrecision (args : ℕ → BitVec 32) (place : FormatPlace) : ℤ × FormatPlace :=
  if place.char = '.'.toUInt8 then
    let place := place.next
    let (precision, place) :=
      if printDigit place.char then
        let (precision, fmt) := skipAtoi place.fmt 0
        (precision, { place with fmt })
      else if place.char = '*'.toUInt8 then ((args place.index).toInt, place.next.took)
      else (-1, place)
    (if precision < 0 then 0 else precision, place)
  else (-1, place)

/-- The conversion qualifier, 0 for none. -/
def parseQualifier (place : FormatPlace) : UInt8 × FormatPlace :=
  if place.char = 'h'.toUInt8 ∨ place.char = 'l'.toUInt8 then (place.char, place.next) else (0, place)

def intArgument (arg : BitVec 32) (qualifier : UInt8) (flags : PrintFlags) : BitVec 32 :=
  if qualifier = 'h'.toUInt8 then
    if flags.sign then (arg.setWidth 16).signExtend 32 else (arg.setWidth 16).setWidth 32
  else arg

/-- `"(NULL)"`. -/
def nullText : List UInt8 := ['(', 'N', 'U', 'L', 'L', ')'].map Char.toUInt8

def convert (string : BitVec 32 → List UInt8) (args : ℕ → BitVec 32) (flags : PrintFlags) (width precision : ℤ)
    (qualifier : UInt8) (place : FormatPlace) : PrintItem × FormatPlace :=
  let c := place.char
  let arg := args place.index
  let number (flags : PrintFlags) (base : ℕ) : PrintItem × FormatPlace :=
    (.number flags base width precision (intArgument arg qualifier flags), place.next.took)
  if c = 'c'.toUInt8 then (.char flags width (UInt8.ofBitVec (arg.setWidth 8)), place.next.took)
  else if c = 's'.toUInt8 then
    (.string flags width precision (if arg = 0 then nullText else string arg), place.next.took)
  else if c = 'p'.toUInt8 then
    if width = -1 then (.number { flags with zeropad := true } 16 8 precision arg, place.next.took)
    else (.number flags 16 width precision arg, place.next.took)
  else if c = '%'.toUInt8 then (.chars ['%'.toUInt8], place.next)
  else if c = 'o'.toUInt8 then number flags 8
  else if c = 'X'.toUInt8 then number { flags with large := true } 16
  else if c = 'x'.toUInt8 then number flags 16
  else if c = 'd'.toUInt8 ∨ c = 'i'.toUInt8 then number { flags with sign := true } 10
  else if c = 'u'.toUInt8 then number flags 10
  else if c ≠ 0 then (.chars ['%'.toUInt8, c], place.next)
  else (.chars ['%'.toUInt8], place)

/-- What stands behind a `%`. -/
def parseConversion (string : BitVec 32 → List UInt8) (args : ℕ → BitVec 32) (place : FormatPlace) :
    PrintItem × FormatPlace :=
  let (flags, fmt) := parseFlags place.fmt {}
  let (width, flags, place) := parseWidth args flags { place with fmt }
  let (precision, place) := parsePrecision args place
  let (qualifier, place) := parseQualifier place
  convert string args flags width precision qualifier place

section Places

variable (string : BitVec 32 → List UInt8) (args : ℕ → BitVec 32) (flags : PrintFlags) (place : FormatPlace)

theorem length_le_ite {α : Type} (rest : α → List UInt8) {condition : Prop} [Decidable condition] {x y : α} {n : ℕ}
    (left : (rest x).length ≤ n) (right : (rest y).length ≤ n) : (rest (if condition then x else y)).length ≤ n := by
  split
  · exact left
  · exact right

theorem skipAtoi_length_le (fmt : List UInt8) (i : ℤ) : (skipAtoi fmt i).2.length ≤ fmt.length := by
  induction fmt generalizing i with
  | nil => exact Nat.le_refl _
  | cons c rest ih =>
    rw [skipAtoi]
    split_ifs with isDigit
    · exact Nat.le_succ_of_le (ih _)
    · exact Nat.le_refl _

theorem parseFlags_length_le (fmt : List UInt8) : (parseFlags fmt flags).2.length ≤ fmt.length := by
  induction fmt generalizing flags with
  | nil => exact Nat.le_refl _
  | cons c rest ih =>
    rw [parseFlags]
    repeat' first
      | exact Nat.le_succ_of_le (ih _)
      | exact Nat.le_refl _
      | refine length_le_ite (fun pair : PrintFlags × List UInt8 => pair.2) ?_ ?_

theorem next_length_le : place.next.fmt.length ≤ place.fmt.length := by
  rw [FormatPlace.next, List.length_tail]
  exact Nat.sub_le _ _

theorem parseWidth_length_le : (parseWidth args flags place).2.2.fmt.length ≤ place.fmt.length := by
  rw [parseWidth]
  dsimp only
  split_ifs
  · exact skipAtoi_length_le _ _
  · exact next_length_le place
  · exact next_length_le place
  · exact Nat.le_refl _

theorem parsePrecision_length_le : (parsePrecision args place).2.fmt.length ≤ place.fmt.length := by
  rw [parsePrecision]
  split_ifs with dot
  · have behind := next_length_le place
    dsimp only
    split_ifs
    · exact Nat.le_trans (skipAtoi_length_le _ _) behind
    · exact Nat.le_trans (next_length_le _) behind
    · exact behind
  · exact Nat.le_refl _

theorem parseQualifier_length_le : (parseQualifier place).2.fmt.length ≤ place.fmt.length := by
  rw [parseQualifier]
  split_ifs
  · exact next_length_le place
  · exact Nat.le_refl _

theorem convert_length_le (width precision : ℤ) (qualifier : UInt8) :
    (convert string args flags width precision qualifier place).2.fmt.length ≤ place.fmt.length := by
  have behind := next_length_le place
  rw [convert]
  repeat' first
    | exact behind
    | exact Nat.le_refl _
    | refine length_le_ite (fun pair : PrintItem × FormatPlace => pair.2.fmt) ?_ ?_

theorem parseConversion_length_le : (parseConversion string args place).2.fmt.length ≤ place.fmt.length := by
  rw [parseConversion]
  dsimp only
  calc
    _ ≤ _ := convert_length_le _ _ _ _ _ _ _
    _ ≤ _ := parseQualifier_length_le _
    _ ≤ _ := parsePrecision_length_le _ _
    _ ≤ _ := parseWidth_length_le _ _ _
    _ ≤ _ := parseFlags_length_le _ _

end Places

def printItems (string : BitVec 32 → List UInt8) (args : ℕ → BitVec 32) (place : FormatPlace) : List PrintItem :=
  match _behind : place.fmt with
  | [] => []
  | c :: rest =>
    if c = 0 then []
    else if c = '%'.toUInt8 then
      (parseConversion string args { place with fmt := rest }).1 ::
        printItems string args (parseConversion string args { place with fmt := rest }).2
    else .chars [c] :: printItems string args { place with fmt := rest }
termination_by place.fmt.length
decreasing_by
  · rw [‹place.fmt = c :: rest›]
    exact Nat.lt_succ_of_le (parseConversion_length_le string args { place with fmt := rest })
  · rw [‹place.fmt = c :: rest›]
    exact Nat.lt_succ_self _

/-! ## The buffer -/

/-- The memory and `str`. -/
structure PrintBuffer where
  memory : BitVec 32 → UInt8
  str : BitVec 32

/-- `if (str <= end) *str = c; ++ str;`. -/
def bufferSink (end_ : BitVec 32) : Sink PrintBuffer UInt8 where
  fits out := decide (out.str ≤ end_)
  emit c out :=
    { memory := if out.str ≤ end_ then Function.update out.memory out.str c else out.memory
      str := out.str + 1 }

/-- `end`: the last byte of the buffer, or of the memory. -/
def bufferEnd (buf size : BitVec 32) : BitVec 32 :=
  let end_ := buf + size - 1
  if end_ < buf then -1 else end_

def printAll {σ : Type} (sink : Sink σ UInt8) (items : List PrintItem) (out : σ) : σ :=
  items.foldl (fun out item => item.print sink out) out

/-- `rt_vsnprintf`: the memory, and the value that is returned. -/
def rtVsnprintf (string : BitVec 32 → List UInt8) (memory : BitVec 32 → UInt8) (buf size : BitVec 32)
    (fmt : List UInt8) (args : ℕ → BitVec 32) : (BitVec 32 → UInt8) × ℤ :=
  let end_ := bufferEnd buf size
  let out := printAll (bufferSink end_) (printItems string args ⟨fmt, 0⟩) ⟨memory, buf⟩
  (Function.update out.memory (if out.str ≤ end_ then out.str else end_) 0, (out.str - buf).toInt)

def printText (string : BitVec 32 → List UInt8) (fmt : List UInt8) (args : ℕ → BitVec 32) : List UInt8 :=
  printAll Sink.list (printItems string args ⟨fmt, 0⟩) []

end RtThread
