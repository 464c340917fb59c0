import ShdslBridge.Kernel.PrintfPieces
import Mathlib.Data.Nat.Digits.Lemmas

/-! # Formatted integers

The integer conversions of `rt_vsnprintf` next to those of the C standard: digits to the precision, the sign, and
the field, filled with spaces on the left or on the right or with zeros behind the sign. `codeText` is the text that
is printed, `standardText` the one that the standard prescribes.
-/

namespace RtThread

/-! ## Integer conversions in a format -/

inductive FormatFlag
  | minus
  | plus
  | space
  | zero
  deriving DecidableEq

def FormatFlag.char : FormatFlag → UInt8
  | .minus => '-'.toUInt8
  | .plus => '+'.toUInt8
  | .space => ' '.toUInt8
  | .zero => '0'.toUInt8

inductive FieldNumber
  | digits (ds : List (Fin 10))
  | star

def decimalChar (d : Fin 10) : UInt8 := '0'.toUInt8 + UInt8.ofNat d.val

def FieldNumber.text : FieldNumber → List UInt8
  | .digits ds => ds.map decimalChar
  | .star => ['*'.toUInt8]

def FieldNumber.stars : FieldNumber → ℕ
  | .digits _ => 0
  | .star => 1

/-- A number with more digits behind it. -/
def decimalValue (n : ℕ) (ds : List (Fin 10)) : ℕ := ds.foldl (fun n d => n * 10 + d) n

def FieldNumber.value (arg : BitVec 32) : FieldNumber → ℤ
  | .digits ds => decimalValue 0 ds
  | .star => arg.toInt

inductive NumberConversion
  | d
  | i
  | u
  | x
  | X
  | o
  deriving DecidableEq

namespace NumberConversion

def char : NumberConversion → UInt8
  | .d => 'd'.toUInt8
  | .i => 'i'.toUInt8
  | .u => 'u'.toUInt8
  | .x => 'x'.toUInt8
  | .X => 'X'.toUInt8
  | .o => 'o'.toUInt8

def signed (conversion : NumberConversion) : Bool := conversion = .d || conversion = .i

def base : NumberConversion → ℕ
  | .x | .X => 16
  | .o => 8
  | _ => 10

def digits (conversion : NumberConversion) : List UInt8 := if conversion = .X then largeDigits else smallDigits

end NumberConversion

/-- An integer conversion. The width is missing if it has no digits; its first digit is not 0, which would be a
flag. -/
structure NumberFormat where
  flags : List FormatFlag
  width : FieldNumber
  precision : Option FieldNumber
  conversion : NumberConversion
  width_head : ∀ d ds, width = .digits (d :: ds) → d ≠ 0

namespace NumberFormat

def precisionText : Option FieldNumber → List UInt8
  | none => []
  | some precision => '.'.toUInt8 :: precision.text

def text (format : NumberFormat) : List UInt8 :=
  '%'.toUInt8 :: (format.flags.map FormatFlag.char ++
    (format.width.text ++ (precisionText format.precision ++ [format.conversion.char])))

variable (format : NumberFormat) (args : ℕ → BitVec 32)

def widthOf : ℤ := format.width.value (args 0)

def precisionOf : Option ℕ :=
  format.precision.bind fun precision =>
    let value := precision.value (args format.width.stars)
    if value < 0 then none else some value.toNat

/-- The argument that is printed. -/
def valueOf : BitVec 32 := args (format.width.stars + (format.precision.elim 0 FieldNumber.stars))

end NumberFormat

/-! ## The text of the C standard -/

/-- The digits of a number, none for 0. -/
def digitsOf (digits : List UInt8) (base n : ℕ) : List UInt8 :=
  ((Nat.digits base n).map fun d => digits.getD d 0).reverse

def extended (precision : ℕ) (ds : List UInt8) : List UInt8 :=
  List.replicate (precision - ds.length) '0'.toUInt8 ++ ds

def inField (left zeros : Bool) (width : ℕ) (sign body : List UInt8) : List UInt8 :=
  let fill := width - (sign.length + body.length)
  if left then sign ++ (body ++ List.replicate fill ' '.toUInt8)
  else if zeros then sign ++ (List.replicate fill '0'.toUInt8 ++ body)
  else List.replicate fill ' '.toUInt8 ++ (sign ++ body)

namespace NumberFormat

variable (format : NumberFormat) (args : ℕ → BitVec 32)

/-- The field begins with its text. -/
def leftOf : Bool := decide (.minus ∈ format.flags) || decide (format.widthOf args < 0)

def signOf : List UInt8 :=
  if format.conversion.signed then
    if (format.valueOf args).toInt < 0 then ['-'.toUInt8]
    else if .plus ∈ format.flags then ['+'.toUInt8]
    else if .space ∈ format.flags then [' '.toUInt8]
    else []
  else []

/-- The number without its sign. -/
def magnitudeOf : ℕ :=
  if format.conversion.signed then (format.valueOf args).toInt.natAbs else (format.valueOf args).toNat

/-- The text that the C standard prescribes: without a precision there is at least one digit, and the flag for
zeros counts only without a precision. -/
def standardText : List UInt8 :=
  let precision := format.precisionOf args
  inField (format.leftOf args) (decide (.zero ∈ format.flags) && precision.isNone) (format.widthOf args).natAbs
    (format.signOf args)
    (extended (precision.getD 1) (digitsOf format.conversion.digits format.conversion.base (format.magnitudeOf args)))

end NumberFormat

/-! ## The text of a number -/

theorem tmpDigits_eq (digits : List UInt8) (base num : ℕ) :
    tmpDigits digits base num = (Nat.digits (if base = 10 then 10 else 16) num).map fun d => digits.getD d 0 := by
  have two : 2 ≤ (if base = 10 then 10 else 16) := by split_ifs <;> decide
  fun_induction tmpDigits digits base num with
  | case1 => rw [Nat.digits_zero, List.map_nil]
  | case2 num positive ih =>
    rw [Nat.digits_def' two (Nat.pos_of_ne_zero positive), List.map_cons, ih]
    rw [divide]
    split_ifs <;> rfl

theorem drained_of_neg {size : ℤ} (none_ : size ≤ 0) (range : -2 ^ 30 ≤ size) : (drained size).toNat = 0 := by
  rw [drained, if_neg (by omega), int32_eq (by omega) (by omega)]
  omega

theorem drained_of_pos {size : ℤ} (positive : 0 < size) : drained size = -1 := if_pos positive

theorem drained_toNat {size : ℤ} (low : -2 ^ 30 ≤ size) : (drained size).toNat = 0 := by
  rcases lt_or_ge 0 size with positive | none_
  · rw [drained_of_pos positive]
    rfl
  · exact drained_of_neg none_ low

namespace NumberParts

variable {parts : NumberParts}

def signText (parts : NumberParts) : List UInt8 := if parts.sign ≠ 0 then [parts.sign] else []

theorem atSign_range (low : -2 ^ 29 < parts.size) (high : parts.size < 2 ^ 29) :
    -2 ^ 29 - 2 < parts.atSign ∧ parts.atSign < 2 ^ 29 := by
  rw [atSign, front]
  split_ifs with behind signed
  · omega
  · rw [drained]
    split_ifs
    · omega
    · rw [int32_eq (by omega) (by omega)]
      omega
  · rw [drained]
    split_ifs
    · omega
    · rw [int32_eq (by omega) (by omega)]
      omega

theorem behindSign_true (low : -2 ^ 29 < parts.size) (high : parts.size < 2 ^ 29) :
    parts.behindSign true = parts.atSign - parts.signText.length := by
  have range := atSign_range low high
  rw [behindSign, signText]
  by_cases signed : parts.sign ≠ 0
  · rw [if_pos signed, if_pos signed, if_pos rfl, int32_eq (by omega) (by omega)]
    rfl
  · rw [if_neg signed, if_neg signed]
    simp

theorem text_inField {width : ℤ}
    (size : parts.size = width - (parts.zeros + parts.tmp.length))
    (low : -2 ^ 29 < parts.size) (high : parts.size < 2 ^ 29) :
    parts.piece.text true =
      inField parts.left parts.zeropad width.toNat parts.signText
        (List.replicate parts.zeros '0'.toUInt8 ++ parts.tmp.reverse) := by
  have range := atSign_range low high
  have behind := behindSign_true low high
  have sign_le : parts.signText.length ≤ 1 := by
    rw [signText]
    split_ifs <;> simp
  have fill : width.toNat -
      (parts.signText.length + (List.replicate parts.zeros '0'.toUInt8 ++ parts.tmp.reverse).length) =
      (parts.size - parts.signText.length).toNat := by
    rw [List.length_append, List.length_replicate, List.length_reverse]
    omega
  rw [text_eq, ← signText, inField, fill, behind, rest]
  cases left : parts.left with
  | true =>
    have full : parts.padsBehind = true := by rw [padsBehind, left, Bool.or_true]
    rw [lead, atSign, if_pos full, if_pos full]
    simp
  | false =>
    have none_ : (drained (parts.atSign - parts.signText.length)).toNat = 0 := drained_toNat (by omega)
    simp only [none_, Bool.false_eq_true, if_false, List.replicate_zero, List.append_nil]
    cases zeros : parts.zeropad with
    | true =>
      have full : parts.padsBehind = true := by rw [padsBehind, zeros, Bool.true_or]
      rw [lead, atSign, if_pos full, if_pos full, pad, zeros]
      simp
    | false =>
      have before : ¬ parts.padsBehind = true := by rw [padsBehind, left, zeros]; decide
      have spent : (parts.atSign - parts.signText.length).toNat = 0 := by
        have drained_ : parts.atSign.toNat = 0 := by
          rw [atSign, if_neg before]
          refine drained_toNat ?_
          rw [front]
          split_ifs <;> omega
        omega
      have spaces : parts.front.toNat = (parts.size - parts.signText.length).toNat := by
        rw [front, signText]
        split_ifs <;> simp_all
        omega
      rw [lead, if_neg before, spent, spaces]
      simp

end NumberParts

def magnitude (flags : PrintFlags) (num : BitVec 32) : ℕ := if flags.sign then num.toInt.natAbs else num.toNat

theorem numberSign_snd (flags : PrintFlags) (num : BitVec 32) :
    (numberSign flags num).2.toNat = magnitude flags num := by
  rw [numberSign, magnitude]
  cases flags.sign with
  | false => rfl
  | true =>
    simp only [if_true]
    by_cases negative : num.toInt < 0
    · rw [if_pos negative, BitVec.toNat_neg]
      have split := BitVec.toInt_eq_toNat_cond num
      have bound := num.isLt
      split_ifs at split <;> omega
    · have positive : num.toInt.natAbs = num.toNat := by
        have split := BitVec.toInt_eq_toNat_cond num
        split_ifs at split <;> omega
      rw [if_neg negative, positive]
      split_ifs <;> rfl

/-- The digits that `print_number` prints without zeros in front: at least one. -/
theorem numberTmp_reverse (flags : PrintFlags) (base : ℕ) (num : BitVec 32) :
    (numberTmp flags base num).reverse = extended 1 (digitsOf (if flags.large then largeDigits else smallDigits)
      (if base = 10 then 10 else 16) num.toNat) := by
  rw [numberTmp, digitsOf, ← tmpDigits_eq]
  by_cases zero : num = 0
  · subst zero
    rw [if_pos rfl, show (0 : BitVec 32).toNat = 0 from rfl, tmpDigits]
    rfl
  · have nonempty := tmpDigits_ne_nil (if flags.large then largeDigits else smallDigits) base
      fun none_ => zero (BitVec.eq_of_toNat_eq none_)
    have long : 1 - (tmpDigits (if flags.large then largeDigits else smallDigits) base num.toNat).reverse.length =
        0 := by
      rw [List.length_reverse]
      exact Nat.sub_eq_zero_of_le (List.length_pos_of_ne_nil nonempty)
    rw [if_neg zero, extended, long]
    rfl

theorem extended_extended (precision : ℕ) (ds : List UInt8) :
    List.replicate (precision - (extended 1 ds).length) '0'.toUInt8 ++
        extended 1 ds = extended (max precision 1) ds := by
  have count : precision - (1 - ds.length + ds.length) + (1 - ds.length) = max precision 1 - ds.length := by omega
  rw [extended, extended, List.length_append, List.length_replicate, ← List.append_assoc, ← List.replicate_add, count]

theorem length_numberTmp_le (flags : PrintFlags) (base : ℕ) (num : BitVec 32) :
    (numberTmp flags base num).length ≤ 32 := by
  rw [numberTmp]
  split_ifs with zero
  · decide
  all_goals
    rw [tmpDigits_eq, List.length_map]
    split_ifs with ten
    · exact (Nat.digits_length_le_iff (by decide) _).mpr (num.isLt.trans (by decide))
    · exact (Nat.digits_length_le_iff (by decide) _).mpr (num.isLt.trans (by decide))

theorem signText_eq (num : BitVec 32) (base : ℕ) (width precision : ℤ) (flags : PrintFlags) :
    (numberParts num base width precision flags).signText =
      if (numberSign flags num).1 ≠ 0 then [(numberSign flags num).1] else [] := rfl

theorem inField_left (left zeros : Bool) (width : ℕ) (sign body : List UInt8) :
    inField left (zeros && !left) width sign body = inField left zeros width sign body := by
  cases left <;> simp [inField]

theorem number_text (flags : PrintFlags) (base : ℕ) {width precision : ℤ} (num : BitVec 32) (width_ge : -1 ≤ width)
    (width_lt : width < 10 ^ 6) (precision_lt : precision < 10 ^ 6) :
    (PrintItem.number flags base width precision num).text =
      inField flags.left flags.zeropad width.toNat
        (if (numberSign flags num).1 ≠ 0 then [(numberSign flags num).1] else [])
        (extended (max precision.toNat 1) (digitsOf (if flags.large then largeDigits else smallDigits)
          (if base = 10 then 10 else 16) (magnitude flags num))) := by
  have few := length_numberTmp_le flags base (numberSign flags num).2
  have small : int32 (width - max ((numberTmp flags base (numberSign flags num).2).length : ℤ) precision) =
      width - max ((numberTmp flags base (numberSign flags num).2).length : ℤ) precision :=
    int32_eq (by omega) (by omega)
  have size : (numberParts num base width precision flags).size =
      width - max ((numberTmp flags base (numberSign flags num).2).length : ℤ) precision := small
  have taken : (numberParts num base width precision flags).size =
      width - ((numberParts num base width precision flags).zeros +
          (numberParts num base width precision flags).tmp.length) := by
    rw [size, numberParts]
    dsimp only
    omega
  have text := NumberParts.text_inField taken (by omega) (by omega)
  have zeros : (numberParts num base width precision flags).zeros =
      precision.toNat - (extended 1 (digitsOf (if flags.large then largeDigits else smallDigits)
          (if base = 10 then 10 else 16) (magnitude flags num))).length := by
    rw [← numberSign_snd, ← numberTmp_reverse, List.length_reverse, numberParts]
    dsimp only
    omega
  change (numberParts num base width precision flags).piece.text true = _
  rw [text, signText_eq, zeros, show (numberParts num base width precision flags).tmp =
    numberTmp flags base (numberSign flags num).2 from rfl, numberTmp_reverse, numberSign_snd, extended_extended]
  exact inField_left _ _ _ _ _

/-! ## Reading a conversion -/

/-- The rest of a format that does not go on with a flag. -/
def NoFlag (tail : List UInt8) : Prop :=
  ∀ c ∈ tail.head?, c ∉ ['-', '+', ' ', '#', '0'].map Char.toUInt8

/-- The rest of a format that does not go on with a digit. -/
def NoDigit (tail : List UInt8) : Prop := ∀ c ∈ tail.head?, printDigit c = false

def PrintFlags.with_ (f : PrintFlags) (flags : List FormatFlag) : PrintFlags :=
  { f with
    left := f.left || decide (.minus ∈ flags)
    plus := f.plus || decide (.plus ∈ flags)
    space := f.space || decide (.space ∈ flags)
    zeropad := f.zeropad || decide (.zero ∈ flags) }

variable {tail : List UInt8}

theorem parseFlags_eq (noFlag : NoFlag tail) (flags : List FormatFlag) (f : PrintFlags) :
    parseFlags (flags.map FormatFlag.char ++ tail) f = (f.with_ flags, tail) := by
  induction flags generalizing f with
  | nil =>
    have same : f.with_ [] = f := by simp [PrintFlags.with_]
    rw [same, List.map_nil, List.nil_append]
    cases tail with
    | nil => rfl
    | cons c rest =>
      have other := noFlag c rfl
      simp only [List.map_cons, List.map_nil, List.mem_cons, List.not_mem_nil, or_false, not_or] at other
      obtain ⟨minus, plus, space, special, zero⟩ := other
      rw [parseFlags, if_neg minus, if_neg plus, if_neg space, if_neg special, if_neg zero]
  | cons flag flags ih =>
    rw [List.map_cons, List.cons_append, parseFlags]
    cases flag with
    | minus => rw [FormatFlag.char, if_pos rfl, ih]; simp [PrintFlags.with_]
    | plus => rw [FormatFlag.char, if_neg (by decide), if_pos rfl, ih]; simp [PrintFlags.with_]
    | space => rw [FormatFlag.char, if_neg (by decide), if_neg (by decide), if_pos rfl, ih]; simp [PrintFlags.with_]
    | zero =>
      rw [FormatFlag.char, if_neg (by decide), if_neg (by decide),
        if_neg (by decide), if_neg (by decide), if_pos rfl, ih]
      simp [PrintFlags.with_]

theorem decimalChar_noFlag : ∀ d : Fin 10, d ≠ 0 → decimalChar d ∉ ['-', '+', ' ', '#', '0'].map Char.toUInt8 := by
  decide

theorem decimalValue_ge (n : ℕ) (ds : List (Fin 10)) : n ≤ decimalValue n ds := by
  induction ds generalizing n with
  | nil => exact Nat.le_refl _
  | cons d ds ih =>
    have later : n * 10 + d ≤ decimalValue n (d :: ds) := ih _
    omega

theorem digit_facts (d : Fin 10) :
    printDigit (decimalChar d) = true ∧ (decimalChar d).toNat = '0'.toNat + d := by
  revert d
  decide

theorem skipAtoi_eq (noDigit : NoDigit tail) (ds : List (Fin 10)) {n : ℕ} (small : decimalValue n ds < 2 ^ 31) :
    skipAtoi (ds.map decimalChar ++ tail) n = ((decimalValue n ds : ℤ), tail) := by
  induction ds generalizing n with
  | nil =>
    rw [List.map_nil, List.nil_append]
    cases tail with
    | nil => rfl
    | cons c rest => rw [skipAtoi, if_neg (Bool.eq_false_iff.mp (noDigit c rfl))]; rfl
  | cons d ds ih =>
    obtain ⟨isDigit, value⟩ := digit_facts d
    have low : n * 10 + d < 2 ^ 31 := Nat.lt_of_le_of_lt (decimalValue_ge (n * 10 + d) ds) small
    have next : int32 ((n : ℤ) * 10 + ((decimalChar d).toNat : ℤ) - '0'.toNat) = ((n * 10 + d : ℕ) : ℤ) := by
      rw [value, int32_eq (by push_cast; omega) (by push_cast; omega)]
      push_cast
      omega
    rw [List.map_cons, List.cons_append, skipAtoi, if_pos isDigit, next]
    exact ih small

/-- The width of a format, as `field_width` and in the flags. -/
theorem parseWidth_eq {args : ℕ → BitVec 32} (noDigit : NoDigit tail) (noStar : ∀ c ∈ tail.head?, c ≠ '*'.toUInt8)
    {width : FieldNumber} (low : -10 ^ 6 < width.value (args 0)) (high : width.value (args 0) < 10 ^ 6)
    (flags : PrintFlags) :
    ∃ field : ℤ, -1 ≤ field ∧ field < 10 ^ 6 ∧ field.toNat = (width.value (args 0)).natAbs ∧
      parseWidth args flags ⟨width.text ++ tail, 0⟩ =
        (field, { flags with left := flags.left || decide (width.value (args 0) < 0) }, ⟨tail, width.stars⟩) := by
  cases width with
  | digits ds =>
    have notNeg : decide ((FieldNumber.digits ds).value (args 0) < 0) = false :=
      decide_eq_false (Int.not_lt.mpr (Int.natCast_nonneg _))
    rw [notNeg, Bool.or_false]
    cases ds with
    | nil =>
      refine ⟨-1, by decide, by decide, rfl, ?_⟩
      cases tail with
      | nil => rfl
      | cons c rest =>
        have digit : ¬ printDigit (FormatPlace.mk (c :: rest) 0).char = true := Bool.eq_false_iff.mp (noDigit c rfl)
        have star : ¬ (FormatPlace.mk (c :: rest) 0).char = '*'.toUInt8 := noStar c rfl
        exact (if_neg digit).trans (if_neg star)
    | cons d ds =>
      change (decimalValue 0 (d :: ds) : ℤ) < _ at high
      have small : decimalValue 0 (d :: ds) < 2 ^ 31 := by omega
      refine ⟨decimalValue 0 (d :: ds), by omega, high, rfl, ?_⟩
      have digit : printDigit (FormatPlace.mk ((FieldNumber.digits (d :: ds)).text ++ tail) 0).char = true :=
        (digit_facts d).1
      have read : skipAtoi (FormatPlace.mk ((FieldNumber.digits (d :: ds)).text ++ tail) 0).fmt 0 =
          ((decimalValue 0 (d :: ds) : ℤ), tail) := skipAtoi_eq noDigit (d :: ds) small
      rw [parseWidth, if_pos digit, read]
      rfl
  | star =>
    have star : (FormatPlace.mk (FieldNumber.star.text ++ tail) 0).char = '*'.toUInt8 := rfl
    have digit : ¬ printDigit '*'.toUInt8 = true := by decide
    change -10 ^ 6 < (args 0).toInt at low
    change (args 0).toInt < 10 ^ 6 at high
    rw [parseWidth, star, if_neg digit, if_pos rfl]
    by_cases negative : (args 0).toInt < 0
    · refine ⟨-(args 0).toInt, by omega, by omega, ?_, ?_⟩
      · change _ = (args 0).toInt.natAbs
        omega
      · have flag : decide (FieldNumber.star.value (args 0) < 0) = true := decide_eq_true negative
        rw [flag, Bool.or_true]
        dsimp only
        rw [if_pos negative, int32_eq (by omega) (by omega)]
        rfl
    · refine ⟨(args 0).toInt, by omega, high, ?_, ?_⟩
      · change _ = (args 0).toInt.natAbs
        omega
      · have flag : decide (FieldNumber.star.value (args 0) < 0) = false := decide_eq_false negative
        rw [flag, Bool.or_false]
        dsimp only
        rw [if_neg negative]
        rfl

theorem parsePrecision_eq {args : ℕ → BitVec 32}
    (conversion : NumberConversion) (index : ℕ) (precision : Option FieldNumber)
    (high : ∀ number ∈ precision, number.value (args index) < 10 ^ 6) :
    ∃ field : ℤ, field < 10 ^ 6 ∧
      max field.toNat 1 = max ((precision.bind fun number =>
        let value := number.value (args index)
        if value < 0 then none else some value.toNat).getD 1) 1 ∧
      parsePrecision args ⟨NumberFormat.precisionText precision ++ [conversion.char], index⟩ =
        (field, ⟨[conversion.char], index + precision.elim 0 FieldNumber.stars⟩) := by
  have noDigit : NoDigit [conversion.char] := by
    intro c head
    obtain rfl := Option.some.inj head
    cases conversion <;> decide
  cases precision with
  | none =>
    have noDot : ¬ conversion.char = '.'.toUInt8 := by cases conversion <;> decide
    exact ⟨-1, by decide, rfl, if_neg noDot⟩
  | some number =>
    have bound := high number rfl
    have next : (FormatPlace.mk (NumberFormat.precisionText (some number) ++ [conversion.char]) index).next =
        ⟨number.text ++ [conversion.char], index⟩ := rfl
    have dot : (FormatPlace.mk (NumberFormat.precisionText (some number) ++ [conversion.char]) index).char =
        '.'.toUInt8 := rfl
    rw [parsePrecision, if_pos dot, next]
    cases number with
    | digits ds =>
      have notNeg : ¬ (decimalValue 0 ds : ℤ) < 0 := Int.not_lt.mpr (Int.natCast_nonneg _)
      have small : decimalValue 0 ds < 2 ^ 31 := by
        change (decimalValue 0 ds : ℤ) < _ at bound
        omega
      refine ⟨decimalValue 0 ds, bound, ?_, ?_⟩
      · change _ = max ((if (decimalValue 0 ds : ℤ) < 0 then none else some _).getD 1) 1
        rw [if_neg notNeg]
        rfl
      cases ds with
      | nil =>
        have first : (FormatPlace.mk ((FieldNumber.digits []).text ++ [conversion.char]) index).char =
            conversion.char := rfl
        have digit : ¬ printDigit conversion.char = true := by cases conversion <;> decide
        have star : ¬ conversion.char = '*'.toUInt8 := by cases conversion <;> decide
        have negative : (-1 : ℤ) < 0 := by decide
        dsimp only
        rw [first, if_neg digit, if_neg star]
        dsimp only
        rw [if_pos negative]
        rfl
      | cons d ds =>
        have read : skipAtoi ((d :: ds).map decimalChar ++ [conversion.char]) 0 =
            ((decimalValue 0 (d :: ds) : ℤ), [conversion.char]) := skipAtoi_eq noDigit (d :: ds) small
        have digit : printDigit (FormatPlace.mk ((d :: ds).map decimalChar ++ [conversion.char]) index).char = true :=
          (digit_facts d).1
        dsimp only [FieldNumber.text]
        rw [if_pos digit, read]
        dsimp only
        rw [if_neg notNeg]
        rfl
    | star =>
      have digit : ¬ printDigit '*'.toUInt8 = true := by decide
      have star : (FormatPlace.mk (FieldNumber.star.text ++ [conversion.char]) index).char = '*'.toUInt8 := rfl
      change (args index).toInt < _ at bound
      dsimp only
      rw [star, if_neg digit, if_pos rfl]
      dsimp only
      by_cases negative : (args index).toInt < 0
      · refine ⟨0, by decide, ?_, ?_⟩
        · change _ = max ((if (args index).toInt < 0 then none else some _).getD 1) 1
          rw [if_pos negative]
          rfl
        · rw [if_pos negative]
          rfl
      · refine ⟨(args index).toInt, bound, ?_, ?_⟩
        · change _ = max ((if (args index).toInt < 0 then none else some _).getD 1) 1
          rw [if_neg negative]
          rfl
        · rw [if_neg negative]
          rfl

def NumberConversion.setFlags (conversion : NumberConversion) (flags : PrintFlags) : PrintFlags :=
  match conversion with
  | .d | .i => { flags with sign := true }
  | .X => { flags with large := true }
  | _ => flags

theorem convert_eq (string : BitVec 32 → List UInt8) (args : ℕ → BitVec 32) (flags : PrintFlags) (width precision : ℤ)
    (conversion : NumberConversion) (index : ℕ) :
    convert string args flags width precision 0 ⟨[conversion.char], index⟩ =
      (.number (conversion.setFlags flags) conversion.base width precision (args index), ⟨[], index + 1⟩) := by
  cases conversion <;> rfl

theorem printItems_nil (string : BitVec 32 → List UInt8) (args : ℕ → BitVec 32) (index : ℕ) :
    printItems string args ⟨[], index⟩ = [] := by
  rw [printItems]

theorem printItems_percent (string : BitVec 32 → List UInt8) (args : ℕ → BitVec 32) (rest : List UInt8) (index : ℕ) :
    printItems string args ⟨'%'.toUInt8 :: rest, index⟩ =
      (parseConversion string args ⟨rest, index⟩).1 ::
        printItems string args (parseConversion string args ⟨rest, index⟩).2 := by
  have notNul : ¬ '%'.toUInt8 = 0 := by decide
  rw [printItems]
  dsimp only
  rw [if_neg notNul, if_pos rfl]

namespace NumberFormat

variable (format : NumberFormat) (args : ℕ → BitVec 32)

/-- The text that `rt_vsnprintf` produces: `divide` takes any base but 10 for 16, there is at least one digit with
any precision, and the flag for zeros always counts. -/
def codeText : List UInt8 :=
  inField (format.leftOf args) (decide (.zero ∈ format.flags)) (format.widthOf args).natAbs (format.signOf args)
    (extended (max ((format.precisionOf args).getD 1) 1)
      (digitsOf format.conversion.digits (if format.conversion.base = 10 then 10 else 16) (format.magnitudeOf args)))

variable {format args}

variable (format args) in
def itemFlags : PrintFlags :=
  format.conversion.setFlags { ({} : PrintFlags).with_ format.flags with left := format.leftOf args }

theorem itemFlags_sign : (format.itemFlags args).sign = format.conversion.signed := by
  rw [itemFlags]
  cases format.conversion <;> rfl

theorem itemFlags_left : (format.itemFlags args).left = format.leftOf args := by
  rw [itemFlags]
  cases format.conversion <;> rfl

theorem itemFlags_plus : (format.itemFlags args).plus = decide (.plus ∈ format.flags) := by
  rw [itemFlags]
  cases format.conversion <;> exact Bool.false_or _

theorem itemFlags_space : (format.itemFlags args).space = decide (.space ∈ format.flags) := by
  rw [itemFlags]
  cases format.conversion <;> exact Bool.false_or _

theorem itemFlags_zeropad : (format.itemFlags args).zeropad = decide (.zero ∈ format.flags) := by
  rw [itemFlags]
  cases format.conversion <;> exact Bool.false_or _

theorem itemFlags_large :
    (if (format.itemFlags args).large then largeDigits else smallDigits) = format.conversion.digits := by
  rw [itemFlags]
  cases format.conversion <;> rfl

theorem numberSign_eq :
    (if (numberSign (format.itemFlags args) (format.valueOf args)).1 ≠ 0 then
      [(numberSign (format.itemFlags args) (format.valueOf args)).1] else []) = format.signOf args := by
  have minus : '-'.toUInt8 ≠ 0 := by decide
  have plus : '+'.toUInt8 ≠ 0 := by decide
  have space : ' '.toUInt8 ≠ 0 := by decide
  rw [numberSign, signOf, itemFlags_sign, itemFlags_plus, itemFlags_space]
  simp only [decide_eq_true_eq]
  split_ifs <;> simp_all

theorem noFlag_behind (format : NumberFormat) :
    NoFlag (format.width.text ++ (precisionText format.precision ++ [format.conversion.char])) := by
  have noFlagConversion : NoFlag [format.conversion.char] := by
    intro c head
    obtain rfl := Option.some.inj head
    cases format.conversion <;> decide
  have noFlagPrecision : NoFlag (precisionText format.precision ++ [format.conversion.char]) := by
    cases format.precision with
    | none => exact noFlagConversion
    | some number =>
      intro c head
      obtain rfl := Option.some.inj head
      decide
  cases width : format.width with
  | star =>
    intro c head
    obtain rfl := Option.some.inj head
    decide
  | digits ds =>
    cases ds with
    | nil => exact noFlagPrecision
    | cons d ds =>
      intro c head
      obtain rfl := Option.some.inj head
      exact decimalChar_noFlag d (format.width_head d ds width)

theorem noDigit_behind (format : NumberFormat) :
    NoDigit (precisionText format.precision ++ [format.conversion.char]) ∧
      ∀ c ∈ (precisionText format.precision ++ [format.conversion.char]).head?, c ≠ '*'.toUInt8 := by
  cases format.precision with
  | none =>
    constructor
    all_goals
      intro c head
      obtain rfl := Option.some.inj head
      cases format.conversion <;> decide
  | some number =>
    constructor
    all_goals
      intro c head
      obtain rfl := Option.some.inj head
      decide

theorem printItems_eq (string : BitVec 32 → List UInt8) (low : -10 ^ 6 < format.widthOf args)
    (high : format.widthOf args < 10 ^ 6)
    (precision_lt : ∀ number ∈ format.precision, number.value (args format.width.stars) < 10 ^ 6) :
    ∃ width precision, -1 ≤ width ∧ width < 10 ^ 6 ∧ width.toNat = (format.widthOf args).natAbs ∧
      precision < 10 ^ 6 ∧ max precision.toNat 1 = max ((format.precisionOf args).getD 1) 1 ∧
      printItems string args ⟨format.text, 0⟩ =
        [.number (format.itemFlags args) format.conversion.base width precision (format.valueOf args)] := by
  obtain ⟨noDigit, noStar⟩ := noDigit_behind format
  obtain ⟨width, width_ge, width_lt, width_eq, readWidth⟩ := parseWidth_eq noDigit noStar low high
    (({} : PrintFlags).with_ format.flags)
  obtain ⟨precision, precision_lt, precision_eq, readPrecision⟩ := parsePrecision_eq format.conversion
    format.width.stars format.precision precision_lt
  refine ⟨width, precision, width_ge, width_lt, width_eq, precision_lt, precision_eq, ?_⟩
  have readFlags := parseFlags_eq (noFlag_behind format) format.flags {}
  have qualifier (index : ℕ) :
      parseQualifier ⟨[format.conversion.char], index⟩ = (0, ⟨[format.conversion.char], index⟩) := by
    cases format.conversion <;> rfl
  have read : parseConversion string args ⟨format.text.tail, 0⟩ =
      (.number (format.itemFlags args) format.conversion.base width precision (format.valueOf args),
        ⟨[], format.width.stars + format.precision.elim 0 FieldNumber.stars + 1⟩) := by
    rw [parseConversion, text, List.tail_cons, readFlags]
    dsimp only
    rw [readWidth]
    dsimp only
    rw [readPrecision]
    dsimp only
    rw [qualifier]
    dsimp only
    rw [convert_eq]
    rfl
  have split : format.text = '%'.toUInt8 :: format.text.tail := rfl
  rw [split, printItems_percent, read, printItems_nil]

theorem printText_eq_codeText (string : BitVec 32 → List UInt8) (low : -10 ^ 6 < format.widthOf args)
    (high : format.widthOf args < 10 ^ 6)
    (precision_lt : ∀ number ∈ format.precision, number.value (args format.width.stars) < 10 ^ 6) :
    printText string format.text args = format.codeText args := by
  obtain ⟨width, precision, width_ge, width_lt, width_eq, precision_lt, precision_eq, items⟩ :=
    printItems_eq string low high precision_lt
  have one : itemsText [PrintItem.number (format.itemFlags args) format.conversion.base width precision
      (format.valueOf args)] = (PrintItem.number (format.itemFlags args) format.conversion.base width precision
      (format.valueOf args)).text := List.append_nil _
  have value : magnitude (format.itemFlags args) (format.valueOf args) = format.magnitudeOf args := by
    rw [magnitude, magnitudeOf, itemFlags_sign]
  rw [printText_eq, items, one, number_text _ _ _ width_ge width_lt precision_lt, numberSign_eq, itemFlags_left,
    itemFlags_zeropad, itemFlags_large, width_eq, precision_eq, value, codeText]

end NumberFormat

end RtThread
