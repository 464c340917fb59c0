import ShdslBridge.Kernel.PrintfNumbers
import ShdslBridge.Kernel.PrintfTruncation

/-! # Formatted integers and the C standard

`rtVsnprintf_number_iff` says where an integer conversion prints what the C standard prescribes. `divide` knows no
base 8, a zero with precision 0 is printed as a digit, and the flag for zeros is not ignored when there is a
precision. The digits and the spaces of the two texts tell these cases apart.
-/

namespace RtThread

/-! ## Both texts -/

def isDigitChar (c : UInt8) : Bool := smallDigits.contains c || largeDigits.contains c

section Digits

variable {digits : List UInt8} (table : digits = smallDigits ∨ digits = largeDigits)

include table

theorem digitChar_facts {d : ℕ} (small : d < 16) :
    isDigitChar (digits.getD d 0) = true ∧ digits.getD d 0 ≠ ' '.toUInt8 ∧ (digits.getD d 0 = '0'.toUInt8 → d = 0) := by
  have all : ∀ d < 16, ∀ digits ∈ [smallDigits, largeDigits], isDigitChar (digits.getD d 0) = true ∧
      digits.getD d 0 ≠ ' '.toUInt8 ∧ (digits.getD d 0 = '0'.toUInt8 → d = 0) := by decide
  exact all d small digits (by simpa using table)

theorem digitChar_injective {d e : ℕ} (small : d < 16) (small' : e < 16) (same : digits.getD d 0 = digits.getD e 0) :
    d = e := by
  have all : ∀ digits ∈ [smallDigits, largeDigits], ∀ d < 16, ∀ e < 16, digits.getD d 0 = digits.getD e 0 → d = e := by
    decide
  exact all digits (by simpa using table) d small e small' same

theorem map_digitChar_injective {ds es : List ℕ} (small : ∀ d ∈ ds, d < 16) (small' : ∀ e ∈ es, e < 16)
    (same : (ds.map fun d => digits.getD d 0) = es.map fun e => digits.getD e 0) : ds = es := by
  induction ds generalizing es with
  | nil => exact (List.map_eq_nil_iff.mp same.symm).symm
  | cons d ds ih =>
    cases es with
    | nil => exact absurd same (List.cons_ne_nil _ _)
    | cons e es =>
      obtain ⟨head, tail⟩ := List.cons.inj same
      rw [digitChar_injective table (small d List.mem_cons_self) (small' e List.mem_cons_self) head,
        ih (fun d member => small d (List.mem_cons_of_mem _ member))
          (fun e member => small' e (List.mem_cons_of_mem _ member)) tail]

variable {base : ℕ} (based : 1 < base) (base_le : base ≤ 16)

include based base_le

theorem mem_digitsOf {n : ℕ} {c : UInt8} (member : c ∈ digitsOf digits base n) :
    isDigitChar c = true ∧ c ≠ ' '.toUInt8 := by
  rw [digitsOf, List.mem_reverse, List.mem_map] at member
  obtain ⟨d, digit, rfl⟩ := member
  have facts := digitChar_facts table (Nat.lt_of_lt_of_le (Nat.digits_lt_base based digit) base_le)
  exact ⟨facts.1, facts.2.1⟩

theorem mem_extended {precision n : ℕ} {c : UInt8} (member : c ∈ extended precision (digitsOf digits base n)) :
    isDigitChar c = true ∧ c ≠ ' '.toUInt8 := by
  rcases List.mem_append.mp member with zero | digit
  · rw [List.eq_of_mem_replicate zero]
    decide
  · exact mem_digitsOf table based base_le digit

theorem dropWhile_digitsOf (n : ℕ) :
    (digitsOf digits base n).dropWhile (· == '0'.toUInt8) = digitsOf digits base n := by
  cases found : digitsOf digits base n with
  | nil => rfl
  | cons c rest =>
    have nonempty : Nat.digits base n ≠ [] := by
      intro none_
      rw [digitsOf, none_] at found
      exact List.cons_ne_nil _ _ found.symm
    have positive : n ≠ 0 := Nat.digits_ne_nil_iff_ne_zero.mp nonempty
    have first : c = digits.getD ((Nat.digits base n).getLast nonempty) 0 := by
      have head := congrArg List.head? found
      rw [digitsOf, List.head?_reverse, List.getLast?_map, List.getLast?_eq_some_getLast nonempty] at head
      exact (Option.some.inj head).symm
    have digit := Nat.digits_lt_base based (List.getLast_mem nonempty)
    have notZero : c ≠ '0'.toUInt8 := fun zero =>
      Nat.getLast_digit_ne_zero base positive
        ((digitChar_facts table (Nat.lt_of_lt_of_le digit base_le)).2.2 (first ▸ zero))
    rw [List.dropWhile_cons_of_neg (by simpa using notZero)]

end Digits

theorem digits_eight_ne {n : ℕ} (large : 8 ≤ n) : Nat.digits 8 n ≠ Nat.digits 16 n := by
  intro same
  have octal := Nat.ofDigits_digits 8 n
  have hex := Nat.ofDigits_digits 16 n
  rw [← same] at hex
  rw [Nat.digits_def' (by decide) (by omega)] at octal hex
  rw [Nat.ofDigits_cons] at octal hex
  have more := Nat.ofDigits_monotone (Nat.digits 8 (n / 8)) (show 8 ≤ 16 by decide)
  have eighth := Nat.ofDigits_digits 8 (n / 8)
  omega

theorem digits_eight_eq {n : ℕ} (small : n < 8) : Nat.digits 8 n = Nat.digits 16 n := by
  rcases Nat.eq_zero_or_pos n with rfl | positive
  · rw [Nat.digits_zero, Nat.digits_zero]
  · rw [Nat.digits_of_lt 8 n (by omega) small, Nat.digits_of_lt 16 n (by omega) (by omega)]

section Field

variable {left zeros : Bool} {width : ℕ} {sign body : List UInt8}

theorem filter_inField (plain : ∀ c ∈ sign, isDigitChar c = false) (figures : ∀ c ∈ body, isDigitChar c = true) :
    (inField left zeros width sign body).filter isDigitChar =
      List.replicate (if !left && zeros then width - (sign.length + body.length) else 0) '0'.toUInt8 ++ body := by
  have zero : isDigitChar '0'.toUInt8 = true := by decide
  have space : isDigitChar ' '.toUInt8 = false := by decide
  have none_ : sign.filter isDigitChar = [] :=
    List.filter_eq_nil_iff.mpr fun c member => Bool.eq_false_iff.mp (plain c member)
  have all : body.filter isDigitChar = body := List.filter_eq_self.mpr figures
  rw [inField]
  cases left <;> cases zeros <;> simp [List.filter_append, none_, all, zero, space]

theorem count_inField (figures : ∀ c ∈ body, c ≠ ' '.toUInt8) :
    (inField left zeros width sign body).count ' '.toUInt8 =
      sign.count ' '.toUInt8 + if !left && zeros then 0 else width - (sign.length + body.length) := by
  have none_ : body.count ' '.toUInt8 = 0 := List.count_eq_zero_of_not_mem fun member => figures _ member rfl
  have zero : ('0'.toUInt8 == ' '.toUInt8) = false := by decide
  rw [inField]
  cases left <;> cases zeros <;> simp [List.count_append, List.count_replicate, none_, zero]
  omega

end Field

theorem dropWhile_zeros (k : ℕ) (ds : List UInt8) :
    (List.replicate k '0'.toUInt8 ++ ds).dropWhile (· == '0'.toUInt8) = ds.dropWhile (· == '0'.toUInt8) := by
  induction k with
  | zero => rfl
  | succ k ih =>
    rw [List.replicate_succ, List.cons_append, List.dropWhile_cons_of_pos (by decide), ih]

namespace NumberFormat

variable (format : NumberFormat) (args : ℕ → BitVec 32)

/-- What `rt_vsnprintf` gets right: not the octal digits from 8 on, not a zero with precision 0, and not a field
that is filled with zeros in spite of a precision. -/
structure Agrees : Prop where
  octal : format.conversion = .o → format.magnitudeOf args < 8
  nothing : format.precisionOf args = some 0 → format.magnitudeOf args ≠ 0
  filled : .zero ∈ format.flags → format.leftOf args = false → ∀ precision, format.precisionOf args = some precision →
    (format.widthOf args).natAbs ≤ (format.signOf args).length +
      (extended precision (digitsOf format.conversion.digits format.conversion.base (format.magnitudeOf args))).length

variable {format args}

theorem base_facts (conversion : NumberConversion) : 1 < conversion.base ∧ conversion.base ≤ 16 ∧
    1 < (if conversion.base = 10 then 10 else 16) ∧ (if conversion.base = 10 then 10 else 16) ≤ 16 := by
  cases conversion <;> decide

theorem table_eq (conversion : NumberConversion) :
    conversion.digits = smallDigits ∨ conversion.digits = largeDigits := by
  cases conversion <;> decide

theorem mem_signOf {c : UInt8} (member : c ∈ format.signOf args) : isDigitChar c = false := by
  rw [signOf] at member
  split_ifs at member
  all_goals first
    | (rw [List.mem_singleton.mp member]; decide)
    | exact absurd member List.not_mem_nil

theorem digits_eq (octal : format.conversion = .o → format.magnitudeOf args < 8) :
    digitsOf format.conversion.digits (if format.conversion.base = 10 then 10 else 16) (format.magnitudeOf args) =
      digitsOf format.conversion.digits format.conversion.base (format.magnitudeOf args) := by
  cases conversion : format.conversion with
  | o =>
    have same := digits_eight_eq (octal conversion)
    rw [digitsOf, digitsOf, NumberConversion.base, if_neg (by decide), same]
  | d => rfl
  | i => rfl
  | u => rfl
  | x => rfl
  | X => rfl

theorem standardText_of_agrees (agrees : format.Agrees args) : format.codeText args = format.standardText args := by
  obtain ⟨octal, nothing, filled⟩ := agrees
  rw [codeText, standardText, digits_eq octal]
  have body : extended (max ((format.precisionOf args).getD 1) 1)
      (digitsOf format.conversion.digits format.conversion.base (format.magnitudeOf args)) =
      extended ((format.precisionOf args).getD 1)
        (digitsOf format.conversion.digits format.conversion.base (format.magnitudeOf args)) := by
    rcases Nat.eq_zero_or_pos ((format.precisionOf args).getD 1) with zero | positive
    · have precision : format.precisionOf args = some 0 := by
        cases precision : format.precisionOf args with
        | none => rw [precision] at zero; exact absurd zero (by decide)
        | some value => rw [precision] at zero; exact congrArg some zero
      have digits : 0 < (digitsOf format.conversion.digits
          format.conversion.base (format.magnitudeOf args)).length := by
        rw [digitsOf, List.length_reverse, List.length_map]
        exact List.length_pos_of_ne_nil (Nat.digits_ne_nil_iff_ne_zero.mpr (nothing precision))
      rw [zero, extended, extended, Nat.sub_eq_zero_of_le (show max 0 1 ≤ _ by omega), Nat.zero_sub]
    · rw [Nat.max_eq_left positive]
  rw [body]
  cases precision : format.precisionOf args with
  | none => simp
  | some value =>
    by_cases zero : .zero ∈ format.flags
    · cases left : format.leftOf args with
      | true => simp [inField]
      | false =>
        have full := filled zero left value precision
        simp [inField, zero, Nat.sub_eq_zero_of_le full]
    · simp [zero]

theorem agrees_of_standardText (same : format.codeText args = format.standardText args) : format.Agrees args := by
  obtain ⟨based, base_le, based', base_le'⟩ := base_facts format.conversion
  have table := table_eq format.conversion
  have figures (c : UInt8) (member : c ∈ extended (max ((format.precisionOf args).getD 1) 1)
      (digitsOf format.conversion.digits
      (if format.conversion.base = 10 then 10 else 16) (format.magnitudeOf args))) :=
        mem_extended table based' base_le' member
  have figures' (c : UInt8) (member : c ∈ extended ((format.precisionOf args).getD 1) (digitsOf format.conversion.digits
      format.conversion.base (format.magnitudeOf args))) := mem_extended table based base_le member
  have filtered := congrArg (List.filter isDigitChar) same
  rw [codeText, standardText, filter_inField (fun _ => mem_signOf) fun c member => (figures c member).1] at filtered
  rw [filter_inField (fun _ => mem_signOf) fun c member => (figures' c member).1] at filtered
  have counted := congrArg (List.count ' '.toUInt8) same
  rw [codeText, standardText, count_inField fun c member => (figures c member).2] at counted
  rw [count_inField fun c member => (figures' c member).2] at counted
  constructor
  · intro octal
    by_contra large
    have dropped := congrArg (List.dropWhile (· == '0'.toUInt8)) filtered
    rw [dropWhile_zeros, dropWhile_zeros, extended, extended, dropWhile_zeros, dropWhile_zeros,
      dropWhile_digitsOf table based base_le, dropWhile_digitsOf table based' base_le'] at dropped
    have lists := map_digitChar_injective table
      (fun d digit => Nat.lt_of_lt_of_le (Nat.digits_lt_base based' digit) base_le')
      (fun d digit => Nat.lt_of_lt_of_le (Nat.digits_lt_base based digit) base_le) (List.reverse_injective dropped)
    rw [octal, NumberConversion.base, if_neg (by decide)] at lists
    exact digits_eight_ne (Nat.not_lt.mp large) lists.symm
  · intro precision zero
    rw [precision, zero] at filtered
    simp [digitsOf, extended] at filtered
  · intro zero left value precision
    by_contra wide
    simp [zero, left, precision] at counted
    omega

theorem codeText_eq_iff : format.codeText args = format.standardText args ↔ format.Agrees args :=
  ⟨agrees_of_standardText, standardText_of_agrees⟩

theorem length_extended_le (precision : ℕ) (ds : List UInt8) :
    (extended precision ds).length ≤ precision + ds.length := by
  rw [extended, List.length_append, List.length_replicate]
  omega

theorem length_inField_le (left zeros : Bool) (width : ℕ) (sign body : List UInt8) :
    (inField left zeros width sign body).length ≤ width + (sign.length + body.length) := by
  rw [inField]
  cases left <;> cases zeros <;> simp <;> omega

theorem nul_not_mem_inField {left zeros : Bool} {width : ℕ} {body : List UInt8}
    (figures : ∀ c ∈ body, isDigitChar c = true) : 0 ∉ inField left zeros width (format.signOf args) body := by
  have sign : 0 ∉ format.signOf args := by
    rw [signOf]
    split_ifs <;> decide
  have noDigit : 0 ∉ body := fun member => absurd (figures 0 member) (by decide)
  have space (k : ℕ) : 0 ∉ List.replicate k ' '.toUInt8 := fun member =>
    absurd (List.eq_of_mem_replicate member) (by decide)
  have zero (k : ℕ) : 0 ∉ List.replicate k '0'.toUInt8 := fun member =>
    absurd (List.eq_of_mem_replicate member) (by decide)
  rw [inField]
  cases left <;> cases zeros <;> simp only [List.mem_append, not_or, Bool.false_eq_true, if_true, if_false]
  · exact ⟨space _, sign, noDigit⟩
  · exact ⟨sign, zero _, noDigit⟩
  · exact ⟨sign, noDigit, space _⟩
  · exact ⟨sign, noDigit, space _⟩

theorem nul_not_mem_codeText : 0 ∉ format.codeText args :=
  nul_not_mem_inField fun _ member =>
    (mem_extended (table_eq _) (base_facts format.conversion).2.2.1 (base_facts format.conversion).2.2.2 member).1

theorem nul_not_mem_standardText : 0 ∉ format.standardText args :=
  nul_not_mem_inField fun _ member =>
    (mem_extended (table_eq _) (base_facts format.conversion).1 (base_facts format.conversion).2.1 member).1

theorem length_codeText_lt (low : -10 ^ 6 < format.widthOf args) (high : format.widthOf args < 10 ^ 6)
    (precision_lt : ∀ number ∈ format.precision, number.value (args format.width.stars) < 10 ^ 6) :
    (format.codeText args).length < 2 ^ 31 := by
  have sign : (format.signOf args).length ≤ 1 := by
    rw [signOf]
    split_ifs <;> simp
  have magnitude_lt : format.magnitudeOf args < 2 ^ 32 := by
    have bound := (format.valueOf args).isLt
    have split := BitVec.toInt_eq_toNat_cond (format.valueOf args)
    rw [magnitudeOf]
    split_ifs at split ⊢ <;> omega
  have digits : (digitsOf format.conversion.digits (if format.conversion.base = 10 then 10 else 16)
      (format.magnitudeOf args)).length ≤ 32 := by
    obtain ⟨-, -, based, -⟩ := base_facts format.conversion
    rw [digitsOf, List.length_reverse, List.length_map]
    refine (Nat.digits_length_le_iff based _).mpr (magnitude_lt.trans_le ?_)
    exact Nat.pow_le_pow_left based 32
  have precision : (format.precisionOf args).getD 1 < 10 ^ 6 := by
    rw [precisionOf]
    cases given : format.precision with
    | none => exact (by decide : 1 < 10 ^ 6)
    | some number =>
      have bound := precision_lt number given
      dsimp only [Option.bind_some]
      split_ifs with negative
      · decide
      · change (number.value (args format.width.stars)).toNat < 10 ^ 6
        omega
  have body := length_extended_le (max ((format.precisionOf args).getD 1) 1) (digitsOf format.conversion.digits
    (if format.conversion.base = 10 then 10 else 16) (format.magnitudeOf args))
  have all := length_inField_le (format.leftOf args) (decide (.zero ∈ format.flags)) (format.widthOf args).natAbs
    (format.signOf args) (extended (max ((format.precisionOf args).getD 1) 1) (digitsOf format.conversion.digits
      (if format.conversion.base = 10 then 10 else 16) (format.magnitudeOf args)))
  rw [codeText]
  omega

end NumberFormat

def HoldsText (memory : BitVec 32 → UInt8) (buf : BitVec 32) (text : List UInt8) : Prop :=
  (∀ k c, text[k]? = some c → memory (buf + BitVec.ofNat 32 k) = c) ∧ memory (buf + BitVec.ofNat 32 text.length) = 0

theorem HoldsText.unique {memory : BitVec 32 → UInt8} {buf : BitVec 32} {text other : List UInt8}
    (held : HoldsText memory buf text) (held' : HoldsText memory buf other) (noNul : 0 ∉ text) (noNul' : 0 ∉ other) :
    text = other := by
  have shorter {front back : List UInt8} (held : HoldsText memory buf front) (held' : HoldsText memory buf back)
      (noNul : 0 ∉ back) : back.length ≤ front.length := by
    by_contra longer
    have inside := Nat.not_le.mp longer
    have cell := held'.1 front.length back[front.length] (List.getElem?_eq_getElem inside)
    rw [held.2] at cell
    exact noNul (cell ▸ List.getElem_mem inside)
  have same := Nat.le_antisymm (shorter held' held noNul) (shorter held held' noNul')
  apply List.ext_getElem same
  intro k inside inside'
  rw [← held.1 k text[k] (List.getElem?_eq_getElem inside), held'.1 k other[k] (List.getElem?_eq_getElem inside')]

/-- In a buffer that is large enough, an integer conversion prints what the C standard prescribes if and only if
it is none of the three exceptions. -/
theorem rtVsnprintf_number_iff (string : BitVec 32 → List UInt8) (memory : BitVec 32 → UInt8) (buf size : BitVec 32)
    (args : ℕ → BitVec 32) (format : NumberFormat) (width_gt : -10 ^ 6 < format.widthOf args)
    (width_lt : format.widthOf args < 10 ^ 6)
    (precision_lt : ∀ number ∈ format.precision, number.value (args format.width.stars) < 10 ^ 6)
    (inside : buf.toNat + size.toNat ≤ 2 ^ 32) (room : (printText string format.text args).length < size.toNat) :
    HoldsText (rtVsnprintf string memory buf size format.text args).1 buf (format.standardText args) ↔
      format.Agrees args := by
  have text := format.printText_eq_codeText string width_gt width_lt precision_lt
  have short : (printText string format.text args).length < 2 ^ 31 := by
    rw [text]
    exact format.length_codeText_lt width_gt width_lt precision_lt
  have sized : size ≠ 0 := by
    rintro rfl
    exact Nat.not_lt_zero _ room
  have below : buf.toNat + (printText string format.text args).length < 2 ^ 32 := by omega
  have printed := truncatesText_of_boundedText memory sized
    (boundedText_eq sized below short (signsFit_of_length room)) below short
  have held : HoldsText (rtVsnprintf string memory buf size format.text args).1 buf (format.codeText args) := by
    have all : (printText string format.text args).take (size.toNat - 1) = printText string format.text args :=
      List.take_of_length_le (by omega)
    obtain ⟨-, -, stored, terminated⟩ := printed
    rw [all, text] at stored terminated
    exact ⟨stored, terminated (by omega)⟩
  rw [← NumberFormat.codeText_eq_iff]
  constructor
  · intro standard
    exact held.unique standard NumberFormat.nul_not_mem_codeText NumberFormat.nul_not_mem_standardText
  · intro same
    exact same ▸ held

/-- `"%+06d"`. -/
def signedFormat : NumberFormat where
  flags := [.plus, .zero]
  width := .digits [6]
  precision := none
  conversion := .d
  width_head := by
    intro d ds same
    obtain ⟨rfl, -⟩ := List.cons.inj (FieldNumber.digits.inj same)
    decide

/-- `"%+06d"` of -42 is `"-00042"`. -/
theorem rtVsnprintf_number_iff_signed :
    HoldsText (rtVsnprintf (fun _ => []) (fun _ => 1) 0x100 20 signedFormat.text fun _ => -42).1 0x100
      (signedFormat.standardText fun _ => -42) :=
  (rtVsnprintf_number_iff (fun _ => []) (fun _ => 1) 0x100 20 (fun _ => -42) signedFormat (by decide) (by decide)
    (fun _ none_ => nomatch none_) (by decide) (by decide +kernel)).mpr
    ⟨(fun octal => nomatch octal), (fun none_ => nomatch none_), fun _ _ _ none_ => nomatch none_⟩

/-- `"%o"`. -/
def octalFormat : NumberFormat where
  flags := []
  width := .digits []
  precision := none
  conversion := .o
  width_head := fun _ _ same => nomatch same

/-- `"%o"` of 8 is `"10"` in the C standard and `"8"` here. -/
theorem octal_not_standard :
    ¬ HoldsText (rtVsnprintf (fun _ => []) (fun _ => 1) 0x100 20 octalFormat.text fun _ => 8).1 0x100
      (octalFormat.standardText fun _ => 8) := by
  intro held
  have first := held.1 0 '1'.toUInt8 (by decide +kernel)
  exact absurd first (by decide +kernel)

end RtThread
