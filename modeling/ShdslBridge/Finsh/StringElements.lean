import ShdslBridge.Finsh.NumberLiterals

/-! # The elements of a string literal

A C string literal is a list of characters and escapes, each of which stands for a byte. `decode` says which bytes
`token_proc_escape` makes of them: an octal or a hexadecimal escape takes every character behind it that passes the
test of its loop, and the letters of a hexadecimal escape are characters of their own.

`decodable_of_decode` says that the lexer has no second way to the right bytes: characters that an escape has swallowed
are never made up for by the letters of another one.
-/

namespace Finsh

/-- A character or an escape between the quotes. -/
inductive StringElement
  | plain (ch : UInt8)
  | simple (letter : UInt8)
  | octal (digits : List UInt8)
  | hex (digits : List UInt8)

def simpleEscape (letter : UInt8) : Option UInt8 :=
  if letter = '\\'.toUInt8 ∨ letter = '"'.toUInt8 then some letter else Lexer.stringEscape letter

namespace StringElement

def text : StringElement → List UInt8
  | plain ch => [ch]
  | simple letter => ['\\'.toUInt8, letter]
  | octal digits => '\\'.toUInt8 :: digits
  | hex digits => '\\'.toUInt8 :: 'x'.toUInt8 :: digits

def number : StringElement → ℕ
  | plain _ | simple _ => 0
  | octal digits => NumberBase.octal.value digits
  | hex digits => (NumberBase.hex false).value digits

def value : StringElement → UInt8
  | plain ch => ch
  | simple letter => (simpleEscape letter).getD 0
  | octal digits => UInt8.ofNat (octal digits).number
  | hex digits => UInt8.ofNat (hex digits).number

/-- The elements of C that stand for a byte other than NUL. -/
def Valid : StringElement → Prop
  | plain ch => ch ≠ 0 ∧ ch ≠ '\n'.toUInt8 ∧ ch ≠ '"'.toUInt8 ∧ ch ≠ '\\'.toUInt8
  | simple letter => (simpleEscape letter).isSome
  | octal digits =>
    digits ≠ [] ∧ digits.length ≤ 3 ∧ (∀ ch ∈ digits, NumberBase.octal.IsDigit ch) ∧ (octal digits).number < 256 ∧
      (octal digits).number ≠ 0
  | hex digits =>
    digits ≠ [] ∧ (∀ ch ∈ digits, (NumberBase.hex false).IsDigit ch) ∧ (hex digits).number < 256 ∧
      (hex digits).number ≠ 0

end StringElement

open StringElement

def takePlain (test : UInt8 → Bool) : List StringElement → List UInt8
  | plain ch :: rest => if test ch then ch :: takePlain test rest else []
  | _ => []

/-- What is behind them. -/
def dropPlain (test : UInt8 → Bool) : List StringElement → List StringElement
  | plain ch :: rest => if test ch then dropPlain test rest else plain ch :: rest
  | elements => elements

/-- No character is swallowed. -/
def noSkip (_ : UInt8) : Bool := false

theorem not_noSkip (ch : UInt8) : ¬ noSkip ch = true := Bool.false_ne_true

@[simp] theorem dropPlain_noSkip (elements : List StringElement) : dropPlain noSkip elements = elements := by
  rcases elements with - | ⟨- | - | - | -, -⟩ <;> rfl

/-- The bytes that the lexer makes of the elements. Characters at the beginning that pass the test are swallowed. -/
def decode : (UInt8 → Bool) → List StringElement → List UInt8
  | _, [] => []
  | skip, plain ch :: rest => if skip ch then decode skip rest else ch :: decode noSkip rest
  | _, simple letter :: rest => (Lexer.stringEscape letter).getD 0 :: decode noSkip rest
  | _, octal digits :: rest => Lexer.digitsValue 8 (digits ++ takePlain isOctal rest) :: decode isOctal rest
  | _, hex digits :: rest =>
    if digits.all isHex then Lexer.digitsValue 16 (digits ++ takePlain isHex rest) :: decode isHex rest
    else Lexer.digitsValue 16 (digits.takeWhile isHex) :: digits.dropWhile isHex ++ decode noSkip rest

/-- The literals that the lexer reads: no `\\` and no `\"`, no octal escape in front of one more octal digit, and no
hexadecimal escape with a letter or in front of one of the characters from `:` to `?`. -/
def Decodable : List StringElement → Prop
  | [] => True
  | plain _ :: rest => Decodable rest
  | simple letter :: rest => letter ≠ '\\'.toUInt8 ∧ letter ≠ '"'.toUInt8 ∧ Decodable rest
  | octal _ :: rest => takePlain isOctal rest = [] ∧ Decodable rest
  | hex digits :: rest => digits.all isHex ∧ takePlain isHex rest = [] ∧ Decodable rest

/-- The elements are those of C. -/
def ValidElements (elements : List StringElement) : Prop := ∀ element ∈ elements, element.Valid

theorem stringEscape_letter : ∀ letter : UInt8, (simpleEscape letter).isSome →
    ∃ byte, simpleEscape letter = some byte ∧ byte ≠ 0 ∧
    (letter ≠ '\\'.toUInt8 ∧ letter ≠ '"'.toUInt8 → Lexer.stringEscape letter = some byte) ∧
    (letter = '\\'.toUInt8 ∨ letter = '"'.toUInt8 → Lexer.stringEscape letter = none) :=
  forall_byte (by decide +kernel)

theorem StringElement.Valid.value_ne_zero {element : StringElement} (valid : element.Valid) : element.value ≠ 0 := by
  have small {n : ℕ} (lt : n < 256) (ne : n ≠ 0) : UInt8.ofNat n ≠ 0 := by
    intro zero
    have same := congrArg UInt8.toNat zero
    rw [UInt8.toNat_ofNat', Nat.mod_eq_of_lt lt] at same
    exact ne same
  cases element with
  | plain ch => exact valid.1
  | simple letter =>
    obtain ⟨byte, escape, ne, -⟩ := stringEscape_letter letter valid
    rw [value, escape]
    exact ne
  | octal digits => exact small valid.2.2.2.1 valid.2.2.2.2
  | hex digits => exact small valid.2.2.1 valid.2.2.2

/-- A digit of an escape passes the test of its loop if it is no letter. It begins nothing else. -/
theorem escape_digit : ∀ ch : UInt8,
    ((∃ v ∈ digitValue ch, v < 8) → isOctal ch = true ∧ ch - '0'.toUInt8 = UInt8.ofNat ((digitValue ch).getD 0) ∧
      Lexer.stringEscape ch = none ∧ ch ≠ 'x'.toUInt8) ∧
      ((∃ v ∈ digitValue ch, v < 16) → (ch ≠ '"'.toUInt8 ∧ ch ≠ '\\'.toUInt8) ∧
        (isHex ch = true → ch - '0'.toUInt8 = UInt8.ofNat ((digitValue ch).getD 0)) ∧
          (isHex ch = false → 10 ≤ (digitValue ch).getD 0 ∧
            ∀ high : Fin 16, ch ≠ UInt8.ofNat (high.val * 16 + (digitValue ch).getD 0))) :=
  forall_byte (by decide +kernel)

variable {digits : List UInt8} {elements : List StringElement}

/-- The loops of `token_proc_escape` compute the number of their digits. -/
theorem digitsValue_eq {base : UInt8} (digit : ∀ ch ∈ digits, ch - '0'.toUInt8 = UInt8.ofNat ((digitValue ch).getD 0)) :
    Lexer.digitsValue base digits =
      UInt8.ofNat (digits.foldl (fun v ch => v * base.toNat + (digitValue ch).getD 0) 0) := by
  have fold (n : ℕ) : digits.foldl (fun result ch => result * base + (ch - '0'.toUInt8)) (UInt8.ofNat n) =
      UInt8.ofNat (digits.foldl (fun v ch => v * base.toNat + (digitValue ch).getD 0) n) := by
    induction digits generalizing n with
    | nil => rfl
    | cons ch rest ih =>
      obtain ⟨first, later⟩ := List.forall_mem_cons.mp digit
      rw [List.foldl_cons, List.foldl_cons, first, ← ih later]
      congr 1
      rw [UInt8.ofNat_add, UInt8.ofNat_mul, UInt8.ofNat_toNat]
  exact fold 0

theorem le_foldl_digits (radix : ℕ) (positive : 0 < radix) (digits : List UInt8) (n : ℕ) :
    n ≤ digits.foldl (fun v ch => v * radix + (digitValue ch).getD 0) n := by
  induction digits generalizing n with
  | nil => exact le_rfl
  | cons ch rest ih =>
    rw [List.foldl_cons]
    have first : n ≤ n * radix := Nat.le_mul_of_pos_right n positive
    have later := ih (n * radix + (digitValue ch).getD 0)
    omega

/-- A hexadecimal escape with a letter: what the loop takes is smaller than its number, and a nonzero digit in front
of the letter leaves room for no other digit. -/
theorem hex_letter (valid : (hex digits).Valid) (letter : ¬ digits.all isHex = true) :
    ∃ n ch more, Lexer.digitsValue 16 (digits.takeWhile isHex) = UInt8.ofNat n ∧ digits.dropWhile isHex = ch :: more ∧
      n < (hex digits).number ∧
      (n ≠ 0 → more = [] ∧ ch ≠ (hex digits).value) := by
  obtain ⟨-, isDigit, small, -⟩ := valid
  have whole : digits.takeWhile isHex ++ digits.dropWhile isHex = digits := List.takeWhile_append_dropWhile
  have front (ch : UInt8) (member : ch ∈ digits.takeWhile isHex) :
      ch - '0'.toUInt8 = UInt8.ofNat ((digitValue ch).getD 0) :=
    ((escape_digit ch).2 (isDigit ch (List.takeWhile_subset _ member))).2.1 (List.mem_takeWhile_imp member)
  cases behind : digits.dropWhile isHex with
  | nil =>
    refine absurd ?_ letter
    rw [behind, List.append_nil] at whole
    rw [← whole]
    exact List.all_eq_true.mpr fun ch member => List.mem_takeWhile_imp member
  | cons ch more =>
    have fails : isHex ch = false := by
      have head := List.head_dropWhile_not isHex (by rw [behind]; exact List.cons_ne_nil _ _)
      simpa [behind] using head
    have member : ch ∈ digits := by
      rw [← whole, behind]
      simp
    have high := (((escape_digit ch).2 (isDigit ch member)).2.2 fails).1
    refine ⟨_, ch, more, digitsValue_eq front, rfl, ?_⟩
    generalize total : (hex digits).number = sum at small ⊢
    have sum_eq : sum = more.foldl (fun v ch => v * 16 + (digitValue ch).getD 0)
        ((digits.takeWhile isHex).foldl (fun v ch => v * 16 + (digitValue ch).getD 0)
            0 * 16 + (digitValue ch).getD 0) := by
      rw [← total, number, NumberBase.value, ← List.foldl_cons, ← List.foldl_append, ← behind, whole]
      rfl
    change (digits.takeWhile isHex).foldl (fun v ch => v * 16 + (digitValue ch).getD 0) 0 < sum ∧
      ((digits.takeWhile isHex).foldl (fun v ch => v * 16 + (digitValue ch).getD 0) 0 ≠ 0 → _)
    generalize (digits.takeWhile isHex).foldl (fun v ch => v * 16 + (digitValue ch).getD 0) 0 = n at sum_eq ⊢
    have least := le_foldl_digits 16 (by decide) more (n * 16 + (digitValue ch).getD 0)
    rw [← sum_eq] at least
    refine ⟨by omega, fun ne => ?_⟩
    have none_ : more = [] := by
      cases more with
      | nil => rfl
      | cons next more =>
        have larger := le_foldl_digits 16 (by decide) more
          ((n * 16 + (digitValue ch).getD 0) * 16 + (digitValue next).getD 0)
        rw [List.foldl_cons] at sum_eq
        omega
    refine ⟨none_, ?_⟩
    rw [none_, List.foldl_nil] at sum_eq
    rw [value, total, sum_eq]
    exact (((escape_digit ch).2 (isDigit ch member)).2.2 fails).2 ⟨n, by omega⟩

def values (elements : List StringElement) : List UInt8 := elements.map value

theorem decode_ne (valid : ValidElements elements) {skip : UInt8 → Bool} {late : List UInt8}
    (nonzero : ∀ byte ∈ late, byte ≠ 0) (behind : late ≠ [] ∨ takePlain skip elements ≠ []) (more : List UInt8) :
    decode skip elements ≠ late ++ (values elements ++ more) := by
  induction elements generalizing skip late with
  | nil =>
    have lateSome : late ≠ [] := behind.resolve_right (not_not.mpr rfl)
    exact fun same => List.append_ne_nil_of_left_ne_nil lateSome _ same.symm
  | cons element rest ih =>
    obtain ⟨first, others⟩ := List.forall_mem_cons.mp valid
    -- a byte of the lexer for the first late one, and the next byte is late
    have rotate {byte : UInt8} {test : UInt8 → Bool} (lateSome : late ≠ []) :
        byte :: decode test rest ≠ late ++ (element.value :: (values rest ++ more)) := by
      obtain ⟨head, tail, rfl⟩ := List.exists_cons_of_ne_nil lateSome
      obtain ⟨-, tail_nonzero⟩ := List.forall_mem_cons.mp nonzero
      intro same
      obtain ⟨-, same⟩ := List.cons.inj same
      have next : ∀ byte ∈ tail ++ [element.value], byte ≠ 0 :=
        List.forall_mem_append.mpr ⟨tail_nonzero, List.forall_mem_singleton.mpr first.value_ne_zero⟩
      exact ih others next (.inl (by simp)) (same.trans (by simp))
    change decode skip (element :: rest) ≠ late ++ (element.value :: (values rest ++ more))
    cases element with
    | plain ch =>
      rw [decode]
      by_cases skipped : skip ch = true
      · rw [if_pos skipped]
        intro same
        have next : ∀ byte ∈ late ++ [ch], byte ≠ 0 :=
          List.forall_mem_append.mpr ⟨nonzero, List.forall_mem_singleton.mpr first.value_ne_zero⟩
        exact ih others next (.inl (by simp)) (same.trans (by simp [value]))
      · rw [if_neg skipped]
        rw [takePlain, if_neg skipped] at behind
        exact rotate (behind.resolve_right (not_not.mpr rfl))
    | simple letter => exact rotate (behind.resolve_right (not_not.mpr rfl))
    | octal digits => exact rotate (behind.resolve_right (not_not.mpr rfl))
    | hex digits =>
      have lateSome : late ≠ [] := behind.resolve_right (not_not.mpr rfl)
      rw [decode]
      by_cases decimal : digits.all isHex = true
      · rw [if_pos decimal]
        exact rotate lateSome
      · rw [if_neg decimal]
        obtain ⟨n, ch, tail, taken, left, -, alone⟩ := hex_letter first decimal
        rw [taken, left]
        obtain ⟨head, late, rfl⟩ := List.exists_cons_of_ne_nil lateSome
        obtain ⟨head_nonzero, nonzero⟩ := List.forall_mem_cons.mp nonzero
        intro same
        obtain ⟨zero, same⟩ := List.cons.inj same
        obtain ⟨rfl, other⟩ := alone fun none_ => head_nonzero (zero ▸ none_ ▸ rfl)
        cases late with
        | nil => exact other (List.cons.inj same).1
        | cons next late =>
          obtain ⟨-, nonzero⟩ := List.forall_mem_cons.mp nonzero
          obtain ⟨-, same⟩ := List.cons.inj same
          have next : ∀ byte ∈ late ++ [(hex digits).value], byte ≠ 0 :=
            List.forall_mem_append.mpr ⟨nonzero, List.forall_mem_singleton.mpr first.value_ne_zero⟩
          exact ih others next (.inl (by simp)) (same.trans (by simp))

/-- Without a character that is swallowed the elements are decoded as they are. -/
theorem decode_of_none {skip : UInt8 → Bool} (none_ : takePlain skip elements = []) :
    decode skip elements = decode noSkip elements := by
  cases elements with
  | nil => rfl
  | cons element rest =>
    cases element with
    | plain ch =>
      rw [takePlain] at none_
      split at none_
      · cases none_
      · next stays =>
        rw [decode, decode, if_neg stays, if_neg (not_noSkip _)]
    | simple | octal | hex => rfl

theorem octal_value (valid : (octal digits).Valid) :
    Lexer.digitsValue 8 digits = (octal digits).value :=
  digitsValue_eq fun ch member => ((escape_digit ch).1 (valid.2.2.1 ch member)).2.1

theorem hex_value (valid : (hex digits).Valid) (decimal : digits.all isHex = true) :
    Lexer.digitsValue 16 digits = (hex digits).value :=
  digitsValue_eq fun ch member => ((escape_digit ch).2 (valid.2.1 ch member)).2.1 (List.all_eq_true.mp decimal ch member)

theorem decode_of_decodable (valid : ValidElements elements) (decodable : Decodable elements) :
    decode noSkip elements = values elements := by
  induction elements with
  | nil => rfl
  | cons element rest ih =>
    obtain ⟨first, others⟩ := List.forall_mem_cons.mp valid
    rw [values, List.map_cons]
    cases element with
    | plain ch =>
      rw [decode, if_neg (not_noSkip _), ih others decodable]
      rfl
    | simple letter =>
      obtain ⟨backslash, quote, decodable⟩ := decodable
      obtain ⟨byte, escape, -, same, -⟩ := stringEscape_letter letter first
      rw [decode, ih others decodable, same ⟨backslash, quote⟩, value, escape]
      rfl
    | octal digits =>
      obtain ⟨none_, decodable⟩ := decodable
      rw [decode, none_, List.append_nil, octal_value first, decode_of_none none_, ih others decodable]
      rfl
    | hex digits =>
      obtain ⟨decimal, none_, decodable⟩ := decodable
      rw [decode, if_pos decimal, none_, List.append_nil, hex_value first decimal, decode_of_none none_,
        ih others decodable]
      rfl

/-- No other elements are decoded to the right bytes, whatever follows these. -/
theorem decodable_of_decode (valid : ValidElements elements) {more : List UInt8}
    (decoded : decode noSkip elements = values elements ++ more) : Decodable elements := by
  induction elements with
  | nil => trivial
  | cons element rest ih =>
    obtain ⟨first, others⟩ := List.forall_mem_cons.mp valid
    change decode noSkip (element :: rest) = element.value :: (values rest ++ more) at decoded
    -- a loop that swallows nothing
    have swallows {test : UInt8 → Bool} (same : decode test rest = values rest ++ more) :
        takePlain test rest = [] ∧ Decodable rest := by
      have none_ : takePlain test rest = [] :=
        by_contra fun lateSome => decode_ne others (show ∀ byte ∈ ([] : List UInt8),
          byte ≠ 0 from nofun) (.inr lateSome) more same
      exact ⟨none_, ih others ((decode_of_none none_).symm.trans same)⟩
    cases element with
    | plain ch =>
      rw [decode, if_neg (not_noSkip _)] at decoded
      exact ih others (List.cons.inj decoded).2
    | simple letter =>
      obtain ⟨byte, escape, ne, -, wrong⟩ := stringEscape_letter letter first
      rw [decode] at decoded
      obtain ⟨head, decoded⟩ := List.cons.inj decoded
      have good : ¬ (letter = '\\'.toUInt8 ∨ letter = '"'.toUInt8) := by
        intro bad
        rw [wrong bad, value, escape] at head
        exact ne head.symm
      exact ⟨(not_or.mp good).1, (not_or.mp good).2, ih others decoded⟩
    | octal digits =>
      rw [decode] at decoded
      exact swallows (List.cons.inj decoded).2
    | hex digits =>
      rw [decode] at decoded
      by_cases decimal : digits.all isHex = true
      · rw [if_pos decimal] at decoded
        exact ⟨decimal, swallows (List.cons.inj decoded).2⟩
      · rw [if_neg decimal] at decoded
        obtain ⟨n, ch, tail, taken, -, smaller, -⟩ := hex_letter first decimal
        obtain ⟨head, -⟩ := List.cons.inj decoded
        rw [taken, value] at head
        have same := congrArg UInt8.toNat head
        have bound := first.2.2.1
        rw [UInt8.toNat_ofNat', UInt8.toNat_ofNat', Nat.mod_eq_of_lt (by omega), Nat.mod_eq_of_lt bound] at same
        omega

end Finsh
