import ShdslBridge.Finsh.LexerReads
import Mathlib.Algebra.Group.Nat.Defs

/-! # Number literals

What `token_proc_number` makes of the number literals of its comment. `run_number_iff` says for which of them the
lexer yields the value: a `0` with a suffix is cut in front of it, a hexadecimal literal takes its suffix for a digit,
and the digits behind a prefix go into a buffer of 128 bytes.
-/

namespace Finsh

/-- What a literal begins with. -/
inductive NumberBase
  | decimal
  | octal
  | hex (upper : Bool)
  | binary (upper : Bool)
  deriving DecidableEq

def digitValue (ch : UInt8) : Option ℕ :=
  if isDigit ch then some (ch.toNat - 48)
  else if 'a'.toUInt8 ≤ ch ∧ ch ≤ 'f'.toUInt8 then some (ch.toNat - 97 + 10)
  else if 'A'.toUInt8 ≤ ch ∧ ch ≤ 'F'.toUInt8 then some (ch.toNat - 65 + 10)
  else none

namespace NumberBase

def radix : NumberBase → ℕ
  | decimal => 10
  | octal => 8
  | hex _ => 16
  | binary _ => 2

def start : NumberBase → List UInt8
  | decimal => []
  | octal => ascii ['0']
  | hex upper => if upper then ascii ['0', 'X'] else ascii ['0', 'x']
  | binary upper => if upper then ascii ['0', 'B'] else ascii ['0', 'b']

def IsDigit (base : NumberBase) (ch : UInt8) : Prop := ∃ v ∈ digitValue ch, v < base.radix

def value (base : NumberBase) (digits : List UInt8) : ℕ :=
  digits.foldl (fun v ch => v * base.radix + (digitValue ch).getD 0) 0

end NumberBase

/-- A number literal. Only the literal `0` is a decimal one that begins with `0`. -/
structure NumberLiteral where
  base : NumberBase
  digits : List UInt8
  suffix : Option UInt8
  digits_ne_nil : digits ≠ []
  isDigit : ∀ ch ∈ digits, base.IsDigit ch
  leading : base = .decimal → digits.head? = some '0'.toUInt8 → digits = ['0'.toUInt8]
  isSuffix : ∀ ch ∈ suffix, ch = 'l'.toUInt8 ∨ ch = 'L'.toUInt8

namespace NumberLiteral

def text (number : NumberLiteral) : List UInt8 := number.base.start ++ number.digits ++ number.suffix.toList

def value (number : NumberLiteral) : ℕ := number.base.value number.digits

/-- The literals that the lexer reads: not `0` with a suffix, not a hexadecimal one with a suffix, and not more than
127 digits behind a prefix. -/
def Readable (number : NumberLiteral) : Prop :=
  match number.base with
  | .decimal => number.digits = ['0'.toUInt8] → number.suffix = none
  | .octal | .binary _ => number.digits.length < finshStringMax
  | .hex _ => number.digits.length < finshStringMax ∧ number.suffix = none

end NumberLiteral

theorem ofDigit : ∀ ch : UInt8, isDigit ch = true →
    isBlank ch = false ∧ singleToken ch = none ∧ doubleToken ch = none ∧ ch ≠ '\''.toUInt8 ∧ ch ≠ '"'.toUInt8 :=
  forall_byte (by decide +kernel)

namespace Lexer

variable {l : Lexer}

theorem run_of_digit {ch : UInt8} {chars : List UInt8} (left : l.rest = ch :: chars) (digit : isDigit ch = true) :
    l.run = procNumber { l with string := Function.update l.string 0 0 } := by
  have open_ := eof_of_rest left
  obtain ⟨blank, single, double, quote, doubleQuote⟩ := ofDigit ch digit
  let t : Lexer := { l with string := Function.update l.string 0 0 }
  have same : t.rest = ch :: chars := left
  have back : (t.skip 1).prevChar = t := prevChar_skip (l := t) open_ 0
  have other : t.runOther = t.procNumber := by
    rw [runOther, nextChar_of_cons same]
    dsimp only
    rw [single]
    dsimp only
    rw [double]
    dsimp only
    rw [if_neg quote, if_neg doubleQuote, if_pos digit, back]
  rw [run, trimSpace_of_cons left blank, getString_of_digit left digit]
  change (if t.eof then _ else if t.string 0 ≠ 0 then _ else t.runOther) = _
  rw [if_neg (by simp [t, open_]), if_neg (by simp [t]), other]

def withNumber (l : Lexer) (value : BitVec 32) (long : Bool) : Lexer :=
  { l with value, currentToken := if long then .valueLong else .valueInt }

theorem procSuffix_of_suffix {ch : UInt8} {chars : List UInt8} (left : l.rest = ch :: chars)
    (suffix : ch = 'l'.toUInt8 ∨ ch = 'L'.toUInt8) (value : BitVec 32) :
    procSuffix l.nextChar.1 { l.nextChar.2 with value, currentToken := .valueInt } =
        (l.skip 1).withNumber value true := by
  rw [nextChar_of_cons left, procSuffix, if_pos suffix]
  rfl

theorem procSuffix_of_other (other : ∀ ch ∈ l.rest.head?, ch ≠ 'l'.toUInt8 ∧ ch ≠ 'L'.toUInt8) (value : BitVec 32) :
    procSuffix l.nextChar.1 { l.nextChar.2 with value, currentToken := .valueInt } =
        l.settled.withNumber value false := by
  cases left : l.rest with
  | nil =>
    rw [nextChar_of_nil left, procSuffix, if_neg (show ¬ ((0 : UInt8) = _ ∨ (0 : UInt8) = _) by decide),
      settled_of_nil left]
    simp [prevChar, l.ended_eof, withNumber]
  | cons ch chars =>
    obtain ⟨lower, upper⟩ := other ch (by rw [left]; rfl)
    have open_ := eof_of_rest left
    rw [nextChar_of_cons left, procSuffix, if_neg (not_or.mpr ⟨lower, upper⟩), settled_of_ne_nil (by simp [left])]
    simp [prevChar, skip, open_, withNumber]

theorem procDigits_eq {test : UInt8 → Bool} (nul : test 0 = false) (shift : ℕ) (l : Lexer) :
    procDigits test shift l.nextChar =
      let digits := l.rest.takeWhile test
      let t := l.skip digits.length
      if digits.length < finshStringMax then
        some (procSuffix t.nextChar.1
          { t.nextChar.2 with value := tokenSpecNumber digits shift, currentToken := .valueInt })
      else none := by
  rw [procDigits, nextChar_rounds, takeChars_rounds nul]

theorem procDecimal_eq (l : Lexer) :
    procDecimal l.nextChar =
      let digits := l.rest.takeWhile isDigit
      let t := l.skip digits.length
      procSuffix t.nextChar.1
        { t.nextChar.2 with
          value := digits.foldl (fun v ch => v * 10 + BitVec.ofNat 32 (ch.toNat - 48)) 0,
              currentToken := .valueInt } := by
  rw [procDecimal, nextChar_rounds, takeChars_rounds (by decide)]

/-- A digit of a literal is the digit that `token_spec_number` computes, and up to `9` the one of the decimal loop. -/
theorem digit_value : ∀ ch : UInt8,
    (∀ v ∈ digitValue ch, specDigit ch = BitVec.ofNat 32 v) ∧
      ((∃ v ∈ digitValue ch, v < 10) → isDigit ch = true ∧ ch.toNat - 48 = (digitValue ch).getD 0) :=
  forall_byte (by decide +kernel)

theorem tokenSpecNumber_eq {radix shift : ℕ} (power : radix = 2 ^ shift) {digits : List UInt8}
    (isDigit : ∀ ch ∈ digits, ∃ v ∈ digitValue ch, v < radix) :
    tokenSpecNumber digits shift =
      BitVec.ofNat 32 (digits.foldl (fun v ch => v * radix + (digitValue ch).getD 0) 0) := by
  have fold (n : ℕ) : digits.foldl (fun (v : BitVec 32) t => (v <<< shift) ||| specDigit t) (BitVec.ofNat 32 n) =
      BitVec.ofNat 32 (digits.foldl (fun v ch => v * radix + (digitValue ch).getD 0) n) := by
    induction digits generalizing n with
    | nil => rfl
    | cons ch rest ih =>
      obtain ⟨first, later⟩ := List.forall_mem_cons.mp isDigit
      obtain ⟨v, digit, small⟩ := first
      have step : (BitVec.ofNat 32 n <<< shift) ||| specDigit ch =
          BitVec.ofNat 32 (n * radix + (digitValue ch).getD 0) := by
        rw [(digit_value ch).1 v digit, Option.mem_def.mp digit, Option.getD_some, power, ← Nat.shiftLeft_eq,
          Nat.shiftLeft_add_eq_or_of_lt (power ▸ small), BitVec.ofNat_or]
        congr 1
        apply BitVec.eq_of_toNat_eq
        simp [Nat.shiftLeft_eq, Nat.mod_mul_mod]
      rw [List.foldl_cons, List.foldl_cons, step, ih later]
  exact fold 0

theorem decimal_foldl_eq {digits : List UInt8} (isDigit : ∀ ch ∈ digits, ∃ v ∈ digitValue ch, v < 10) :
    digits.foldl (fun v ch => v * 10 + BitVec.ofNat 32 (ch.toNat - 48)) 0 =
      BitVec.ofNat 32 (digits.foldl (fun v ch => v * 10 + (digitValue ch).getD 0) 0) := by
  have fold (n : ℕ) : digits.foldl (fun v ch => v * 10 + BitVec.ofNat 32 (ch.toNat - 48)) (BitVec.ofNat 32 n) =
      BitVec.ofNat 32 (digits.foldl (fun v ch => v * 10 + (digitValue ch).getD 0) n) := by
    induction digits generalizing n with
    | nil => rfl
    | cons ch rest ih =>
      obtain ⟨first, later⟩ := List.forall_mem_cons.mp isDigit
      rw [List.foldl_cons, List.foldl_cons, ((digit_value ch).2 first).2, ← ih later]
      congr 1
      rw [BitVec.ofNat_add, BitVec.ofNat_mul]
      rfl
  exact fold 0

theorem takeWhile_of_stop {test : UInt8 → Bool} {chars more : List UInt8} (pass : ∀ ch ∈ chars, test ch = true)
    (stop : ∀ ch ∈ more.head?, test ch = false) : (chars ++ more).takeWhile test = chars := by
  have none_ : more.takeWhile test = [] := by
    cases more with
    | nil => rfl
    | cons ch more => exact List.takeWhile_cons_of_neg (by simp [stop ch rfl])
  rw [List.takeWhile_append_of_pos pass, none_, List.append_nil]

/-- The lexer has read a number, and this is left. -/
structure HasNumber (t : Lexer) (value : BitVec 32) (long : Bool) (tail : List UInt8) : Prop where
  rest : t.rest = tail
  currentToken : t.currentToken = if long then .valueLong else .valueInt
  value : t.value = value

theorem notSuffix_of_separator (ch : UInt8) (separator : isSeparator ch = true) :
    ch ≠ 'l'.toUInt8 ∧ ch ≠ 'L'.toUInt8 := by
  constructor
  · rintro rfl
    exact absurd separator (by decide)
  · rintro rfl
    exact absurd separator (by decide)

section Behind

variable {suffix : Option UInt8} {tail : List UInt8}
  (isSuffix : ∀ ch ∈ suffix, ch = 'l'.toUInt8 ∨ ch = 'L'.toUInt8) (ends : ∀ ch ∈ tail.head?, isSeparator ch = true)

include isSuffix ends

theorem hasNumber_procSuffix (left : l.rest = suffix.toList ++ tail) (value : BitVec 32) :
    HasNumber (procSuffix l.nextChar.1 { l.nextChar.2 with value, currentToken := .valueInt }) value suffix.isSome
      tail := by
  cases suffix with
  | none =>
    rw [Option.toList_none, List.nil_append] at left
    rw [procSuffix_of_other fun ch head => notSuffix_of_separator ch (ends ch (left ▸ head))]
    exact ⟨l.rest_settled.trans left, rfl, rfl⟩
  | some ch =>
    have next : l.rest = ch :: tail := left
    rw [procSuffix_of_suffix next (isSuffix ch rfl)]
    exact ⟨rest_skip_one next, rfl, rfl⟩

/-- The first character behind the digits fails the test for a digit. -/
theorem stop_of_ends {test : UInt8 → Bool} (letters : test 'l'.toUInt8 = false ∧ test 'L'.toUInt8 = false)
    (separators : ∀ ch, isSeparator ch = true → test ch = false) :
    ∀ ch ∈ (suffix.toList ++ tail).head?, test ch = false := by
  intro ch head
  cases suffix with
  | none => exact separators ch (ends ch head)
  | some first =>
    obtain rfl : first = ch := Option.some.inj head
    rcases isSuffix first rfl with rfl | rfl
    · exact letters.1
    · exact letters.2

theorem procDigits_literal {test : UInt8 → Bool} (nul : test 0 = false) (shift : ℕ) {digits : List UInt8}
    (left : l.rest = digits ++ (suffix.toList ++ tail)) (pass : ∀ ch ∈ digits, test ch = true)
    (stop : ∀ ch ∈ (suffix.toList ++ tail).head?, test ch = false) :
    (digits.length < finshStringMax ∧ ∃ t, procDigits test shift l.nextChar = some t ∧
        HasNumber t (tokenSpecNumber digits shift) suffix.isSome tail) ∨
      (¬ digits.length < finshStringMax ∧ procDigits test shift l.nextChar = none) := by
  have taken : l.rest.takeWhile test = digits := by rw [left, takeWhile_of_stop pass stop]
  rw [procDigits_eq nul, taken]
  dsimp only
  by_cases fits : digits.length < finshStringMax
  · rw [if_pos fits]
    exact .inl ⟨fits, _, rfl, hasNumber_procSuffix isSuffix ends (rest_skip left) _⟩
  · rw [if_neg fits]
    exact .inr ⟨fits, rfl⟩

end Behind

/-- The tests of the four loops. -/
def isAlnum (ch : UInt8) : Bool := isDigit ch || isAlpha ch
def isBit (ch : UInt8) : Bool := ch == '0'.toUInt8 || ch == '1'.toUInt8
def isOctalDigit (ch : UInt8) : Bool := '0'.toUInt8 ≤ ch && ch ≤ '7'.toUInt8

/-- The digits of a literal pass their tests. The number ends at a separator, and behind a `0` that is no prefix. -/
theorem charTests : ∀ ch : UInt8,
    (((∃ v ∈ digitValue ch, v < 16) → isAlnum ch = true) ∧ ((∃ v ∈ digitValue ch, v < 2) → isBit ch = true) ∧
      ((∃ v ∈ digitValue ch, v < 8) → isOctalDigit ch = true ∧
        ¬ (ch = 'x'.toUInt8 ∨ ch = 'X'.toUInt8) ∧ ¬ (ch = 'b'.toUInt8 ∨ ch = 'B'.toUInt8))) ∧
    (isSeparator ch = true → isAlnum ch = false ∧ isBit ch = false ∧ isOctalDigit ch = false ∧ isDigit ch = false) ∧
      (isSeparator ch = true ∨ ch = 'l'.toUInt8 ∨ ch = 'L'.toUInt8 →
        ¬ (ch = 'x'.toUInt8 ∨ ch = 'X'.toUInt8) ∧ ¬ (ch = 'b'.toUInt8 ∨ ch = 'B'.toUInt8) ∧
          ¬ ('0'.toUInt8 ≤ ch ∧ ch ≤ '7'.toUInt8)) :=
  forall_byte (by decide +kernel)

variable {more : List UInt8}

/-- The literal `0`. Its suffix is left. -/
theorem procNumber_zero (left : l.rest = '0'.toUInt8 :: more)
    (other : ∀ ch ∈ more.head?, isSeparator ch = true ∨ ch = 'l'.toUInt8 ∨ ch = 'L'.toUInt8) :
    ∃ t, l.procNumber = some t ∧ HasNumber t 0 false more := by
  have next := rest_skip_one left
  have number : l.procNumber = some ((l.skip 1).settled.withNumber 0 false) := by
    rw [procNumber, nextChar_of_cons left]
    dsimp only
    rw [if_pos rfl, ← prevChar_nextChar]
    obtain ⟨hex, binary, octal⟩ := (charTests (l.skip 1).nextChar.1).2.2 (by
      cases more with
      | nil => rw [nextChar_of_nil next]; exact .inl (show isSeparator 0 = true by decide)
      | cons ch chars => rw [nextChar_of_cons next]; exact other ch rfl)
    rw [if_neg hex, if_neg binary, if_neg octal]
    rfl
  exact ⟨_, number, (l.skip 1).rest_settled.trans next, rfl, rfl⟩

theorem procNumber_hex {upper : Bool} (left : l.rest = (NumberBase.hex upper).start ++ more) :
    (l.skip 2).rest = more ∧ l.procNumber = procDigits isAlnum 4 (l.skip 2).nextChar := by
  cases upper <;>
  · change l.rest = '0'.toUInt8 :: _ :: more at left
    have next := rest_skip_one left
    refine ⟨by simpa using rest_skip_one next, ?_⟩
    rw [procNumber, nextChar_of_cons left]
    dsimp only
    rw [if_pos rfl, nextChar_of_cons next]
    dsimp only
    rw [if_pos (by decide)]
    rfl

theorem procNumber_binary {upper : Bool} (left : l.rest = (NumberBase.binary upper).start ++ more) :
    (l.skip 2).rest = more ∧ l.procNumber = procDigits isBit 1 (l.skip 2).nextChar := by
  cases upper <;>
  · change l.rest = '0'.toUInt8 :: _ :: more at left
    have next := rest_skip_one left
    refine ⟨by simpa using rest_skip_one next, ?_⟩
    rw [procNumber, nextChar_of_cons left]
    dsimp only
    rw [if_pos rfl, nextChar_of_cons next]
    dsimp only
    rw [if_neg (by decide), if_pos (by decide)]
    rfl

theorem procNumber_octal {ch : UInt8} (left : l.rest = NumberBase.octal.start ++ ch :: more)
    (digit : NumberBase.octal.IsDigit ch) :
    (l.skip 1).rest = ch :: more ∧ l.procNumber = procDigits isOctalDigit 3 (l.skip 1).nextChar := by
  change l.rest = '0'.toUInt8 :: ch :: more at left
  have next := rest_skip_one left
  obtain ⟨octal, hex, binary⟩ := (charTests ch).1.2.2 digit
  refine ⟨next, ?_⟩
  rw [procNumber, nextChar_of_cons left]
  dsimp only
  rw [if_pos rfl, nextChar_of_cons next]
  dsimp only
  rw [if_neg hex, if_neg binary, if_pos (by simpa [isOctalDigit] using octal)]
  rfl

theorem procNumber_decimal {ch : UInt8} (left : l.rest = ch :: more) (other : ch ≠ '0'.toUInt8) :
    l.procNumber = some (procDecimal l.nextChar) := by
  rw [procNumber, nextChar_of_cons left]
  dsimp only
  rw [if_neg other]

theorem suffix_ne (ch : UInt8) (tail : List UInt8) : ch :: tail ≠ tail := by
  intro same
  have sizes := congrArg List.length same
  rw [List.length_cons] at sizes
  omega

/-- The lexer has read the literal: all of it is taken, with its value, as an `int` or a `long`. -/
def Yields (l : Lexer) (number : NumberLiteral) (tail : List UInt8) : Prop :=
  ∃ t, l.procNumber = some t ∧ t.rest = tail ∧
    t.currentToken = (if number.suffix.isSome then .valueLong else .valueInt) ∧ t.value.toInt = number.value

section Yields

variable {number : NumberLiteral} {tail : List UInt8}

theorem HasNumber.yields {t : Lexer} (has : HasNumber t (BitVec.ofNat 32 number.value) number.suffix.isSome tail)
    (small : number.value < 2 ^ 31) (read : l.procNumber = some t) : Yields l number tail := by
  refine ⟨t, read, has.rest, has.currentToken, ?_⟩
  rw [has.value, BitVec.toInt_eq_toNat_of_lt (by rw [BitVec.toNat_ofNat]; omega), BitVec.toNat_ofNat,
    Nat.mod_eq_of_lt (by omega)]

/-- A loop over the digits behind a prefix reads the literal if they fit the buffer. -/
theorem yields_procDigits (small : number.value < 2 ^ 31) (ends : ∀ ch ∈ tail.head?, isSeparator ch = true)
    {test : UInt8 → Bool} (nul : test 0 = false) {shift : ℕ} (power : number.base.radix = 2 ^ shift)
    (pass : ∀ ch, number.base.IsDigit ch → test ch = true)
    (stop : ∀ ch ∈ (number.suffix.toList ++ tail).head?, test ch = false) {t : Lexer}
    (read : l.procNumber = procDigits test shift t.nextChar)
    (left : t.rest = number.digits ++ (number.suffix.toList ++ tail)) :
    Yields l number tail ↔ number.digits.length < finshStringMax := by
  have value : tokenSpecNumber number.digits shift = BitVec.ofNat 32 number.value :=
    tokenSpecNumber_eq power number.isDigit
  rcases procDigits_literal number.isSuffix ends nul shift left (fun ch member => pass ch (number.isDigit ch member))
    stop with ⟨fits, u, digits, has⟩ | ⟨long, none_⟩
  · rw [value] at has
    exact iff_of_true (has.yields small (read.trans digits)) fits
  · refine iff_of_false ?_ long
    rintro ⟨u, number_, -⟩
    rw [read, none_] at number_
    cases number_

theorem yields_iff (small : number.value < 2 ^ 31) (left : l.rest = number.text ++ tail)
    (ends : ∀ ch ∈ tail.head?, isSeparator ch = true) : Yields l number tail ↔ number.Readable := by
  rw [NumberLiteral.text, List.append_assoc, List.append_assoc] at left
  rw [NumberLiteral.Readable]
  cases base : number.base with
  | decimal =>
    rw [base] at left
    obtain ⟨ch, more, digits⟩ := List.exists_cons_of_ne_nil number.digits_ne_nil
    by_cases zero : ch = '0'.toUInt8
    · have only : number.digits = ['0'.toUInt8] := number.leading base (by rw [digits, zero]; rfl)
      rw [only] at left
      have next : ∀ ch ∈ (number.suffix.toList ++ tail).head?,
          isSeparator ch = true ∨ ch = 'l'.toUInt8 ∨ ch = 'L'.toUInt8 := by
        intro ch head
        cases suffix : number.suffix with
        | none => exact .inl (ends ch (by rwa [suffix] at head))
        | some first =>
          rw [suffix] at head
          obtain rfl : first = ch := Option.some.inj head
          exact .inr (number.isSuffix first suffix)
      obtain ⟨t, read, has⟩ := procNumber_zero left next
      cases suffix : number.suffix with
      | none =>
        have value : number.value = 0 := by
          rw [NumberLiteral.value, only, base]
          rfl
        rw [suffix] at has
        refine iff_of_true (HasNumber.yields ?_ small read) fun _ => rfl
        rw [suffix, value]
        exact has
      | some first =>
        refine iff_of_false ?_ fun none_ => nomatch none_ only
        rintro ⟨u, number_, rest, -⟩
        rw [read] at number_
        obtain rfl := Option.some.inj number_
        rw [has.rest, suffix] at rest
        exact suffix_ne first tail rest
    · have radix : number.base.radix = 10 := by rw [base]; rfl
      have digit (ch : UInt8) (member : ch ∈ number.digits) : ∃ v ∈ digitValue ch, v < 10 :=
        radix ▸ number.isDigit ch member
      have stop : ∀ ch ∈ (number.suffix.toList ++ tail).head?, isDigit ch = false :=
        stop_of_ends number.isSuffix ends (by decide) fun ch separator => ((charTests ch).2.1 separator).2.2.2
      have taken : l.rest.takeWhile isDigit = number.digits := by
        rw [left]
        exact takeWhile_of_stop (fun ch member => ((digit_value ch).2 (digit ch member)).1) stop
      have value : number.digits.foldl (fun v ch => v * 10 + BitVec.ofNat 32 (ch.toNat - 48)) 0 =
          BitVec.ofNat 32 number.value := by
        rw [decimal_foldl_eq digit, NumberLiteral.value, NumberBase.value, radix]
      have has := hasNumber_procSuffix number.isSuffix ends (rest_skip left) (BitVec.ofNat 32 number.value)
      have read : l.procNumber = some (procDecimal l.nextChar) :=
        procNumber_decimal (left.trans (by rw [digits]; rfl)) zero
      rw [procDecimal_eq, taken] at read
      dsimp only at read
      rw [value] at read
      refine iff_of_true (has.yields small read) fun only => ?_
      rw [digits] at only
      exact absurd (List.cons.inj only).1 zero
  | octal =>
    rw [base] at left
    obtain ⟨ch, more, digits⟩ := List.exists_cons_of_ne_nil number.digits_ne_nil
    have first : NumberBase.octal.IsDigit ch := base ▸ number.isDigit ch (by rw [digits]; exact List.mem_cons_self)
    have whole : l.rest = NumberBase.octal.start ++ ch :: (more ++ (number.suffix.toList ++ tail)) := by
      rw [left, digits, List.cons_append]
    obtain ⟨behind, read⟩ := procNumber_octal whole first
    have digit (ch : UInt8) (is : number.base.IsDigit ch) : isOctalDigit ch = true := by
      rw [base] at is
      exact ((charTests ch).1.2.2 is).1
    exact yields_procDigits small ends (by decide) (by rw [base]; rfl) digit
      (stop_of_ends number.isSuffix ends (by decide) fun ch separator => ((charTests ch).2.1 separator).2.2.1)
      read (by rw [behind, digits, List.cons_append])
  | binary upper =>
    rw [base] at left
    obtain ⟨behind, read⟩ := procNumber_binary left
    have digit (ch : UInt8) (is : number.base.IsDigit ch) : isBit ch = true := by
      rw [base] at is
      exact (charTests ch).1.2.1 is
    exact yields_procDigits small ends (by decide) (by rw [base]; rfl) digit
      (stop_of_ends number.isSuffix ends (by decide) fun ch separator => ((charTests ch).2.1 separator).2.1)
      read behind
  | hex upper =>
    rw [base] at left
    obtain ⟨behind, read⟩ := procNumber_hex left
    have digit (ch : UInt8) (is : number.base.IsDigit ch) : isAlnum ch = true := by
      rw [base] at is
      exact (charTests ch).1.1 is
    cases suffix : number.suffix with
    | none =>
      refine Iff.trans (yields_procDigits small ends (by decide) (by rw [base]; rfl) digit ?_ read behind)
        (and_iff_left rfl).symm
      rw [suffix]
      exact fun ch head => ((charTests ch).2.1 (ends ch head)).1
    | some first =>
      -- the suffix is taken for a digit
      refine iff_of_false ?_ fun readable => nomatch readable.2
      rintro ⟨t, number_, -, currentToken, -⟩
      rw [suffix, ← List.append_assoc] at behind
      have letter : isAlnum first = true := by
        rcases number.isSuffix first suffix with rfl | rfl <;> decide
      have stop : ∀ ch ∈ ((none : Option UInt8).toList ++ tail).head?, isAlnum ch = false :=
        fun ch head => ((charTests ch).2.1 (ends ch head)).1
      have pass : ∀ ch ∈ number.digits ++ [first], isAlnum ch = true :=
        List.forall_mem_append.mpr ⟨fun ch member => digit ch (number.isDigit ch member),
            List.forall_mem_singleton.mpr letter⟩
      have noSuffix : ∀ ch ∈ (none : Option UInt8), ch = 'l'.toUInt8 ∨ ch = 'L'.toUInt8 := nofun
      rcases procDigits_literal noSuffix ends (by decide) 4 behind pass stop
        with ⟨-, u, digits, has⟩ | ⟨-, none_⟩
      · rw [read, digits] at number_
        obtain rfl := Option.some.inj number_
        rw [has.currentToken, suffix] at currentToken
        cases currentToken
      · rw [read, none_] at number_
        cases number_

theorem text_begins (number : NumberLiteral) : ∃ ch more, number.text = ch :: more ∧ isDigit ch = true := by
  rw [NumberLiteral.text]
  cases base : number.base with
  | decimal =>
    obtain ⟨ch, more, digits⟩ := List.exists_cons_of_ne_nil number.digits_ne_nil
    have digit := number.isDigit ch (by rw [digits]; exact List.mem_cons_self)
    rw [base] at digit
    exact ⟨ch, more ++ number.suffix.toList, by rw [digits]; rfl, ((digit_value ch).2 digit).1⟩
  | octal => exact ⟨_, _, rfl, by decide⟩
  | hex upper => cases upper <;> exact ⟨_, _, rfl, by decide⟩
  | binary upper => cases upper <;> exact ⟨_, _, rfl, by decide⟩

end Yields

/-- The lexer takes exactly the literal in front of a character that cannot continue it, with its value and its type,
if and only if the literal is one of those that it reads. -/
theorem run_number_iff (number : NumberLiteral) (small : number.value < 2 ^ 31) {l : Lexer} {tail : List UInt8}
    (left : l.rest = number.text ++ tail) (ends : ∀ ch ∈ tail.head?, isSeparator ch = true) :
    (∃ t, l.run = some t ∧ t.rest = tail ∧
        t.currentToken = (if number.suffix.isSome then .valueLong else .valueInt) ∧ t.value.toInt = number.value) ↔
      number.Readable := by
  obtain ⟨ch, more, text, digit⟩ := text_begins number
  have begins : l.rest = ch :: (more ++ tail) := by rw [left, text, List.cons_append]
  rw [run_of_digit begins digit]
  exact yields_iff (l := { l with string := Function.update l.string 0 0 }) small left ends

/-- `0x1f`, with or without the suffix `L`. -/
def hex1f (suffix : Bool) : NumberLiteral where
  base := .hex false
  digits := ascii ['1', 'f']
  suffix := if suffix then some 'L'.toUInt8 else none
  digits_ne_nil := by decide
  isDigit := by
    intro ch member
    rcases List.mem_cons.mp member with rfl | member
    · exact ⟨1, rfl, by decide⟩
    · obtain rfl := List.mem_singleton.mp member
      exact ⟨15, rfl, by decide⟩
  leading := nofun
  isSuffix := by
    intro ch given
    cases suffix
    · cases given
    · exact .inr (Option.some.inj given).symm

/-- The line `0x1f;`. -/
theorem run_number_hex :
    ∃ t, (init [⟨0x30, by decide⟩, ⟨0x78, by decide⟩, ⟨0x31, by decide⟩, ⟨0x66, by decide⟩, ⟨0x3b, by decide⟩]).run =
        some t ∧
      t.rest = ascii [';'] ∧ t.currentToken = .valueInt ∧ t.value.toInt = 31 :=
  (run_number_iff (hex1f false) (by decide) (by decide) (by decide +kernel)).mpr ⟨by decide, rfl⟩

/-- The line `0x1fL;`: the lexer yields an `int`. -/
theorem run_number_not_hexLong :
    ¬ ∃ t, (init [⟨0x30, by decide⟩, ⟨0x78, by decide⟩, ⟨0x31, by decide⟩, ⟨0x66, by decide⟩, ⟨0x4c, by decide⟩,
        ⟨0x3b, by decide⟩]).run = some t ∧
      t.rest = ascii [';'] ∧ t.currentToken = .valueLong ∧ t.value.toInt = 31 := by
  rintro ⟨t, read, -, long, -⟩
  have int : (init [⟨0x30, by decide⟩, ⟨0x78, by decide⟩, ⟨0x31, by decide⟩, ⟨0x66, by decide⟩, ⟨0x4c, by decide⟩,
        ⟨0x3b, by decide⟩]).run.map Lexer.currentToken = some .valueInt := by decide
  rw [read, Option.map_some, long] at int
  cases int

end Lexer

end Finsh
