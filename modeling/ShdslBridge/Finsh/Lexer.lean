import ShdslBridge.Finsh.LineEditor
import ShdslBridge.Lib.Memory

/-! # The lexer of finsh

`finsh_token.c`. A function that stores behind one of its buffers fails. A loop that reads characters has a
round for every character of the line, and one more; `takeChars_eq` says that these are enough.

At the end of the line `token_next_char` sets `eof` and goes back to position 0. A word that ends there
clears `eof` again.
-/

namespace Finsh

/-- `FINSH_STRING_MAX`, the size of `string` and of the buffer of `token_proc_number`. -/
def finshStringMax : ℕ := 128

/-- `enum finsh_token_type`, and what `finsh_token_init` leaves in `current_token`. -/
inductive TokenType
  | unset
  | leftParen
  | rightParen
  | comma
  | semicolon
  | mul
  | add
  | inc
  | sub
  | dec
  | div
  | mod
  | assign
  | and
  | or
  | xor
  | bitwise
  | shl
  | shr
  | void
  | char
  | short
  | int
  | long
  | unsigned
  | valueChar
  | valueInt
  | valueLong
  | valueString
  | valueNull
  | identifier
  | bad
  | eof
  deriving DecidableEq

inductive LexerError
  | expectChar
  | unexpectEnd
  | unknownToken
  deriving DecidableEq

/-- `is_digit`. -/
def isDigit (ch : UInt8) : Bool := '0'.toUInt8 ≤ ch && ch ≤ '9'.toUInt8

/-- `is_alpha`. -/
def isAlpha (ch : UInt8) : Bool := (ch ||| 0x20) - 'a'.toUInt8 < 26

/-- `is_separator`. -/
def isSeparator (ch : UInt8) : Bool :=
  !(('a'.toUInt8 ≤ ch && ch ≤ 'z'.toUInt8) || ('A'.toUInt8 ≤ ch && ch ≤ 'Z'.toUInt8) || isDigit ch ||
    ch == '_'.toUInt8)

/-- The characters that `token_trim_space` skips. -/
def isBlank (ch : UInt8) : Bool := ch == ' '.toUInt8 || ch == '\t'.toUInt8 || ch == '\r'.toUInt8

/-- `(ch - '0') < 8u`. -/
def isOctal (ch : UInt8) : Bool := ch - '0'.toUInt8 < 8

/-- `(ch - '0') < 16u`. -/
def isHex (ch : UInt8) : Bool := ch - '0'.toUInt8 < 16

def ascii (text : List Char) : List UInt8 := text.map Char.toUInt8

/-- `finsh_name_table`. -/
def finshNameTable : List (List UInt8 × TokenType) :=
  [(ascii ['v', 'o', 'i', 'd'], .void),
    (ascii ['c', 'h', 'a', 'r'], .char),
    (ascii ['s', 'h', 'o', 'r', 't'], .short),
    (ascii ['i', 'n', 't'], .int),
    (ascii ['l', 'o', 'n', 'g'], .long),
    (ascii ['u', 'n', 's', 'i', 'g', 'n', 'e', 'd'], .unsigned),
    (ascii ['N', 'U', 'L', 'L'], .valueNull),
    (ascii ['n', 'u', 'l', 'l'], .valueNull)]

def singleToken (ch : UInt8) : Option TokenType :=
  if ch = '('.toUInt8 then some .leftParen
  else if ch = ')'.toUInt8 then some .rightParen
  else if ch = ','.toUInt8 then some .comma
  else if ch = ';'.toUInt8 then some .semicolon
  else if ch = '&'.toUInt8 then some .and
  else if ch = '*'.toUInt8 then some .mul
  else if ch = '|'.toUInt8 then some .or
  else if ch = '%'.toUInt8 then some .mod
  else if ch = '~'.toUInt8 then some .bitwise
  else if ch = '^'.toUInt8 then some .xor
  else if ch = '='.toUInt8 then some .assign
  else none

/-- The tokens of a character that may be doubled: the one for two of it, and the one for a single one. -/
def doubleToken (ch : UInt8) : Option (TokenType × TokenType) :=
  if ch = '+'.toUInt8 then some (.inc, .add)
  else if ch = '-'.toUInt8 then some (.dec, .sub)
  -- line comments, set to end of file
  else if ch = '/'.toUInt8 then some (.eof, .div)
  else if ch = '<'.toUInt8 then some (.shl, .bad)
  else if ch = '>'.toUInt8 then some (.shr, .bad)
  else none

/-- `struct finsh_token`, with `global_errno`. -/
structure Lexer where
  line : List Ch
  eof : Bool
  replay : Bool
  position : ℕ
  currentToken : TokenType
  value : BitVec 32
  string : ℕ → UInt8
  errno : Option LexerError

namespace Lexer

/-- `finsh_token_init`. -/
def init (line : List Ch) : Lexer where
  line
  eof := false
  replay := false
  position := 0
  currentToken := .unset
  value := 0
  string := fun _ => 0
  errno := none

/-- `finsh_error_set`. -/
def setError (l : Lexer) (error : LexerError) : Lexer := { l with errno := some error }

/-- What `token_next_char` leaves at the end of the line. -/
def atEnd (l : Lexer) : Lexer := { l with eof := true, position := 0 }

/-- `token_next_char`. -/
def nextChar (l : Lexer) : UInt8 × Lexer :=
  if l.eof then (0, l)
  else match l.line[l.position]? with
    | none => (0, l.atEnd)
    | some ch => if ch.val = '\n'.toUInt8 then (0, l.atEnd) else (ch.val, { l with position := l.position + 1 })

/-- `token_prev_char`. -/
def prevChar (l : Lexer) : Lexer :=
  if l.eof then l
  else if l.position = 0 then l
  else { l with position := l.position - 1 }

/-- Reads characters as long as they pass a test, from one that was read already: the characters, and the first one
that fails. -/
def takeChars (test : UInt8 → Bool) : ℕ → UInt8 × Lexer → List UInt8 × UInt8 × Lexer
  | 0, (ch, l) => ([], ch, l)
  | rounds + 1, (ch, l) =>
    if test ch then
      let (chars, last) := takeChars test rounds l.nextChar
      (ch :: chars, last)
    else ([], ch, l)

def rounds (l : Lexer) : ℕ := l.line.length + 1

/-- `token_trim_space`. -/
def trimSpace (l : Lexer) : Lexer := (takeChars isBlank l.rounds l.nextChar).2.2.prevChar

/-- The loop of `token_get_string`, and what is behind it. At the end of the line the character is NUL, which is a
separator. -/
def getWord (first : UInt8 × Lexer) : Option Lexer :=
  let (chars, _, l) := takeChars (!isSeparator ·) first.2.rounds first
  let l := prevChar { l with eof := false }
  if chars.length < finshStringMax then some { l with string := Memory.writeAt l.string 0 (chars ++ [0]) } else none

/-- `token_get_string`. -/
def getString (l : Lexer) : Option Lexer :=
  let (ch, l) := l.nextChar
  if l.eof then some l
  else
    let l := { l with string := Function.update l.string 0 0 }
    -- the first character of an identifier is not a digit
    if isDigit ch then some l.prevChar else getWord (ch, l)

/-- `token_match_name`. -/
def matchName (l : Lexer) : Option TokenType :=
  (finshNameTable.find? fun entry => Memory.readAt l.string 0 (entry.1.length + 1) = entry.1 ++ [0]).map Prod.snd

/-- The escapes of one character in `token_proc_char`. -/
def charEscape (ch : UInt8) : Option UInt8 :=
  if ch = 'n'.toUInt8 then some 10
  else if ch = 't'.toUInt8 then some 9
  else if ch = 'v'.toUInt8 then some 11
  else if ch = 'b'.toUInt8 then some 8
  else if ch = 'r'.toUInt8 then some 13
  else if ch = '\\'.toUInt8 then some '\\'.toUInt8
  else if ch = '\''.toUInt8 then some '\''.toUInt8
  else none

/-- The other escapes in `token_proc_char`. Every digit stores the character behind it into `buf`, of 4 bytes, and
`atoi` converts the empty string behind them. -/
def charDigits (first : UInt8 × Lexer) : Option (UInt8 × Lexer) :=
  let (digits, _, l) := takeChars isDigit first.2.rounds first
  if digits.length < 4 then some (0, l.prevChar) else none

/-- The character between the quotes of `token_proc_char`. -/
def charBody (l : Lexer) : Option (UInt8 × Lexer) :=
  let (ch, l) := l.nextChar
  if ch = '\\'.toUInt8 then
    let first := l.nextChar
    match charEscape first.1 with
    | some ch => some (ch, first.2)
    | none => charDigits first
  else some (ch, l)

/-- `token_proc_char`. -/
def procChar (l : Lexer) : Option (UInt8 × Lexer) :=
  l.charBody.map fun (ch, l) =>
    let (quote, l) := l.nextChar
    if quote = '\''.toUInt8 then (ch, l) else (ch, l.prevChar.setError .expectChar)

/-- The escapes of one character in `token_proc_escape`. -/
def stringEscape (ch : UInt8) : Option UInt8 :=
  if ch = 'n'.toUInt8 then some 10
  else if ch = 't'.toUInt8 then some 9
  else if ch = 'v'.toUInt8 then some 11
  else if ch = 'b'.toUInt8 then some 8
  else if ch = 'r'.toUInt8 then some 13
  else if ch = 'f'.toUInt8 then some 12
  else if ch = 'a'.toUInt8 then some 7
  else none

/-- The number of the digits, to the last eight bits. -/
def digitsValue (base : UInt8) (digits : List UInt8) : UInt8 :=
  digits.foldl (fun result ch => result * base + (ch - '0'.toUInt8)) 0

/-- The loops of `token_proc_escape`. -/
def escapeDigits (test : UInt8 → Bool) (base : UInt8) (first : UInt8 × Lexer) : UInt8 × Lexer :=
  let (digits, _, l) := takeChars test first.2.rounds first
  (digitsValue base digits, l.prevChar)

/-- `token_proc_escape`, and the conversion of its result to a character. -/
def procEscape (l : Lexer) : UInt8 × Lexer :=
  let (ch, l) := l.nextChar
  match stringEscape ch with
  | some result => (result, l)
  | none =>
    if ch = 'x'.toUInt8 then escapeDigits isHex 16 l.nextChar
    else if isOctal ch then escapeDigits isOctal 8 (ch, l)
    else (0, l)

/-- The loop of `token_proc_string`, with the room that is left behind `p`. -/
def stringLoop : (room p : ℕ) → Lexer → Lexer
  | 0, _, l => l
  | room + 1, p, l =>
    let (ch, l) := l.nextChar
    if l.eof then l.setError .unexpectEnd
    else if ch = '\\'.toUInt8 then
      let (ch, l) := l.procEscape
      stringLoop room (p + 1) { l with string := Function.update l.string p ch }
    else if ch = '"'.toUInt8 then { l with string := Function.update l.string p 0 }
    else stringLoop room (p + 1) { l with string := Function.update l.string p ch }

/-- `token_proc_string`. -/
def procString (l : Lexer) : Lexer := stringLoop finshStringMax 0 l

/-- The value of a digit in `token_spec_number`. -/
def specDigit (t : UInt8) : BitVec 32 :=
  if 'a'.toUInt8 ≤ t ∧ t ≤ 'f'.toUInt8 then BitVec.ofNat 32 (t.toNat - 97 + 10)
  else if 'A'.toUInt8 ≤ t ∧ t ≤ 'F'.toUInt8 then BitVec.ofNat 32 (t.toNat - 65 + 10)
  else BitVec.ofNat 32 t.toNat - 48

/-- `token_spec_number`: the lower word of its 64 bits, which is the one that is returned. -/
def tokenSpecNumber (string : List UInt8) (shift : ℕ) : BitVec 32 :=
  string.foldl (fun v t => (v <<< shift) ||| specDigit t) 0

/-- The suffix of a number, from the character behind its digits on. -/
def procSuffix (ch : UInt8) (l : Lexer) : Lexer :=
  if ch = 'l'.toUInt8 ∨ ch = 'L'.toUInt8 then { l with currentToken := .valueLong } else l.prevChar

/-- The digits of a number that go into `buf`, and what is behind them. -/
def procDigits (test : UInt8 → Bool) (shift : ℕ) (first : UInt8 × Lexer) : Option Lexer :=
  let (digits, ch, l) := takeChars test first.2.rounds first
  if digits.length < finshStringMax then
    some (procSuffix ch { l with value := tokenSpecNumber digits shift, currentToken := .valueInt })
  else none

def procDecimal (first : UInt8 × Lexer) : Lexer :=
  let (digits, ch, l) := takeChars isDigit first.2.rounds first
  let value := digits.foldl (fun v ch => v * 10 + BitVec.ofNat 32 (ch.toNat - 48)) 0
  procSuffix ch { l with value, currentToken := .valueInt }

/-- `token_proc_number`. -/
def procNumber (l : Lexer) : Option Lexer :=
  let (ch, l) := l.nextChar
  if ch = '0'.toUInt8 then
    let (ch, l) := l.nextChar
    if ch = 'x'.toUInt8 ∨ ch = 'X'.toUInt8 then procDigits (fun ch => isDigit ch || isAlpha ch) 4 l.nextChar
    else if ch = 'b'.toUInt8 ∨ ch = 'B'.toUInt8 then
      procDigits (fun ch => ch == '0'.toUInt8 || ch == '1'.toUInt8) 1 l.nextChar
    else if '0'.toUInt8 ≤ ch ∧ ch ≤ '7'.toUInt8 then
      procDigits (fun ch => '0'.toUInt8 ≤ ch && ch ≤ '7'.toUInt8) 3 (ch, l)
    else some { l.prevChar with value := 0, currentToken := .valueInt }
  else
    some (procDecimal (ch, l))

/-- The operators and the literals of `token_run`. -/
def runOther (l : Lexer) : Option Lexer :=
  let (ch, l) := l.nextChar
  match singleToken ch with
  | some type => some { l with currentToken := type }
  | none =>
    match doubleToken ch with
    | some (double, single) =>
      let (next, l) := l.nextChar
      if next = ch then some { l with currentToken := double } else some { l.prevChar with currentToken := single }
    | none =>
      if ch = '\''.toUInt8 then
        l.procChar.map fun (value, l) =>
          { l with value := (l.value &&& 0xffffff00) ||| BitVec.ofNat 32 value.toNat, currentToken := .valueChar }
      else if ch = '"'.toUInt8 then some { l.procString with currentToken := .valueString }
      else if isDigit ch then l.prevChar.procNumber
      else some { l with errno := some .unknownToken, currentToken := .bad }

/-- `token_run`. -/
def run (l : Lexer) : Option Lexer := do
  -- first trim space and tab
  let l ← l.trimSpace.getString
  if l.eof then some { l with currentToken := .eof }
  -- it is a key word or an identifier
  else if l.string 0 ≠ 0 then some { l with currentToken := l.matchName.getD .identifier }
  -- it is an operator character
  else l.runOther

/-- `finsh_token_token`. -/
def token (l : Lexer) : Option Lexer := if l.replay then some { l with replay := false } else l.run

end Lexer

end Finsh
