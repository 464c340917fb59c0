import ShdslBridge.Finsh.StringElements

/-! # String and character literals

`token_proc_string` and `token_proc_char` on the literals of C. The string loop stores what `decode` makes of the
elements, as far as the 128 bytes of `string` go. `run_literals_iff` says for which literals that is right.
-/

namespace Finsh

open StringElement

def elementsText (elements : List StringElement) : List UInt8 := elements.flatMap text

/-- What a loop takes from the text is what it takes from the plain characters. -/
theorem takeWhile_text (test : UInt8 → Bool) (backslash : test '\\'.toUInt8 = false)
    (quote : test '"'.toUInt8 = false) (elements : List StringElement) (tail : List UInt8) :
    (elementsText elements ++ '"'.toUInt8 :: tail).takeWhile test = takePlain test elements ∧
      (elementsText elements ++ '"'.toUInt8 :: tail).dropWhile test =
        elementsText (dropPlain test elements) ++ '"'.toUInt8 :: tail := by
  induction elements with
  | nil =>
    change ('"'.toUInt8 :: tail).takeWhile test = [] ∧ ('"'.toUInt8 :: tail).dropWhile test = '"'.toUInt8 :: tail
    exact ⟨List.takeWhile_cons_of_neg (by simp [quote]), List.dropWhile_cons_of_neg (by simp [quote])⟩
  | cons element rest ih =>
    cases element with
    | plain ch =>
      change (ch :: (elementsText rest ++ '"'.toUInt8 :: tail)).takeWhile test = _ ∧
        (ch :: (elementsText rest ++ '"'.toUInt8 :: tail)).dropWhile test = _
      by_cases passes : test ch = true
      · rw [List.takeWhile_cons_of_pos passes, List.dropWhile_cons_of_pos passes, ih.1, ih.2, takePlain, if_pos passes,
          dropPlain, if_pos passes]
        exact ⟨rfl, rfl⟩
      · rw [List.takeWhile_cons_of_neg passes, List.dropWhile_cons_of_neg passes, takePlain, if_neg passes, dropPlain,
          if_neg passes]
        exact ⟨rfl, rfl⟩
    | simple | octal | hex =>
      exact ⟨List.takeWhile_cons_of_neg (by simp [backslash]), List.dropWhile_cons_of_neg (by simp [backslash])⟩

namespace Lexer

variable {l : Lexer}

theorem escapeDigits_eq {test : UInt8 → Bool} (nul : test 0 = false) (base : UInt8) {chars more : List UInt8}
    (taken : l.rest.takeWhile test = chars) (left : l.rest.dropWhile test = more) (nonempty : more ≠ []) :
    escapeDigits test base l.nextChar = (digitsValue base chars, l.skip chars.length) ∧
      (l.skip chars.length).rest = more := by
  have behind : (l.skip chars.length).rest = more := by rw [← taken, rest_takeWhile, left]
  refine ⟨?_, behind⟩
  rw [escapeDigits_settled nul, taken, settled_of_ne_nil (by rw [behind]; exact nonempty)]

theorem procEscape_simple {letter : UInt8} {more : List UInt8} (left : l.rest = letter :: more)
    (simple : (simpleEscape letter).isSome) :
    l.procEscape = ((stringEscape letter).getD 0, l.skip 1) := by
  obtain ⟨byte, -, -, same, wrong⟩ := stringEscape_letter letter simple
  rw [procEscape, nextChar_of_cons left]
  dsimp only
  by_cases bad : letter = '\\'.toUInt8 ∨ letter = '"'.toUInt8
  · rw [wrong bad]
    rcases bad with rfl | rfl
    · exact (if_neg (by decide)).trans (if_neg (by decide))
    · exact (if_neg (by decide)).trans (if_neg (by decide))
  · rw [same (not_or.mp bad)]
    rfl

theorem procEscape_octal {digits chars more : List UInt8} (valid : (octal digits).Valid)
    (left : l.rest = digits ++ chars) (follows : chars.dropWhile isOctal = more) (ne : more ≠ []) :
    l.procEscape =
        (digitsValue 8 (digits ++ chars.takeWhile isOctal), l.skip (digits ++ chars.takeWhile isOctal).length) ∧
      (l.skip (digits ++ chars.takeWhile isOctal).length).rest = more := by
  have pass (ch : UInt8) (member : ch ∈ digits) : isOctal ch = true := ((escape_digit ch).1 (valid.2.2.1 ch member)).1
  have taken : l.rest.takeWhile isOctal = digits ++ chars.takeWhile isOctal := by
    rw [left, List.takeWhile_append_of_pos pass]
  have behind : l.rest.dropWhile isOctal = more := by rw [left, List.dropWhile_append_of_pos pass, follows]
  obtain ⟨escape, rest⟩ := escapeDigits_eq (by decide) 8 taken behind ne
  obtain ⟨ch, others, rfl⟩ := List.exists_cons_of_ne_nil valid.1
  obtain ⟨-, -, none_, other⟩ := (escape_digit ch).1 (valid.2.2.1 ch List.mem_cons_self)
  refine ⟨?_, rest⟩
  rw [nextChar_of_cons left] at escape
  rw [procEscape, nextChar_of_cons left]
  dsimp only
  rw [none_]
  dsimp only
  rw [if_neg other, if_pos (pass ch List.mem_cons_self), escape]

theorem procEscape_hex {chars taken more : List UInt8} (left : l.rest = 'x'.toUInt8 :: chars)
    (digits : chars.takeWhile isHex = taken) (follows : chars.dropWhile isHex = more) (ne : more ≠ []) :
    l.procEscape = (digitsValue 16 taken, l.skip (1 + taken.length)) ∧ (l.skip (1 + taken.length)).rest = more := by
  have next := rest_skip_one left
  obtain ⟨escape, rest⟩ := escapeDigits_eq (l := l.skip 1) (by decide) 16 (next.symm ▸ digits) (next.symm ▸ follows) ne
  rw [skip_skip] at escape rest
  refine ⟨?_, rest⟩
  rw [procEscape, nextChar_of_cons left]
  exact escape

/-- The string loop has stored these bytes, in front of this tail: with a NUL if they leave room for it, and else as
many as there is room for. -/
structure StringRead (l : Lexer) (room p : ℕ) (out tail : List UInt8) (t : Lexer) : Prop where
  closed : out.length < room → t.rest = tail ∧ t.string = Memory.writeAt l.string p (out ++ [0])
  full : room ≤ out.length → t.string = Memory.writeAt l.string p (out.take room)

variable {room p : ℕ} {tail : List UInt8}

theorem StringRead.cons {t : Lexer} {byte : UInt8} {out : List UInt8}
    (stored : ∀ room, stringLoop (room + 1) p l =
      stringLoop room (p + 1) { t with string := Function.update l.string p byte })
    (rest : ∀ room, StringRead { t with string := Function.update l.string p byte } room (p + 1) out tail
      (stringLoop room (p + 1) { t with string := Function.update l.string p byte }))
    (room : ℕ) : StringRead l room p (byte :: out) tail (stringLoop room p l) := by
  cases room with
  | zero => exact ⟨fun long => absurd long (Nat.not_lt_zero _), fun _ => (Memory.writeAt_nil _ _).symm⟩
  | succ room =>
    rw [stored]
    refine ⟨fun fits => ?_, fun long => ?_⟩
    · obtain ⟨left, string⟩ := (rest room).closed (Nat.lt_of_succ_lt_succ fits)
      exact ⟨left, string.trans (Memory.writeAt_update l.string p byte (out ++ [0]))⟩
    · exact ((rest room).full (Nat.le_of_succ_le_succ long)).trans
        (Memory.writeAt_update l.string p byte (out.take room))

theorem stringLoop_plain {ch : UInt8} {chars : List UInt8} (left : l.rest = ch :: chars)
    (other : ch ≠ '"'.toUInt8 ∧ ch ≠ '\\'.toUInt8) (room : ℕ) :
    stringLoop (room + 1) p l = stringLoop room (p + 1) { l.skip 1 with string := Function.update l.string p ch } := by
  rw [stringLoop, nextChar_of_cons left]
  dsimp only
  rw [if_neg (by simp [eof_of_rest left]), if_neg other.2, if_neg other.1]
  rfl

theorem stringLoop_escape {chars : List UInt8} (left : l.rest = '\\'.toUInt8 :: chars) {byte : UInt8} {n : ℕ}
    (escape : (l.skip 1).procEscape = (byte, (l.skip 1).skip n)) (room : ℕ) :
    stringLoop (room + 1) p l =
      stringLoop room (p + 1) { l.skip (1 + n) with string := Function.update l.string p byte } := by
  rw [stringLoop, nextChar_of_cons left]
  dsimp only
  rw [if_neg (by simp [eof_of_rest left]), if_pos rfl, escape, skip_skip]
  rfl

theorem stringRead_nil (left : l.rest = '"'.toUInt8 :: tail) (room : ℕ) :
    StringRead l room p [] tail (stringLoop room p l) := by
  cases room with
  | zero => exact ⟨fun long => absurd long (Nat.not_lt_zero _), fun _ => (Memory.writeAt_nil _ _).symm⟩
  | succ room =>
    have closed : stringLoop (room + 1) p l = { l.skip 1 with string := Function.update l.string p 0 } := by
      rw [stringLoop, nextChar_of_cons left]
      dsimp only
      rw [if_neg (by simp [eof_of_rest left]), if_neg (by decide), if_pos rfl]
      rfl
    rw [closed]
    refine ⟨fun _ => ⟨rest_skip_one left, ?_⟩, fun long => absurd long (Nat.not_succ_le_zero room)⟩
    have stored := Memory.writeAt_update l.string p 0 []
    rwa [Memory.writeAt_nil] at stored

theorem StringRead.append {chars out more : List UInt8} (other : ∀ ch ∈ chars, ch ≠ '"'.toUInt8 ∧ ch ≠ '\\'.toUInt8)
    (left : l.rest = chars ++ more)
    (rest : ∀ {t : Lexer} {p : ℕ}, t.rest = more → ∀ room, StringRead t room p out tail (stringLoop room p t))
    (room : ℕ) : StringRead l room p (chars ++ out) tail (stringLoop room p l) := by
  induction chars generalizing l room p with
  | nil => exact rest left room
  | cons ch chars ih =>
    obtain ⟨first, others⟩ := List.forall_mem_cons.mp other
    refine StringRead.cons (stringLoop_plain left first) (fun room => ?_) room
    exact ih others (by exact rest_skip_one left) room

/-- The string loop stores what `decode` makes of the elements. -/
theorem stringRead_elements {elements : List StringElement} (valid : ValidElements elements) {skip_ : UInt8 → Bool}
    (left : l.rest = elementsText (dropPlain skip_ elements) ++ '"'.toUInt8 :: tail) (room : ℕ) :
    StringRead l room p (decode skip_ elements) tail (stringLoop room p l) := by
  induction elements generalizing l skip_ room p with
  | nil => exact stringRead_nil left room
  | cons element rest ih =>
    obtain ⟨first, others⟩ := List.forall_mem_cons.mp valid
    -- the elements behind this one, without a loop that swallows some of them
    have plainly {t : Lexer} {p : ℕ} (left : t.rest = elementsText rest ++ '"'.toUInt8 :: tail) (room : ℕ) :
        StringRead t room p (decode noSkip rest) tail (stringLoop room p t) :=
      ih others (by rw [dropPlain_noSkip]; exact left) room
    cases element with
    | plain ch =>
      rw [decode]
      rw [dropPlain] at left
      by_cases skipped : skip_ ch = true
      · rw [if_pos skipped] at left ⊢
        exact ih others left room
      · rw [if_neg skipped] at left ⊢
        have next : l.rest = ch :: (elementsText rest ++ '"'.toUInt8 :: tail) := left
        exact StringRead.cons (stringLoop_plain next ⟨first.2.2.1, first.2.2.2⟩)
          (fun room => plainly (by exact rest_skip_one next) room) room
    | simple letter =>
      have next : l.rest = '\\'.toUInt8 :: letter :: (elementsText rest ++ '"'.toUInt8 :: tail) := left
      have inside := rest_skip_one next
      have escape := procEscape_simple inside first
      refine StringRead.cons (stringLoop_escape next escape) (fun room => plainly ?_ room) room
      have behind := rest_skip_one inside
      rwa [skip_skip] at behind
    | octal digits =>
      have next : l.rest = '\\'.toUInt8 :: (digits ++ (elementsText rest ++ '"'.toUInt8 :: tail)) := by
        rw [left]
        change '\\'.toUInt8 :: (digits ++ _) ++ _ = _
        rw [List.cons_append, List.append_assoc]
        rfl
      obtain ⟨taken, dropped⟩ := takeWhile_text isOctal (by decide) (by decide) rest tail
      obtain ⟨escape, behind⟩ := procEscape_octal first (rest_skip_one next) dropped (by simp)
      rw [taken] at escape behind
      rw [skip_skip] at behind
      exact StringRead.cons (stringLoop_escape next escape) (fun room => ih others (by exact behind) room) room
    | hex digits =>
      have next : l.rest = '\\'.toUInt8 :: 'x'.toUInt8 :: (digits ++ (elementsText rest ++ '"'.toUInt8 :: tail)) := by
        rw [left]
        change '\\'.toUInt8 :: 'x'.toUInt8 :: (digits ++ _) ++ _ = _
        rw [List.cons_append, List.cons_append, List.append_assoc]
        rfl
      obtain ⟨taken, dropped⟩ := takeWhile_text isHex (by decide) (by decide) rest tail
      rw [decode]
      by_cases decimal : digits.all isHex = true
      · have pass := List.all_eq_true.mp decimal
        obtain ⟨escape, behind⟩ := procEscape_hex (rest_skip_one next)
          ((List.takeWhile_append_of_pos pass).trans (by rw [taken]))
          ((List.dropWhile_append_of_pos pass).trans dropped) (by simp)
        rw [skip_skip] at behind
        rw [if_pos decimal]
        exact StringRead.cons (stringLoop_escape next escape) (fun room => ih others (by exact behind) room) room
      · obtain ⟨-, ch, more, -, letters, -, -⟩ := hex_letter first decimal
        have longer : ¬ (digits.dropWhile isHex).isEmpty = true := by simp [letters]
        have short : ¬ (digits.takeWhile isHex).length = digits.length := by
          have whole := congrArg List.length (List.takeWhile_append_dropWhile (p := isHex) (l := digits))
          rw [List.length_append, letters, List.length_cons] at whole
          omega
        obtain ⟨escape, behind⟩ := procEscape_hex (rest_skip_one next)
          (List.takeWhile_append.trans (if_neg short)) (List.dropWhile_append.trans (if_neg longer)) (by simp)
        rw [skip_skip] at behind
        rw [if_neg decimal]
        refine StringRead.cons (stringLoop_escape next escape) (fun room => ?_) room
        refine StringRead.append (fun ch member => ?_) (by exact behind) plainly room
        exact ((escape_digit ch).2 (first.2.1 ch (List.dropWhile_subset _ member))).1

end Lexer

/-- As much of a literal belongs to an escape as can: an octal one takes three digits, a hexadecimal one all. -/
def Separated : List StringElement → Prop
  | [] => True
  | octal digits :: rest => (digits.length < 3 → takePlain isOctal rest = []) ∧ Separated rest
  | hex _ :: rest => takePlain (fun ch => (digitValue ch).isSome) rest = [] ∧ Separated rest
  | _ :: rest => Separated rest

/-- A string literal of C for at most 127 bytes. -/
structure StringLiteral where
  elements : List StringElement
  valid : ValidElements elements
  separated : Separated elements
  short : (values elements).length < finshStringMax

def StringLiteral.text (literal : StringLiteral) : List UInt8 :=
  '"'.toUInt8 :: (elementsText literal.elements ++ ['"'.toUInt8])

/-- What is between the quotes of a character literal. -/
inductive CharBody
  | plain (ch : UInt8)
  | simple (letter : UInt8)
  | octal (digits : List UInt8)

def simpleCharEscape (letter : UInt8) : Option UInt8 :=
  if letter = '\''.toUInt8 ∨ letter = '?'.toUInt8 then some letter else simpleEscape letter

namespace CharBody

def text : CharBody → List UInt8
  | plain ch => [ch]
  | simple letter => ['\\'.toUInt8, letter]
  | octal digits => '\\'.toUInt8 :: digits

def value : CharBody → UInt8
  | plain ch => ch
  | simple letter => (simpleCharEscape letter).getD 0
  | octal digits => UInt8.ofNat (NumberBase.octal.value digits)

/-- The characters and the escapes of C. -/
def Valid : CharBody → Prop
  | plain ch => ch ≠ 0 ∧ ch ≠ '\n'.toUInt8 ∧ ch ≠ '\''.toUInt8 ∧ ch ≠ '\\'.toUInt8
  | simple letter => (simpleCharEscape letter).isSome
  | octal digits =>
    digits ≠ [] ∧ digits.length ≤ 3 ∧ (∀ ch ∈ digits, NumberBase.octal.IsDigit ch) ∧ NumberBase.octal.value digits < 256

/-- The literals that the lexer reads: its own escapes, and octal ones of NUL. -/
def Decodable : CharBody → Prop
  | plain _ => True
  | simple letter => (Lexer.charEscape letter).isSome
  | octal digits => NumberBase.octal.value digits = 0

end CharBody

structure CharLiteral where
  body : CharBody
  valid : body.Valid

def CharLiteral.text (literal : CharLiteral) : List UInt8 := '\''.toUInt8 :: (literal.body.text ++ ['\''.toUInt8])

namespace Lexer

variable {l : Lexer} {tail : List UInt8}

/-- The lexer takes a string literal with its bytes and a NUL behind them. -/
def YieldsString (l : Lexer) (bytes tail : List UInt8) : Prop :=
  ∃ t, l.run = some t ∧ t.currentToken = .valueString ∧ t.rest = tail ∧
    Memory.readAt t.string 0 (bytes.length + 1) = bytes ++ [0]

/-- The lexer takes a character literal with its byte. -/
def YieldsChar (l : Lexer) (byte : UInt8) (tail : List UInt8) : Prop :=
  ∃ t, l.run = some t ∧ t.currentToken = .valueChar ∧ t.rest = tail ∧ t.value.setWidth 8 = byte.toBitVec

variable {chars : List UInt8} {t : Lexer}

theorem run_of_quote (left : l.rest = '"'.toUInt8 :: chars) :
    ∃ t : Lexer, t.rest = chars ∧ l.run = some { t.procString with currentToken := .valueString } := by
  let t : Lexer := { l with string := Function.update l.string 0 0 }
  have same : t.rest = '"'.toUInt8 :: chars := left
  refine ⟨t.skip 1, rest_skip_one same, ?_⟩
  rw [run_of_separator left (by decide) (by decide)]
  change t.runOther = _
  rw [runOther, nextChar_of_cons same]
  rfl

theorem take_of_read {string : ℕ → UInt8} {cells bytes : List UInt8} {n : ℕ}
    (read : Memory.readAt (Memory.writeAt string 0 cells) 0 (bytes.length + 1) = bytes ++ [0])
    (inside : n ≤ cells.length) (within : n ≤ bytes.length) : cells.take n = bytes.take n := by
  have block := congrArg (List.take n) (Memory.readAt_writeAt string 0 cells)
  have front := congrArg (List.take n) read
  rw [Memory.take_readAt, Nat.min_eq_left inside] at block
  rw [Memory.take_readAt, Nat.min_eq_left (by omega), List.take_append_of_le_length within] at front
  exact block.symm.trans front

/-- Bytes that are read back in front of a NUL are among those that were stored. -/
theorem prefix_of_read {string : ℕ → UInt8} {out bytes : List UInt8}
    (read : Memory.readAt (Memory.writeAt string 0 (out ++ [0])) 0 (bytes.length + 1) = bytes ++ [0])
    (nonzero : ∀ byte ∈ bytes, byte ≠ 0) : bytes <+: out := by
  have size : (out ++ [0]).length = out.length + 1 := by simp
  have fits : bytes.length ≤ out.length := by
    by_contra longer
    have whole := take_of_read (n := out.length + 1) read size.ge (by omega)
    rw [← size, List.take_length] at whole
    have nul : (0 : UInt8) ∈ bytes.take (out.length + 1) := by
      rw [← size, ← whole]
      simp
    exact nonzero 0 (List.mem_of_mem_take nul) rfl
  have front := take_of_read (n := bytes.length) read (by omega) le_rfl
  rw [List.take_append_of_le_length fits, List.take_length] at front
  exact ⟨out.drop bytes.length, by
    conv_lhs => enter [1]; rw [← front]
    exact List.take_append_drop _ _⟩

theorem yieldsString_iff (literal : StringLiteral) (left : l.rest = literal.text ++ tail) :
    YieldsString l (values literal.elements) tail ↔ Decodable literal.elements := by
  have short := literal.short
  rw [StringLiteral.text, List.cons_append, List.append_assoc, List.singleton_append] at left
  obtain ⟨t, rest, ran⟩ := run_of_quote left
  have read : t.StringRead finshStringMax 0 (decode noSkip literal.elements) tail t.procString :=
    stringRead_elements literal.valid (by rw [dropPlain_noSkip]; exact rest) finshStringMax
  constructor
  · rintro ⟨u, ran_, -, -, bytes⟩
    rw [ran] at ran_
    obtain rfl := Option.some.inj ran_
    change Memory.readAt t.procString.string 0 _ = _ at bytes
    have nonzero : ∀ byte ∈ values literal.elements, byte ≠ 0 :=
      List.forall_mem_map.mpr fun element member => (literal.valid element member).value_ne_zero
    have within : values literal.elements <+: decode noSkip literal.elements := by
      by_cases fits : (decode noSkip literal.elements).length < finshStringMax
      · rw [(read.closed fits).2] at bytes
        exact prefix_of_read bytes nonzero
      · rw [read.full (Nat.le_of_not_lt fits)] at bytes
        have size : ((decode noSkip literal.elements).take finshStringMax).length = finshStringMax := by
          rw [List.length_take, Nat.min_eq_left (Nat.le_of_not_lt fits)]
        have front := take_of_read (n := (values literal.elements).length) bytes (by omega) le_rfl
        rw [List.take_take, Nat.min_eq_left short.le, List.take_length] at front
        exact ⟨_, by rw [← front]; exact List.take_append_drop _ _⟩
    obtain ⟨more, decoded⟩ := within
    exact decodable_of_decode literal.valid decoded.symm
  · intro decodable
    have decoded := decode_of_decodable literal.valid decodable
    rw [decoded] at read
    obtain ⟨left, string⟩ := read.closed short
    refine ⟨_, ran, rfl, left, ?_⟩
    change Memory.readAt t.procString.string 0 _ = _
    have size : (values literal.elements ++ [0]).length = (values literal.elements).length + 1 := by simp
    rw [string, ← size, Memory.readAt_writeAt]

/-- What a character literal yields: the value of its body, and what is behind the quote if there is one. -/
theorem run_of_apostrophe (left : l.rest = '\''.toUInt8 :: chars) :
    ∃ t : Lexer, t.rest = chars ∧ l.run = t.procChar.map fun (value, l) =>
      { l with value := (l.value &&& 0xffffff00) ||| BitVec.ofNat 32 value.toNat, currentToken := .valueChar } := by
  let t : Lexer := { l with string := Function.update l.string 0 0 }
  have same : t.rest = '\''.toUInt8 :: chars := left
  refine ⟨t.skip 1, rest_skip_one same, ?_⟩
  rw [run_of_separator left (by decide) (by decide)]
  change t.runOther = _
  rw [runOther, nextChar_of_cons same]
  rfl

/-- The byte that is stored in `char_value`. -/
theorem charValue (value : BitVec 32) (byte : UInt8) :
    ((value &&& 0xffffff00) ||| BitVec.ofNat 32 byte.toNat).setWidth 8 = byte.toBitVec := by
  have low : (0xffffff00 : BitVec 32).setWidth 8 = 0 := by decide
  have same : (BitVec.ofNat 32 byte.toNat).setWidth 8 = byte.toBitVec := by
    apply BitVec.eq_of_toNat_eq
    simp
  rw [BitVec.setWidth_or, BitVec.setWidth_and, low, same]
  simp

/-- What the lexer makes of a character literal whose body it reads to its end. -/
theorem yieldsChar_of_body {byte : UInt8} {n : ℕ}
    (ran : l.run = t.procChar.map fun (value, l) => { l with value := (l.value &&& 0xffffff00) ||| BitVec.ofNat 32 value.toNat, currentToken := .valueChar })
    (body : t.charBody = some (byte, t.skip n)) (quote : (t.skip n).rest = '\''.toUInt8 :: tail) (expected : UInt8) :
    YieldsChar l expected tail ↔ byte = expected := by
  have closed : t.procChar = some (byte, (t.skip n).skip 1) := by
    rw [procChar, body, Option.map_some]
    dsimp only
    rw [nextChar_of_cons quote]
    exact congrArg some (if_pos rfl)
  rw [closed, Option.map_some] at ran
  constructor
  · rintro ⟨u, ran_, -, -, value⟩
    rw [ran] at ran_
    obtain rfl := Option.some.inj ran_
    rw [charValue] at value
    exact UInt8.toBitVec_inj.mp value
  · rintro rfl
    exact ⟨_, ran, rfl, rest_skip_one quote, charValue _ _⟩

theorem charBody_escape {ch : UInt8} (left : t.rest = '\\'.toUInt8 :: ch :: chars) :
    t.charBody = match charEscape ch with
      | some byte => some (byte, t.skip 2)
      | none => charDigits (ch, t.skip 2) := by
  rw [charBody, nextChar_of_cons left]
  dsimp only
  rewrite [if_pos rfl, nextChar_of_cons (rest_skip_one left), skip_skip]
  cases charEscape ch <;> rfl

/-- The digits of an octal escape are taken, and their value is not. -/
theorem charBody_octal {digits more : List UInt8} (valid : (CharBody.octal digits).Valid)
    (left : t.rest = '\\'.toUInt8 :: (digits ++ '\''.toUInt8 :: more)) :
    t.charBody = some (0, t.skip (1 + digits.length)) := by
  obtain ⟨ne, short, digit, -⟩ := valid
  obtain ⟨ch, others, rfl⟩ := List.exists_cons_of_ne_nil ne
  have known : ∀ ch : UInt8, (∃ v ∈ digitValue ch, v < 8) → charEscape ch = none ∧ isDigit ch = true :=
    forall_byte (by decide +kernel)
  have first := charBody_escape left
  rw [(known ch (digit ch List.mem_cons_self)).1] at first
  dsimp only at first
  have inside := rest_skip_one left
  have taken : (t.skip 1).rest.takeWhile isDigit = ch :: others := by
    rw [inside, List.takeWhile_append_of_pos fun ch member => (known ch (digit ch member)).2,
      List.takeWhile_cons_of_neg (by decide), List.append_nil]
  have behind : (t.skip 1).skip (ch :: others).length = t.skip (1 + (ch :: others).length) := skip_skip t _ _
  have digits : takeChars isDigit (t.skip 2).rounds (ch, t.skip 2) =
      (ch :: others, (t.skip (1 + (ch :: others).length)).nextChar) := by
    have whole := takeChars_rounds (show isDigit 0 = false by decide) (t.skip 1)
    rwa [taken, behind, nextChar_of_cons inside, skip_skip] at whole
  have quote : (t.skip (1 + (ch :: others).length)).rest = '\''.toUInt8 :: more := by
    rw [← behind]
    exact rest_skip inside
  rw [first, charDigits, digits]
  dsimp only
  rw [if_pos (Nat.lt_succ_of_le short), prevChar_nextChar,
    settled_of_ne_nil (by rw [quote]; exact List.cons_ne_nil _ _)]

/-- An escape that the lexer does not know leaves its letter in front of the quote. -/
theorem charBody_unknown {letter : UInt8} {more : List UInt8} (unknown : charEscape letter = none)
    (other : isDigit letter = false) (left : t.rest = '\\'.toUInt8 :: letter :: more) :
    t.charBody = some (0, t.skip 1) := by
  have open_ := eof_of_rest left
  rw [charBody_escape left, unknown]
  dsimp only
  rw [charDigits, rounds, takeChars, if_neg (by simp [other])]
  exact congrArg (fun l => some ((0 : UInt8), l)) (prevChar_skip open_ 1)

theorem yieldsChar_iff (literal : CharLiteral) (left : l.rest = literal.text ++ tail) :
    YieldsChar l literal.body.value tail ↔ literal.body.Decodable := by
  obtain ⟨body, valid⟩ := literal
  rw [CharLiteral.text, List.cons_append, List.append_assoc, List.singleton_append] at left
  obtain ⟨t, rest, ran⟩ := run_of_apostrophe left
  cases body with
  | plain ch =>
    have next : t.rest = ch :: '\''.toUInt8 :: tail := rest
    have read : t.charBody = some (ch, t.skip 1) := by
      rw [charBody, nextChar_of_cons next]
      exact if_neg valid.2.2.2
    exact (yieldsChar_of_body ran read (rest_skip_one next) ch).trans (iff_of_true rfl trivial)
  | simple letter =>
    have next : t.rest = '\\'.toUInt8 :: letter :: '\''.toUInt8 :: tail := rest
    have known : ∀ letter : UInt8, (simpleCharEscape letter).isSome →
        (charEscape letter).isSome ∧ charEscape letter = simpleCharEscape letter ∨
          charEscape letter = none ∧ isDigit letter = false ∧ letter ≠ '\''.toUInt8 :=
      forall_byte (by decide +kernel)
    rcases known letter valid with ⟨decodes, same⟩ | ⟨none_, other, noQuote⟩
    · obtain ⟨byte, escape⟩ := Option.isSome_iff_exists.mp decodes
      have read : t.charBody = some (byte, t.skip 2) := by rw [charBody_escape next, escape]
      have quote : (t.skip 2).rest = '\''.toUInt8 :: tail := by
        rw [← skip_skip t 1 1]
        exact rest_skip_one (rest_skip_one next)
      refine (yieldsChar_of_body ran read quote _).trans (iff_of_true ?_ decodes)
      rw [CharBody.value, ← same, escape]
      rfl
    · refine iff_of_false ?_ (by simp [CharBody.Decodable, none_])
      rintro ⟨u, ran_, -, left, -⟩
      have behind := rest_skip_one next
      have open_ := eof_of_rest next
      rw [procChar, charBody_unknown none_ other next, Option.map_some] at ran
      dsimp only at ran
      rw [nextChar_of_cons behind] at ran
      dsimp only at ran
      rw [if_neg noQuote] at ran
      rw [ran] at ran_
      obtain rfl := Option.some.inj ran_
      have back : ((t.skip 1).skip 1).prevChar = t.skip 1 := prevChar_skip open_ 1
      change ((t.skip 1).skip 1).prevChar.rest = tail at left
      rw [back, behind] at left
      have size := congrArg List.length left
      simp only [List.length_cons] at size
      omega
  | octal digits =>
    have next : t.rest = '\\'.toUInt8 :: (digits ++ '\''.toUInt8 :: tail) := rest
    have quote : (t.skip (1 + digits.length)).rest = '\''.toUInt8 :: tail := by
      rw [← skip_skip]
      exact rest_skip (rest_skip_one next)
    refine (yieldsChar_of_body ran (charBody_octal valid next) quote _).trans ?_
    change 0 = UInt8.ofNat _ ↔ _
    constructor
    · intro zero
      have same := congrArg UInt8.toNat zero
      rw [UInt8.toNat_ofNat', Nat.mod_eq_of_lt valid.2.2.2] at same
      exact same.symm
    · intro zero
      change NumberBase.octal.value digits = 0 at zero
      rw [zero]
      rfl

/-- The literals that yield their bytes and are taken to their end, for every lexer in front of one. -/
theorem run_literals_iff (l : Lexer) (tail : List UInt8) :
    (∀ literal : StringLiteral, l.rest = literal.text ++ tail →
      (YieldsString l (values literal.elements) tail ↔ Decodable literal.elements)) ∧
    ∀ literal : CharLiteral, l.rest = literal.text ++ tail →
      (YieldsChar l literal.body.value tail ↔ literal.body.Decodable) :=
  ⟨fun literal => yieldsString_iff literal, fun literal => yieldsChar_iff literal⟩

/-- `"a\n"`. -/
def stringLine : StringLiteral where
  elements := [.plain 'a'.toUInt8, .simple 'n'.toUInt8]
  valid := List.forall_mem_cons.mpr ⟨⟨by decide, by decide, by decide, by decide⟩,
    List.forall_mem_singleton.mpr (show (simpleEscape _).isSome by decide)⟩
  separated := trivial
  short := by decide

/-- `'\n'`. -/
def charNewline : CharLiteral where
  body := .simple 'n'.toUInt8
  valid := show (simpleCharEscape _).isSome by decide

/-- The lines `"a\n"` and `'\n'`. -/
theorem run_literals_newline :
    YieldsString (init [⟨0x22, by decide⟩, ⟨0x61, by decide⟩, ⟨0x5c, by decide⟩, ⟨0x6e, by decide⟩, ⟨0x22, by decide⟩])
        [0x61, 0x0a] [] ∧
      YieldsChar (init [⟨0x27, by decide⟩, ⟨0x5c, by decide⟩, ⟨0x6e, by decide⟩, ⟨0x27, by decide⟩]) 0x0a [] :=
  ⟨((run_literals_iff _ []).1 stringLine (by decide)).mpr ⟨by decide, by decide, trivial⟩,
    ((run_literals_iff _ []).2 charNewline (by decide)).mpr (show (charEscape _).isSome by decide)⟩

/-- The line `"\\"`, the literal of one backslash: the lexer yields a NUL. -/
theorem run_literals_not_backslash :
    ¬ YieldsString (init [⟨0x22, by decide⟩, ⟨0x5c, by decide⟩, ⟨0x5c, by decide⟩, ⟨0x22, by decide⟩])
      (values [.simple '\\'.toUInt8]) [] := by
  rintro ⟨t, read, -, -, bytes⟩
  have nul : (init [⟨0x22, by decide⟩, ⟨0x5c, by decide⟩, ⟨0x5c, by decide⟩, ⟨0x22, by decide⟩]).run.map
      (fun t => Memory.readAt t.string 0 2) = some [0, 0] := by decide
  rw [read, Option.map_some] at nul
  exact absurd (bytes.symm.trans (Option.some.inj nul)) (by decide)

end Lexer

end Finsh
