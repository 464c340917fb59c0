import ShdslBridge.Finsh.NumberLiterals
import ShdslBridge.Lib.Run

/-! # The buffers of the lexer

What every token stores, for any text that is left. `Fits` says when the next token stays inside the buffers and
leaves a terminated text. Words, digits behind a prefix and the digits of a character escape are collected without a
limit, and a string literal that is not closed, or not closed in time, is not terminated.

`requests_good_iff` says this for the tokens of a whole line.
-/

namespace Finsh

namespace Lexer

variable {l : Lexer}

def escapeOf : List UInt8 → UInt8 × List UInt8
  | [] => (0, [])
  | ch :: more =>
    match stringEscape ch with
    | some byte => (byte, more)
    | none =>
      if ch = 'x'.toUInt8 then (digitsValue 16 (more.takeWhile isHex), more.dropWhile isHex)
      else if isOctal ch then (digitsValue 8 ((ch :: more).takeWhile isOctal), (ch :: more).dropWhile isOctal)
      else (0, more)

/-- The bytes of a string behind its quote, as far as there is room for them, and whether it is closed in time. -/
def stringBytes : (room : ℕ) → List UInt8 → List UInt8 × Bool
  | 0, _ => ([], false)
  | _ + 1, [] => ([], false)
  | room + 1, ch :: more =>
    if ch = '\\'.toUInt8 then
      let (byte, more) := escapeOf more
      let (bytes, closed) := stringBytes room more
      (byte :: bytes, closed)
    else if ch = '"'.toUInt8 then ([], true)
    else
      let (bytes, closed) := stringBytes room more
      (ch :: bytes, closed)

/-- A text in `string`. -/
def Terminated (string : ℕ → UInt8) : Prop := ∃ i < finshStringMax, string i = 0

/-- A string is closed while there is room for a NUL, has one among its bytes, or leaves one behind them. -/
def StringFits (string : ℕ → UInt8) (text : List UInt8) : Prop :=
  let (bytes, closed) := stringBytes finshStringMax text
  closed = true ∨ 0 ∈ bytes ∨ ∃ i, bytes.length ≤ i ∧ i < finshStringMax ∧ (i = 0 ∨ string i = 0)

def prefixDigits : List UInt8 → List UInt8
  | [] => []
  | ch :: more =>
    if ch = 'x'.toUInt8 ∨ ch = 'X'.toUInt8 then more.takeWhile isAlnum
    else if ch = 'b'.toUInt8 ∨ ch = 'B'.toUInt8 then more.takeWhile isBit
    else (ch :: more).takeWhile isOctalDigit

/-- A character escape has at most three digits. -/
def CharFits (text : List UInt8) : Prop :=
  ∀ more, text = '\\'.toUInt8 :: more → (more.takeWhile isDigit).length < 4

/-- The next token has room for what it stores. -/
def Fits (l : Lexer) : Prop :=
  match l.rest.dropWhile isBlank with
  | [] => True
  | ch :: more =>
    if isDigit ch then ch = '0'.toUInt8 → (prefixDigits more).length < finshStringMax
    else if isSeparator ch then
      (ch = '\''.toUInt8 → CharFits more) ∧ (ch = '"'.toUInt8 → StringFits l.string more)
    else ((ch :: more).takeWhile (!isSeparator ·)).length < finshStringMax

/-- The lexer has stored inside its buffers, and a name or a string is a text. -/
def Good (lexer : Option Lexer) : Prop :=
  ∃ l, lexer = some l ∧ (l.currentToken = .valueString ∨ l.currentToken = .identifier → Terminated l.string)

theorem good_of_other (name : l.currentToken ≠ .identifier) (text : l.currentToken ≠ .valueString) : Good (some l) :=
  ⟨l, rfl, fun either => (either.elim text name).elim⟩

theorem not_good_none : ¬ Good none := by
  rintro ⟨l, same, -⟩
  cases same

section Strings

theorem procEscape_eq (l : Lexer) :
    ∃ t : Lexer, l.procEscape = ((escapeOf l.rest).1, t) ∧ t.rest = (escapeOf l.rest).2 ∧ t.string = l.string := by
  have digits (test : UInt8 → Bool) (nul : test 0 = false) (base : UInt8) (l : Lexer) :
      ∃ t : Lexer, escapeDigits test base l.nextChar = (digitsValue base (l.rest.takeWhile test), t) ∧
        t.rest = l.rest.dropWhile test ∧ t.string = l.string :=
    ⟨_, escapeDigits_settled nul base l, by rw [rest_settled, rest_takeWhile], settled_string _⟩
  cases left : l.rest with
  | nil =>
    have escape : l.procEscape = (0, l.ended) := by
      rw [procEscape, nextChar_of_nil left]
      exact (if_neg (by decide)).trans (if_neg (by decide))
    refine ⟨l.ended, escape, l.rest_ended, ?_⟩
    rw [← settled_of_nil left, settled_string]
  | cons ch more =>
    have next := rest_skip_one left
    rw [procEscape, nextChar_of_cons left, escapeOf]
    dsimp only
    cases escape : stringEscape ch with
    | some byte => exact ⟨_, rfl, next, rfl⟩
    | none =>
      dsimp only
      by_cases hex : ch = 'x'.toUInt8
      · rw [if_pos hex, if_pos hex]
        have taken := digits isHex (by decide) 16 (l.skip 1)
        rwa [next] at taken
      · rw [if_neg hex, if_neg hex]
        by_cases octal : isOctal ch = true
        · rw [if_pos octal, if_pos octal]
          have taken := digits isOctal (by decide) 8 l
          rwa [nextChar_of_cons left, left] at taken
        · rw [if_neg octal, if_neg octal]
          exact ⟨_, rfl, next, rfl⟩

theorem stringLoop_string (room p : ℕ) (l : Lexer) :
    (stringLoop room p l).string =
      Memory.writeAt l.string p
        ((stringBytes room l.rest).1 ++ if (stringBytes room l.rest).2 then [0] else []) := by
  induction room generalizing p l with
  | zero => exact (Memory.writeAt_nil _ _).symm
  | succ room ih =>
    -- one more byte in front of those of the other rounds
    have store (byte : UInt8) (t : Lexer) (string : t.string = l.string) :
        (stringLoop room (p + 1) { t with string := Function.update t.string p byte }).string =
          Memory.writeAt l.string p
            (byte :: ((stringBytes room t.rest).1 ++ if (stringBytes room t.rest).2 then [0] else [])) := by
      rw [ih, string]
      exact Memory.writeAt_update l.string p byte _
    cases left : l.rest with
    | nil =>
      have ended : stringLoop (room + 1) p l = l.ended.setError .unexpectEnd := by
        rw [stringLoop, nextChar_of_nil left]
        exact if_pos l.ended_eof
      rw [ended]
      change l.ended.string = Memory.writeAt l.string p []
      rw [Memory.writeAt_nil, ← settled_of_nil left, settled_string]
    | cons ch more =>
      have next := rest_skip_one left
      have open_ : ¬ (l.skip 1).eof = true := by simp [eof_of_rest left]
      rw [stringLoop, nextChar_of_cons left, stringBytes]
      dsimp only
      rw [if_neg open_]
      by_cases backslash : ch = '\\'.toUInt8
      · obtain ⟨t, escape, behind, string⟩ := procEscape_eq (l.skip 1)
        rw [if_pos backslash, if_pos backslash, escape]
        rw [next] at behind ⊢
        rw [← behind]
        exact store _ t string
      · rw [if_neg backslash, if_neg backslash]
        by_cases quote : ch = '"'.toUInt8
        · rw [if_pos quote, if_pos quote]
          have stored := Memory.writeAt_update l.string p 0 []
          rwa [Memory.writeAt_nil] at stored
        · rw [if_neg quote, if_neg quote, ← next]
          exact store ch (l.skip 1) rfl

theorem stringBytes_length (room : ℕ) (text : List UInt8) :
    (stringBytes room text).1.length ≤ room ∧
      ((stringBytes room text).2 = true → (stringBytes room text).1.length < room) := by
  induction room generalizing text with
  | zero => exact ⟨le_rfl, nofun⟩
  | succ room ih =>
    -- one more byte, and one more place
    have longer (byte : UInt8) (text : List UInt8) :
        (byte :: (stringBytes room text).1).length ≤ room + 1 ∧
          ((stringBytes room text).2 = true → (byte :: (stringBytes room text).1).length < room + 1) :=
      ⟨Nat.succ_le_succ (ih text).1, fun closed => Nat.succ_lt_succ ((ih text).2 closed)⟩
    cases text with
    | nil => exact ⟨Nat.zero_le _, nofun⟩
    | cons ch more =>
      rw [stringBytes]
      split_ifs with backslash quote
      · exact longer (escapeOf more).1 (escapeOf more).2
      · exact ⟨Nat.zero_le _, fun _ => Nat.succ_pos room⟩
      · exact longer ch more

theorem terminated_writeAt {string : ℕ → UInt8} {cells : List UInt8} (fits : cells.length ≤ finshStringMax) :
    Terminated (Memory.writeAt string 0 cells) ↔
      0 ∈ cells ∨ ∃ i, cells.length ≤ i ∧ i < finshStringMax ∧ string i = 0 := by
  have inside (i : ℕ) (lt : i < cells.length) : Memory.writeAt string 0 cells i = cells[i] := by
    have cell := Memory.writeAt_inside string 0 cells lt
    rwa [Nat.zero_add] at cell
  constructor
  · rintro ⟨i, small, nul⟩
    rcases Nat.lt_or_ge i cells.length with lt | behind
    · rw [inside i lt] at nul
      exact .inl (nul ▸ List.getElem_mem lt)
    · rw [Memory.writeAt_outside _ _ _ (.inr (by omega))] at nul
      exact .inr ⟨i, behind, small, nul⟩
  · rintro (member | ⟨i, behind, small, nul⟩)
    · obtain ⟨i, lt, cell⟩ := List.getElem_of_mem member
      exact ⟨i, lt.trans_le fits, (inside i lt).trans cell⟩
    · exact ⟨i, small, (Memory.writeAt_outside _ _ _ (.inr (by omega))).trans nul⟩

theorem terminated_word {string : ℕ → UInt8} {word : List UInt8} (short : word.length < finshStringMax) :
    Terminated (Memory.writeAt string 0 (word ++ [0])) :=
  (terminated_writeAt (by rw [List.length_append]; exact short)).mpr
    (.inl (List.mem_append_right _ List.mem_cons_self))

theorem terminated_string (l : Lexer) (cleared : ℕ → UInt8) (first : l.string = Function.update cleared 0 0) :
    Terminated l.procString.string ↔ StringFits cleared l.rest := by
  obtain ⟨room, closedRoom⟩ := stringBytes_length finshStringMax l.rest
  have old (i : ℕ) : Function.update cleared 0 0 i = 0 ↔ i = 0 ∨ cleared i = 0 := by
    by_cases zero : i = 0
    · rw [zero, Function.update_self]
      exact iff_of_true rfl (.inl rfl)
    · rw [Function.update_of_ne zero]
      exact (or_iff_right zero).symm
  rw [procString, stringLoop_string, StringFits]
  generalize stringBytes finshStringMax l.rest = read at room closedRoom ⊢
  obtain ⟨bytes, closed⟩ := read
  cases closed with
  | true =>
    exact iff_of_true (terminated_word (closedRoom rfl)) (.inl rfl)
  | false =>
    dsimp only
    rw [if_neg Bool.false_ne_true, List.append_nil, terminated_writeAt room, first]
    simp only [old, Bool.false_eq_true, false_or]

end Strings

section Numbers

theorem good_procSuffix {ch : UInt8} (int : l.currentToken = .valueInt) : Good (some (procSuffix ch l)) := by
  have token : (procSuffix ch l).currentToken = .valueLong ∨ (procSuffix ch l).currentToken = .valueInt := by
    rw [procSuffix, prevChar]
    split_ifs
    · exact .inl rfl
    all_goals exact .inr int
  rcases token with same | same
  · exact good_of_other (by rw [same]; decide) (by rw [same]; decide)
  · exact good_of_other (by rw [same]; decide) (by rw [same]; decide)

theorem good_procDigits_iff {test : UInt8 → Bool} (nul : test 0 = false) (shift : ℕ) (l : Lexer) :
    Good (procDigits test shift l.nextChar) ↔ (l.rest.takeWhile test).length < finshStringMax := by
  rw [procDigits_eq nul]
  dsimp only
  by_cases short : (l.rest.takeWhile test).length < finshStringMax
  · rw [if_pos short]
    exact iff_of_true (good_procSuffix rfl) short
  · rw [if_neg short]
    exact iff_of_false not_good_none short

theorem good_procNumber_iff {ch : UInt8} {more : List UInt8} (left : l.rest = ch :: more) :
    Good l.procNumber ↔ (ch = '0'.toUInt8 → (prefixDigits more).length < finshStringMax) := by
  have next := rest_skip_one left
  rw [procNumber, nextChar_of_cons left]
  dsimp only
  by_cases zero : ch = '0'.toUInt8
  · rw [if_pos zero, imp_iff_right zero]
    cases more with
    | nil =>
      rw [nextChar_of_nil next]
      dsimp only
      rw [if_neg (by decide), if_neg (by decide), if_neg (by decide)]
      exact iff_of_true (good_of_other (by rintro ⟨⟩) (by rintro ⟨⟩)) (by decide)
    | cons second more =>
      have behind := rest_skip_one next
      rw [nextChar_of_cons next, prefixDigits]
      dsimp only
      by_cases hex : second = 'x'.toUInt8 ∨ second = 'X'.toUInt8
      · rw [if_pos hex, if_pos hex, ← behind]
        exact good_procDigits_iff (by decide) 4 _
      · rw [if_neg hex, if_neg hex]
        by_cases binary : second = 'b'.toUInt8 ∨ second = 'B'.toUInt8
        · rw [if_pos binary, if_pos binary, ← behind]
          exact good_procDigits_iff (by decide) 1 _
        · rw [if_neg binary, if_neg binary]
          by_cases octal : '0'.toUInt8 ≤ second ∧ second ≤ '7'.toUInt8
          · rw [if_pos octal, ← next, ← nextChar_of_cons next]
            exact good_procDigits_iff (by decide) 3 _
          · rw [if_neg octal]
            have none_ : (second :: more).takeWhile isOctalDigit = [] :=
              List.takeWhile_cons_of_neg (by simpa [isOctalDigit] using octal)
            rw [none_]
            exact iff_of_true (good_of_other (by rintro ⟨⟩) (by rintro ⟨⟩)) (by decide)
  · rw [if_neg zero]
    refine iff_of_true ?_ fun same => absurd same zero
    rw [← nextChar_of_cons left, procDecimal_eq]
    exact good_procSuffix rfl

end Numbers

section Literals

theorem notDigit_of_charEscape : ∀ ch : UInt8, (charEscape ch).isSome → isDigit ch = false :=
  forall_byte (by decide +kernel)

/-- A character literal stays in `buf`. -/
theorem charBody_isSome_iff (l : Lexer) : l.charBody.isSome ↔ CharFits l.rest := by
  cases left : l.rest with
  | nil =>
    rw [charBody, nextChar_of_nil left]
    exact iff_of_true rfl nofun
  | cons ch more =>
    have next := rest_skip_one left
    rw [charBody, nextChar_of_cons left]
    dsimp only
    by_cases backslash : ch = '\\'.toUInt8
    · rw [if_pos backslash]
      have fits : CharFits (ch :: more) ↔ ((l.skip 1).rest.takeWhile isDigit).length < 4 := by
        rw [next]
        exact ⟨fun fits => fits more (by rw [backslash]), fun short _ same => (List.cons.inj same).2 ▸ short⟩
      rw [fits]
      cases escape : charEscape (l.skip 1).nextChar.1 with
      | some byte =>
        refine iff_of_true rfl ?_
        cases behind : (l.skip 1).rest with
        | nil => decide
        | cons letter more =>
          rw [nextChar_of_cons behind] at escape
          have other := notDigit_of_charEscape letter (by rw [escape]; rfl)
          rw [List.takeWhile_cons_of_neg (by simp [other])]
          decide
      | none =>
        dsimp only
        rw [charDigits, nextChar_rounds, takeChars_rounds (by decide)]
        dsimp only
        split_ifs with short
        · exact iff_of_true rfl short
        · exact iff_of_false Bool.false_ne_true short
    · rw [if_neg backslash]
      exact iff_of_true rfl fun _ same => absurd (List.cons.inj same).1 backslash

theorem operator_token : ∀ ch : UInt8,
    ((singleToken ch).isSome ∨ (doubleToken ch).isSome → ch ≠ '\''.toUInt8 ∧ ch ≠ '"'.toUInt8) ∧
      (∀ type ∈ singleToken ch, type ≠ .identifier ∧ type ≠ .valueString) ∧
      ∀ types ∈ doubleToken ch, (types.1 ≠ .identifier ∧ types.1 ≠ .valueString) ∧
        types.2 ≠ .identifier ∧ types.2 ≠ .valueString :=
  forall_byte (by decide +kernel)

theorem good_runOther_iff {ch : UInt8} {more : List UInt8} (left : l.rest = ch :: more) (other : isDigit ch = false)
    (cleared : ℕ → UInt8) (first : l.string = Function.update cleared 0 0) :
    Good l.runOther ↔
      (ch = '\''.toUInt8 → CharFits more) ∧ (ch = '"'.toUInt8 → StringFits cleared more) := by
  have next := rest_skip_one left
  obtain ⟨quotes, singles, doubles⟩ := operator_token ch
  -- an operator stores nothing
  have operator {lexer : Option Lexer} (good : Good lexer) (noQuote : ch ≠ '\''.toUInt8 ∧ ch ≠ '"'.toUInt8) :
      Good lexer ↔ (ch = '\''.toUInt8 → CharFits more) ∧ (ch = '"'.toUInt8 → StringFits cleared more) :=
    iff_of_true good ⟨fun same => absurd same noQuote.1, fun same => absurd same noQuote.2⟩
  rw [runOther, nextChar_of_cons left]
  dsimp only
  cases single : singleToken ch with
  | some type =>
    obtain ⟨name, text⟩ := singles type single
    exact operator (good_of_other name text) (quotes (.inl (by rw [single]; rfl)))
  | none =>
    dsimp only
    cases double : doubleToken ch with
    | some types =>
      obtain ⟨twice, once⟩ := doubles types double
      refine operator ?_ (quotes (.inr (by rw [double]; rfl)))
      dsimp only
      split_ifs
      · exact good_of_other twice.1 twice.2
      · exact good_of_other once.1 once.2
    | none =>
      dsimp only
      by_cases quote : ch = '\''.toUInt8
      · have single : ch ≠ '"'.toUInt8 := by rw [quote]; decide
        rw [if_pos quote, procChar, ← next, imp_iff_right quote, ← charBody_isSome_iff]
        rw [and_iff_left fun same => absurd same single]
        cases (l.skip 1).charBody with
        | none => exact iff_of_false not_good_none Bool.false_ne_true
        | some body => exact iff_of_true (good_of_other (by rintro ⟨⟩) (by rintro ⟨⟩)) rfl
      · rw [if_neg quote, and_iff_right fun same => absurd same quote]
        by_cases text : ch = '"'.toUInt8
        · rw [if_pos text, imp_iff_right text, ← next, ← terminated_string (l.skip 1) cleared first]
          constructor
          · rintro ⟨t, same, terminated⟩
            obtain rfl := Option.some.inj same
            exact terminated (.inl rfl)
          · exact fun terminated => ⟨_, rfl, fun _ => terminated⟩
        · rw [if_neg text, if_neg (by simp [other])]
          exact iff_of_true (good_of_other (by rintro ⟨⟩) (by rintro ⟨⟩)) fun same => absurd same text

end Literals

section Tokens

theorem run_of_blanks {ch : UInt8} {more : List UInt8} (left : l.rest.dropWhile isBlank = ch :: more) :
    ∃ n, (l.skip n).rest = ch :: more ∧ isBlank ch = false ∧ l.run = (l.skip n).run := by
  have behind : (l.skip (l.rest.takeWhile isBlank).length).rest = ch :: more := (rest_takeWhile l isBlank).trans left
  have word : isBlank ch = false := by
    have head := List.head_dropWhile_not isBlank (by rw [left]; exact List.cons_ne_nil _ _)
    simpa [left] using head
  refine ⟨_, behind, word, ?_⟩
  rw [run, run, trimSpace_eq, settled_of_ne_nil (by rw [behind]; exact List.cons_ne_nil _ _),
    trimSpace_of_cons behind word]

theorem run_of_nil (left : l.rest.dropWhile isBlank = []) :
    l.run = some { (l.skip (l.rest.takeWhile isBlank).length).ended with currentToken := .eof } := by
  have behind : (l.skip (l.rest.takeWhile isBlank).length).rest = [] := (rest_takeWhile l isBlank).trans left
  have ended := ended_eof (l.skip (l.rest.takeWhile isBlank).length)
  have again (t : Lexer) (seen : t.eof = true) : t.ended = t := if_pos seen
  rw [run, trimSpace_eq, settled_of_nil behind, getString_of_nil (rest_ended _), again _ ended]
  exact if_pos ended

theorem run_of_word {ch : UInt8} {more : List UInt8} (left : l.rest = ch :: more) (blank : isBlank ch = false)
    (digit : isDigit ch = false) (letter : isSeparator ch = false) :
    l.run =
      let word := l.rest.takeWhile (!isSeparator ·)
      if word.length < finshStringMax then
        let t := { l.behindWord word with string := Memory.writeAt (Function.update l.string 0 0) 0 (word ++ [0]) }
        some { t with currentToken := t.matchName.getD .identifier }
      else none := by
  have word : l.rest.takeWhile (!isSeparator ·) = ch :: more.takeWhile (!isSeparator ·) := by
    rw [left]
    exact List.takeWhile_cons_of_pos (by simp [letter])
  have nonzero : ch ≠ 0 := (mem_rest (by rw [left]; exact List.mem_cons_self)).1
  rw [run, trimSpace_of_cons left blank, getString_of_word left digit]
  dsimp only
  by_cases short : (l.rest.takeWhile (!isSeparator ·)).length < finshStringMax
  · rw [if_pos short, if_pos short]
    refine (if_neg (by simp [behindWord, eof_of_rest left])).trans (if_pos ?_)
    change Memory.writeAt _ 0 (l.rest.takeWhile (!isSeparator ·) ++ [0]) 0 ≠ 0
    rw [word]
    exact nonzero
  · rw [if_neg short, if_neg short]
    rfl

theorem good_run_iff (l : Lexer) : Good l.run ↔ l.Fits := by
  rw [Fits]
  cases left : l.rest.dropWhile isBlank with
  | nil =>
    rw [run_of_nil left]
    exact iff_of_true (good_of_other nofun nofun) trivial
  | cons ch more =>
    obtain ⟨n, behind, blank, same⟩ := run_of_blanks left
    dsimp only
    rw [same]
    by_cases digit : isDigit ch = true
    · rw [if_pos digit, run_of_digit behind digit]
      exact good_procNumber_iff (by exact behind)
    · have other : isDigit ch = false := by simpa using digit
      rw [if_neg digit]
      by_cases separator : isSeparator ch = true
      · rw [if_pos separator, run_of_separator behind separator blank]
        exact good_runOther_iff (by exact behind) other l.string rfl
      · have letter : isSeparator ch = false := by simpa using separator
        rw [if_neg separator, run_of_word behind blank other letter, ← behind]
        dsimp only
        by_cases short : ((l.skip n).rest.takeWhile (!isSeparator ·)).length < finshStringMax
        · rw [if_pos short]
          exact iff_of_true ⟨_, rfl, fun _ => terminated_word short⟩ short
        · rw [if_neg short]
          exact iff_of_false not_good_none short

end Tokens

/-- What a parser asks of the lexer: `finsh_token_token` and `finsh_token_replay`. -/
inductive Request
  | token
  | replay

def request : Option Lexer → Request → Option Lexer
  | none, _ => none
  | some l, .token => l.token
  | some l, .replay => some { l with replay := true }

/-- A token is either the last one again or has room for what it stores. -/
def RequestFits : Option Lexer → Request → Prop
  | some l, .token => l.replay = true ∨ l.Fits
  | _, _ => True

theorem good_request_iff {lexer : Option Lexer} (good : Good lexer) (event : Request) :
    Good (request lexer event) ↔ RequestFits lexer event := by
  obtain ⟨l, rfl, text⟩ := good
  cases event with
  | replay => exact iff_of_true ⟨_, rfl, text⟩ trivial
  | token =>
    change Good l.token ↔ (l.replay = true ∨ l.Fits)
    rw [token]
    by_cases again : l.replay = true
    · rw [if_pos again]
      exact iff_of_true ⟨_, rfl, text⟩ (.inl again)
    · rw [if_neg again, good_run_iff]
      exact (or_iff_right again).symm

/-- For every line and all requests, the lexer stays in its buffers and leaves terminated texts if and only if every
token that it reads has room for what it stores. -/
theorem requests_good_iff (line : List Ch) (requests : List Request) :
    Run.Always request Good (some (init line)) requests ↔
      Run.Along request RequestFits (some (init line)) requests := by
  have start : Good (some (init line)) := good_of_other nofun nofun
  have breaks (lexer : Option Lexer) (event : Request) (good : Good lexer) (large : ¬ RequestFits lexer event) :
      ¬ Good (request lexer event) := fun stays => large ((good_request_iff good event).mp stays)
  exact Run.always_iff_along (fun _ event good fits => (good_request_iff good event).mpr fits) (fun _ good => good)
    breaks start requests

/-- A word of 128 letters. -/
theorem requests_not_good :
    ¬ Run.Always request Good (some (init (List.replicate 128 ⟨0x61, by decide⟩))) [.token] := by
  rintro ⟨-, good⟩
  have fits := (good_run_iff (init (List.replicate 128 ⟨0x61, by decide⟩))).mp good
  have word : (init (List.replicate 128 ⟨0x61, by decide⟩)).rest.dropWhile isBlank =
      0x61 :: List.replicate 127 0x61 := by decide +kernel
  have long : ((0x61 :: List.replicate 127 0x61).takeWhile (!isSeparator ·)).length = 128 := by decide +kernel
  rw [Fits, word] at fits
  dsimp only at fits
  rw [if_neg (by decide), if_neg (by decide), long] at fits
  exact absurd fits (by decide)

end Lexer

end Finsh
