import ShdslBridge.Finsh.Lexer
import Mathlib.Data.List.TakeWhile

/-! # What the lexer reads

`rest` is what is left of the line: nothing behind a newline, and nothing once the end is seen. Every function of
the lexer is described by what it takes from there. A character that is read and put back leaves the lexer as it was,
unless it was the end of the line: `settled`.
-/

namespace Finsh

theorem forall_byte {p : UInt8 → Prop} (all : ∀ n : Fin 256, p (.ofFin n)) (byte : UInt8) : p byte := all byte.toFin

namespace Lexer

/-- The characters that are left. -/
def rest (l : Lexer) : List UInt8 :=
  if l.eof then [] else ((l.line.drop l.position).map Subtype.val).takeWhile (· != '\n'.toUInt8)

def skip (l : Lexer) (n : ℕ) : Lexer := { l with position := l.position + n }

def ended (l : Lexer) : Lexer := if l.eof then l else l.atEnd

def settled (l : Lexer) : Lexer := if l.rest = [] then l.ended else l

variable {l : Lexer}

@[simp] theorem skip_zero (l : Lexer) : l.skip 0 = l := rfl

@[simp] theorem skip_skip (l : Lexer) (m n : ℕ) : (l.skip m).skip n = l.skip (m + n) := by
  simp [skip, Nat.add_assoc]

@[simp] theorem skip_eof (l : Lexer) (n : ℕ) : (l.skip n).eof = l.eof := rfl

variable {ch : UInt8} {chars : List UInt8}

theorem eof_of_rest (left : l.rest = ch :: chars) : l.eof = false := by
  rw [rest] at left
  split at left
  · cases left
  · simp_all

theorem mem_rest (member : ch ∈ l.rest) : ch ≠ 0 ∧ ch ≠ '\n'.toUInt8 := by
  rw [rest] at member
  split at member
  · cases member
  · obtain ⟨byte, -, rfl⟩ := List.mem_map.mp (List.takeWhile_subset _ member)
    exact ⟨byte.property, by simpa using List.mem_takeWhile_imp member⟩

theorem rest_length_le (l : Lexer) : l.rest.length ≤ l.line.length := by
  rw [rest]
  split
  · exact Nat.zero_le _
  · have shorter := (List.takeWhile_prefix (l := (l.line.drop l.position).map Subtype.val)
        (· != '\n'.toUInt8)).length_le
    rw [List.length_map, List.length_drop] at shorter
    omega

theorem rest_skip_one (left : l.rest = ch :: chars) : (l.skip 1).rest = chars := by
  have open_ := eof_of_rest left
  rw [rest, open_] at left
  rw [rest, skip_eof, open_]
  cases dropped : l.line.drop l.position with
  | nil => simp [dropped] at left
  | cons first more =>
    have next : l.line.drop (l.position + 1) = more := by
      rw [← List.drop_drop, dropped, List.drop_one, List.tail_cons]
    rw [dropped] at left
    change ((l.line.drop (l.position + 1)).map Subtype.val).takeWhile _ = chars
    rw [next]
    simp only [Bool.false_eq_true, if_false, List.map_cons, List.takeWhile_cons] at left
    split at left
    · exact (List.cons.inj left).2
    · cases left

theorem rest_skip {text chars : List UInt8} (left : l.rest = text ++ chars) : (l.skip text.length).rest = chars := by
  induction text generalizing l with
  | nil => exact left
  | cons ch text ih =>
    have next := ih (rest_skip_one left)
    rwa [skip_skip, Nat.add_comm 1] at next

theorem nextChar_of_cons (left : l.rest = ch :: chars) : l.nextChar = (ch, l.skip 1) := by
  have open_ := eof_of_rest left
  rw [rest, open_] at left
  rw [nextChar, open_]
  cases dropped : l.line.drop l.position with
  | nil => simp [dropped] at left
  | cons first more =>
    have found : l.line[l.position]? = some first := by
      rw [← List.head?_drop, dropped, List.head?_cons]
    rw [dropped] at left
    simp only [Bool.false_eq_true, if_false, List.map_cons, List.takeWhile_cons] at left
    split at left
    · next other =>
      rw [found]
      simp only [Bool.false_eq_true, if_false]
      rw [if_neg (by simpa using other), (List.cons.inj left).1]
      simp [skip, open_]
    · cases left

theorem nextChar_of_nil (left : l.rest = []) : l.nextChar = (0, l.ended) := by
  rw [nextChar, ended]
  split
  · rfl
  · next open_ =>
    rw [rest, if_neg open_] at left
    cases found : l.line[l.position]? with
    | none => rfl
    | some ch =>
      dsimp only
      rw [if_pos]
      obtain ⟨inside, rfl⟩ := List.getElem?_eq_some_iff.mp found
      rw [List.drop_eq_getElem_cons inside, List.map_cons, List.takeWhile_cons] at left
      split at left
      · cases left
      · simp_all

theorem prevChar_skip (open_ : l.eof = false) (n : ℕ) : (l.skip (n + 1)).prevChar = l.skip n := by
  simp [prevChar, skip, open_, ← Nat.add_assoc]

theorem ended_eof (l : Lexer) : l.ended.eof = true := by
  rw [ended]
  split
  · assumption
  · rfl

theorem prevChar_ended (l : Lexer) : l.ended.prevChar = l.ended := by
  rw [prevChar, if_pos l.ended_eof]

theorem rest_ended (l : Lexer) : l.ended.rest = [] := by
  rw [rest, if_pos l.ended_eof]

theorem prevChar_nextChar (l : Lexer) : l.nextChar.2.prevChar = l.settled := by
  rw [settled]
  cases left : l.rest with
  | nil => rw [nextChar_of_nil left, if_pos rfl, prevChar_ended]
  | cons ch chars =>
    rw [nextChar_of_cons left, if_neg (List.cons_ne_nil _ _)]
    exact prevChar_skip (eof_of_rest left) 0

theorem settled_of_ne_nil (nonempty : l.rest ≠ []) : l.settled = l := if_neg nonempty

theorem settled_of_nil (none_ : l.rest = []) : l.settled = l.ended := if_pos none_

theorem rest_settled (l : Lexer) : l.settled.rest = l.rest := by
  by_cases none_ : l.rest = []
  · rw [settled_of_nil none_, rest_ended, none_]
  · rw [settled_of_ne_nil none_]

theorem nextChar_line (l : Lexer) : l.nextChar.2.line = l.line := by
  cases left : l.rest with
  | nil =>
    rw [nextChar_of_nil left, ended]
    split <;> rfl
  | cons => rw [nextChar_of_cons left]; rfl

theorem nextChar_rounds (l : Lexer) : l.nextChar.2.rounds = l.rounds := by rw [rounds, nextChar_line, rounds]

section TakeChars

variable {test : UInt8 → Bool}

theorem takeWhile_lt_rounds (l : Lexer) (test : UInt8 → Bool) : (l.rest.takeWhile test).length < l.rounds :=
  Nat.lt_succ_of_le (Nat.le_trans (List.takeWhile_prefix test).length_le l.rest_length_le)

/-- A loop takes the characters that pass its test, and the one behind them. -/
theorem takeChars_eq (nul : test 0 = false) {rounds : ℕ} (enough : (l.rest.takeWhile test).length < rounds) :
    takeChars test rounds l.nextChar =
      (l.rest.takeWhile test, (l.skip (l.rest.takeWhile test).length).nextChar) := by
  induction rounds generalizing l with
  | zero => exact absurd enough (Nat.not_lt_zero _)
  | succ rounds ih =>
    cases left : l.rest with
    | nil =>
      rw [List.takeWhile_nil, List.length_nil, skip_zero, nextChar_of_nil left, takeChars, nul]
      rfl
    | cons ch chars =>
      have next : (l.skip 1).rest = chars := rest_skip_one left
      rw [left] at enough
      rw [nextChar_of_cons left, takeChars]
      by_cases passes : test ch = true
      · rw [List.takeWhile_cons_of_pos passes] at enough ⊢
        rw [List.length_cons] at enough ⊢
        rw [if_pos passes, ih (by rw [next]; omega), next, skip_skip, Nat.add_comm 1]
      · rw [List.takeWhile_cons_of_neg passes, if_neg passes, List.length_nil, skip_zero, nextChar_of_cons left]

theorem takeChars_rounds (nul : test 0 = false) (l : Lexer) :
    takeChars test l.rounds l.nextChar =
      (l.rest.takeWhile test, (l.skip (l.rest.takeWhile test).length).nextChar) :=
  takeChars_eq nul (l.takeWhile_lt_rounds test)

theorem rest_takeWhile (l : Lexer) (test : UInt8 → Bool) :
    (l.skip (l.rest.takeWhile test).length).rest = l.rest.dropWhile test :=
  rest_skip (List.takeWhile_append_dropWhile (p := test) (l := l.rest)).symm

end TakeChars

theorem escapeDigits_settled {test : UInt8 → Bool} (nul : test 0 = false) (base : UInt8) (l : Lexer) :
    escapeDigits test base l.nextChar =
      (digitsValue base (l.rest.takeWhile test), (l.skip (l.rest.takeWhile test).length).settled) := by
  rw [escapeDigits, nextChar_rounds, takeChars_rounds nul]
  dsimp only
  rw [prevChar_nextChar]

theorem settled_string (l : Lexer) : l.settled.string = l.string := by
  rw [settled, ended]
  split_ifs <;> rfl

theorem trimSpace_eq (l : Lexer) : l.trimSpace = (l.skip (l.rest.takeWhile isBlank).length).settled := by
  rw [trimSpace, takeChars_rounds (by decide), prevChar_nextChar]

theorem trimSpace_of_cons {ch : UInt8} {chars : List UInt8} (left : l.rest = ch :: chars) (word : isBlank ch = false) :
    l.trimSpace = l := by
  rw [trimSpace_eq, left, List.takeWhile_cons_of_neg (by simp [word]), List.length_nil, skip_zero]
  exact settled_of_ne_nil (by simp [left])

theorem getString_of_nil (left : l.rest = []) : l.getString = some l.ended := by
  rw [getString, nextChar_of_nil left]
  dsimp only
  rw [if_pos l.ended_eof]

theorem getString_of_digit {ch : UInt8} {chars : List UInt8} (left : l.rest = ch :: chars) (digit : isDigit ch = true) :
    l.getString = some { l with string := Function.update l.string 0 0 } := by
  have open_ := eof_of_rest left
  rw [getString, nextChar_of_cons left]
  dsimp only
  rw [if_neg (by simp [open_]), if_pos digit]
  simp [prevChar, skip, open_]

def behindWord (l : Lexer) (word : List UInt8) : Lexer :=
  { l with position := if l.rest.length = word.length then 0 else l.position + word.length }

/-- The word at the beginning of the rest, which is empty in front of an operator. -/
theorem getWord_eq (open_ : l.eof = false) :
    getWord l.nextChar =
      let word := l.rest.takeWhile (!isSeparator ·)
      if word.length < finshStringMax then
        some { l.behindWord word with string := Memory.writeAt l.string 0 (word ++ [0]) }
      else none := by
  have whole : l.rest.length =
      (l.rest.takeWhile (!isSeparator ·)).length + (l.rest.dropWhile (!isSeparator ·)).length := by
    rw [← List.length_append, List.takeWhile_append_dropWhile]
  have behind := rest_takeWhile l (!isSeparator ·)
  rw [getWord, nextChar_rounds, takeChars_rounds (by decide)]
  dsimp only
  by_cases long : (l.rest.takeWhile (!isSeparator ·)).length < finshStringMax
  · rw [if_pos long, if_pos long, behindWord]
    congr 1
    cases tail : l.rest.dropWhile (!isSeparator ·) with
    | nil =>
      rw [tail] at behind whole
      rw [nextChar_of_nil behind, whole, List.length_nil, Nat.add_zero, if_pos rfl]
      simp [ended, atEnd, prevChar, skip, open_]
    | cons next more =>
      rw [tail] at behind whole
      rw [nextChar_of_cons behind, if_neg (by rw [whole, List.length_cons]; omega)]
      simp [prevChar, skip, open_]
  · rw [if_neg long, if_neg long]

theorem getString_of_word {ch : UInt8} {chars : List UInt8} (left : l.rest = ch :: chars) (other : isDigit ch = false) :
    l.getString =
      let word := l.rest.takeWhile (!isSeparator ·)
      if word.length < finshStringMax then
        some { l.behindWord word with string := Memory.writeAt (Function.update l.string 0 0) 0 (word ++ [0]) }
      else none := by
  have open_ := eof_of_rest left
  let t : Lexer := { l with string := Function.update l.string 0 0 }
  have same : t.rest = ch :: chars := left
  have word := getWord_eq (l := t) open_
  rw [nextChar_of_cons same] at word
  rw [getString, nextChar_of_cons left]
  dsimp only
  rw [if_neg (by simp [open_]), if_neg (by simp [other])]
  exact word

/-- In front of a character that is neither blank nor a part of a word the lexer reads an operator or a literal. -/
theorem run_of_separator {ch : UInt8} {chars : List UInt8}
    (left : l.rest = ch :: chars) (separator : isSeparator ch = true)
    (blank : isBlank ch = false) : l.run = runOther { l with string := Function.update l.string 0 0 } := by
  have open_ := eof_of_rest left
  have digit : isDigit ch = false := by
    rw [isSeparator] at separator
    simp_all
  have word : l.rest.takeWhile (!isSeparator ·) = [] := by
    rw [left]
    exact List.takeWhile_cons_of_neg (by simp [separator])
  have cleared : Memory.writeAt (Function.update l.string 0 0) 0 [0] = Function.update l.string 0 0 := by
    funext i
    cases i with
    | zero => rfl
    | succ i => exact Memory.writeAt_outside _ _ _ (.inr (by simp))
  have got : l.getString = some { l with string := Function.update l.string 0 0 } := by
    rw [getString_of_word left digit, word]
    dsimp only
    rw [if_pos (by decide), behindWord, if_neg (by rw [left]; exact Nat.succ_ne_zero _)]
    simp [cleared]
  rw [run, trimSpace_of_cons left blank, got]
  change (if l.eof then _ else if Function.update l.string 0 0 0 ≠ 0 then _ else _) = _
  rw [if_neg (by simp [open_]), if_neg (by simp)]

end Lexer

end Finsh
