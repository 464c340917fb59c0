import Mathlib.Data.List.Basic
import Mathlib.Data.Nat.Basic

/-! # A line editor

The editor that a user of the shell has in mind: a line with a cursor in it, the lines entered before,
and the keys that a terminal sends as bytes and escape sequences. A line has less than `FINSH_CMD_SIZE`
characters. One that would get longer is discarded.

Nothing here is about buffers: `Shell` is the program that keeps such a line in an array.
-/

namespace Finsh

abbrev Ch := { byte : UInt8 // byte ≠ 0 }

/-- `FINSH_CMD_SIZE`. -/
def finshCmdSize : ℕ := 80

/-- `FINSH_HISTORY_LINES`. -/
def finshHistoryLines : ℕ := 5

/-- `enum input_stat`: how much of the escape sequence of a key has come in. -/
inductive InputStat
  | waitNormal
  | waitSpecKey
  | waitFuncKey
  deriving DecidableEq

inductive Key
  | enter
  | tab
  | backspace
  | up
  | down
  | left
  | right
  | char (ch : Ch)

def Key.ofByte (ch : Ch) : Key :=
  if ch.val = 13 ∨ ch.val = 10 then .enter
  else if ch.val = 9 then .tab
  else if ch.val = 0x7f ∨ ch.val = 8 then .backspace
  else .char ch

/-- The next byte of the terminal: the key that it completes, and what is expected after it. -/
def InputStat.decode (stat : InputStat) (ch : Ch) : InputStat × Option Key :=
  if ch.val = 0x1b then (.waitSpecKey, none)
  else match stat with
    | .waitNormal => (.waitNormal, some (.ofByte ch))
    | .waitSpecKey => if ch.val = 0x5b then (.waitFuncKey, none) else (.waitNormal, some (.ofByte ch))
    | .waitFuncKey =>
      (.waitNormal, some <|
        if ch.val = 0x41 then .up
        else if ch.val = 0x42 then .down
        else if ch.val = 0x44 then .left
        else if ch.val = 0x43 then .right
        else .ofByte ch)

def commonPrefix : List Ch → List Ch → List Ch
  | x :: xs, y :: ys => if x = y then x :: commonPrefix xs ys else []
  | _, _ => []

def complete (names : List (List Ch)) (text : List Ch) : List Ch :=
  if text = [] then []
  else match names.filter (text.isPrefixOf ·) with
    | [] => text
    | name :: others => others.foldl commonPrefix name

structure LineEditor where
  stat : InputStat
  text : List Ch
  cursor : ℕ
  /-- The lines entered, oldest first. -/
  history : List (List Ch)
  /-- The line of the history that was shown last, or the end of the history. -/
  browse : ℕ
  text_short : text.length < finshCmdSize
  cursor_le : cursor ≤ text.length
  history_short : ∀ line ∈ history, line.length < finshCmdSize
  history_le : history.length ≤ finshHistoryLines
  browse_le : browse ≤ history.length

namespace LineEditor

def init : LineEditor where
  stat := .waitNormal
  text := []
  cursor := 0
  history := []
  browse := 0
  text_short := by decide
  cursor_le := Nat.le_refl 0
  history_short := nofun
  history_le := by decide
  browse_le := Nat.le_refl 0

/-- Puts another text into the line, with the cursor where the user expects it, or discards a text
that is too long. -/
def edit (e : LineEditor) (text : List Ch) (cursor : ℕ) (cursor_le : cursor ≤ text.length) : LineEditor :=
  if text_short : text.length < finshCmdSize then { e with text, cursor, text_short, cursor_le }
  else { e with text := [], cursor := 0, text_short := by decide, cursor_le := Nat.le_refl 0 }

def restore (e : LineEditor) (text : List Ch) : LineEditor := e.edit text text.length (Nat.le_refl _)

/-- The line goes into the history, and an empty one is shown. The oldest line leaves a full history. -/
def enter (e : LineEditor) : LineEditor :=
  if e.text = [] then { e with browse := e.history.length, browse_le := Nat.le_refl _ }
  else
    { e with
      text := []
      cursor := 0
      history := (e.history ++ [e.text]).drop (e.history.length + 1 - finshHistoryLines)
      browse := ((e.history ++ [e.text]).drop (e.history.length + 1 - finshHistoryLines)).length
      text_short := by decide
      cursor_le := Nat.le_refl 0
      history_short := by
        intro line member
        rcases List.mem_append.mp (List.mem_of_mem_drop member) with old | new
        · exact e.history_short line old
        · rw [List.mem_singleton.mp new]
          exact e.text_short
      history_le := by
        have short := e.history_le
        rw [List.length_drop, List.length_append, List.length_singleton]
        omega
      browse_le := Nat.le_refl _ }

def show_ (e : LineEditor) (browse : ℕ) (inside : browse < e.history.length) : LineEditor :=
  { e with browse, browse_le := Nat.le_of_lt inside }.restore e.history[browse]

def press (names : List (List Ch)) (e : LineEditor) : Key → LineEditor
  | .enter => e.enter
  | .tab => e.restore (complete names e.text)
  | .backspace =>
    if inside : 0 < e.cursor then
      e.edit (e.text.eraseIdx (e.cursor - 1)) (e.cursor - 1) (by
        have := e.cursor_le
        rw [List.length_eraseIdx]
        split <;> omega)
    else e
  | .up => if older : 0 < e.browse then e.show_ (e.browse - 1) (by have := e.browse_le; omega) else e
  | .down =>
    if newer : e.browse + 1 < e.history.length then e.show_ (e.browse + 1) newer
    else if any : 0 < e.history.length then e.show_ (e.history.length - 1) (by omega)
    else e
  | .left => { e with cursor := e.cursor - 1, cursor_le := Nat.le_trans (Nat.sub_le _ _) e.cursor_le }
  | .right => { e with cursor := min (e.cursor + 1) e.text.length, cursor_le := Nat.min_le_right _ _ }
  | .char ch =>
    e.edit (e.text.insertIdx e.cursor ch) (e.cursor + 1) (by
      have := e.cursor_le
      rw [List.length_insertIdx_of_le_length this]
      omega)

/-- The next byte of the terminal. -/
def feed (names : List (List Ch)) (e : LineEditor) (ch : Ch) : LineEditor :=
  match (e.stat.decode ch).2 with
  | none => { e with stat := (e.stat.decode ch).1 }
  | some key => { e with stat := (e.stat.decode ch).1 }.press names key

/-- Behind an entered line the editor is empty, and the end of the history is shown next. -/
theorem enter_fields (e : LineEditor) :
    e.enter.stat = e.stat ∧ e.enter.text = [] ∧ e.enter.cursor = 0 ∧ e.enter.browse = e.enter.history.length := by
  have cursor_le := e.cursor_le
  rw [enter]
  split_ifs with empty
  · rw [empty] at cursor_le
    exact ⟨rfl, empty, Nat.le_zero.mp cursor_le, rfl⟩
  · exact ⟨rfl, rfl, rfl, rfl⟩

theorem enter_enter (e : LineEditor) : e.enter.enter = e.enter := by
  obtain ⟨-, empty, -, browse⟩ := e.enter_fields
  rw [enter, if_pos empty]
  generalize e.enter = entered at browse
  cases entered
  simp only at browse
  subst browse
  rfl

end LineEditor

end Finsh
