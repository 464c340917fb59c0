import ShdslBridge.Finsh.ListPrefix
import ShdslBridge.Lib.Memory
import ShdslBridge.Lib.Run

/-! # The line buffer of the shell

`finsh_thread_entry` of `shell.c`: every byte from the device changes `line`, its length and the cursor.
A step takes one byte, or two when a CR reads the byte behind it, and it fails when it accesses `line`
outside its `FINSH_CMD_SIZE` bytes.

`edits_of_fits` says when the buffer is the line of a `LineEditor`. A line that gets too long is
discarded without being cleared, a full line has no room for the `;` and its NUL, and the byte that a
CR has read may be a part of the next line.
-/

namespace Finsh

/-- The string in the next `room` bytes, if it ends there. -/
def cString (line : ℕ → UInt8) : (room start : ℕ) → Option (List Ch)
  | 0, _ => none
  | room + 1, start =>
    if nul : line start = 0 then some [] else (cString line room (start + 1)).map (⟨line start, nul⟩ :: ·)

/-- What `rt_strncpy` stores. -/
def rtStrncpy (src : List Ch) (n : ℕ) : List UInt8 :=
  (src.take n).map Subtype.val ++ List.replicate (n - src.length) 0

/-- The fields of `struct finsh_shell` that the line editor uses. -/
structure Shell where
  stat : InputStat
  currentHistory : ℕ
  historyCount : ℕ
  cmdHistory : ℕ → ℕ → UInt8
  line : ℕ → UInt8
  linePosition : ℕ
  lineCurpos : ℕ

/-- A byte from the device, the byte that is behind it at this time, `echo_mode`, and the symbol tables.
The last two are changed by the commands that are run. -/
structure Input where
  ch : Ch
  next : Option Ch
  echoMode : Bool
  tables : SymbolTables

namespace Shell

/-- The shell after `finsh_system_init`. -/
def init : Shell := ⟨.waitNormal, 0, 0, fun _ _ => 0, fun _ => 0, 0, 0⟩

/-- The string in `line` from an index on. -/
def string (s : Shell) (start : ℕ) : Option (List Ch) := cString s.line (finshCmdSize - start) start

/-- A store into `line`. -/
def setLine (s : Shell) (i : ℕ) (ch : UInt8) : Option Shell :=
  if i < finshCmdSize then some { s with line := Function.update s.line i ch } else none

/-- `rt_memmove` inside `line`. -/
def moveLine (s : Shell) (dst src count : ℕ) : Option Shell :=
  if dst + count ≤ finshCmdSize ∧ src + count ≤ finshCmdSize then
    some { s with line := Memory.writeAt s.line dst (Memory.readAt s.line src count) }
  else none

/-- `shell->line_curpos = shell->line_position = strlen(shell->line)`. -/
def measure (s : Shell) : Option Shell :=
  (s.string 0).map fun text => { s with linePosition := text.length, lineCurpos := text.length }

def showHistory (s : Shell) : Option Shell := measure { s with line := s.cmdHistory s.currentHistory }

def upKey (s : Shell) : Option Shell :=
  if 0 < s.currentHistory then showHistory { s with currentHistory := s.currentHistory - 1 }
  else some { s with currentHistory := 0 }

def downKey (s : Shell) : Option Shell :=
  if s.currentHistory + 1 < s.historyCount then showHistory { s with currentHistory := s.currentHistory + 1 }
  else if s.historyCount ≠ 0 then showHistory { s with currentHistory := s.historyCount - 1 }
  else some s

def leftKey (s : Shell) : Option Shell :=
  if s.lineCurpos ≠ 0 then some { s with lineCurpos := s.lineCurpos - 1 } else some s

/-- The character under the cursor is printed. -/
def rightKey (s : Shell) : Option Shell :=
  if s.lineCurpos < s.linePosition then
    if s.lineCurpos < finshCmdSize then some { s with lineCurpos := s.lineCurpos + 1 } else none
  else some s

/-- `shell_auto_complete` and the positions after it. -/
def tabKey (s : Shell) (tables : SymbolTables) : Option Shell := do
  let line ← s.string 0
  match listPrefix tables line with
  | none => s.measure
  | some (name, length) =>
    if length ≤ finshCmdSize then measure { s with line := Memory.writeAt s.line 0 (rtStrncpy name length) }
    else none

/-- `line_position` and `line_curpos` are bytes. -/
def backspace (s : Shell) : Option Shell :=
  if s.lineCurpos = 0 then some s
  else do
    let s := { s with linePosition := (s.linePosition + 255) % 256, lineCurpos := (s.lineCurpos + 255) % 256 }
    if s.linePosition > s.lineCurpos then
      let s ← s.moveLine s.lineCurpos (s.lineCurpos + 1) (s.linePosition - s.lineCurpos)
      let s ← s.setLine s.linePosition 0
      let _ ← s.string s.lineCurpos
      some s
    else s.setLine s.linePosition 0

def record (s : Shell) : ℕ → UInt8 := fun i => if i < s.linePosition then s.line i else 0

/-- `shell_push_history`. -/
def pushHistory (s : Shell) : Option Shell :=
  if s.linePosition ≠ 0 then
    if s.linePosition ≤ finshCmdSize then
      if finshHistoryLines ≤ s.historyCount then
        some { s with
          cmdHistory := fun index =>
            if index + 1 < finshHistoryLines then s.cmdHistory (index + 1)
            else if index + 1 = finshHistoryLines then s.record
            else s.cmdHistory index
          historyCount := finshHistoryLines
          currentHistory := finshHistoryLines }
      else
        some { s with
          cmdHistory := Function.update s.cmdHistory s.historyCount s.record
          historyCount := s.historyCount + 1
          currentHistory := s.historyCount + 1 }
    else none
  else some { s with currentHistory := s.historyCount }

/-- The end of the line. `finsh_run_line` reads the line as a string. -/
def endLine (s : Shell) : Option Shell := do
  let s ← s.pushHistory
  let s ← s.setLine s.linePosition 0x3b
  let _ ← if s.linePosition ≠ 0 then s.string 0 else some []
  some { s with line := fun _ => 0, linePosition := 0, lineCurpos := 0 }

def storeChar (s : Shell) (echoMode : Bool) (ch : Ch) : Option Shell :=
  if s.lineCurpos < s.linePosition then do
    let s ← s.moveLine (s.lineCurpos + 1) s.lineCurpos (s.linePosition - s.lineCurpos)
    let s ← s.setLine s.lineCurpos ch.val
    let _ ← if echoMode then s.string s.lineCurpos else some []
    some s
  else s.setLine s.linePosition ch.val

/-- The positions behind the character. A line of 80 characters is cleared. -/
def advance (s : Shell) : Shell :=
  let s := { s with linePosition := (s.linePosition + 1) % 256, lineCurpos := (s.lineCurpos + 1) % 256 }
  if 80 ≤ s.linePosition then { s with linePosition := 0, lineCurpos := 0 } else s

/-- A normal character. -/
def insert (s : Shell) (echoMode : Bool) (ch : Ch) : Option Shell :=
  -- it's a large line, discard it
  let s := if finshCmdSize ≤ s.linePosition then { s with linePosition := 0 } else s
  (s.storeChar echoMode ch).map advance

/-- A byte that is not a part of an escape sequence. -/
def handle (s : Shell) (input : Input) : Option Shell :=
  let ends (ch : Ch) := if ch.val = 13 ∨ ch.val = 10 then s.endLine else s.insert input.echoMode ch
  if input.ch.val = 13 then ends (input.next.getD input.ch)
  else if input.ch.val = 9 then s.tabKey input.tables
  else if input.ch.val = 0x7f ∨ input.ch.val = 8 then s.backspace
  else ends input.ch

/-- The loop of `finsh_thread_entry`. -/
def receive (s : Shell) (input : Input) : Option Shell :=
  if input.ch.val = 0x1b then some { s with stat := .waitSpecKey }
  else match s.stat with
    | .waitNormal => s.handle input
    | .waitSpecKey =>
      if input.ch.val = 0x5b then some { s with stat := .waitFuncKey }
      else handle { s with stat := .waitNormal } input
    | .waitFuncKey =>
      let s := { s with stat := .waitNormal }
      if input.ch.val = 0x41 then s.upKey
      else if input.ch.val = 0x42 then s.downKey
      else if input.ch.val = 0x44 then s.leftKey
      else if input.ch.val = 0x43 then s.rightKey
      else s.handle input

/-- The key leaves a line that is not too long, a line that is run has room for `;` and NUL, its CR reads no
byte of the next line, and a completion does not count more functions than 2^16. -/
def FitsKey (s : Shell) (input : Input) : Key → Prop
  | .enter =>
    s.linePosition + 1 < finshCmdSize ∧
      (input.ch.val = 13 → ∀ next ∈ input.next, next.val = 13 ∨ next.val = 10)
  | .tab => ∀ line ∈ s.string 0, (input.tables.functions line).length ≤ 2 ^ 16 ∧
      (complete input.tables.names line).length < finshCmdSize
  | .char _ => s.linePosition + 1 < finshCmdSize
  | _ => True

/-- The key that the byte completes fits. -/
def Fits (s : Shell) (input : Input) : Prop := ∀ key ∈ (s.stat.decode input.ch).2, s.FitsKey input key

instance (s : Shell) (input : Input) : (key : Key) → Decidable (s.FitsKey input key)
  | .enter => inferInstanceAs (Decidable (s.linePosition + 1 < finshCmdSize ∧
      (input.ch.val = 13 → ∀ next ∈ input.next, next.val = 13 ∨ next.val = 10)))
  | .tab => inferInstanceAs (Decidable
      (∀ line ∈ s.string 0, (input.tables.functions line).length ≤ 2 ^ 16 ∧
        (complete input.tables.names line).length < finshCmdSize))
  | .char _ => inferInstanceAs (Decidable (s.linePosition + 1 < finshCmdSize))
  | .backspace | .up | .down | .left | .right => isTrue trivial

instance (s : Shell) (input : Input) : Decidable (s.Fits input) :=
  inferInstanceAs (Decidable (∀ key ∈ (s.stat.decode input.ch).2, s.FitsKey input key))

/-- The line and the cursor are those of the editor, and the line ends with NUL inside the buffer. -/
structure Edits (s : Shell) (e : LineEditor) : Prop where
  curpos_le : s.lineCurpos ≤ s.linePosition
  position_lt : s.linePosition < finshCmdSize
  nul : s.line s.linePosition = 0
  text : Memory.readAt s.line 0 s.linePosition = e.text.map Subtype.val
  cursor : s.lineCurpos = e.cursor

end Shell

/-- The bytes that a round of the loop takes from the device behind the first one. -/
def Input.rest (input : Input) : List Ch := if input.ch.val = 13 then input.next.toList else []

/-- The shell, until it accesses `line` outside its bytes, next to the editor that gets the same bytes. -/
structure Session where
  shell : Option Shell
  editor : LineEditor

namespace Session

def init : Session := ⟨some .init, .init⟩

def step (s : Session) (input : Input) : Session where
  shell := s.shell.bind (·.receive input)
  editor := (input.ch :: input.rest).foldl (LineEditor.feed input.tables.names) s.editor

/-- The next input fits the line that it finds. -/
def Fits (s : Session) (input : Input) : Prop := ∀ shell ∈ s.shell, shell.Fits input

/-- The shell has stayed inside its buffer and shows what the editor shows. -/
def Edits (s : Session) : Prop := ∃ shell ∈ s.shell, shell.Edits s.editor

end Session

/-- A buffer that holds a text, and NUL behind it. -/
def Holds (buffer : ℕ → UInt8) (text : List Ch) : Prop :=
  ∀ i < finshCmdSize, buffer i = (text[i]?).elim 0 Subtype.val

variable {buffer : ℕ → UInt8} {text : List Ch}

theorem Holds.inside (holds : Holds buffer text)
    (short : text.length < finshCmdSize) {i : ℕ} (inside : i < text.length) :
    buffer i = text[i].val := by
  rw [holds i (inside.trans short), List.getElem?_eq_getElem inside]
  rfl

theorem Holds.nul (holds : Holds buffer text) {i : ℕ} (bound : i < finshCmdSize) (behind : text.length ≤ i) :
    buffer i = 0 := by
  rw [holds i bound, List.getElem?_eq_none behind]
  rfl

theorem Holds.cString (holds : Holds buffer text) (room : ℕ) {start : ℕ} (inside : start ≤ text.length)
    (bound : text.length < start + room) (within : start + room ≤ finshCmdSize) :
    Finsh.cString buffer room start = some (text.drop start) := by
  induction room generalizing start with
  | zero => omega
  | succ room ih =>
    rw [Finsh.cString]
    by_cases last : start = text.length
    · rw [dif_pos (holds.nul (by omega) last.ge), last, List.drop_length]
    · have before : start < text.length := by omega
      have char := holds.inside (by omega) before
      have notNul : buffer start ≠ 0 := by
        rw [char]
        exact text[start].property
      rw [dif_neg notNul, ih before (by omega) (by omega), List.drop_eq_getElem_cons before]
      simp only [char, Option.map_some]

theorem Holds.readAt (holds : Holds buffer text) (short : text.length < finshCmdSize) :
    Memory.readAt buffer 0 text.length = text.map Subtype.val := by
  apply List.ext_getElem (by simp)
  intro i inside _
  rw [Memory.readAt_length] at inside
  simp [Memory.readAt, holds.inside short inside]

theorem holds_nil : Holds (fun _ => 0) [] := fun _ _ => rfl

theorem Holds.insertIdx (holds : Holds buffer text) {i : ℕ} (inside : i ≤ text.length) (ch : Ch) :
    Holds (Function.update
      (Memory.writeAt buffer (i + 1) (Memory.readAt buffer i (text.length - i))) i ch.val) (text.insertIdx i ch) := by
  intro j bound
  rw [List.getElem?_insertIdx]
  rcases Nat.lt_trichotomy j i with below | rfl | above
  · rw [Function.update_of_ne below.ne, Memory.writeAt_outside _ _ _ (.inl (by omega)), if_pos below]
    exact holds j bound
  · rw [Function.update_self, if_neg (Nat.lt_irrefl j), if_pos rfl, if_pos inside]
    rfl
  · rw [Function.update_of_ne above.ne', if_neg (by omega), if_neg above.ne']
    by_cases moved : j < text.length + 1
    · obtain ⟨k, rfl⟩ : ∃ k, j = i + 1 + k := ⟨j - (i + 1), by omega⟩
      rw [Memory.writeAt_inside _ _ _ (by rw [Memory.readAt_length]; omega)]
      simp only [Memory.readAt, List.getElem_map, List.getElem_range]
      rw [holds (i + k) (by omega), show i + 1 + k - 1 = i + k by omega]
    · rw [Memory.writeAt_outside _ _ _ (.inr (by rw [Memory.readAt_length]; omega)), holds j bound,
        List.getElem?_eq_none (by omega), List.getElem?_eq_none (by omega)]

theorem Holds.eraseIdx (holds : Holds buffer text) {i : ℕ} (inside : i < text.length)
    (short : text.length < finshCmdSize) :
    Holds (Function.update
      (Memory.writeAt buffer i (Memory.readAt buffer (i + 1) (text.length - 1 - i))) (text.length - 1) 0)
      (text.eraseIdx i) := by
  intro j bound
  rw [List.getElem?_eraseIdx]
  rcases Nat.lt_trichotomy j (text.length - 1) with below | rfl | behind
  · rw [Function.update_of_ne below.ne]
    by_cases before : j < i
    · rw [Memory.writeAt_outside _ _ _ (.inl before), if_pos before]
      exact holds j bound
    · obtain ⟨k, rfl⟩ : ∃ k, j = i + k := ⟨j - i, by omega⟩
      rw [Memory.writeAt_inside _ _ _ (by rw [Memory.readAt_length]; omega), if_neg before]
      simp only [Memory.readAt, List.getElem_map, List.getElem_range]
      rw [holds (i + 1 + k) (by omega), show i + 1 + k = i + k + 1 by omega]
  · rw [Function.update_self, if_neg (by omega), List.getElem?_eq_none (by omega)]
    rfl
  · rw [Function.update_of_ne behind.ne', Memory.writeAt_outside _ _ _ (.inr (by rw [Memory.readAt_length]; omega)),
      if_neg (by omega), List.getElem?_eq_none (by omega)]
    exact holds.nul bound (by omega)

theorem Holds.strncpy (holds : Holds buffer text) {name : List Ch} {length : ℕ} (le : length ≤ name.length)
    (longer : text.length ≤ length) : Holds (Memory.writeAt buffer 0 (rtStrncpy name length)) (name.take length) := by
  have stored : rtStrncpy name length = (name.take length).map Subtype.val := by
    rw [rtStrncpy, Nat.sub_eq_zero_of_le le, List.replicate_zero, List.append_nil]
  have size : (rtStrncpy name length).length = length := by
    rw [stored, List.length_map, List.length_take, Nat.min_eq_left le]
  intro i bound
  by_cases inside : i < length
  · have char := Memory.writeAt_inside buffer 0 (rtStrncpy name length) (size.symm ▸ inside)
    rw [Nat.zero_add] at char
    rw [char, List.getElem?_eq_getElem (by rw [List.length_take, Nat.min_eq_left le]; exact inside)]
    simp [stored]
  · rw [Memory.writeAt_outside _ _ _ (.inr (by omega)), holds.nul bound (by omega),
      List.getElem?_eq_none (by rw [List.length_take]; omega)]
    rfl

/-- The line with `;` behind it. -/
theorem Holds.semicolon (holds : Holds buffer text) :
    Holds (Function.update buffer text.length 0x3b) (text ++ [⟨0x3b, by decide⟩]) := by
  have inserted := holds.insertIdx le_rfl ⟨0x3b, by decide⟩
  rwa [Nat.sub_self, Memory.readAt_zero, Memory.writeAt_nil, List.insertIdx_length_self] at inserted

namespace Shell

structure Shows (s : Shell) (e : LineEditor) : Prop where
  stat : s.stat = e.stat
  currentHistory : s.currentHistory = e.browse
  historyCount : s.historyCount = e.history.length
  cmdHistory : ∀ k text, e.history[k]? = some text → Holds (s.cmdHistory k) text
  line : Holds s.line e.text
  linePosition : s.linePosition = e.text.length
  lineCurpos : s.lineCurpos = e.cursor

variable {s : Shell} {e : LineEditor}

theorem shows_init : Shows .init .init := ⟨rfl, rfl, rfl, nofun, holds_nil, rfl, rfl⟩

theorem Shows.edits (shows : s.Shows e) : s.Edits e where
  curpos_le := by
    rw [shows.lineCurpos, shows.linePosition]
    exact e.cursor_le
  position_lt := shows.linePosition ▸ e.text_short
  nul := by
    rw [shows.linePosition]
    exact shows.line.nul e.text_short le_rfl
  text := by
    rw [shows.linePosition]
    exact shows.line.readAt e.text_short
  cursor := shows.lineCurpos

theorem string_eq {s : Shell} {text : List Ch} (holds : Holds s.line text)
    (short : text.length < finshCmdSize) {start : ℕ} (inside : start ≤ text.length) :
    s.string start = some (text.drop start) :=
  holds.cString _ inside (by omega) (by omega)

theorem Shows.edit (shows : s.Shows e) {text : List Ch} {cursor position : ℕ} (cursor_le : cursor ≤ text.length)
    (short : text.length < finshCmdSize) (size : text.length = position) {line : ℕ → UInt8}
    (holds : Holds line text) :
    Shows { s with line, linePosition := position, lineCurpos := cursor } (e.edit text cursor cursor_le) := by
  subst size
  rw [LineEditor.edit, dif_pos short]
  exact ⟨shows.stat, shows.currentHistory, shows.historyCount, shows.cmdHistory, holds, rfl, rfl⟩

theorem Shows.measure (shows : s.Shows e) {text : List Ch} (short : text.length < finshCmdSize) {line : ℕ → UInt8}
    (holds : Holds line text) :
    ∃ t, Shell.measure { s with line } = some t ∧ t.Shows (e.restore text) := by
  have found : Shell.string { s with line } 0 = some text := string_eq holds short (Nat.zero_le _)
  refine ⟨_, ?_, shows.edit le_rfl short rfl holds⟩
  rw [Shell.measure, found, Option.map_some]

theorem Shows.showHistory (shows : s.Shows e) {browse : ℕ} (inside : browse < e.history.length) :
    ∃ t, Shell.showHistory { s with currentHistory := browse } = some t ∧ t.Shows (e.show_ browse inside) := by
  have moved : Shows { s with currentHistory := browse } { e with browse, browse_le := Nat.le_of_lt inside } :=
    ⟨shows.stat, rfl, shows.historyCount, shows.cmdHistory, shows.line, shows.linePosition, shows.lineCurpos⟩
  exact moved.measure (e.history_short _ (List.getElem_mem inside))
    (shows.cmdHistory browse _ (List.getElem?_eq_getElem inside))

theorem Shows.upKey (shows : s.Shows e) (names : List (List Ch)) :
    ∃ t, s.upKey = some t ∧ t.Shows (e.press names .up) := by
  rw [Shell.upKey, LineEditor.press, shows.currentHistory]
  by_cases older : 0 < e.browse
  · rw [if_pos older, dif_pos older]
    exact shows.showHistory _
  · rw [if_neg older, dif_neg older]
    have first : e.browse = 0 := by omega
    exact ⟨_, rfl, { shows with currentHistory := first.symm }⟩

theorem Shows.downKey (shows : s.Shows e) (names : List (List Ch)) :
    ∃ t, s.downKey = some t ∧ t.Shows (e.press names .down) := by
  have count := shows.historyCount
  rw [Shell.downKey, LineEditor.press, shows.currentHistory]
  by_cases newer : e.browse + 1 < e.history.length
  · rw [if_pos (count ▸ newer), dif_pos newer]
    exact shows.showHistory newer
  · rw [if_neg (count ▸ newer), dif_neg newer]
    by_cases any : 0 < e.history.length
    · rw [if_pos (by omega), dif_pos any, show s.historyCount - 1 = e.history.length - 1 by omega]
      exact shows.showHistory _
    · rw [if_neg (by omega), dif_neg any]
      exact ⟨s, rfl, shows⟩

theorem Shows.leftKey (shows : s.Shows e) (names : List (List Ch)) :
    ∃ t, s.leftKey = some t ∧ t.Shows (e.press names .left) := by
  rw [Shell.leftKey, LineEditor.press]
  by_cases moves : s.lineCurpos ≠ 0
  · rw [if_pos moves]
    exact ⟨_, rfl, { shows with lineCurpos := congrArg (· - 1) shows.lineCurpos }⟩
  · rw [if_neg moves]
    have cursor : s.lineCurpos = e.cursor - 1 := by
      have := shows.lineCurpos
      omega
    exact ⟨s, rfl, { shows with lineCurpos := cursor }⟩

theorem Shows.rightKey (shows : s.Shows e) (names : List (List Ch)) :
    ∃ t, s.rightKey = some t ∧ t.Shows (e.press names .right) := by
  have edits := shows.edits
  have cursor := shows.lineCurpos
  have position := shows.linePosition
  have cursor_le := e.cursor_le
  rw [Shell.rightKey, LineEditor.press]
  by_cases moves : s.lineCurpos < s.linePosition
  · rw [if_pos moves, if_pos (moves.trans edits.position_lt)]
    have next : s.lineCurpos + 1 = min (e.cursor + 1) e.text.length := by omega
    exact ⟨_, rfl, { shows with lineCurpos := next }⟩
  · rw [if_neg moves]
    have stays : s.lineCurpos = min (e.cursor + 1) e.text.length := by omega
    exact ⟨s, rfl, { shows with lineCurpos := stays }⟩

theorem Shows.tabKey (shows : s.Shows e) {tables : SymbolTables}
    (fits : ∀ line ∈ s.string 0, (tables.functions line).length ≤ 2 ^ 16 ∧
      (complete tables.names line).length < finshCmdSize) :
    ∃ t, s.tabKey tables = some t ∧ t.Shows (e.press tables.names .tab) := by
  have line : s.string 0 = some e.text := string_eq shows.line e.text_short (Nat.zero_le _)
  rw [Shell.tabKey, line, LineEditor.press]
  change ∃ t, (match listPrefix tables e.text with
    | none => s.measure
    | some (name, length) =>
      if length ≤ finshCmdSize then
        Shell.measure { s with line := Memory.writeAt s.line 0 (rtStrncpy name length) }
      else none) = some t ∧ _
  rcases listPrefix_eq_complete tables e.text (fits e.text line).1 with ⟨name,
    length, found, le, completion⟩ | ⟨found, completion⟩
  · have size : (name.take length).length = length := by rw [List.length_take, Nat.min_eq_left le]
    have short := (fits e.text line).2
    rw [← completion, size] at short
    have longer := (prefix_complete tables.names e.text).length_le
    rw [← completion, size] at longer
    rw [found, ← completion]
    dsimp only
    rw [if_pos short.le]
    exact shows.measure (size.symm ▸ short) (shows.line.strncpy le longer)
  · rw [found, completion]
    exact shows.measure e.text_short shows.line

theorem setLine_eq {s : Shell} {i : ℕ} (inside : i < finshCmdSize) (ch : UInt8) :
    s.setLine i ch = some { s with line := Function.update s.line i ch } := if_pos inside

theorem moveLine_eq {s : Shell} {dst src count : ℕ} (target : dst + count ≤ finshCmdSize)
    (source : src + count ≤ finshCmdSize) : s.moveLine dst src count =
      some { s with line := Memory.writeAt s.line dst (Memory.readAt s.line src count) } := if_pos ⟨target, source⟩

theorem Shows.backspace (shows : s.Shows e) (names : List (List Ch)) :
    ∃ t, s.backspace = some t ∧ t.Shows (e.press names .backspace) := by
  have cursor := shows.lineCurpos
  have position := shows.linePosition
  have cursor_le := e.cursor_le
  have short := e.text_short
  rw [Shell.backspace, LineEditor.press]
  by_cases inside : 0 < e.cursor
  · have size : (e.text.eraseIdx (e.cursor - 1)).length = e.text.length - 1 := by
      rw [List.length_eraseIdx_of_lt (by omega)]
    have bound : e.text.length < 256 := short.trans (by decide)
    have erased := shows.line.eraseIdx (i := e.cursor - 1) (by omega) short
    have after := @shows.edit _ _ (e.text.eraseIdx (e.cursor - 1)) (e.cursor - 1) _ (by omega) (by omega) size _ erased
    rw [if_neg (by omega), dif_pos inside, show (s.linePosition + 255) % 256 = e.text.length - 1 by omega,
      show (s.lineCurpos + 255) % 256 = e.cursor - 1 by omega]
    dsimp only
    by_cases middle : e.text.length - 1 > e.cursor - 1
    · rw [if_pos middle, moveLine_eq (by omega) (by omega)]
      dsimp only [Option.bind_eq_bind, Option.bind_some]
      rw [setLine_eq (by omega)]
      dsimp only [Option.bind_some, Shell.string]
      rw [erased.cString _ (by omega) (by omega) (by omega)]
      exact ⟨_, rfl, after⟩
    · rw [if_neg middle, setLine_eq (by omega)]
      have last : e.text.length - 1 - (e.cursor - 1) = 0 := by omega
      rw [last, Memory.readAt_zero, Memory.writeAt_nil] at after
      exact ⟨_, rfl, after⟩
  · rw [if_pos (by omega), dif_neg inside]
    exact ⟨s, rfl, shows⟩

theorem Shows.storeChar (shows : s.Shows e) (echoMode : Bool) (ch : Ch) (fits : s.linePosition + 1 < finshCmdSize) :
    ∃ line, s.storeChar echoMode ch = some { s with line } ∧ Holds line (e.text.insertIdx e.cursor ch) := by
  have cursor := shows.lineCurpos
  have position := shows.linePosition
  have cursor_le := e.cursor_le
  have size : (e.text.insertIdx s.lineCurpos ch).length = s.linePosition + 1 := by
    rw [cursor, position, List.length_insertIdx_of_le_length cursor_le]
  have inserted := shows.line.insertIdx cursor_le ch
  rw [← position, ← cursor] at inserted
  rw [← cursor]
  refine ⟨_, ?_, inserted⟩
  rw [Shell.storeChar]
  by_cases middle : s.lineCurpos < s.linePosition
  · rw [if_pos middle, moveLine_eq (by omega) (by omega)]
    dsimp only [Option.bind_eq_bind, Option.bind_some]
    rw [setLine_eq (by omega)]
    dsimp only [Option.bind_some, Shell.string]
    rw [inserted.cString _ (by omega) (by omega) (by omega)]
    cases echoMode <;> rfl
  · have last : s.lineCurpos = s.linePosition := by omega
    rw [if_neg middle, setLine_eq (by omega), last, Nat.sub_self, Memory.readAt_zero, Memory.writeAt_nil]

theorem Shows.insert (shows : s.Shows e) (names : List (List Ch)) (echoMode : Bool) (ch : Ch)
    (fits : s.linePosition + 1 < finshCmdSize) :
    ∃ t, s.insert echoMode ch = some t ∧ t.Shows (e.press names (.char ch)) := by
  have cursor := shows.lineCurpos
  have position := shows.linePosition
  have cursor_le := e.cursor_le
  have bound : e.text.length + 1 < 80 := position ▸ fits
  have size : (e.text.insertIdx e.cursor ch).length = e.text.length + 1 :=
    List.length_insertIdx_of_le_length cursor_le _
  obtain ⟨line, stored, holds⟩ := shows.storeChar echoMode ch fits
  rw [Shell.insert, if_neg (by omega), LineEditor.press, stored, Option.map_some, Shell.advance]
  refine ⟨_, rfl, ?_⟩
  dsimp only
  rw [if_neg (by omega), show (s.linePosition + 1) % 256 = e.text.length + 1 by omega,
    show (s.lineCurpos + 1) % 256 = e.cursor + 1 by omega]
  exact shows.edit _ (size ▸ bound) size holds

theorem Shows.record (shows : s.Shows e) : Holds s.record e.text := by
  intro i bound
  rw [Shell.record, shows.linePosition]
  split_ifs with inside
  · exact shows.line i bound
  · rw [List.getElem?_eq_none (by omega)]
    rfl

/-- The rows of the history hold these lines. -/
structure Keeps (s : Shell) (history : List (List Ch)) : Prop where
  count : s.historyCount = history.length
  few : history.length ≤ finshHistoryLines
  rows : ∀ k text, history[k]? = some text → Holds (s.cmdHistory k) text

theorem pushHistory_empty (empty : s.linePosition = 0) :
    s.pushHistory = some { s with currentHistory := s.historyCount } := by
  rw [Shell.pushHistory, if_neg (not_not.mpr empty)]

/-- The line goes behind the other ones, and the first of five lines is dropped. -/
theorem Keeps.pushHistory {history : List (List Ch)} (keeps : s.Keeps history) (typed : s.linePosition ≠ 0)
    (short : s.linePosition ≤ finshCmdSize) {text : List Ch} (record : Holds s.record text) :
    ∃ historyCount cmdHistory,
      s.pushHistory = some { s with currentHistory := historyCount, historyCount, cmdHistory } ∧
        Keeps { s with currentHistory := historyCount, historyCount, cmdHistory }
          ((history ++ [text]).drop (history.length + 1 - finshHistoryLines)) := by
  have count := keeps.count
  have few := keeps.few
  have size : ((history ++ [text]).drop (history.length + 1 - finshHistoryLines)).length =
      min (history.length + 1) finshHistoryLines := by
    rw [List.length_drop, List.length_append, List.length_singleton]
    omega
  rw [Shell.pushHistory, if_pos typed, if_pos short]
  by_cases full : finshHistoryLines ≤ s.historyCount
  · have five : history.length = finshHistoryLines := by omega
    rw [if_pos full]
    refine ⟨_, _, rfl, ?_, ?_, fun k line found => ?_⟩
    · rw [size]
      change finshHistoryLines = _
      omega
    · omega
    rw [five, Nat.add_sub_cancel_left, List.getElem?_drop] at found
    dsimp only
    split_ifs with older last
    · rw [List.getElem?_append_left (by omega)] at found
      exact keeps.rows (k + 1) line (Nat.add_comm 1 k ▸ found)
    · rw [List.getElem?_append_right (by omega), show 1 + k - history.length = 0 by omega] at found
      obtain rfl := Option.some.inj found
      exact record
    · rw [List.getElem?_eq_none (by rw [List.length_append, List.length_singleton]; omega)] at found
      exact absurd found nofun
  · rw [if_neg full]
    refine ⟨_, _, rfl, ?_, ?_, fun k line found => ?_⟩
    · rw [size]
      change s.historyCount + 1 = _
      omega
    · omega
    rw [Nat.sub_eq_zero_of_le (by omega), List.drop_zero] at found
    dsimp only
    by_cases last : k = s.historyCount
    · subst last
      rw [List.getElem?_append_right count.ge, count, Nat.sub_self] at found
      obtain rfl := Option.some.inj found
      rw [Function.update_self]
      exact record
    · have older : k < history.length := by
        obtain ⟨inside, -⟩ := List.getElem?_eq_some_iff.mp found
        rw [List.length_append, List.length_singleton] at inside
        omega
      rw [Function.update_of_ne last]
      rw [List.getElem?_append_left older] at found
      exact keeps.rows k line found

theorem Shows.pushHistory (shows : s.Shows e) :
    ∃ currentHistory historyCount cmdHistory,
      s.pushHistory = some { s with currentHistory, historyCount, cmdHistory } ∧
        currentHistory = e.enter.browse ∧ historyCount = e.enter.history.length ∧
        ∀ k text, e.enter.history[k]? = some text → Holds (cmdHistory k) text := by
  have position := shows.linePosition
  have count := shows.historyCount
  have short := e.text_short
  by_cases empty : e.text = []
  · have none_ : s.linePosition = 0 := by rw [position, empty, List.length_nil]
    have enters : e.enter = { e with browse := e.history.length, browse_le := Nat.le_refl _ } := by
      rw [LineEditor.enter, if_pos empty]
    rw [enters, pushHistory_empty none_]
    exact ⟨_, _, _, rfl, count, count, shows.cmdHistory⟩
  · have typed : s.linePosition ≠ 0 := by rwa [position, ne_eq, List.length_eq_zero_iff]
    have keeps : s.Keeps e.history := ⟨count, e.history_le, shows.cmdHistory⟩
    obtain ⟨historyCount, cmdHistory, pushed, after⟩ := keeps.pushHistory typed (by omega) shows.record
    obtain ⟨history, browse⟩ : e.enter.history = (e.history ++ [e.text]).drop (e.history.length + 1 - finshHistoryLines)
        ∧ e.enter.browse = e.enter.history.length := by
      rw [LineEditor.enter, if_neg empty]
      exact ⟨rfl, rfl⟩
    rw [browse, history]
    exact ⟨_, _, _, pushed, after.count, after.count, after.rows⟩

theorem Shows.endLine (shows : s.Shows e) (fits : s.linePosition + 1 < finshCmdSize) :
    ∃ t, s.endLine = some t ∧ t.Shows e.enter := by
  have position := shows.linePosition
  obtain ⟨currentHistory, historyCount, cmdHistory, pushed, current, count, history⟩ := shows.pushHistory
  have command := shows.line.semicolon
  rw [← position] at command
  obtain ⟨stat, empty, start, -⟩ := e.enter_fields
  rw [Shell.endLine, pushed]
  dsimp only [Option.bind_eq_bind, Option.bind_some]
  rw [setLine_eq (by omega)]
  dsimp only [Option.bind_some, Shell.string]
  rw [command.cString _ (Nat.zero_le _) (by rw [List.length_append, List.length_singleton]; omega) (by omega)]
  refine ⟨_, by split <;> rfl, ?_⟩
  exact ⟨shows.stat.trans stat.symm, current, count, history, empty ▸ holds_nil, empty ▸ rfl, start.symm⟩

theorem Shows.again {t : Shell} (shows : t.Shows e.enter) (normal : e.stat = .waitNormal) (names : List (List Ch))
    {next : Ch} (ends : next.val = 13 ∨ next.val = 10) : t.Shows (e.enter.feed names next) := by
  obtain ⟨stat, empty, start, -⟩ := e.enter_fields
  have notEscape : next.val ≠ 0x1b := by rcases ends with cr | lf <;> simp [*]
  have decoded : e.enter.stat.decode next = (.waitNormal, some .enter) := by
    simp [InputStat.decode, Key.ofByte, notEscape, stat, normal, ends]
  have same : { e.enter with stat := .waitNormal } = e.enter := by
    rw [← normal, ← stat]
  rw [LineEditor.feed, decoded]
  dsimp only
  rw [same, LineEditor.press, LineEditor.enter_enter]
  exact shows

theorem Shows.handle (shows : s.Shows e) (normal : e.stat = .waitNormal) {input : Input}
    (fits : s.FitsKey input (.ofByte input.ch)) :
    ∃ t, s.handle input = some t ∧
      t.Shows (input.rest.foldl (LineEditor.feed input.tables.names)
        (e.press input.tables.names (.ofByte input.ch))) := by
  rw [Shell.handle, Input.rest]
  dsimp only
  by_cases cr : input.ch.val = 13
  · have key : Key.ofByte input.ch = .enter := if_pos (Or.inl cr)
    rw [key] at fits ⊢
    rw [if_pos cr, if_pos cr]
    obtain ⟨t, run, after⟩ := shows.endLine fits.1
    cases next : input.next with
    | none =>
      rw [Option.getD_none, if_pos (Or.inl cr)]
      exact ⟨t, run, after⟩
    | some next_ =>
      have ends := fits.2 cr next_ next
      rw [Option.getD_some, if_pos ends]
      exact ⟨t, run, after.again normal _ ends⟩
  · rw [if_neg cr, if_neg cr, List.foldl_nil]
    by_cases lf : input.ch.val = 10
    · have key : Key.ofByte input.ch = .enter := if_pos (Or.inr lf)
      rw [key] at fits ⊢
      rw [if_neg (by rw [lf]; decide), if_neg (by rw [lf]; decide), if_pos (Or.inr lf)]
      exact shows.endLine fits.1
    have other : ¬ (input.ch.val = 13 ∨ input.ch.val = 10) := not_or.mpr ⟨cr, lf⟩
    by_cases tab : input.ch.val = 9
    · have key : Key.ofByte input.ch = .tab := by rw [Key.ofByte, if_neg other, if_pos tab]
      rw [key] at fits ⊢
      rw [if_pos tab]
      exact shows.tabKey fits
    by_cases erase : input.ch.val = 0x7f ∨ input.ch.val = 8
    · have key : Key.ofByte input.ch = .backspace := by rw [Key.ofByte, if_neg other, if_neg tab, if_pos erase]
      rw [key, if_neg tab, if_pos erase]
      exact shows.backspace _
    · have key : Key.ofByte input.ch = .char input.ch := by rw [Key.ofByte, if_neg other, if_neg tab, if_neg erase]
      rw [key] at fits ⊢
      rw [if_neg tab, if_neg erase, if_neg other]
      exact shows.insert _ _ _ fits

theorem Shows.withStat (shows : s.Shows e) (stat : InputStat) : Shows { s with stat } { e with stat } :=
  ⟨rfl, shows.currentHistory, shows.historyCount, shows.cmdHistory, shows.line, shows.linePosition, shows.lineCurpos⟩

/-- A round of the loop does what the editor does with the same bytes. -/
theorem Shows.receive (shows : s.Shows e) {input : Input} (fits : s.Fits input) :
    ∃ t, s.receive input = some t ∧
      t.Shows ((input.ch :: input.rest).foldl (LineEditor.feed input.tables.names) e) := by
  rw [Fits, shows.stat] at fits
  rw [Shell.receive, shows.stat, List.foldl_cons, LineEditor.feed]
  have alone (notCr : input.ch.val ≠ 13) : input.rest = [] := if_neg notCr
  by_cases escape : input.ch.val = 0x1b
  · have decoded : e.stat.decode input.ch = (.waitSpecKey, none) := if_pos escape
    rw [if_pos escape, decoded, alone (by rw [escape]; decide)]
    exact ⟨_, rfl, shows.withStat .waitSpecKey⟩
  · rw [InputStat.decode.eq_def, if_neg escape] at fits ⊢
    rw [if_neg escape]
    cases stat : e.stat with
    | waitNormal =>
      rw [stat] at fits
      have same : { s with stat := .waitNormal } = s := by rw [← stat, ← shows.stat]
      have normal := shows.withStat .waitNormal
      rw [same] at normal
      exact normal.handle rfl (fits _ rfl)
    | waitSpecKey =>
      rw [stat] at fits
      dsimp only at fits ⊢
      by_cases bracket : input.ch.val = 0x5b
      · rw [if_pos bracket, if_pos bracket, alone (by rw [bracket]; decide)]
        exact ⟨_, rfl, shows.withStat .waitFuncKey⟩
      · rw [if_neg bracket] at fits ⊢
        rw [if_neg bracket]
        exact (shows.withStat .waitNormal).handle rfl (fits _ rfl)
    | waitFuncKey =>
      rw [stat] at fits
      dsimp only at fits ⊢
      have normal := shows.withStat .waitNormal
      by_cases up : input.ch.val = 0x41
      · rw [if_pos up, if_pos up, alone (by rw [up]; decide)]
        exact normal.upKey _
      by_cases down : input.ch.val = 0x42
      · rw [if_neg up, if_pos down, if_neg up, if_pos down, alone (by rw [down]; decide)]
        exact normal.downKey _
      by_cases left : input.ch.val = 0x44
      · rw [if_neg up, if_neg down, if_pos left, if_neg up, if_neg down, if_pos left, alone (by rw [left]; decide)]
        exact normal.leftKey _
      by_cases right : input.ch.val = 0x43
      · rw [if_neg up, if_neg down, if_neg left, if_pos right, if_neg up, if_neg down, if_neg left, if_pos right,
          alone (by rw [right]; decide)]
        exact normal.rightKey _
      · rw [if_neg up, if_neg down, if_neg left, if_neg right] at fits ⊢
        rw [if_neg up, if_neg down, if_neg left, if_neg right]
        exact normal.handle rfl (fits _ rfl)

end Shell

namespace Session

instance (s : Session) (input : Input) : Decidable (s.Fits input) :=
  inferInstanceAs (Decidable (∀ shell ∈ s.shell, shell.Fits input))

def Shows (s : Session) : Prop := ∃ shell ∈ s.shell, shell.Shows s.editor

theorem Shows.step {s : Session} (shows : s.Shows) {input : Input} (fits : s.Fits input) : (s.step input).Shows := by
  obtain ⟨shell, open_, shows⟩ := shows
  obtain ⟨t, received, after⟩ := shows.receive (fits shell open_)
  refine ⟨t, ?_, after⟩
  change s.shell.bind _ = some t
  rw [Option.mem_def.mp open_]
  exact received

/-- The shell edits its line properly as long as every input fits. -/
theorem edits_of_fits {inputs : List Input} (along : Run.Along step Fits init inputs) :
    Run.Always step Edits init inputs := by
  have implies (s : Session) (shows : s.Shows) : s.Edits := by
    obtain ⟨shell, open_, shows⟩ := shows
    exact ⟨shell, open_, shows.edits⟩
  exact along.always (fun _ _ shows fits => shows.step fits) implies ⟨.init, rfl, Shell.shows_init⟩

def alone (byte : UInt8) (notNul : byte ≠ 0 := by decide) : Input := ⟨⟨byte, notNul⟩, none, true, ⟨[], [], [], []⟩⟩

/-- The line `1`, and the key that shows it again. -/
theorem edits_of_fits_recall :
    Run.Always step Edits init [alone 0x31, alone 13, alone 0x1b, alone 0x5b, alone 0x41] :=
  edits_of_fits (by decide +kernel)

/-- After 80 characters the line is discarded, and its first character stays in the buffer. -/
theorem longLine_not_edits : ¬ Run.Always step Edits init (List.replicate 80 (alone 0x31)) := by
  intro always
  obtain ⟨shell, open_, edits⟩ := always.last
  have first : (Run.exec step init (List.replicate 80 (alone 0x31))).shell.map (fun s => s.line s.linePosition) =
      some 0x31 := by decide +kernel
  rw [Option.mem_def.mp open_, Option.map_some, edits.nul] at first
  exact absurd first (by decide)

end Session

end Finsh
