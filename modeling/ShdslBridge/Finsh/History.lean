import ShdslBridge.Finsh.Shell

/-! # The history of the shell

Runs of submitted lines and of the keys up and down, next to the lines that were submitted. A line is
shorter than `FINSH_CMD_SIZE`, whatever the buffer holds behind it: `shell_push_history` copies the line
only, also one of 79 characters, for which the `;` behind it has no room for its NUL.

`history_exact` says that the table holds the last lines, and which of them a key shows.
-/

namespace Finsh

def lastLines (lines : List (List Ch)) : List (List Ch) := lines.drop (lines.length - finshHistoryLines)

/-- The line that is the `k`-th one back, or the oldest one. -/
def back (lines : List (List Ch)) (k : ℕ) : Option (List Ch) :=
  (lastLines lines)[(lastLines lines).length - min k (lastLines lines).length]?

theorem lastLines_length (lines : List (List Ch)) : (lastLines lines).length = min lines.length finshHistoryLines := by
  rw [lastLines, List.length_drop]
  omega

theorem lastLines_concat (lines : List (List Ch)) (text : List Ch) :
    (lastLines lines ++ [text]).drop ((lastLines lines).length + 1 - finshHistoryLines) =
      lastLines (lines ++ [text]) := by
  have size := lastLines_length lines
  rw [lastLines, lastLines, ← List.drop_append_of_le_length (Nat.sub_le _ _), List.drop_drop, List.length_append,
    List.length_singleton]
  congr 1
  rw [lastLines] at size
  omega

namespace Shell

def typed (s : Shell) (text : List Ch) (behind : ℕ → UInt8) : Shell :=
  { s with
    line := fun i => (text[i]?).elim (behind i) Subtype.val
    linePosition := text.length
    lineCurpos := text.length }

def submit (s : Shell) : Option Shell :=
  s.pushHistory.map fun s => { s with line := fun _ => 0, linePosition := 0, lineCurpos := 0 }

structure Displays (s : Shell) (text : List Ch) : Prop where
  line : Holds s.line text
  linePosition : s.linePosition = text.length
  lineCurpos : s.lineCurpos = text.length

/-- The shell keeps the last of the lines, and is at one of them or behind them. -/
structure Recalls (s : Shell) (lines : List (List Ch)) : Prop where
  keeps : s.Keeps (lastLines lines)
  current_le : s.currentHistory ≤ s.historyCount
  count_le : s.historyCount ≤ finshHistoryLines

variable {s : Shell} {lines : List (List Ch)}

theorem submit_of_endLine {t : Shell} (ended : s.endLine = some t) : s.submit = some t := by
  rw [Shell.endLine] at ended
  obtain ⟨pushed, push, ended⟩ := Option.bind_eq_some_iff.mp ended
  obtain ⟨coded, store, ended⟩ := Option.bind_eq_some_iff.mp ended
  have cleared : some { coded with line := fun _ => 0, linePosition := 0, lineCurpos := 0 } = some t := by
    dsimp only at ended
    split at ended
    · obtain ⟨line, -, ended⟩ := Option.bind_eq_some_iff.mp ended
      exact ended
    · exact ended
  rw [Shell.setLine] at store
  split_ifs at store
  obtain rfl := Option.some.inj store
  rw [Shell.submit, push, Option.map_some]
  exact cleared

theorem displays_showHistory (recalls : s.Recalls lines) (short : ∀ text ∈ lines, text.length < finshCmdSize)
    {current : ℕ} {text : List Ch} (row : (lastLines lines)[current]? = some text) :
    ∃ t, Shell.showHistory { s with currentHistory := current } = some t ∧ t.Displays text ∧
      t.currentHistory = current ∧ t.Recalls lines := by
  have inside : current < s.historyCount := by
    rw [recalls.keeps.count]
    exact (List.getElem?_eq_some_iff.mp row).1
  have holds : Holds (s.cmdHistory current) text := recalls.keeps.rows current text row
  have fits : text.length < finshCmdSize := short text (List.mem_of_mem_drop (List.mem_of_getElem? row))
  have found : Shell.string { s with currentHistory := current, line := s.cmdHistory current } 0 = some text :=
    Shell.string_eq holds fits (Nat.zero_le _)
  let shown : Shell :=
    { s with
      currentHistory := current
      line := s.cmdHistory current
      linePosition := text.length
      lineCurpos := text.length }
  refine ⟨shown, ?_, ⟨holds, rfl, rfl⟩, rfl, ?_⟩
  · rw [Shell.showHistory, Shell.measure, found, Option.map_some]
  · exact ⟨⟨recalls.keeps.count, recalls.keeps.few, recalls.keeps.rows⟩, inside.le, recalls.count_le⟩

theorem Recalls.upKey (recalls : s.Recalls lines) (short : ∀ text ∈ lines, text.length < finshCmdSize)
    (older : 0 < s.currentHistory) :
    ∃ t, s.upKey = some t ∧ t.Recalls lines ∧ t.currentHistory = s.currentHistory - 1 ∧
      ∃ text, (lastLines lines)[s.currentHistory - 1]? = some text ∧ t.Displays text := by
  have count := recalls.keeps.count
  have le := recalls.current_le
  have inside : s.currentHistory - 1 < (lastLines lines).length := by omega
  have row := List.getElem?_eq_getElem inside
  obtain ⟨t, shown, displays, current, after⟩ := displays_showHistory recalls short row
  refine ⟨t, ?_, after, current, _, row, displays⟩
  rw [Shell.upKey, if_pos older, shown]

theorem upKey_zero (oldest : s.currentHistory = 0) : s.upKey = some s := by
  rw [Shell.upKey, if_neg (by omega)]
  cases s
  simp_all

theorem Recalls.downKey (recalls : s.Recalls lines) (short : ∀ text ∈ lines, text.length < finshCmdSize) :
    ∃ t, s.downKey = some t ∧ t.Recalls lines ∧
      ((t = s ∧ lines = []) ∨ ∃ text ∈ lastLines lines, t.Displays text) := by
  have count := recalls.keeps.count
  have size := lastLines_length lines
  have show_ {current : ℕ} (inside : current < (lastLines lines).length) :
      ∃ t, Shell.showHistory { s with currentHistory := current } = some t ∧ t.Recalls lines ∧
        ∃ text ∈ lastLines lines, t.Displays text := by
    obtain ⟨t, shown, displays, -, after⟩ := displays_showHistory recalls short (List.getElem?_eq_getElem inside)
    exact ⟨t, shown, after, _, List.getElem_mem inside, displays⟩
  rw [Shell.downKey]
  by_cases newer : s.currentHistory + 1 < s.historyCount
  · rw [if_pos newer]
    obtain ⟨t, shown, after, line⟩ := show_ (count ▸ newer)
    exact ⟨t, shown, after, .inr line⟩
  · rw [if_neg newer]
    by_cases any : s.historyCount ≠ 0
    · rw [if_pos any]
      obtain ⟨t, shown, after, line⟩ := show_ (show s.historyCount - 1 < (lastLines lines).length by omega)
      exact ⟨t, shown, after, .inr line⟩
    · rw [if_neg any]
      have empty : lines.length = 0 := by
        have five : finshHistoryLines = 5 := rfl
        omega
      exact ⟨s, rfl, recalls, .inl ⟨rfl, List.length_eq_zero_iff.mp empty⟩⟩

theorem Recalls.submit (recalls : s.Recalls lines) {text : List Ch} (short : text.length < finshCmdSize)
    (behind : ℕ → UInt8) :
    ∃ t, (s.typed text behind).submit = some t ∧ t.Recalls (if text = [] then lines else lines ++ [text]) ∧
      t.currentHistory = t.historyCount ∧ t.Displays [] := by
  have keeps : (s.typed text behind).Keeps (lastLines lines) :=
    ⟨recalls.keeps.count, recalls.keeps.few, recalls.keeps.rows⟩
  by_cases empty : text = []
  · have none_ : (s.typed text behind).linePosition = 0 := by rw [empty]; rfl
    rw [Shell.submit, Shell.pushHistory_empty none_, Option.map_some, if_pos empty]
    exact ⟨_, rfl, ⟨⟨keeps.count, keeps.few, keeps.rows⟩, le_rfl, recalls.count_le⟩, rfl, ⟨holds_nil, rfl, rfl⟩⟩
  · have nonempty : (s.typed text behind).linePosition ≠ 0 := fun zero => empty (List.length_eq_zero_iff.mp zero)
    have record : Holds (s.typed text behind).record text := by
      intro i _
      change (if i < text.length then (text[i]?).elim (behind i) Subtype.val else 0) = _
      split_ifs with inside
      · rw [List.getElem?_eq_getElem inside]
        rfl
      · rw [List.getElem?_eq_none (by omega)]
        rfl
    obtain ⟨historyCount, cmdHistory, pushed, after⟩ := keeps.pushHistory nonempty short.le record
    rw [lastLines_concat] at after
    rw [Shell.submit, pushed, Option.map_some, if_neg empty]
    exact ⟨_, rfl, ⟨⟨after.count, after.few, after.rows⟩, le_rfl, after.count.trans_le after.few⟩,
      rfl, ⟨holds_nil, rfl, rfl⟩⟩

end Shell

namespace History

/-- What the user does. -/
inductive Event
  | submit (text : List Ch) (short : text.length < finshCmdSize) (behind : ℕ → UInt8)
  | up
  | down

/-- The shell, unless it has accessed `line` outside its bytes, next to the lines that were submitted. -/
structure State where
  shell : Option Shell
  lines : List (List Ch)

def init : State := ⟨some .init, []⟩

def step (s : State) : Event → State
  | .submit text _ behind =>
    ⟨s.shell.bind fun shell => (shell.typed text behind).submit, if text = [] then s.lines else s.lines ++ [text]⟩
  | .up => ⟨s.shell.bind (·.upKey), s.lines⟩
  | .down => ⟨s.shell.bind (·.downKey), s.lines⟩

/-- The shell has stayed inside its buffer, and recalls the lines. -/
def Recalls (s : State) : Prop := ∃ shell ∈ s.shell, shell.Recalls s.lines

/-- The line that a key shows is one of those kept. Only at the oldest line, or without a line, a key shows
no line. -/
def Shown (s : State) (shell after : Shell) : Event → Prop
  | .submit .. => after.Displays []
  | .up =>
    (after.line = shell.line ∧ after.linePosition = shell.linePosition ∧ shell.currentHistory = 0) ∨
      ∃ text ∈ lastLines s.lines, after.Displays text
  | .down =>
    (after = shell ∧ s.lines = []) ∨ ∃ text ∈ lastLines s.lines, after.Displays text

def Shows (s : State) (event : Event) : Prop :=
  ∃ shell ∈ s.shell, ∃ after ∈ (step s event).shell, Shown s shell after event

structure Sound (s : State) : Prop where
  recalls : Recalls s
  short : ∀ text ∈ s.lines, text.length < finshCmdSize

theorem sound_init : Sound init where
  recalls := ⟨.init, rfl, ⟨⟨rfl, Nat.zero_le _, nofun⟩, le_rfl, Nat.zero_le _⟩⟩
  short := nofun

theorem Sound.shows {s : State} (sound : Sound s) (event : Event) : Sound (step s event) ∧ Shows s event := by
  obtain ⟨shell, open_, recalls⟩ := sound.recalls
  have bound {f : Shell → Option Shell} {t : Shell} (run : f shell = some t) : t ∈ s.shell.bind f := by
    rw [Option.mem_def.mp open_]
    exact run
  cases event with
  | submit text short behind =>
    obtain ⟨t, run, after, -, cleared⟩ := recalls.submit short behind
    refine ⟨⟨⟨t, bound run, after⟩, ?_⟩, shell, open_, t, bound run, cleared⟩
    change ∀ line ∈ (if text = [] then s.lines else s.lines ++ [text]), _
    split_ifs
    · exact sound.short
    · exact List.forall_mem_append.mpr ⟨sound.short, List.forall_mem_singleton.mpr short⟩
  | up =>
    by_cases older : 0 < shell.currentHistory
    · obtain ⟨t, run, after, -, text, row, displays⟩ := recalls.upKey sound.short older
      exact ⟨⟨⟨t, bound run, after⟩, sound.short⟩, shell, open_, t, bound run,
        .inr ⟨text, List.mem_of_getElem? row, displays⟩⟩
    · have oldest : shell.currentHistory = 0 := by omega
      have run := Shell.upKey_zero oldest
      exact ⟨⟨⟨shell, bound run, recalls⟩, sound.short⟩, shell, open_, shell, bound run, .inl ⟨rfl, rfl, oldest⟩⟩
  | down =>
    obtain ⟨t, run, after, shown⟩ := recalls.downKey sound.short
    exact ⟨⟨⟨t, bound run, after⟩, sound.short⟩, shell, open_, t, bound run, shown⟩

theorem ups {s : State} (short : ∀ text ∈ s.lines, text.length < finshCmdSize) {shell : Shell} (open_ : shell ∈ s.shell)
    (recalls : shell.Recalls s.lines) (fresh : shell.currentHistory = shell.historyCount) (k : ℕ) :
    ∃ t, Run.exec step s (List.replicate k .up) = ⟨some t, s.lines⟩ ∧ t.Recalls s.lines ∧
      t.currentHistory = (lastLines s.lines).length - k ∧
      (0 < k → s.lines ≠ [] → ∃ line ∈ back s.lines k, t.Displays line) := by
  induction k with
  | zero =>
    refine ⟨shell, ?_, recalls, ?_, nofun⟩
    · rw [List.replicate_zero, Run.exec_nil]
      cases s
      exact congrArg (State.mk · _) open_
    · rw [fresh, recalls.keeps.count, Nat.sub_zero]
  | succ k ih =>
    obtain ⟨t, run, recalls, current, shown⟩ := ih
    have size := lastLines_length s.lines
    rw [List.replicate_succ', Run.exec_append, run, Run.exec_cons, Run.exec_nil]
    by_cases older : 0 < t.currentHistory
    · obtain ⟨next, up, after, lower, line, row, displays⟩ := recalls.upKey short older
      refine ⟨next, congrArg (State.mk · _) up, after, by omega, fun _ _ => ⟨line, ?_, displays⟩⟩
      rwa [back, Option.mem_def, show (lastLines s.lines).length - min (k + 1) (lastLines s.lines).length =
        t.currentHistory - 1 by omega]
    · have up : t.upKey = some t := Shell.upKey_zero (by omega)
      refine ⟨t, congrArg (State.mk · _) up, recalls, by omega, fun _ any => ?_⟩
      have nonempty : 0 < s.lines.length := List.length_pos_iff.mpr any
      have five : finshHistoryLines = 5 := rfl
      obtain ⟨line, row, displays⟩ := shown (by omega) any
      refine ⟨line, ?_, displays⟩
      rwa [back, show min (k + 1) (lastLines s.lines).length = min k (lastLines s.lines).length by omega]

/-- After every event the table holds the last lines, a key shows one of them, and the `k`-th key up behind a
submission shows the `k`-th one back. -/
theorem history_exact (events : List Event) :
    Run.Always step Recalls init events ∧ Run.Along step Shows init events ∧
      ∀ text short behind k,
        let s := Run.exec step init (events ++ [.submit text short behind] ++ List.replicate (k + 1) .up)
        s.lines ≠ [] → ∃ shell ∈ s.shell, ∃ line ∈ back s.lines (k + 1), shell.Displays line := by
  have sound : Sound (Run.exec step init events) :=
    (Run.always_of_invariant (fun _ event sound => (sound.shows event).1) (fun _ sound => sound) sound_init events).last
  refine ⟨?_, ?_, fun text short behind k => ?_⟩
  · exact Run.always_of_invariant (fun _ event sound => (sound.shows event).1) (fun _ sound => sound.recalls)
      sound_init events
  · have all : Run.Along step (fun _ _ => True) init events := Run.along_of_forall init fun _ _ => trivial
    exact all.along (fun _ event sound _ => (sound.shows event).1)
      (fun _ event sound _ => (sound.shows event).2) sound_init
  · obtain ⟨shell, open_, recalls⟩ := sound.recalls
    obtain ⟨t, run, after, fresh, -⟩ := recalls.submit short behind
    have all := (sound.shows (.submit text short behind)).1.short
    rw [Run.exec_append, Run.exec_append, Run.exec_cons, Run.exec_nil]
    have submitted : t ∈ (step (Run.exec step init events) (.submit text short behind)).shell := by
      change (Run.exec step init events).shell.bind _ = some t
      rw [Option.mem_def.mp open_]
      exact run
    obtain ⟨last, ran, -, -, shown⟩ := ups all submitted after fresh (k + 1)
    rw [ran]
    exact fun any => ⟨last, rfl, shown (Nat.succ_pos k) any⟩

/-- The line `1`, and the line `2` that is shown again behind it. -/
theorem history_exact_two :
    let one : Event := .submit [⟨0x31, by decide⟩] (by decide) fun _ => 0
    let two : Event := .submit [⟨0x32, by decide⟩] (by decide) fun _ => 0
    ∃ shell ∈ (Run.exec step init ([one] ++ [two] ++ List.replicate (0 + 1) .up)).shell,
      ∃ line ∈ back [[⟨0x31, by decide⟩], [⟨0x32, by decide⟩]] (0 + 1), shell.Displays line :=
  (history_exact [.submit [⟨0x31, by decide⟩] (by decide) fun _ => 0]).2.2 [⟨0x32, by decide⟩]
  (by decide) (fun _ => 0) 0
    nofun

end History

end Finsh
