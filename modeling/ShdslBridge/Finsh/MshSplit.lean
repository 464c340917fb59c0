import Mathlib.Data.List.Forall2
import Mathlib.Data.List.TakeWhile

/-! # The arguments of a command

`msh_split` of `msh.c` cuts a command into words in its own buffer: a blank or the closing quote behind a word
becomes its NUL. An access outside `cmd[0..length]` or a store outside `argv` is a fault.

`mshSplit_splits_iff` says that only `argv` is ever left, by the eleventh word.
-/

namespace Finsh

/-- `RT_FINSH_ARG_MAX`. -/
def rtFinshArgMax : ℕ := 10

/-- What `msh_split` cannot do: an access outside `cmd`, a store outside `argv`, a loop without end. -/
inductive SplitFault
  | cmd
  | argv
  | endless
  deriving DecidableEq

/-- The variables of `msh_split`: the characters from `cmd` on, `ptr` and the pointers of `argv` as offsets to
`cmd`. `argc` is the number of pointers. -/
structure MshSplit where
  cmd : List UInt8
  ptr : ℕ
  position : ℕ
  argv : List ℕ
  deriving DecidableEq

def blank : UInt8 := ' '.toUInt8

def tab : UInt8 := '\t'.toUInt8

def quote : UInt8 := '"'.toUInt8

def backslash : UInt8 := '\\'.toUInt8

/-- The characters between words. -/
def mshBlank (c : UInt8) : Bool := c == blank || c == tab

namespace MshSplit

/-- `*(ptr + offset)`. -/
def load (s : MshSplit) (offset : ℕ) : Except SplitFault UInt8 :=
  match s.cmd[s.ptr + offset]? with
  | some c => .ok c
  | none => .error .cmd

/-- `*ptr = c`. -/
def store (s : MshSplit) (c : UInt8) : Except SplitFault MshSplit :=
  if s.ptr < s.cmd.length then .ok { s with cmd := s.cmd.set s.ptr c } else .error .cmd

/-- `ptr ++; position ++`. -/
def next (s : MshSplit) : MshSplit := { s with ptr := s.ptr + 1, position := s.position + 1 }

/-- `argv[argc] = ptr; argc ++`. -/
def push (s : MshSplit) : Except SplitFault MshSplit :=
  if s.argv.length < rtFinshArgMax then .ok { s with argv := s.argv ++ [s.ptr] } else .error .argv

end MshSplit

def stripBlanks (length : ℕ) : ℕ → MshSplit → Except SplitFault MshSplit
  | 0, _ => .error .endless
  | fuel + 1, s => do
    let c ← s.load 0
    if mshBlank c && s.position < length then
      let s ← s.store 0
      stripBlanks length fuel s.next
    else .ok s

def skipString (length : ℕ) : ℕ → MshSplit → Except SplitFault MshSplit
  | 0, _ => .error .endless
  | fuel + 1, s => do
    let c ← s.load 0
    if c != quote && s.position < length then
      if c = backslash then
        let d ← s.load 1
        if d = quote then skipString length fuel s.next.next else skipString length fuel s.next
      else skipString length fuel s.next
    else .ok s

def skipWord (length : ℕ) : ℕ → MshSplit → Except SplitFault MshSplit
  | 0, _ => .error .endless
  | fuel + 1, s => do
    let c ← s.load 0
    if !mshBlank c && s.position < length then skipWord length fuel s.next else .ok s

def splitString (length : ℕ) (again : MshSplit → Except SplitFault MshSplit) (s : MshSplit) :
    Except SplitFault MshSplit := do
  let s ← s.next.push
  let s ← skipString length (length + 1) s
  if length ≤ s.position then .ok s
  else
    let s ← s.store 0
    again s.next

def splitWord (length : ℕ) (again : MshSplit → Except SplitFault MshSplit) (s : MshSplit) :
    Except SplitFault MshSplit := do
  let s ← s.push
  let s ← skipWord length (length + 1) s
  if length ≤ s.position then .ok s else again s

def splitLoop (length : ℕ) : ℕ → MshSplit → Except SplitFault MshSplit
  | 0, _ => .error .endless
  | fuel + 1, s => do
    if s.position < length then
      let s ← stripBlanks length (length + 1) s
      if length ≤ s.position then .ok s
      else
        let c ← s.load 0
        if c = quote then splitString length (splitLoop length fuel) s
        else splitWord length (splitLoop length fuel) s
    else .ok s

/-- `msh_split`. -/
def mshSplit (cmd : List UInt8) (length : ℕ) : Except SplitFault MshSplit :=
  splitLoop length (length + 1) ⟨cmd, 0, 0, []⟩

/-! ## The words of a command -/

def quoted : List UInt8 → List UInt8 × List UInt8
  | [] => ([], [])
  | [c] => if c = quote then ([], [c]) else ([c], [])
  | c :: d :: rest =>
    if c = quote then ([], c :: d :: rest)
    else if c = backslash ∧ d = quote then (c :: d :: (quoted rest).1, (quoted rest).2)
    else (c :: (quoted (d :: rest)).1, (quoted (d :: rest)).2)

theorem quoted_append (text : List UInt8) : (quoted text).1 ++ (quoted text).2 = text := by
  fun_induction quoted text with
  | case1 => rfl
  | case2 => rfl
  | case3 => rfl
  | case4 => rfl
  | case5 c d rest _ _ ih => rw [List.cons_append, List.cons_append, ih]
  | case6 c d rest _ _ ih => rw [List.cons_append, ih]

theorem quoted_snd (text : List UInt8) : (quoted text).2 = [] ∨ ∃ rest, (quoted text).2 = quote :: rest := by
  fun_induction quoted text with
  | case1 => exact .inl rfl
  | case2 => exact .inr ⟨[], rfl⟩
  | case3 => exact .inl rfl
  | case4 d rest => exact .inr ⟨d :: rest, rfl⟩
  | case5 c d rest _ _ ih => exact ih
  | case6 c d rest _ _ ih => exact ih

theorem quoted_snd_length_le (text : List UInt8) : (quoted text).2.length ≤ text.length := by
  have parts := congrArg List.length (quoted_append text)
  rw [List.length_append] at parts
  omega

/-- The words of a command: a quote at the beginning of a word lets it go on to the next quote that has no
backslash in front of it. -/
def words : List UInt8 → List (List UInt8)
  | [] => []
  | c :: rest =>
    if mshBlank c then words rest
    else if c = quote then (quoted rest).1 :: words (quoted rest).2.tail
    else (c :: rest.takeWhile (!mshBlank ·)) :: words (rest.dropWhile (!mshBlank ·))
termination_by command => command.length
decreasing_by
  · exact Nat.lt_succ_self _
  · have shorter := quoted_snd_length_le rest
    rw [List.length_tail, List.length_cons]
    omega
  · exact Nat.lt_succ_of_le (List.length_dropWhile_le _ _)

/-- A word and its NUL stand at an offset. -/
def StringAt (cmd : List UInt8) (pointer : ℕ) (word : List UInt8) : Prop :=
  (cmd.drop pointer).take (word.length + 1) = word ++ [0]

/-- `msh_split` makes no fault, and its arguments are the words of the command. -/
def SplitsInto (outcome : Except SplitFault MshSplit) (arguments : List (List UInt8)) : Prop :=
  ∃ s, outcome = .ok s ∧ List.Forall₂ (StringAt s.cmd) s.argv arguments

/-! ## The loops over characters -/

/-- `msh_split` in front of the characters `rest`, with `front` behind it. -/
def MshSplit.between (front rest : List UInt8) (argv : List ℕ) : MshSplit :=
  ⟨front ++ (rest ++ [0]), front.length, front.length, argv⟩

theorem ok_bind {α β : Type} (x : α) (f : α → Except SplitFault β) : ((.ok x : Except SplitFault α) >>= f) = f x := rfl

theorem mshBlank_nul : mshBlank 0 = false := rfl

section Loops

open MshSplit

variable {length : ℕ} (front rest : List UInt8) (argv : List ℕ) (c : UInt8)

theorem load_between_cons : (between front (c :: rest) argv).load 0 = .ok c := by
  simp [load, between]

theorem load_between_nil : (between front [] argv).load 0 = .ok 0 := by
  simp [load, between]

theorem next_between : (between front (c :: rest) argv).next = between (front ++ [c]) rest argv := by
  simp [next, between]

theorem store_between (d : UInt8) :
    (between front (c :: rest) argv).store d = .ok (between front (d :: rest) argv) := by
  simp [store, between]

theorem position_between_nil (whole : length = front.length + ([] : List UInt8).length) :
    decide ((between front [] argv).position < length) = false := by
  rw [whole]
  exact decide_eq_false (Nat.lt_irrefl _)

theorem position_between_cons (whole : length = front.length + (c :: rest).length) :
    decide ((between front (c :: rest) argv).position < length) = true := by
  rw [whole, List.length_cons]
  exact decide_eq_true (Nat.lt_add_of_pos_right (Nat.succ_pos _))

theorem whole_next {front rest : List UInt8} {c : UInt8} (d : UInt8)
    (whole : length = front.length + (c :: rest).length) : length = (front ++ [d]).length + rest.length := by
  rw [whole, List.length_cons, List.length_append, List.length_singleton]
  omega

theorem stripBlanks_between {fuel : ℕ} (enough : rest.length < fuel) (whole : length = front.length + rest.length) :
    stripBlanks length fuel (between front rest argv) =
      .ok (between (front ++ List.replicate (rest.takeWhile mshBlank).length 0) (rest.dropWhile mshBlank) argv) := by
  induction rest generalizing front fuel with
  | nil =>
    obtain ⟨fuel, rfl⟩ := Nat.exists_eq_succ_of_ne_zero (Nat.ne_of_gt enough)
    rw [stripBlanks, load_between_nil, ok_bind, mshBlank_nul, Bool.false_and, if_neg Bool.false_ne_true]
    simp
  | cons c rest ih =>
    obtain ⟨fuel, rfl⟩ := Nat.exists_eq_succ_of_ne_zero (Nat.ne_of_gt (Nat.zero_lt_of_lt enough))
    rw [stripBlanks, load_between_cons, ok_bind, position_between_cons _ _ _ _ whole, Bool.and_true]
    cases isBlank : mshBlank c with
    | false =>
      rw [if_neg Bool.false_ne_true]
      simp [isBlank]
    | true =>
      rw [if_pos rfl, store_between, ok_bind, next_between,
        ih (front ++ [0]) (Nat.lt_of_succ_lt_succ enough) (whole_next 0 whole)]
      simp [isBlank, List.replicate_succ]

theorem skipWord_between {fuel : ℕ} (enough : rest.length < fuel) (whole : length = front.length + rest.length) :
    skipWord length fuel (between front rest argv) =
      .ok (between (front ++ rest.takeWhile (!mshBlank ·)) (rest.dropWhile (!mshBlank ·)) argv) := by
  induction rest generalizing front fuel with
  | nil =>
    obtain ⟨fuel, rfl⟩ := Nat.exists_eq_succ_of_ne_zero (Nat.ne_of_gt enough)
    rw [skipWord, load_between_nil, ok_bind, position_between_nil _ _ whole, Bool.and_false, if_neg Bool.false_ne_true]
    simp
  | cons c rest ih =>
    obtain ⟨fuel, rfl⟩ := Nat.exists_eq_succ_of_ne_zero (Nat.ne_of_gt (Nat.zero_lt_of_lt enough))
    rw [skipWord, load_between_cons, ok_bind, position_between_cons _ _ _ _ whole, Bool.and_true]
    cases isBlank : mshBlank c with
    | true =>
      rw [Bool.not_true, if_neg Bool.false_ne_true]
      simp [isBlank]
    | false =>
      rw [Bool.not_false, if_pos rfl, next_between,
        ih (front ++ [c]) (Nat.lt_of_succ_lt_succ enough) (whole_next c whole)]
      simp [isBlank]

/-- One round of the loop over a quoted string, at a character that is no quote and escapes none. -/
theorem skipString_plain {fuel : ℕ} (whole : length = front.length + (c :: rest).length) (notQuote : c ≠ quote)
    (plain : ¬ (c = backslash ∧ rest.head? = some quote)) :
    skipString length (fuel + 1) (between front (c :: rest) argv) =
      skipString length fuel (between (front ++ [c]) rest argv) := by
  rw [skipString, load_between_cons, ok_bind, position_between_cons _ _ _ _ whole, Bool.and_true,
    if_pos (bne_iff_ne.mpr notQuote), next_between]
  by_cases escape : c = backslash
  · cases rest with
    | nil =>
      have behind : (between front [c] argv).load 1 = .ok 0 := by simp [load, between]
      have notNul : ¬ (0 : UInt8) = quote := by decide
      rw [if_pos escape, behind, ok_bind, if_neg notNul]
    | cons d rest =>
      have behind : (between front (c :: d :: rest) argv).load 1 = .ok d := by simp [load, between]
      have other : ¬ d = quote := fun same => plain ⟨escape, congrArg some same⟩
      rw [if_pos escape, behind, ok_bind, if_neg other]
  · rw [if_neg escape]

/-- The string ends in front of the closing quote, or at the end of the command. -/
theorem skipString_between {fuel : ℕ} (enough : rest.length < fuel) (whole : length = front.length + rest.length) :
    skipString length fuel (between front rest argv) =
      .ok (between (front ++ (quoted rest).1) (quoted rest).2 argv) := by
  have atQuote (front rest : List UInt8) (fuel : ℕ) :
      skipString length (fuel + 1) (between front (quote :: rest) argv) =
      .ok (between front (quote :: rest) argv) := by
    rw [skipString, load_between_cons, ok_bind, bne_self_eq_false, Bool.false_and, if_neg Bool.false_ne_true]
  have atEnd (front : List UInt8) (fuel : ℕ) (whole : length = front.length + ([] : List UInt8).length) :
      skipString length (fuel + 1) (between front [] argv) = .ok (between front [] argv) := by
    rw [skipString, load_between_nil, ok_bind,
      position_between_nil _ _ whole, Bool.and_false, if_neg Bool.false_ne_true]
  fun_induction quoted rest generalizing front fuel with
  | case1 =>
    obtain ⟨fuel, rfl⟩ := Nat.exists_eq_succ_of_ne_zero (Nat.ne_of_gt enough)
    rw [atEnd _ _ whole, List.append_nil]
  | case2 =>
    obtain ⟨fuel, rfl⟩ := Nat.exists_eq_succ_of_ne_zero (Nat.ne_of_gt (Nat.zero_lt_of_lt enough))
    rw [atQuote, List.append_nil]
  | case3 c notQuote =>
    obtain ⟨fuel, rfl⟩ := Nat.exists_eq_add_of_le' (show 2 ≤ fuel from enough)
    rw [skipString_plain _ _ _ _ whole notQuote (by simp), atEnd _ _ (whole_next c whole)]
  | case4 d rest =>
    obtain ⟨fuel, rfl⟩ := Nat.exists_eq_succ_of_ne_zero (Nat.ne_of_gt (Nat.zero_lt_of_lt enough))
    rw [atQuote, List.append_nil]
  | case5 c d rest notQuote escape ih =>
    obtain ⟨fuel, rfl⟩ := Nat.exists_eq_succ_of_ne_zero (Nat.ne_of_gt (Nat.zero_lt_of_lt enough))
    have behind : (between front (c :: d :: rest) argv).load 1 = .ok d := by simp [load, between]
    rw [skipString, load_between_cons, ok_bind, position_between_cons _ _ _ _ whole, Bool.and_true,
      if_pos (bne_iff_ne.mpr notQuote), if_pos escape.1, behind, ok_bind, if_pos escape.2, next_between, next_between,
      ih _ (Nat.lt_of_succ_lt (Nat.lt_of_succ_lt_succ enough)) (whole_next d (whole_next c whole)), List.append_assoc,
      List.append_assoc]
    rfl
  | case6 c d rest notQuote plain ih =>
    obtain ⟨fuel, rfl⟩ := Nat.exists_eq_succ_of_ne_zero (Nat.ne_of_gt (Nat.zero_lt_of_lt enough))
    rw [skipString_plain _ _ _ _ whole notQuote (by simpa using plain),
      ih _ (Nat.lt_of_succ_lt_succ enough) (whole_next c whole), List.append_assoc]
    rfl

theorem push_between (room : argv.length < rtFinshArgMax) :
    (between front rest argv).push = .ok (between front rest (argv ++ [front.length])) :=
  if_pos room

theorem push_between_full (full : ¬ argv.length < rtFinshArgMax) : (between front rest argv).push = .error .argv :=
  if_neg full

end Loops

/-! ## The loop over the words -/

theorem words_dropWhile (command : List UInt8) : words (command.dropWhile mshBlank) = words command := by
  induction command with
  | nil => rfl
  | cons c rest ih =>
    cases isBlank : mshBlank c with
    | true => rw [List.dropWhile_cons_of_pos isBlank, ih, words, if_pos isBlank]
    | false => rw [List.dropWhile_cons_of_neg (Bool.eq_false_iff.mp isBlank)]

theorem words_quote (rest : List UInt8) : words (quote :: rest) = (quoted rest).1 :: words (quoted rest).2.tail := by
  have notBlank : ¬ mshBlank quote = true := by decide
  rw [words, if_neg notBlank, if_pos rfl]

theorem words_word {c : UInt8} (rest : List UInt8) (notBlank : mshBlank c = false) (notQuote : c ≠ quote) :
    words (c :: rest) = (c :: rest).takeWhile (!mshBlank ·) :: words ((c :: rest).dropWhile (!mshBlank ·)) := by
  rw [words, if_neg (Bool.eq_false_iff.mp notBlank), if_neg notQuote]
  simp [notBlank]

theorem take_of_take_append {cmd left right : List UInt8} (taken : cmd.take (left ++ right).length = left ++ right) :
    cmd.take left.length = left := by
  have shorter := congrArg (List.take left.length) taken
  rwa [List.take_take, List.take_left, List.length_append, Nat.min_eq_left (Nat.le_add_right ..)] at shorter

theorem stringAt_of_take {cmd left word : List UInt8} (taken : cmd.take (left ++ word).length = left ++ word)
    (nul : cmd[(left ++ word).length]? = some 0) : StringAt cmd left.length word := by
  have longer : cmd.take ((left ++ word).length + 1) = left ++ (word ++ [0]) := by
    rw [List.take_add_one, taken, nul, ← List.append_assoc]
    rfl
  have dropped := congrArg (List.drop left.length) longer
  rw [List.drop_left, List.drop_take, List.length_append, Nat.add_assoc, Nat.add_sub_cancel_left] at dropped
  exact dropped

/-- The end of `msh_split`, seen from an earlier state: what was done is kept, a blank that follows is
cleared, and the pointers to the other words are added. -/
structure Splits (front rest : List UInt8) (argv : List ℕ) (s : MshSplit) : Prop where
  taken : s.cmd.take front.length = front
  first : (∀ c, rest.head? = some c → mshBlank c = true) → s.cmd[front.length]? = some 0
  arguments : ∃ pointers, s.argv = argv ++ pointers ∧ List.Forall₂ (StringAt s.cmd) pointers (words rest)

/-- All words are split if there is room for them, otherwise `argv` is left. -/
structure SplitOutcome (front rest : List UInt8) (argv : List ℕ) (outcome : Except SplitFault MshSplit) : Prop where
  fits : argv.length + (words rest).length ≤ rtFinshArgMax → ∃ s, outcome = .ok s ∧ Splits front rest argv s
  overflows : rtFinshArgMax < argv.length + (words rest).length → outcome = .error .argv

section Outcome

variable {front rest : List UInt8} {argv : List ℕ} {outcome : Except SplitFault MshSplit}

theorem SplitOutcome.nil (room : argv.length ≤ rtFinshArgMax) :
    SplitOutcome front [] argv (.ok (.between front [] argv)) := by
  have none_ : words [] = [] := words.eq_1
  constructor
  · intro _
    refine ⟨_, rfl, ?_, ?_, [], (List.append_nil _).symm, none_ ▸ .nil⟩
    · simp [MshSplit.between]
    · simp [MshSplit.between]
  · intro many
    rw [none_, List.length_nil] at many
    omega

theorem SplitOutcome.strip
    (outcome_ : SplitOutcome (front ++ List.replicate (rest.takeWhile mshBlank).length 0) (rest.dropWhile mshBlank) argv
      outcome) : SplitOutcome front rest argv outcome := by
  obtain ⟨fits, overflows⟩ := outcome_
  rw [words_dropWhile] at fits overflows
  refine ⟨fun few => ?_, overflows⟩
  obtain ⟨s, done, taken, first, arguments⟩ := fits few
  rw [words_dropWhile] at arguments
  refine ⟨s, done, ?_, fun blanks => ?_, arguments⟩
  · exact take_of_take_append taken
  · cases rest with
    | nil => simpa using first (by simp)
    | cons c rest =>
      have cell := congrArg (·[front.length]?) taken
      rw [List.takeWhile_cons_of_pos (blanks c rfl)] at cell
      simpa using cell

theorem SplitOutcome.word {front' rest' word : List UInt8} {pointer : ℕ}
    (notBlank : ∃ c, rest.head? = some c ∧ mshBlank c = false) (split : words rest = word :: words rest')
    (behind : SplitOutcome front' rest' (argv ++ [pointer]) outcome)
    (stands : ∀ s, Splits front' rest' (argv ++ [pointer]) s →
      s.cmd.take front.length = front ∧ StringAt s.cmd pointer word) :
    SplitOutcome front rest argv outcome := by
  have count : argv.length + (words rest).length = (argv ++ [pointer]).length + (words rest').length := by
    rw [split, List.length_cons, List.length_append, List.length_singleton]
    omega
  refine ⟨fun few => ?_, fun many => behind.overflows (count ▸ many)⟩
  obtain ⟨s, done, later⟩ := behind.fits (count ▸ few)
  obtain ⟨taken, stringAt⟩ := stands s later
  obtain ⟨pointers, all, arguments⟩ := later.arguments
  refine ⟨s, done, taken, fun blanks => ?_, pointer :: pointers, ?_, split ▸ .cons stringAt arguments⟩
  · obtain ⟨c, head, isWord⟩ := notBlank
    exact absurd (blanks c head) (Bool.eq_false_iff.mp isWord)
  · rw [all, List.append_assoc]
    rfl

theorem SplitOutcome.full {word : List UInt8} {others : List (List UInt8)} (room : ¬ argv.length < rtFinshArgMax)
    (split : words rest = word :: others) : SplitOutcome front rest argv (.error .argv) := by
  refine ⟨fun few => ?_, fun _ => rfl⟩
  rw [split, List.length_cons] at few
  omega

end Outcome

section

open MshSplit

variable {front rest : List UInt8} {argv : List ℕ} {length fuel : ℕ}

/-- Every later state has the word at its pointer, with a NUL behind it. -/
theorem Splits.stringAt {left word rest' : List UInt8} {argv' : List ℕ} {s : MshSplit}
    (later : Splits (left ++ word) rest' argv' s) (blanks : ∀ c, rest'.head? = some c → mshBlank c = true) :
    s.cmd.take left.length = left ∧ StringAt s.cmd left.length word :=
  ⟨take_of_take_append later.taken, stringAt_of_take later.taken (later.first blanks)⟩

theorem Splits.stringAt_closed {left word rest' : List UInt8} {argv' : List ℕ} {s : MshSplit}
    (later : Splits (left ++ word ++ [0]) rest' argv' s) :
    s.cmd.take left.length = left ∧ StringAt s.cmd left.length word := by
  have nul : s.cmd[(left ++ word).length]? = some 0 := by
    have cell := congrArg (·[(left ++ word).length]?) later.taken
    simpa using cell
  have taken := take_of_take_append later.taken
  exact ⟨take_of_take_append taken, stringAt_of_take taken nul⟩

variable {again : MshSplit → Except SplitFault MshSplit}

theorem splitString_between {right : List UInt8}
    (later : ∀ front rest argv, rest.length < (quote :: right).length → length = front.length + rest.length →
      argv.length ≤ rtFinshArgMax → SplitOutcome front rest argv (again (between front rest argv)))
    (whole : length = front.length + (quote :: right).length) :
    SplitOutcome front (quote :: right) argv (splitString length again (between front (quote :: right) argv)) := by
  have split := words_quote right
  have isWord : mshBlank quote = false := by decide
  rw [splitString, next_between]
  by_cases free : argv.length < rtFinshArgMax
  · have room : (argv ++ [(front ++ [quote]).length]).length ≤ rtFinshArgMax := by
      rw [List.length_append, List.length_singleton]
      exact free
    have parts := congrArg List.length (quoted_append right)
    rw [List.length_append] at parts
    have cut : length = (front ++ [quote] ++ (quoted right).1).length + (quoted right).2.length := by
      rw [List.length_append, whole_next quote whole, ← parts, Nat.add_assoc]
    have enough : right.length < length + 1 := by
      rw [whole, List.length_cons]
      omega
    rw [push_between _ _ _ free, ok_bind, skipString_between _ _ _ enough (whole_next quote whole), ok_bind]
    rcases quoted_snd right with unclosed | ⟨behind, closed⟩
    · rw [unclosed] at cut split ⊢
      rw [if_pos (Nat.not_lt.mp (of_decide_eq_false (position_between_nil _ _ cut)))]
      refine .word ⟨quote, rfl, isWord⟩ split (.nil room) fun s after => ?_
      obtain ⟨taken, stands⟩ := after.stringAt fun _ impossible => nomatch impossible
      exact ⟨take_of_take_append taken, stands⟩
    · rw [closed] at cut split parts ⊢
      rw [if_neg (Nat.not_le.mpr (of_decide_eq_true (position_between_cons _ _ _ _ cut))), store_between, ok_bind,
        next_between]
      have shorter : behind.length < (quote :: right).length := by
        rw [List.length_cons] at parts ⊢
        omega
      refine .word ⟨quote, rfl, isWord⟩ split (later _ _ _ shorter (whole_next 0 cut) room) fun s after => ?_
      obtain ⟨taken, stands⟩ := after.stringAt_closed
      exact ⟨take_of_take_append taken, stands⟩
  · rw [push_between_full _ _ _ free]
    exact .full free split

theorem splitWord_between {c : UInt8} {right : List UInt8}
    (later : ∀ front rest argv, rest.length < (c :: right).length → length = front.length + rest.length →
      argv.length ≤ rtFinshArgMax → SplitOutcome front rest argv (again (between front rest argv)))
    (whole : length = front.length + (c :: right).length) (isWord : mshBlank c = false) (notQuote : c ≠ quote) :
    SplitOutcome front (c :: right) argv (splitWord length again (between front (c :: right) argv)) := by
  have split := words_word right isWord notQuote
  rw [splitWord]
  by_cases free : argv.length < rtFinshArgMax
  · have room : (argv ++ [front.length]).length ≤ rtFinshArgMax := by
      rw [List.length_append, List.length_singleton]
      exact free
    have parts := congrArg List.length (List.takeWhile_append_dropWhile (p := (!mshBlank ·)) (l := c :: right))
    rw [List.length_append] at parts
    have cut : length = (front ++ (c :: right).takeWhile (!mshBlank ·)).length +
        ((c :: right).dropWhile (!mshBlank ·)).length := by
      rw [List.length_append, whole, ← parts, Nat.add_assoc]
    have shorter : ((c :: right).dropWhile (!mshBlank ·)).length < (c :: right).length := by
      rw [List.dropWhile_cons_of_pos (by simp [isWord]), List.length_cons]
      exact Nat.lt_succ_of_le (List.length_dropWhile_le _ _)
    have blanks (d : UInt8) (head : ((c :: right).dropWhile (!mshBlank ·)).head? = some d) : mshBlank d = true := by
      have stopped := List.head?_dropWhile_not (!mshBlank ·) (c :: right)
      rw [head] at stopped
      simpa using stopped
    rw [push_between _ _ _ free, ok_bind, skipWord_between _ _ _ (by omega) whole, ok_bind]
    revert cut shorter blanks split
    generalize (c :: right).takeWhile (!mshBlank ·) = word
    generalize (c :: right).dropWhile (!mshBlank ·) = behind
    intro split cut shorter blanks
    cases behind with
    | nil =>
      rw [if_pos (Nat.not_lt.mp (of_decide_eq_false (position_between_nil _ _ cut)))]
      exact .word ⟨c, rfl, isWord⟩ split (.nil room) fun s after => after.stringAt blanks
    | cons d behind =>
      rw [if_neg (Nat.not_le.mpr (of_decide_eq_true (position_between_cons _ _ _ _ cut)))]
      exact .word ⟨c, rfl, isWord⟩ split (later _ _ _ shorter cut room) fun s after => after.stringAt blanks
  · rw [push_between_full _ _ _ free]
    exact .full free split

theorem splitLoop_between (enough : rest.length < fuel) (whole : length = front.length + rest.length)
    (room : argv.length ≤ rtFinshArgMax) :
    SplitOutcome front rest argv (splitLoop length fuel (between front rest argv)) := by
  induction fuel generalizing front rest argv with
  | zero => exact absurd enough (Nat.not_lt_zero _)
  | succ fuel ih =>
    rw [splitLoop]
    cases rest with
    | nil =>
      rw [if_neg (of_decide_eq_false (position_between_nil _ _ whole))]
      exact .nil room
    | cons first tail =>
      rw [if_pos (of_decide_eq_true (position_between_cons _ _ _ _ whole)),
        stripBlanks_between _ _ _ (by omega) whole, ok_bind]
      apply SplitOutcome.strip
      have shorter : ((first :: tail).dropWhile mshBlank).length ≤ (first :: tail).length :=
        List.length_dropWhile_le _ _
      have whole' : length = (front ++ List.replicate ((first :: tail).takeWhile mshBlank).length 0).length +
          ((first :: tail).dropWhile mshBlank).length := by
        have parts := congrArg List.length (List.takeWhile_append_dropWhile (p := mshBlank) (l := first :: tail))
        rw [List.length_append] at parts
        rw [List.length_append, List.length_replicate, whole]
        omega
      have notBlank (c : UInt8) (head : ((first :: tail).dropWhile mshBlank).head? = some c) : mshBlank c = false := by
        have stopped := List.head?_dropWhile_not mshBlank (first :: tail)
        rw [head] at stopped
        exact stopped
      revert shorter whole' notBlank
      generalize front ++ List.replicate ((first :: tail).takeWhile mshBlank).length 0 = left
      generalize (first :: tail).dropWhile mshBlank = right
      intro shorter whole' notBlank
      cases right with
      | nil =>
        rw [if_pos (Nat.not_lt.mp (of_decide_eq_false (position_between_nil _ _ whole')))]
        exact .nil room
      | cons c right =>
        have isWord := notBlank c rfl
        rw [if_neg (Nat.not_le.mpr (of_decide_eq_true (position_between_cons _ _ _ _ whole'))), load_between_cons,
          ok_bind]
        have later (front rest : List UInt8) (argv : List ℕ) (shorter' : rest.length < (c :: right).length)
            (whole : length = front.length + rest.length) (room : argv.length ≤ rtFinshArgMax) :
            SplitOutcome front rest argv (splitLoop length fuel (between front rest argv)) :=
          ih (by omega) whole room
        by_cases isQuote : c = quote
        · subst isQuote
          rw [if_pos rfl]
          exact splitString_between later whole'
        · rw [if_neg isQuote]
          exact splitWord_between later whole' isWord isQuote

end

/-- A command is split into its words, with no access outside it or outside `argv`, if and only if `argv` has
room for them. -/
theorem mshSplit_splits_iff (command : List UInt8) :
    SplitsInto (mshSplit (command ++ [0]) command.length) (words command) ↔
      (words command).length ≤ rtFinshArgMax := by
  have outcome : SplitOutcome [] command [] (mshSplit (command ++ [0]) command.length) :=
    splitLoop_between (Nat.lt_succ_self _) (Nat.zero_add _).symm (Nat.zero_le _)
  have count : ([] : List ℕ).length + (words command).length = (words command).length := Nat.zero_add _
  obtain ⟨fits, overflows⟩ := outcome
  rw [count] at fits overflows
  constructor
  · rintro ⟨s, done, -⟩
    by_contra many
    rw [overflows (Nat.not_le.mp many)] at done
    exact nomatch done
  · intro few
    obtain ⟨s, done, -, -, pointers, all, arguments⟩ := fits few
    rw [List.nil_append] at all
    exact ⟨s, done, all ▸ arguments⟩

/-- Eleven words of one character. -/
theorem eleven_words_not_split :
    let command := (List.replicate 11 ['a'.toUInt8, blank]).flatten
    ¬ SplitsInto (mshSplit (command ++ [0]) command.length) (words command) := by
  rintro command ⟨s, done, -⟩
  have fault : mshSplit (command ++ [0]) command.length = .error .argv := by decide +kernel
  rw [fault] at done
  exact nomatch done

end Finsh
