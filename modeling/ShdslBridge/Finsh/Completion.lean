import ShdslBridge.Finsh.Shell

/-! # The buffer that a completion is written into

`list_prefix` writes the completion over the string in its buffer, with `rt_strncpy` and the length of the
completion, so no NUL is written behind it. `listPrefixIn_completed_iff` says when the buffer holds the
completion as a string: the byte that is behind it must be NUL already, and no function may be forgotten that
would shorten it.

The shell keeps NULs behind its line, but not behind a line that it has discarded for its length.
-/

namespace Finsh

section LongestCommonPrefix

variable {α : Type*}

structure LongestCommonPrefix (lists : List (List α)) (common : List α) : Prop where
  isPrefix : ∀ list ∈ lists, common <+: list
  longest : ∀ other : List α, (∀ list ∈ lists, other <+: list) → other <+: common

theorem LongestCommonPrefix.unique {lists : List (List α)} {left right : List α}
    (isLeft : LongestCommonPrefix lists left) (isRight : LongestCommonPrefix lists right) : left = right :=
  (isRight.longest left isLeft.isPrefix).eq_of_length_le (isLeft.longest right isRight.isPrefix).length_le

/-- Lists that begin with what the others have in common change nothing. -/
theorem LongestCommonPrefix.append_iff {more lists : List (List α)} {common : List α}
    (is : LongestCommonPrefix lists common) :
    LongestCommonPrefix (more ++ lists) common ↔ ∀ list ∈ more, common <+: list := by
  constructor
  · exact fun is list member => is.isPrefix list (List.mem_append_left _ member)
  · intro fits
    refine ⟨List.forall_mem_append.mpr ⟨fits, is.isPrefix⟩, fun other others => ?_⟩
    exact is.longest other (List.forall_mem_append.mp others).2

end LongestCommonPrefix

theorem commonPrefix_prefix (left right : List Ch) :
    commonPrefix left right <+: left ∧ commonPrefix left right <+: right := by
  induction left generalizing right with
  | nil => simp [commonPrefix]
  | cons x xs ih =>
    cases right with
    | nil => simp [commonPrefix]
    | cons y ys =>
      by_cases same : x = y
      · simp [commonPrefix, same, ih]
      · simp [commonPrefix, same]

theorem longestCommonPrefix_foldl (name : List Ch) (others : List (List Ch)) :
    LongestCommonPrefix (name :: others) (others.foldl commonPrefix name) := by
  induction others generalizing name with
  | nil => exact ⟨by simp, fun other fits => fits name List.mem_cons_self⟩
  | cons next others ih =>
    obtain ⟨isPrefix, longest⟩ := ih (commonPrefix name next)
    obtain ⟨common, fits⟩ := List.forall_mem_cons.mp isPrefix
    obtain ⟨inName, inNext⟩ := commonPrefix_prefix name next
    refine ⟨?_, fun other prefixes => ?_⟩
    · exact List.forall_mem_cons.mpr ⟨common.trans inName, List.forall_mem_cons.mpr ⟨common.trans inNext, fits⟩⟩
    · obtain ⟨ofName, rest⟩ := List.forall_mem_cons.mp prefixes
      obtain ⟨ofNext, rest⟩ := List.forall_mem_cons.mp rest
      exact longest other (List.forall_mem_cons.mpr ⟨prefix_commonPrefix ofName ofNext, rest⟩)

structure HoldsString (buffer : ℕ → UInt8) (text : List Ch) : Prop where
  chars : ∀ i ch, text[i]? = some ch → buffer i = ch.val
  nul : buffer text.length = 0

/-- `list_prefix`, with the string in the buffer. -/
def listPrefixIn (tables : SymbolTables) (buffer : ℕ → UInt8) (line : List Ch) : ℕ → UInt8 :=
  match listPrefix tables line with
  | none => buffer
  | some (name, length) => Memory.writeAt buffer 0 (rtStrncpy name length)

namespace SymbolTables

def fitting (tables : SymbolTables) (line : List Ch) : List (List Ch) := tables.names.filter (line.isPrefixOf ·)

/-- The text that a line is to be replaced with: the longest common prefix of the names that begin with the
line, or the line itself if there are none. -/
def Completes (tables : SymbolTables) (line text : List Ch) : Prop :=
  (tables.fitting line = [] ∧ text = line) ∨
    (tables.fitting line ≠ [] ∧ LongestCommonPrefix (tables.fitting line) text)

/-- No name begins with the line, or those that are compared have as much in common as all of them, and the
buffer has a NUL behind that. -/
def Replaceable (tables : SymbolTables) (buffer : ℕ → UInt8) (line : List Ch) : Prop :=
  tables.fitting line = [] ∨
    ∃ common, LongestCommonPrefix (tables.compared line) common ∧
      (∀ name ∈ tables.forgotten line, common <+: name) ∧ buffer common.length = 0

end SymbolTables

theorem holdsString_write_iff {buffer : ℕ → UInt8} {name text : List Ch} {length : ℕ} (le : length ≤ name.length)
    (within : text <+: name.take length) :
    HoldsString (Memory.writeAt buffer 0 (rtStrncpy name length)) text ↔
      text = name.take length ∧ buffer text.length = 0 := by
  have stored : rtStrncpy name length = (name.take length).map Subtype.val := by
    rw [rtStrncpy, Nat.sub_eq_zero_of_le le, List.replicate_zero, List.append_nil]
  have char {i : ℕ} (inside : i < (name.take length).length) :
      Memory.writeAt buffer 0 (rtStrncpy name length) i = (name.take length)[i].val := by
    have byte := Memory.writeAt_inside buffer 0 (rtStrncpy name length) (by rw [stored, List.length_map]; exact inside)
    rw [Nat.zero_add] at byte
    rw [byte]
    simp [stored]
  have behind {i : ℕ} (outside : (name.take length).length ≤ i) :
      Memory.writeAt buffer 0 (rtStrncpy name length) i = buffer i :=
    Memory.writeAt_outside _ _ _ (.inr (by rw [stored, List.length_map, Nat.zero_add]; exact outside))
  constructor
  · intro holds
    have whole : text = name.take length := by
      refine within.eq_of_length_le (Nat.le_of_not_lt fun shorter => ?_)
      have nul := holds.nul
      rw [char shorter] at nul
      exact (name.take length)[text.length].property nul
    refine ⟨whole, ?_⟩
    rw [← behind (Nat.le_of_eq (congrArg List.length whole.symm))]
    exact holds.nul
  · rintro ⟨whole, nul⟩
    refine ⟨fun i ch found => ?_, ?_⟩
    · obtain ⟨inside, rfl⟩ := List.getElem?_eq_some_iff.mp found
      rw [char (whole ▸ inside)]
      simp only [whole]
    · rwa [behind (Nat.le_of_eq (congrArg List.length whole.symm))]

/-- `list_prefix` replaces the string in its buffer with its completion exactly when the completion ends where
the buffer has a NUL, and no forgotten function would shorten it. -/
theorem listPrefixIn_completed_iff (tables : SymbolTables) {buffer : ℕ → UInt8} {line : List Ch} (typed : line ≠ [])
    (holds : HoldsString buffer line) :
    (∃ text, tables.Completes line text ∧ HoldsString (listPrefixIn tables buffer line) text) ↔
      tables.Replaceable buffer line := by
  have result := listPrefix_eq tables typed
  have all : tables.fitting line = tables.forgotten line ++ tables.compared line := tables.filter_names line
  rw [SymbolTables.Replaceable, listPrefixIn]
  cases compared : tables.compared line with
  | nil =>
    rw [compared] at result
    -- without a name behind the last wrap there is none before it
    have none_ : tables.fitting line = [] := by
      have functions : (tables.functions line).drop (tables.wrapped line) = [] := by
        simp only [SymbolTables.compared, List.append_eq_nil_iff] at compared
        exact compared.1.1.1
      have few : (tables.functions line).length ≤ tables.wrapped line := List.drop_eq_nil_iff.mp functions
      rw [SymbolTables.wrapped] at few
      rw [all, compared, SymbolTables.forgotten_of_le (by omega), List.append_nil]
    rw [result]
    exact ⟨fun _ => .inl none_, fun _ => ⟨line, .inl ⟨none_, rfl⟩, holds⟩⟩
  | cons name others =>
    rw [compared] at result
    obtain ⟨length, copied, le, prefix_⟩ := result
    have common := longestCommonPrefix_foldl name others
    rw [← prefix_] at common
    have any : tables.fitting line ≠ [] := by
      rw [all, compared]
      exact List.append_ne_nil_of_right_ne_nil _ (List.cons_ne_nil _ _)
    rw [copied, all, compared]
    rw [all, compared] at any
    constructor
    · rintro ⟨text, completes, written⟩
      rcases completes with ⟨empty, -⟩ | ⟨-, is⟩
      · exact absurd (all.symm.trans empty) (compared ▸ any)
      · rw [all, compared] at is
        have within : text <+: name.take length :=
          common.longest text fun list member => is.isPrefix list (List.mem_append_right _ member)
        obtain ⟨whole, nul⟩ := (holdsString_write_iff le within).mp written
        exact .inr ⟨text, whole ▸ common, (LongestCommonPrefix.append_iff (whole ▸ common)).mp is, nul⟩
    · rintro (empty | ⟨text, is, fits, nul⟩)
      · exact absurd empty any
      · have whole : text = name.take length := is.unique common
        refine ⟨text, .inr ⟨by rwa [all, compared], ?_⟩, ?_⟩
        · rw [all, compared]
          exact (LongestCommonPrefix.append_iff is).mpr fits
        · exact (holdsString_write_iff le (whole ▸ List.prefix_rfl)).mpr ⟨whole, nul⟩

/-- The name `list`. -/
def listName : List Ch := [⟨0x6c, by decide⟩, ⟨0x69, by decide⟩, ⟨0x73, by decide⟩, ⟨0x74, by decide⟩]

def linkName : List Ch := [⟨0x6c, by decide⟩, ⟨0x69, by decide⟩, ⟨0x6e, by decide⟩, ⟨0x6b, by decide⟩]

/-- A line `l` with NULs behind it, and the functions `list` and `link`. -/
theorem listPrefixIn_completed_li :
    ∃ text, SymbolTables.Completes ⟨[listName, linkName], [], [], []⟩ [⟨0x6c, by decide⟩] text ∧
      HoldsString (listPrefixIn ⟨[listName, linkName], [], [], []⟩ (fun i => if i = 0 then 0x6c else 0)
        [⟨0x6c, by decide⟩]) text := by
  have line : HoldsString (fun i => if i = 0 then 0x6c else 0) [⟨0x6c, by decide⟩] :=
    ⟨fun i ch found => by
      obtain ⟨inside, rfl⟩ := List.getElem?_eq_some_iff.mp found
      obtain rfl : i = 0 := Nat.lt_one_iff.mp inside
      rfl, rfl⟩
  refine (listPrefixIn_completed_iff _ (by decide) line).mpr
    (.inr ⟨_, longestCommonPrefix_foldl listName [linkName], ?_, rfl⟩)
  rw [SymbolTables.forgotten_of_le (by decide)]
  rintro _ ⟨⟩

def listOnly : SymbolTables := ⟨[listName], [], [], []⟩

/-- A line of 80 characters is discarded, and `li` is typed and cut to `l`. The completion `list` is followed by
what is left of the long line. -/
theorem listPrefixIn_not_completed :
    ∃ shell ∈ (Run.exec Session.step Session.init (List.replicate 80 (Session.alone 0x31) ++
        [Session.alone 0x6c, Session.alone 0x69, Session.alone 0x7f])).shell,
      HoldsString shell.line [⟨0x6c, by decide⟩] ∧
        ¬ ∃ text, listOnly.Completes [⟨0x6c, by decide⟩] text ∧
          HoldsString (listPrefixIn listOnly shell.line [⟨0x6c, by decide⟩]) text := by
  generalize ran : (Run.exec Session.step Session.init (List.replicate 80 (Session.alone 0x31) ++
        [Session.alone 0x6c, Session.alone 0x69, Session.alone 0x7f])).shell = shell
  have bytes : shell.map (fun s => (s.line 0, s.line 1, s.line 4)) = some (0x6c, 0, 0x31) := by
    rw [← ran]
    decide +kernel
  obtain ⟨shell, rfl, values⟩ := Option.map_eq_some_iff.mp bytes
  obtain ⟨first, rest⟩ := Prod.mk.inj values
  obtain ⟨nul, left⟩ := Prod.mk.inj rest
  refine ⟨shell, rfl, ⟨fun i ch found => ?_, nul⟩, ?_⟩
  · obtain ⟨inside, rfl⟩ := List.getElem?_eq_some_iff.mp found
    obtain rfl : i = 0 := Nat.lt_one_iff.mp inside
    exact first
  · rintro ⟨text, completes, written⟩
    have copied : listPrefix listOnly [⟨0x6c, by decide⟩] =
        some (listName, 4) := by decide
    rcases completes with ⟨empty, -⟩ | ⟨-, is⟩
    · exact absurd empty (by decide)
    · have whole : text = listName := is.unique (longestCommonPrefix_foldl listName [])
      have within : text <+: listName.take 4 := by
        rw [whole]
        exact ⟨[], rfl⟩
      rw [listPrefixIn, copied] at written
      obtain ⟨-, nul⟩ := (holdsString_write_iff (by decide) within).mp written
      rw [whole] at nul
      exact absurd (left.symm.trans nul) (by decide)

end Finsh
