import ShdslBridge.Finsh.LineEditor
import Mathlib.Algebra.Group.Nat.Defs

/-! # Completion of a name

`list_prefix` of `cmd.c`. Its four loops visit the symbol tables one after the other, list the names
that begin with the line, and keep the first of them with the length of what it has in common with all
the others. `listPrefix_eq` says which names these are: the first loop starts anew when its counter of
16 bits wraps, and forgets the functions that it has seen. Without a wrap the result is the completion of
the line editor, `listPrefix_eq_complete`.
-/

namespace Finsh

/-- The names in the symbol tables, in the order in which `list_prefix` visits them. -/
structure SymbolTables where
  syscallTable : List (List Ch)
  syscallList : List (List Ch)
  sysvarTable : List (List Ch)
  sysvarList : List (List Ch)

/-- The two characters that an internal command begins with. -/
def internal : List Ch := [⟨0x5f, by decide⟩, ⟨0x5f, by decide⟩]

def SymbolTables.names (tables : SymbolTables) : List (List Ch) :=
  tables.syscallTable.filter (fun name => !internal.isPrefixOf name) ++ tables.syscallList ++
    tables.sysvarTable ++ tables.sysvarList

/-- `str_common`. -/
def strCommon : List Ch → List Ch → ℕ
  | x :: xs, y :: ys => if x = y then strCommon xs ys + 1 else 0
  | _, _ => 0

/-- The variables of `list_prefix`: `func_cnt` or `var_cnt`, `name_ptr` and `min_length`. -/
structure PrefixMatch where
  cnt : ℕ
  namePtr : Option (List Ch)
  minLength : ℕ

namespace PrefixMatch

/-- One round of a loop. All but the first loop look at `name_ptr` before they set it. The counters are
`rt_uint16_t`. -/
def visit (guarded : Bool) (line : List Ch) (m : PrefixMatch) (name : List Ch) : PrefixMatch :=
  if line.isPrefixOf name then
    let m := if m.cnt = 0 ∧ line ≠ [] ∧ (guarded → m.namePtr = none) then
        { m with namePtr := some name, minLength := name.length }
      else m
    { m with
      cnt := (m.cnt + 1) % 2 ^ 16
      minLength := if line ≠ [] then min (strCommon (m.namePtr.getD []) name) m.minLength else m.minLength }
  else m

end PrefixMatch

/-- `list_prefix`: the name and the length of `rt_strncpy`, if it is called. -/
def listPrefix (tables : SymbolTables) (line : List Ch) : Option (List Ch × ℕ) :=
  let m : PrefixMatch := ⟨0, none, 0⟩
  let m := (tables.syscallTable.filter fun name => !internal.isPrefixOf name).foldl (PrefixMatch.visit false line) m
  let m := tables.syscallList.foldl (PrefixMatch.visit true line) m
  let m := tables.sysvarTable.foldl (PrefixMatch.visit true line) { m with cnt := 0 }
  let m := tables.sysvarList.foldl (PrefixMatch.visit true line) m
  m.namePtr.map (·, m.minLength)

namespace SymbolTables

def functions (tables : SymbolTables) (line : List Ch) : List (List Ch) :=
  (tables.syscallTable.filter fun name => !internal.isPrefixOf name).filter (line.isPrefixOf ·)

/-- The number of functions that are forgotten when `func_cnt` wraps for the last time. -/
def wrapped (tables : SymbolTables) (line : List Ch) : ℕ :=
  2 ^ 16 * (((tables.functions line).length - 1) / 2 ^ 16)

/-- The functions before the last wrap of `func_cnt`. -/
def forgotten (tables : SymbolTables) (line : List Ch) : List (List Ch) :=
  (tables.functions line).take (tables.wrapped line)

/-- The names that `list_prefix` compares. -/
def compared (tables : SymbolTables) (line : List Ch) : List (List Ch) :=
  (tables.functions line).drop (tables.wrapped line) ++ tables.syscallList.filter (line.isPrefixOf ·) ++
    tables.sysvarTable.filter (line.isPrefixOf ·) ++ tables.sysvarList.filter (line.isPrefixOf ·)

theorem filter_names (tables : SymbolTables) (line : List Ch) :
    tables.names.filter (line.isPrefixOf ·) = tables.forgotten line ++ tables.compared line := by
  rw [compared, ← List.append_assoc, ← List.append_assoc, ← List.append_assoc, forgotten, List.take_append_drop, names,
    List.filter_append, List.filter_append, List.filter_append, functions]

theorem forgotten_of_le {tables : SymbolTables} {line : List Ch} (few : (tables.functions line).length ≤ 2 ^ 16) :
    tables.forgotten line = [] := by
  rw [forgotten, wrapped, Nat.div_eq_of_lt (by omega), Nat.mul_zero, List.take_zero]

end SymbolTables

theorem commonPrefix_take (name other : List Ch) (length : ℕ) :
    commonPrefix (name.take length) other = name.take (min (strCommon name other) length) := by
  induction name generalizing other length with
  | nil => simp [commonPrefix]
  | cons x xs ih =>
    cases length with
    | zero => simp [commonPrefix]
    | succ length =>
      cases other with
      | nil => simp [commonPrefix, strCommon]
      | cons y ys =>
        by_cases same : x = y
        · simp [commonPrefix, strCommon, same, ih, Nat.succ_min_succ]
        · simp [commonPrefix, strCommon, same]

theorem strCommon_self (name : List Ch) : strCommon name name = name.length := by
  induction name with
  | nil => rfl
  | cons x xs ih => simp [strCommon, ih]

namespace PrefixMatch

/-- The variables when the names `seen` are compared. -/
structure Seen (m : PrefixMatch) (seen : List (List Ch)) : Prop where
  cnt_eq_zero : seen = [] → m.cnt = 0
  none_ : seen = [] → m.namePtr = none
  first : ∀ name others, seen = name :: others →
    m.namePtr = some name ∧ m.minLength ≤ name.length ∧ name.take m.minLength = others.foldl commonPrefix name

variable {guarded : Bool} {line : List Ch} {m : PrefixMatch} {seen : List (List Ch)}

theorem seen_first (guarded : Bool) (typed : line ≠ [])
    (zero : m.cnt = 0) (free : guarded → m.namePtr = none) {name : List Ch}
    (fits : line.isPrefixOf name = true) : Seen (m.visit guarded line name) [name] := by
  have first : m.cnt = 0 ∧ line ≠ [] ∧ (guarded → m.namePtr = none) := ⟨zero, typed, free⟩
  rw [PrefixMatch.visit, if_pos fits, if_pos first]
  dsimp only
  rw [if_pos typed]
  refine ⟨nofun, nofun, fun _ _ same => ?_⟩
  obtain ⟨rfl, rfl⟩ := List.cons.inj same
  exact ⟨rfl, Nat.min_le_right _ _, by simp [strCommon_self]⟩

theorem Seen.later (inv : Seen m seen) (guarded : Bool) (typed : line ≠ []) (any : seen ≠ [])
    (running : guarded = false → m.cnt ≠ 0) {name : List Ch} (fits : line.isPrefixOf name = true) :
    Seen (m.visit guarded line name) (seen ++ [name]) := by
  obtain ⟨head, others, rfl⟩ := List.exists_cons_of_ne_nil any
  obtain ⟨kept, le, prefix_⟩ := inv.first head others rfl
  have later : ¬ (m.cnt = 0 ∧ line ≠ [] ∧ (guarded → m.namePtr = none)) := by
    rintro ⟨zero, -, free⟩
    cases guarded with
    | false => exact running rfl zero
    | true => simp [kept] at free
  rw [PrefixMatch.visit, if_pos fits, if_neg later]
  dsimp only
  rw [if_pos typed]
  refine ⟨nofun, nofun, fun _ _ same => ?_⟩
  obtain ⟨rfl, rfl⟩ := List.cons.inj same
  refine ⟨kept, Nat.le_trans (Nat.min_le_right _ _) le, ?_⟩
  change _ = (others ++ [name]).foldl commonPrefix head
  rw [kept, List.foldl_append, ← prefix_]
  exact (commonPrefix_take head name m.minLength).symm

theorem Seen.foldl (inv : Seen m seen) (typed : line ≠ []) (names : List (List Ch)) :
    Seen (names.foldl (PrefixMatch.visit true line) m) (seen ++ names.filter (line.isPrefixOf ·)) := by
  induction names generalizing m seen with
  | nil => rwa [List.filter_nil, List.append_nil]
  | cons name rest ih =>
    rw [List.foldl_cons]
    by_cases fits : line.isPrefixOf name = true
    · rw [List.filter_cons_of_pos fits, ← List.singleton_append, ← List.append_assoc]
      by_cases any : seen = []
      · have first := seen_first true typed (inv.cnt_eq_zero any) (fun _ => inv.none_ any) fits
        rw [any]
        exact ih first
      · exact ih (inv.later true typed any nofun fits)
    · rw [List.filter_cons_of_neg fits, PrefixMatch.visit, if_neg fits]
      exact ih inv

def sinceWrap (seen : List (List Ch)) : List (List Ch) := seen.drop (2 ^ 16 * ((seen.length - 1) / 2 ^ 16))

theorem Seen.count (inv : Seen m (sinceWrap seen)) (typed : line ≠ []) (counts : m.cnt = seen.length % 2 ^ 16)
    {name : List Ch} (fits : line.isPrefixOf name = true) :
    Seen (m.visit false line name) (sinceWrap (seen ++ [name])) ∧
      (m.visit false line name).cnt = (seen ++ [name]).length % 2 ^ 16 := by
  have size : (seen ++ [name]).length = seen.length + 1 := by rw [List.length_append, List.length_singleton]
  constructor
  · rw [sinceWrap, size, Nat.add_sub_cancel]
    by_cases zero : m.cnt = 0
    · rw [show 2 ^ 16 * (seen.length / 2 ^ 16) = seen.length by omega, List.drop_left]
      exact seen_first false typed zero nofun fits
    · have same : 2 ^ 16 * (seen.length / 2 ^ 16) = 2 ^ 16 * ((seen.length - 1) / 2 ^ 16) := by omega
      rw [same, List.drop_append_of_le_length (by omega)]
      refine inv.later false typed (fun empty => zero (inv.cnt_eq_zero empty)) (fun _ => zero) fits
  · rw [PrefixMatch.visit, if_pos fits, size]
    split <;> (dsimp only; omega)

theorem Seen.table (inv : Seen m (sinceWrap seen)) (typed : line ≠ []) (counts : m.cnt = seen.length % 2 ^ 16)
    (names : List (List Ch)) :
    Seen (names.foldl (PrefixMatch.visit false line) m) (sinceWrap (seen ++ names.filter (line.isPrefixOf ·))) := by
  induction names generalizing m seen with
  | nil => rwa [List.filter_nil, List.append_nil]
  | cons name rest ih =>
    rw [List.foldl_cons]
    by_cases fits : line.isPrefixOf name = true
    · rw [List.filter_cons_of_pos fits, ← List.singleton_append, ← List.append_assoc]
      obtain ⟨next, counted⟩ := inv.count typed counts fits
      exact ih next counted
    · rw [List.filter_cons_of_neg fits, PrefixMatch.visit, if_neg fits]
      exact ih inv counts

theorem Seen.recount (inv : Seen m seen) : Seen { m with cnt := 0 } seen := { inv with cnt_eq_zero := fun _ => rfl }

theorem namePtr_foldl_nil (names : List (List Ch)) (m : PrefixMatch) :
    (names.foldl (PrefixMatch.visit guarded []) m).namePtr = m.namePtr := by
  induction names generalizing m with
  | nil => rfl
  | cons name rest ih => simp [ih, PrefixMatch.visit]

end PrefixMatch

theorem listPrefix_nil (tables : SymbolTables) : listPrefix tables [] = none := by
  rw [listPrefix, Option.map_eq_none_iff]
  simp only [PrefixMatch.namePtr_foldl_nil]

/-- What is copied over the line by `list_prefix` is what the compared names have in common. -/
theorem listPrefix_eq (tables : SymbolTables) {line : List Ch} (typed : line ≠ []) :
    match tables.compared line with
    | [] => listPrefix tables line = none
    | name :: others => ∃ length, listPrefix tables line = some (name, length) ∧ length ≤ name.length ∧
        name.take length = others.foldl commonPrefix name := by
  have start : PrefixMatch.Seen ⟨0, none, 0⟩ (PrefixMatch.sinceWrap []) := ⟨fun _ => rfl, fun _ => rfl, nofun⟩
  have table := start.table typed rfl (tables.syscallTable.filter fun name => !internal.isPrefixOf name)
  rw [List.nil_append] at table
  have sysvars := (table.foldl typed tables.syscallList).recount.foldl typed tables.sysvarTable
  have all := sysvars.foldl typed tables.sysvarList
  change PrefixMatch.Seen _ (tables.compared line) at all
  split
  · next found =>
    rw [listPrefix, Option.map_eq_none_iff]
    exact all.none_ found
  · next name others found =>
    obtain ⟨kept, le, prefix_⟩ := all.first name others found
    refine ⟨_, ?_, le, prefix_⟩
    rw [listPrefix, Option.map_eq_some_iff]
    exact ⟨name, kept, rfl⟩

/-- What is copied over the line by `list_prefix` is the completion of the line, unless the counter wraps. -/
theorem listPrefix_eq_complete (tables : SymbolTables) (line : List Ch)
    (few : (tables.functions line).length ≤ 2 ^ 16) :
    (∃ name length, listPrefix tables line = some (name, length) ∧ length ≤ name.length ∧
        name.take length = complete tables.names line) ∨
      (listPrefix tables line = none ∧ complete tables.names line = line) := by
  by_cases typed : line = []
  · rw [typed]
    exact Or.inr ⟨listPrefix_nil tables, rfl⟩
  · have result := listPrefix_eq tables typed
    rw [complete, if_neg typed, tables.filter_names, SymbolTables.forgotten_of_le few, List.nil_append]
    cases found : tables.compared line with
    | nil =>
      rw [found] at result
      exact Or.inr ⟨result, rfl⟩
    | cons name others =>
      rw [found] at result
      obtain ⟨length, copied, le, prefix_⟩ := result
      exact Or.inl ⟨name, length, copied, le, prefix_⟩

theorem prefix_commonPrefix {line left right : List Ch} (inLeft : line <+: left) (inRight : line <+: right) :
    line <+: commonPrefix left right := by
  induction line generalizing left right with
  | nil => exact List.nil_prefix
  | cons ch rest ih =>
    obtain ⟨left, rfl⟩ := inLeft
    obtain ⟨right, rfl⟩ := inRight
    rw [List.cons_append, List.cons_append, commonPrefix, if_pos rfl, List.cons_prefix_cons]
    exact ⟨rfl, ih (List.prefix_append _ _) (List.prefix_append _ _)⟩

theorem prefix_complete (names : List (List Ch)) (line : List Ch) : line <+: complete names line := by
  by_cases typed : line = []
  · rw [typed]
    exact List.nil_prefix
  · rw [complete, if_neg typed]
    cases found : names.filter (line.isPrefixOf ·) with
    | nil => exact List.prefix_rfl
    | cons name others =>
      have fits : ∀ other ∈ name :: others, line <+: other := by
        intro other member
        rw [← found] at member
        exact List.isPrefixOf_iff_prefix.mp (List.mem_filter.mp member).2
      clear found
      dsimp only
      induction others generalizing name with
      | nil => exact fits name (List.mem_singleton_self _)
      | cons other others ih =>
        refine ih (commonPrefix name other) fun next member => ?_
        rcases List.mem_cons.mp member with rfl | later
        · exact prefix_commonPrefix (fits name List.mem_cons_self) (fits other (by simp))
        · exact fits next (List.mem_cons_of_mem _ (List.mem_cons_of_mem _ later))

end Finsh
