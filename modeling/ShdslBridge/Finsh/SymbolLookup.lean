import ShdslBridge.Finsh.Compiler
import ShdslBridge.Finsh.LineEditor
import ShdslBridge.Lib.Run

/-! # The lookup of symbols

`finsh_syscall_append` and `finsh_syscall_lookup` of `finsh_vm.c`, and their twins for system variables in
`finsh_var.c`. The static table is searched with `strcmp`, and the list of appended symbols with `strncmp` and the
length of the name that is looked up, so the list also finds a longer name. `lookups_exact_iff` says when
this does no harm.
-/

namespace Finsh

/-- A symbol with its name. -/
abbrev Named (α : Type*) := List Ch × α

/-- An item of a list: the name is `NULL` if it could not be copied. -/
abbrev Item (α : Type*) := Option (List Ch) × α

/-- The parameters of an append, and what the allocator does: the item and the copy of the name are there or not. -/
structure Registration (α : Type*) where
  name : List Ch
  symbol : α
  item : Bool
  copy : Bool

section Lookup

variable {α : Type*}

namespace Registration

/-- What is put into the list. -/
def toItem (r : Registration α) : Item α := (if r.copy then some r.name else none, r.symbol)

/-- The new item is the first one of the list. Without memory for it nothing happens. -/
def append (r : Registration α) (list : List (Item α)) : List (Item α) := if r.item then r.toItem :: list else list

end Registration

/-- The search in the list. It fails when `strncmp` gets `NULL`. -/
def lookupList (name : List Ch) : List (Item α) → Option (Option (Named α))
  | [] => some none
  | (none, _) :: _ => none
  | (some other, symbol) :: rest => if name.isPrefixOf other then some (some (other, symbol)) else lookupList name rest

def lookup (table : List (Named α)) (list : List (Item α)) (name : List Ch) : Option (Option (Named α)) :=
  match table.find? fun entry => entry.1 = name with
  | some entry => some (some entry)
  | none => lookupList name list

/-- The symbols that have a name. -/
def named (items : List (Item α)) : List (Named α) := items.filterMap fun item => item.1.map (·, item.2)

/-- The symbol with exactly this name: the one of the static table, or the newest one that was registered. -/
def expected (table : List (Named α)) (registered : List (Item α)) (name : List Ch) : Option (Named α) :=
  (table ++ named registered).find? fun entry => entry.1 = name

/-- The item has a longer name that begins with this one, or no name at all. -/
def Obstructs (name : List Ch) (item : Item α) : Prop :=
  ∀ other ∈ item.1, name <+: other ∧ other ≠ name

/-- Every item of the list that obstructs the name is behind a newer one of exactly this name. -/
def Unobstructed (name : List Ch) (list : List (Item α)) : Prop :=
  ∀ newer item older, list = newer ++ item :: older → Obstructs name item → ∃ found ∈ newer, found.1 = some name

variable {name : List Ch} {item : Item α} {list : List (Item α)}

theorem unobstructed_nil : Unobstructed name ([] : List (Item α)) := by
  intro newer item older split
  exact absurd split.symm (List.append_ne_nil_of_right_ne_nil _ (List.cons_ne_nil _ _))

theorem unobstructed_of_found (found : item.1 = some name) : Unobstructed name (item :: list) := by
  intro newer other older split obstructs
  cases newer with
  | nil =>
    obtain ⟨rfl, -⟩ := List.cons.inj split
    exact absurd rfl (obstructs name found).2
  | cons first newer =>
    obtain ⟨rfl, -⟩ := List.cons.inj split
    exact ⟨_, List.mem_cons_self, found⟩

theorem not_unobstructed (obstructs : Obstructs name item) : ¬ Unobstructed name (item :: list) := by
  intro free
  obtain ⟨found, member, -⟩ := free [] item list rfl obstructs
  exact List.not_mem_nil member

theorem unobstructed_cons_iff (free : ¬ Obstructs name item) (other : item.1 ≠ some name) :
    Unobstructed name (item :: list) ↔ Unobstructed name list := by
  constructor
  · intro all newer next older split obstructs
    obtain ⟨found, member, same⟩ := all (item :: newer) next older (by rw [split, List.cons_append]) obstructs
    rcases List.mem_cons.mp member with rfl | member
    · exact absurd same other
    · exact ⟨found, member, same⟩
  · intro all newer next older split obstructs
    cases newer with
    | nil =>
      obtain ⟨rfl, -⟩ := List.cons.inj split
      exact absurd obstructs free
    | cons first newer =>
      obtain ⟨-, split⟩ := List.cons.inj split
      obtain ⟨found, member, same⟩ := all newer next older split obstructs
      exact ⟨found, List.mem_cons_of_mem _ member, same⟩

/-- The search in the list finds the newest symbol of exactly this name if nothing obstructs it. -/
theorem lookupList_eq_iff (name : List Ch) (list : List (Item α)) :
    lookupList name list = some ((named list).find? fun entry => entry.1 = name) ↔ Unobstructed name list := by
  induction list with
  | nil => exact iff_of_true rfl unobstructed_nil
  | cons item rest ih =>
    obtain ⟨copied, symbol⟩ := item
    cases copied with
    | none => exact iff_of_false nofun (not_unobstructed nofun)
    | some other =>
      have head : named ((some other, symbol) :: rest) = (other, symbol) :: named rest := rfl
      rw [lookupList, head]
      by_cases same : other = name
      · subst same
        have found : other.isPrefixOf other = true := List.isPrefixOf_iff_prefix.mpr List.prefix_rfl
        rw [if_pos found, List.find?_cons_of_pos (by simp)]
        exact iff_of_true rfl (unobstructed_of_found rfl)
      · rw [List.find?_cons_of_neg (by simpa using same)]
        by_cases longer : name.isPrefixOf other = true
        · rw [if_pos longer]
          refine iff_of_false (fun equal => ?_) (not_unobstructed fun _ found => ?_)
          · have exact_ := List.find?_some (Option.some.inj equal).symm
            exact same (by simpa using exact_)
          · obtain rfl := Option.some.inj found
            exact ⟨List.isPrefixOf_iff_prefix.mp longer, same⟩
        · rw [if_neg longer, ih, unobstructed_cons_iff]
          · exact fun obstructs => longer (List.isPrefixOf_iff_prefix.mpr (obstructs other rfl).1)
          · exact fun found => same (Option.some.inj found)

theorem lookup_eq_iff (table : List (Named α)) (list : List (Item α)) (name : List Ch) :
    lookup table list name = some (expected table list name) ↔
      (∃ entry ∈ table, entry.1 = name) ∨ Unobstructed name list := by
  rw [lookup, expected, List.find?_append]
  cases found : table.find? fun entry => entry.1 = name with
  | some entry =>
    have same : entry.1 = name := by simpa using List.find?_some found
    exact iff_of_true rfl (.inl ⟨entry, List.mem_of_find?_eq_some found, same⟩)
  | none =>
    have absent : ¬ ∃ entry ∈ table, entry.1 = name := by
      rintro ⟨entry, member, same⟩
      exact List.find?_eq_none.mp found entry member (by simpa using same)
    rw [or_iff_right absent]
    exact lookupList_eq_iff name list

end Lookup

/-- The tables of the system, and the lists of appended symbols. A function has its address, a variable its type
and its address. -/
structure Symbols where
  syscallTable : List (Named (BitVec 32))
  globalSyscallList : List (Item (BitVec 32))
  sysvarTable : List (Named (FinshType × BitVec 32))
  globalSysvarList : List (Item (FinshType × BitVec 32))

namespace Symbols

/-- The calls that add a symbol. -/
inductive Append
  | syscall (r : Registration (BitVec 32))
  | sysvar (r : Registration (FinshType × BitVec 32))

/-- `finsh_syscall_append`. -/
def syscallAppend (s : Symbols) (r : Registration (BitVec 32)) : Symbols :=
  { s with globalSyscallList := r.append s.globalSyscallList }

/-- `finsh_sysvar_append`. -/
def sysvarAppend (s : Symbols) (r : Registration (FinshType × BitVec 32)) : Symbols :=
  { s with globalSysvarList := r.append s.globalSysvarList }

/-- `finsh_syscall_lookup`. -/
def syscallLookup (s : Symbols) (name : List Ch) : Option (Option (Named (BitVec 32))) :=
  lookup s.syscallTable s.globalSyscallList name

/-- `finsh_sysvar_lookup`. -/
def sysvarLookup (s : Symbols) (name : List Ch) : Option (Option (Named (FinshType × BitVec 32))) :=
  lookup s.sysvarTable s.globalSysvarList name

def step (s : Symbols) : Append → Symbols
  | .syscall r => s.syscallAppend r
  | .sysvar r => s.sysvarAppend r

def start (syscallTable : List (Named (BitVec 32))) (sysvarTable : List (Named (FinshType × BitVec 32))) : Symbols :=
  ⟨syscallTable, [], sysvarTable, []⟩

namespace Append

/-- The functions that are registered, newest first. -/
def syscalls (appends : List Append) : List (Item (BitVec 32)) :=
  appends.reverse.filterMap fun
    | syscall r => if r.item then some r.toItem else none
    | sysvar _ => none

/-- The variables that are registered, newest first. -/
def sysvars (appends : List Append) : List (Item (FinshType × BitVec 32)) :=
  appends.reverse.filterMap fun
    | syscall _ => none
    | sysvar r => if r.item then some r.toItem else none

end Append

theorem exec_eq (s : Symbols) (appends : List Append) :
    Run.exec step s appends =
      { s with
        globalSyscallList := Append.syscalls appends ++ s.globalSyscallList
        globalSysvarList := Append.sysvars appends ++ s.globalSysvarList } := by
  induction appends generalizing s with
  | nil => rfl
  | cons first rest ih =>
    rw [Run.exec_cons, ih, Append.syscalls, Append.syscalls, Append.sysvars, Append.sysvars, List.reverse_cons,
      List.filterMap_append, List.filterMap_append, List.append_assoc, List.append_assoc]
    cases first with
    | syscall r => cases item : r.item <;> simp [step, syscallAppend, Registration.append, item]
    | sysvar r => cases item : r.item <;> simp [step, sysvarAppend, Registration.append, item]

/-- Both lookups find exactly the symbol that is meant, unless a longer name was registered behind it. -/
theorem lookups_exact_iff (syscallTable : List (Named (BitVec 32)))
    (sysvarTable : List (Named (FinshType × BitVec 32))) (appends : List Append) (name : List Ch) :
    let s := Run.exec step (start syscallTable sysvarTable) appends
    (s.syscallLookup name = some (expected syscallTable (Append.syscalls appends) name) ↔
      (∃ entry ∈ syscallTable, entry.1 = name) ∨ Unobstructed name (Append.syscalls appends)) ∧
    (s.sysvarLookup name = some (expected sysvarTable (Append.sysvars appends) name) ↔
      (∃ entry ∈ sysvarTable, entry.1 = name) ∨ Unobstructed name (Append.sysvars appends)) := by
  dsimp only
  rw [exec_eq, start, syscallLookup, sysvarLookup, List.append_nil, List.append_nil]
  exact ⟨lookup_eq_iff _ _ _, lookup_eq_iff _ _ _⟩

/-- The function `l1` is found when `l` is looked up. -/
theorem lookups_not_exact :
    let l : Ch := ⟨0x6c, by decide⟩
    let appends : List Append := [.syscall ⟨[l, ⟨0x31, by decide⟩], 0x1000, true, true⟩]
    (Run.exec step (start [] []) appends).syscallLookup [l] ≠ some (expected [] (Append.syscalls appends) [l]) := by
  decide

end Symbols

end Finsh
