import ShdslBridge.Finsh.StackDiscipline

/-! # What earlier lines have left on the stack

An operation on a `char` or a `short` writes the lowest bytes of a slot, and the others keep what was there
before the line. Two runs of a line from different contents of the stack agree if no operation reads
wider than the value was written: `Node.clean`. The bottom of the stack is not concerned, as
`finsh_compiler_run` clears it.

The stack is apart from the memory that pointers reach.
-/

namespace Finsh

/-- What is loaded of a variable: its value, or its address. -/
def FinshType.width (isAddr : Bool) : FinshType → Width
  | char | uchar => if isAddr then .dword else .byte
  | short | ushort => if isAddr then .dword else .word
  | _ => .dword

namespace Node

/-- How much of the value of the first node was written by its code: as much as by the code of its leftmost
leaf, or all of it for a call. -/
def width (isAddr : Bool) : Node → Width
  | .nil => .dword
  | .node type _ _ child _ =>
    match type with
    | .id (.var type _) | .id (.sysvar type _ _) => type.width isAddr
    | .valueChar _ => .byte
    | .id (.syscall ..) | .valueInt _ | .valueLong _ | .valueString _ | .valueNull _ | .func => .dword
    | type => child.width (type.childAddress isAddr)

/-- The nodes behind the first one. -/
def rest : Node → Node
  | .nil => .nil
  | .node _ _ _ _ sibling => sibling

/-- The values of all nodes were written entirely. -/
def allDword : Node → Bool
  | .nil => true
  | .node type address dataType child sibling =>
    (node type address dataType child sibling).width false = .dword && sibling.allDword

end Node

/-- A value of which so much was written can be read so wide, at the bottom of the stack or above. -/
def Width.covers (bottom : Bool) (written read : Width) : Bool := bottom || read.size ≤ written.size

/-- The operation of a node reads nothing that was not written. -/
def NodeType.cleanOn (bottom isAddr : Bool) (children : Node) : NodeType → Bool
  | .bin _ => (children.leftType.bind widthOf).all ((children.rest.width false).covers false)
  | .assign => (children.width true).covers bottom .dword &&
    (children.leftType.bind fun dataType => widthOf (dataType % 16)).all ((children.rest.width false).covers false)
  | .func => (children.width isAddr).covers bottom .dword && children.rest.allDword
  | .getvalue => isAddr || (children.width false).covers bottom .dword
  | _ => true

/-- No operation reads anything that was not written. Only the first node's value can be at the bottom. -/
def Node.clean (bottom isAddr : Bool) : Node → Bool
  | .nil => true
  | .node type _ _ child sibling =>
    type.cleanOn bottom isAddr child && child.clean bottom (type.childAddress isAddr) && sibling.clean false false

def valueBytes (slot : ℕ) (isAddr : Bool) : Node → Set ℕ
  | .nil => ∅
  | .node type address dataType child sibling =>
    fieldBytes (slot, (Node.node type address dataType child sibling).width isAddr)
        ∪ valueBytes (slot + 1) false sibling

/-- The result of a line, the variables and what the functions were called with do not depend on the stack.
The calls are recorded in `world`. -/
def GarbageFree (root : Node) : Prop :=
  ∀ code, compilerRun root = some code → (encode code).length ≤ finshTextMax → ∀ (W : Type) (functions : Functions W)
    (s t : Vm W), s.memory = t.memory → s.world = t.world →
    ∀ u, vmRun functions (textOf (encode code)) (clearStack s) = some u →
      ∃ v, vmRun functions (textOf (encode code)) (clearStack t) = some v ∧
        u.get 0 .dword = v.get 0 .dword ∧ u.memory = v.memory ∧ u.world = v.world

section Widths

theorem fieldBytes_mono {slot : ℕ} {w other : Width} (narrow : w.size ≤ other.size) :
    fieldBytes (slot, w) ⊆ fieldBytes (slot, other) := fun _ inside =>
  ⟨inside.1, Nat.lt_of_lt_of_le inside.2 (Nat.add_le_add_left narrow _)⟩

theorem FinshType.width_true {type : FinshType} : type.width true = .dword := by cases type <;> rfl

/-- The operation that a type selects is on no more than what is loaded. -/
theorem FinshType.size_le_width {type : FinshType} (isAddr : Bool) {w : Width}
    (selects : type.dataType.bind widthOf = some w) : w.size ≤ (type.width isAddr).size := by
  cases type with
  | unknown | void => cases selects
  | _ => cases selects; cases isAddr <;> decide

/-- An operation on the data type of the first node reads no more than was written. -/
theorem Node.size_le_width {n : Node} (shaped : n.Shaped) (isAddr : Bool) {w : Width}
    (selects : n.leftType.bind widthOf = some w) : w.size ≤ (n.width isAddr).size := by
  induction n generalizing isAddr with
  | nil => cases selects
  | node type address dataType child sibling ih =>
    obtain ⟨-, takes, child_shaped, -⟩ := shaped
    have operand (present : 1 ≤ child.count) (isAddr : Bool) : w.size ≤ (child.width isAddr).size := by
      apply ih child_shaped
      cases child with
      | nil => exact absurd present (by decide)
      | node => exact selects
    have leaf (none : child.count = 0) : (type.leafType dataType).bind widthOf = some w := by
      cases child with
      | nil => exact selects
      | node => exact absurd none (Nat.succ_ne_zero _)
    cases type with
    | id symbol =>
      cases symbol with
      | syscall => exact w.size_le
      | var | sysvar => exact FinshType.size_le_width isAddr (leaf takes)
    | valueChar =>
      cases leaf takes
      exact le_rfl
    | valueInt | valueLong | valueString | valueNull | func => exact w.size_le
    | cast | null => exact absurd takes id
    | _ => exact operand (by have : child.count = _ := takes; omega) _

variable {known : Set ℕ} {slot : ℕ}

theorem Width.covers.subset {bottom : Bool} {written read : Width} (covers : written.covers bottom read)
    (at_bottom : bottom → slot = 0) (clear : fieldBytes (0, .dword) ⊆ known)
    (values : fieldBytes (slot, written) ⊆ known) :
    fieldBytes (slot, read) ⊆ known := by
  rw [Width.covers, Bool.or_eq_true] at covers
  rcases covers with bottom | narrow
  · rw [at_bottom bottom]
    exact (fieldBytes_mono read.size_le).trans clear
  · exact (fieldBytes_mono (of_decide_eq_true narrow)).trans values

end Widths

namespace Tracks

variable {known final : Set ℕ} {sp last : ℕ} {rest : List Instr}

variable {w : Width}

theorem bin {op : BinOp} (left : fieldBytes (sp, w) ⊆ known) (right : fieldBytes (sp + 1, w) ⊆ known)
    (tracks : Tracks known (sp + 1) rest final last) : Tracks known (sp + 2) (.bin op w :: rest) final last := by
  refine .cons (fun field read => ?_) (Nat.le_add_left 2 sp) (tracks.mono Set.subset_union_left)
  rcases List.mem_cons.mp read with rfl | read
  · exact left
  · obtain rfl := List.mem_singleton.mp read
    exact right

theorem st (address : fieldBytes (sp, .dword) ⊆ known) (value : fieldBytes (sp + 1, w) ⊆ known)
    (tracks : Tracks known (sp + 1) rest final last) : Tracks known (sp + 2) (.st w :: rest) final last := by
  refine .cons (fun field read => ?_) (Nat.le_add_left 2 sp) (tracks.mono Set.subset_union_left)
  rcases List.mem_cons.mp read with rfl | read
  · exact address
  · obtain rfl := List.mem_singleton.mp read
    exact value

theorem pop (tracks : Tracks known sp rest final last) : Tracks known (sp + 1) (.pop :: rest) final last :=
  .cons nofun (Nat.le_add_left 1 sp) (tracks.mono Set.subset_union_left)

theorem bw (value : fieldBytes (sp, w) ⊆ known) (tracks : Tracks known (sp + 1) rest final last) :
    Tracks known (sp + 1) (.bw w :: rest) final last := by
  refine .cons (fun field read => ?_) (Nat.le_add_left 1 sp) (tracks.mono Set.subset_union_left)
  obtain rfl := List.mem_singleton.mp read
  exact value

theorem ldValueStack (address : fieldBytes (sp, .dword) ⊆ known) (tracks : Tracks known (sp + 1) rest final last) :
    Tracks known (sp + 1) (.ldValueStack w :: rest) final last := by
  refine .cons (fun field read => ?_) (Nat.le_add_left 1 sp) (tracks.mono Set.subset_union_left)
  obtain rfl := List.mem_singleton.mp read
  exact address

theorem syscall {parameters : BitVec 8} (values : ∀ i < parameters.toNat + 1, fieldBytes (sp + i, .dword) ⊆ known)
    (tracks : Tracks known (sp + 1) rest final last) :
    Tracks known (sp + (parameters.toNat + 1)) (.syscall parameters :: rest) final last := by
  have callee : sp + (parameters.toNat + 1) - 1 - parameters.toNat = sp := by omega
  refine .cons (fun field read => ?_) (Nat.le_add_left _ sp) ?_
  · obtain ⟨i, inside, rfl⟩ := List.mem_map.mp read
    rw [callee]
    exact values i (List.mem_range.mp inside)
  · rw [Instr.takes, Nat.add_sub_cancel]
    exact tracks.mono Set.subset_union_left

/-- The code of `++` and `--` in front of a variable, whose address is on the stack. -/
theorem codePre {op : BinOp} {place : BitVec 32} (address : fieldBytes (sp, .dword) ⊆ known) :
    Tracks known (sp + 1) (codePre op place w) known (sp + 1) := by
  have value : fieldBytes (sp + 1, w) ⊆ known ∪ fieldBytes (sp + 1, w) ∪ fieldBytes (sp + 2, w) :=
    Set.subset_union_right.trans Set.subset_union_left
  have kept : known ⊆ known ∪ fieldBytes (sp + 1, w) ∪ fieldBytes (sp + 2, w) :=
    Set.subset_union_left.trans Set.subset_union_left
  apply load rfl rfl rfl rfl
  apply load rfl rfl rfl rfl
  apply bin value Set.subset_union_right
  apply st (address.trans kept) value
  exact ldValueStack (address.trans kept) (.nil kept)

/-- The code of `++` and `--` behind a variable, whose value is on the stack. -/
theorem codePost {op : BinOp} {place : BitVec 32} : Tracks known (sp + 1) (codePost op place w) known (sp + 1) := by
  have address : fieldBytes (sp + 1, .dword) ⊆
      known ∪ fieldBytes (sp + 1, .dword) ∪ fieldBytes (sp + 2, w) ∪ fieldBytes (sp + 3, w) :=
    (Set.subset_union_right.trans Set.subset_union_left).trans Set.subset_union_left
  have value : fieldBytes (sp + 2, w) ⊆
      known ∪ fieldBytes (sp + 1, .dword) ∪ fieldBytes (sp + 2, w) ∪ fieldBytes (sp + 3, w) :=
    Set.subset_union_right.trans Set.subset_union_left
  apply load rfl rfl rfl rfl
  apply load rfl rfl rfl rfl
  apply load rfl rfl rfl rfl
  apply bin value Set.subset_union_right
  apply st address value
  exact pop (.nil ((Set.subset_union_left.trans Set.subset_union_left).trans Set.subset_union_left))

end Tracks

section Trees

variable {known : Set ℕ} {slot : ℕ}

theorem valueBytes_allDword {n : Node} (all : n.allDword) {i : ℕ} (inside : i < n.count) :
    fieldBytes (slot + i, .dword) ⊆ valueBytes slot false n := by
  induction n generalizing slot i with
  | nil => exact absurd inside (Nat.not_lt_zero _)
  | node type address dataType child sibling _ ih =>
    rw [Node.allDword, Bool.and_eq_true, decide_eq_true_iff] at all
    rw [valueBytes]
    cases i with
    | zero =>
      rw [all.1]
      exact Set.subset_union_left
    | succ i =>
      rw [Node.count, Nat.add_lt_add_iff_right] at inside
      rw [← Nat.add_assoc, Nat.add_right_comm]
      exact (ih all.2 inside).trans Set.subset_union_right

theorem valueBytes_eq {n : Node} (present : 1 ≤ n.count) (isAddr : Bool) :
    valueBytes slot isAddr n = fieldBytes (slot, n.width isAddr) ∪ valueBytes (slot + 1) false n.rest := by
  cases n with
  | nil => exact absurd present (by decide)
  | node => rfl

theorem Node.eq_nil_of_count {n : Node} (none : n.count = 0) : n = .nil := by
  cases n with
  | nil => rfl
  | node => exact absurd none (Nat.succ_ne_zero _)

variable {dataType : ℕ}

theorem Node.width_of_id {n first next : Node} {isAddr address : Bool} {symbol : Symbol}
    (ok : typeCheck n isAddr = some (.node (.id symbol) address dataType first next)) : n.width true = .dword := by
  cases n with
  | nil => cases ok
  | node type _ _ child sibling =>
    obtain ⟨_, _, _, -, -, -, same⟩ := typeCheck_cases ok
    cases same
    cases symbol with
    | syscall => rfl
    | var | sysvar => exact FinshType.width_true

theorem tracks_codeOnId {child : Node} {code : BitVec 32 → Width → List Instr}
    (tracks : ∀ symbol address result first next w, child = .node (.id symbol) address result first next → Tracks known slot (code symbol.value w) known slot)
    :
    Tracks known slot (codeOnId child dataType code) known slot := by
  rw [codeOnId.eq_def]
  split
  · rw [codeTyped]
    cases widthOf dataType with
    | none => exact .nil subset_rfl
    | some w => exact tracks _ _ _ _ _ w rfl
  · exact .nil subset_rfl

theorem widthOf_mod {w : Width} (selects : widthOf dataType = some w) : widthOf (dataType % 16) = some w := by
  rw [widthOf] at selects
  split_ifs at selects with byte word dword
  · rwa [byte]
  · rwa [word]
  · rwa [dword]

theorem value_known {n : Node} (present : 1 ≤ n.count) (isAddr : Bool) :
    fieldBytes (slot, n.width isAddr) ⊆ known ∪ valueBytes slot isAddr n := by
  rw [valueBytes_eq present]
  exact Set.subset_union_left.trans Set.subset_union_right

theorem kept_known {n : Node} (present : 1 ≤ n.count) (isAddr : Bool) :
    known ∪ fieldBytes (slot, n.width isAddr) ⊆ known ∪ valueBytes slot isAddr n :=
  Set.union_subset Set.subset_union_left (value_known present isAddr)

theorem rest_known {n : Node} (present : 1 ≤ n.count) {isAddr : Bool} {bytes : Set ℕ}
    (ofRest : bytes ⊆ valueBytes (slot + 1) false n.rest) : bytes ⊆ known ∪ valueBytes slot isAddr n := by
  rw [valueBytes_eq present]
  exact (ofRest.trans Set.subset_union_right).trans Set.subset_union_right

theorem Node.count_rest {n : Node} (present : 1 ≤ n.count) : n.rest.count + 1 = n.count := by
  cases n with
  | nil => exact absurd present (by decide)
  | node => rfl

/-- The value of the second operand, read so wide. -/
theorem second_known {n : Node} (two : n.count = 2) {isAddr : Bool} {w : Width}
    (covers : (n.rest.width false).covers false w) : fieldBytes (slot + 1, w) ⊆ known ∪ valueBytes slot isAddr n := by
  have present : 1 ≤ n.count := by omega
  have one : 1 ≤ n.rest.count := by
    have := Node.count_rest present
    omega
  refine rest_known present ?_
  rw [valueBytes_eq one]
  exact (@fieldBytes_mono (slot + 1) _ _ (of_decide_eq_true covers)).trans Set.subset_union_left

theorem tracks_assign {isAddr : Bool} {child checked : Node} {own : List Instr}
    (first_type : checked.firstType = some dataType) (data : child.leftType = some dataType) (two : child.count = 2)
    (place : checked.isPlace) (clean : NodeType.assign.cleanOn (slot = 0) isAddr child)
    (clear : fieldBytes (0, .dword) ⊆ known ∪ valueBytes slot true child)
    (coded : codeNode .assign (NodeType.assign.marked false isAddr) dataType checked = some own) :
    Tracks (known ∪ valueBytes slot true child) (slot + child.count) own
      (known ∪ fieldBytes (slot, child.width true)) (slot + 1) := by
  have present : 1 ≤ child.count := by omega
  rw [NodeType.cleanOn, data, Bool.and_eq_true, Option.bind_some] at clean
  have address := Width.covers.subset clean.1 of_decide_eq_true clear (value_known present true)
  have stores {w : Width} (selects : widthOf (dataType % 16) = some w) :
      Tracks (known ∪ valueBytes slot true child) (slot + child.count) [.st w, .ldValueStack w]
        (known ∪ fieldBytes (slot, child.width true)) (slot + 1) := by
    rw [selects] at clean
    rw [two]
    exact .st address (second_known two clean.2) (.ldValueStack address (.nil (kept_known present true)))
  cases checked with
  | nil => cases coded
  | node left _ result _ _ =>
    obtain rfl : result = dataType := Option.some.inj first_type
    cases left with
    | id =>
      obtain ⟨w, selects, rfl⟩ := Option.map_eq_some_iff.mp coded
      exact stores (widthOf_mod selects)
    | getvalue =>
      obtain ⟨w, selects, rfl⟩ := Option.map_eq_some_iff.mp coded
      exact stores selects
    | _ => cases place

/-- A call reads its function and all of its parameters. -/
theorem tracks_func {isAddr : Bool} {child checked : Node} {own : List Instr} (count : checked.count = child.count)
    (present : 1 ≤ child.count) (few : child.count ≤ finshNodeMax)
    (clean : NodeType.func.cleanOn (slot = 0) isAddr child)
    (clear : fieldBytes (0, .dword) ⊆ known ∪ valueBytes slot isAddr child)
    (coded : codeNode .func (NodeType.func.marked false isAddr) dataType checked = some own) :
    Tracks (known ∪ valueBytes slot isAddr child) (slot + child.count) own (known ∪ fieldBytes (slot, .dword))
      (slot + 1) := by
  rw [NodeType.cleanOn, Bool.and_eq_true] at clean
  have callee := Width.covers.subset clean.1 of_decide_eq_true clear (value_known present isAddr)
  cases checked with
  | nil => exact absurd count (by rw [Node.count]; omega)
  | node _ _ _ _ args =>
    cases coded
    have rest_count := Node.count_rest present
    rw [Node.count, ← rest_count, Nat.add_right_cancel_iff] at count
    have size : (BitVec.ofNat 8 args.count).toNat = child.rest.count := by
      have : finshNodeMax < 256 := by decide
      rw [count]
      exact Nat.mod_eq_of_lt (by omega)
    rw [← rest_count, ← size]
    refine .syscall (fun i inside => ?_) (.nil (Set.union_subset Set.subset_union_left callee))
    cases i with
    | zero => exact callee
    | succ i =>
      rw [Nat.add_comm i 1, ← Nat.add_assoc]
      exact rest_known present (valueBytes_allDword clean.2 (by omega))

/-- The code of a node reads what the code of its children has written. -/
theorem tracks_codeNode {type : NodeType} {isAddr : Bool} {dataType before : ℕ} {child checked sibling : Node}
    {own : List Instr} (ok : typeCheck child (type.childAddress isAddr) = some checked)
    (typed : type.typeBy before checked = some dataType) (takes : type.Takes child.count) (shaped : child.Shaped)
    (steady : type.steadyOn child) (few : child.count ≤ finshNodeMax) (clean : type.cleanOn (slot = 0) isAddr child)
    (clear : fieldBytes (0, .dword) ⊆ known)
    (coded : codeNode type (type.marked false isAddr) dataType checked = some own) :
    Tracks (known ∪ valueBytes slot (type.childAddress isAddr) child) (slot + child.count) own
      (known ∪ fieldBytes (slot, (Node.node type false before child sibling).width isAddr)) (slot + 1) := by
  obtain ⟨count, first_type, place⟩ := typeCheck_facts ok
  have leaf {instr : Instr} {w : Width} (none : child.count = 0) (reads : instr.reads slot = [])
      (loads : instr.takes = 0) (gives : instr.gives = 1) (writes : instr.writes slot = some (slot, w)) :
      Tracks (known ∪ valueBytes slot (type.childAddress isAddr) child) (slot + child.count) [instr]
        (known ∪ fieldBytes (slot, w)) (slot + 1) := by
    obtain rfl := Node.eq_nil_of_count none
    exact .load reads loads gives writes (.nil (Set.union_subset_union_left _ Set.subset_union_left))
  have data (present : 1 ≤ child.count) : child.leftType = some dataType := by
    rw [← first_type, ← typed, typeBy_of_count (by omega)]
  have clear' : fieldBytes (0, .dword) ⊆ known ∪ valueBytes slot (type.childAddress isAddr) child :=
    clear.trans Set.subset_union_left
  cases type with
  | cast | null => exact absurd takes id
  | id symbol =>
    cases symbol with
    | syscall =>
      cases coded
      exact leaf takes rfl rfl rfl rfl
    | var type | sysvar type =>
      cases coded
      cases type with
      | unknown | void | voidp => cases steady
      | _ => cases isAddr <;> exact leaf takes rfl rfl rfl rfl
  | valueChar | valueInt | valueLong | valueString | valueNull =>
    cases coded
    exact leaf takes rfl rfl rfl rfl
  | bitwise =>
    have one : child.count = 1 := takes
    cases coded
    rw [one, codeTyped]
    cases selects : widthOf dataType with
    | none => exact .nil (kept_known one.ge _)
    | some w =>
      have narrow : w.size ≤ (child.width isAddr).size :=
        Node.size_le_width shaped _ (by rw [data one.ge]; exact selects)
      exact .bw ((fieldBytes_mono narrow).trans (value_known one.ge _)) (.nil (kept_known one.ge _))
  | getaddr =>
    have one : child.count = 1 := takes
    cases coded
    rw [one]
    exact .nil (kept_known one.ge _)
  | getvalue =>
    have one : child.count = 1 := takes
    cases coded
    rw [one]
    cases isAddr with
    | true => exact .nil (kept_known one.ge _)
    | false =>
      change Tracks _ _ (codeTyped dataType _) _ _
      rw [codeTyped]
      cases widthOf dataType with
      | none => exact .nil (kept_known one.ge _)
      | some w =>
        have address := Width.covers.subset clean of_decide_eq_true clear' (value_known one.ge _)
        exact .ldValueStack address (.nil (kept_known one.ge _))
  | preinc | predec =>
    have one : child.count = 1 := takes
    cases coded
    rw [one]
    refine (tracks_codeOnId fun symbol address result first next w same => ?_).fewer (kept_known one.ge _)
    subst same
    have whole : child.width true = .dword := Node.width_of_id ok
    exact .codePre (whole ▸ value_known one.ge _)
  | inc | dec =>
    have one : child.count = 1 := takes
    cases coded
    rw [one]
    exact (tracks_codeOnId fun _ _ _ _ _ _ _ => .codePost).fewer (kept_known one.ge _)
  | bin op =>
    have two : child.count = 2 := takes
    have present : 1 ≤ child.count := by omega
    cases coded
    rw [NodeType.steadyOn, data present] at steady
    rw [NodeType.cleanOn, data present] at clean
    rw [two, codeTyped]
    rw [Option.bind_some] at steady clean
    cases selects : widthOf dataType with
    | none =>
      rw [selects] at steady
      cases steady
    | some w =>
      rw [selects] at clean
      have narrow : w.size ≤ (child.width isAddr).size :=
        Node.size_le_width shaped _ (by rw [data present]; exact selects)
      exact .bin ((fieldBytes_mono narrow).trans (value_known present _)) (second_known two clean) (.nil (kept_known present _))
  | assign =>
    have two : child.count = 2 := takes
    rw [NodeType.steadyOn, ← place] at steady
    have present := data (by omega)
    exact tracks_assign (first_type.trans present) present two steady clean clear' coded
  | func => exact tracks_func count takes few clean clear' coded

theorem tracks_compile {n checked : Node} {isAddr : Bool} (ok : typeCheck n isAddr = some checked) (sound : n.Sound)
    (clean : n.clean (slot = 0) isAddr) (clear : fieldBytes (0, .dword) ⊆ known) {code : List Instr}
    (compiled : compile checked = some code) :
    Tracks known slot code (known ∪ valueBytes slot isAddr n) (slot + n.count) := by
  induction n generalizing isAddr checked known slot code with
  | nil =>
    rw [typeCheck_nil ok] at compiled
    cases compiled
    exact .nil (Set.union_subset subset_rfl (Set.empty_subset _))
  | node type address dataType child sibling child_ih sibling_ih =>
    obtain ⟨-, below, behind⟩ := sound.parts
    obtain ⟨⟨rfl, takes, child_shaped, -⟩, few, steady⟩ := sound
    obtain ⟨first, next, result, checked_child, checked_sibling, typed, rfl⟩ := typeCheck_cases ok
    rw [Node.size] at few
    rw [Node.steady, Bool.and_eq_true, Bool.and_eq_true] at steady
    rw [Node.clean, Bool.and_eq_true, Bool.and_eq_true] at clean
    rw [compile] at compiled
    obtain ⟨children, compiled_child, compiled⟩ := Option.bind_eq_some_iff.mp compiled
    obtain ⟨own, coded, compiled⟩ := Option.bind_eq_some_iff.mp compiled
    obtain ⟨siblings, compiled_sibling, compiled⟩ := Option.bind_eq_some_iff.mp compiled
    obtain rfl := Option.some.inj compiled
    have few_children := child.count_le_size
    have first_part := child_ih checked_child below clean.1.2 clear compiled_child
    have own_part := @tracks_codeNode _ _ type isAddr result dataType child first sibling own checked_child typed takes
      child_shaped steady.1.1 (by omega) clean.1.1 clear coded
    have above : decide (slot + 1 = 0) = false := decide_eq_false (Nat.succ_ne_zero slot)
    have clear' : fieldBytes (0, .dword) ⊆
        known ∪ fieldBytes (slot, (Node.node type false dataType child sibling).width isAddr) :=
      clear.trans Set.subset_union_left
    have last_part := sibling_ih checked_sibling behind (by rw [above]; exact clean.2) clear' compiled_sibling
    have whole := (first_part.append own_part).append last_part
    rw [Set.union_assoc, Nat.add_assoc, Nat.add_comm 1] at whole
    exact whole

/-- The code of a line reads what it has written, or what was cleared. -/
theorem tracks_compileStatements {n checked : Node} (ok : typeCheck n false = some checked) (sound : n.Sound)
    (clean : n.statements.all (·.clean true false)) (clear : fieldBytes (0, .dword) ⊆ known) {code : List Instr}
    (compiled : compileStatements checked = some code) : ∃ last, Tracks known 0 code (fieldBytes (0, .dword)) last := by
  induction n generalizing checked known code with
  | nil =>
    rw [typeCheck_nil ok] at compiled
    cases compiled
    exact ⟨0, .nil clear⟩
  | node type address dataType child sibling _ ih =>
    obtain ⟨alone, -, behind⟩ := sound.parts
    obtain ⟨first, next, result, -, -, -, rfl⟩ := typeCheck_cases ok
    obtain ⟨checked_alone, -, checked_sibling⟩ := typeCheck_alone ok
    rw [Node.statements, List.all_cons, Bool.and_eq_true] at clean
    rw [compileStatements.eq_def] at compiled
    dsimp only at compiled
    obtain ⟨statement, compiled_alone, compiled⟩ := Option.bind_eq_some_iff.mp compiled
    obtain ⟨others, compiled_sibling, compiled⟩ := Option.bind_eq_some_iff.mp compiled
    obtain rfl := Option.some.inj compiled
    have tracks : Tracks known 0 statement (known ∪ valueBytes 0 false _) (0 + 1) :=
      @tracks_compile known 0 _ _ false checked_alone alone clean.1 clear _ compiled_alone
    have tracks := tracks.fewer Set.subset_union_left
    cases next with
    | nil =>
      cases compiled_sibling
      rw [List.append_nil, List.append_nil]
      exact ⟨1, tracks.fewer clear⟩
    | node =>
      obtain ⟨last, rest⟩ := ih checked_sibling behind clean.2 clear compiled_sibling
      exact ⟨last, (tracks.append (.pop (.nil subset_rfl))).append rest⟩

end Trees

section Lines

variable {env : Env} {vars after : List (Option (Name × FinshType))} {tokens : List Token} {trees : List Node}

/-- The result of a line does not depend on the stack if no operation reads wider than the value was
written. -/
theorem garbageFree_of_clean (parsed : parserRun env vars tokens = .ok (trees, after)) (steady : (chain trees).steady)
    (clean : (chain trees).statements.all (·.clean true false)) : GarbageFree (chain trees) := by
  obtain ⟨all, few⟩ := parserRun_trees parsed
  obtain ⟨shaped, -, size⟩ := all.chain
  have sound : (chain trees).Sound := ⟨shaped, by omega, steady⟩
  intro code compiled fits W functions s t memory world u run
  obtain ⟨checked, ok, compiled⟩ := Option.bind_eq_some_iff.mp compiled
  obtain ⟨last, tracks⟩ := tracks_compileStatements ok sound clean subset_rfl compiled
  have start : Agrees ∅ { s with sp := 0 } { t with sp := 0 } := ⟨rfl, memory, world, nofun⟩
  have cleared : Agrees (fieldBytes (0, .dword)) { clearStack s with sp := 0 } { clearStack t with sp := 0 } :=
    (start.put 0 .dword 0).mono Set.subset_union_right
  rw [vmRun_encode code fits] at run ⊢
  obtain ⟨v, run', agrees, -⟩ := execAll_agrees tracks cleared rfl run
  exact ⟨v, run', agrees.get subset_rfl, agrees.memory, agrees.world⟩

/-- `'a' + 1;` -/
theorem garbageFree_of_clean_char : GarbageFree (chain [.node (.bin .add) false 0
    (.node (.valueChar 0x61) false 0 .nil (.node (.valueInt 1) false 0 .nil .nil)) .nil]) :=
  @garbageFree_of_clean envOfF (List.replicate 8 none) (List.replicate 8 none)
    [.valueChar 0x61, .add, .valueInt 1, .semicolon] _ (by decide +kernel) (by decide +kernel) (by decide +kernel)

/-- `1 + 'a';` reads three bytes of the second slot that were not written. -/
theorem onePlusChar_not_garbageFree : ∃ trees after,
    parserRun envOfF (List.replicate 8 none) [.valueInt 1, .add, .valueChar 0x61, .semicolon] = .ok (trees, after) ∧
      ¬ GarbageFree (chain trees) := by
  refine ⟨[.node (.bin .add)
    false 0 (.node (.valueInt 1) false 0 .nil (.node (.valueChar 0x61) false 0 .nil .nil)) .nil],
    List.replicate 8 none, by decide +kernel, fun free => ?_⟩
  let code : List Instr := [.ld .dword 1, .ld .byte 0x61, .bin .add .dword]
  let s : Vm Unit := ⟨fun _ => 0, fun _ => 0, 0, ()⟩
  let t : Vm Unit := ⟨fun _ => 0, fun _ => 1, 0, ()⟩
  let functions : Functions Unit := fun _ _ world => (0, world)
  have first : (vmRun functions (textOf (encode code)) (clearStack s)).map (·.get 0 .dword) = some 0x62 := by
    decide +kernel
  have second : (vmRun functions (textOf (encode code)) (clearStack t)).map (·.get 0 .dword) = some 0x01010162 := by
    decide +kernel
  obtain ⟨u, run, value⟩ := Option.map_eq_some_iff.mp first
  obtain ⟨v, run', same, -⟩ := free code (by decide +kernel) (by decide) Unit functions s t rfl rfl u run
  rw [run', Option.map_some, ← same, value] at second
  exact absurd (Option.some.inj second) (by decide)

end Lines

end Finsh
