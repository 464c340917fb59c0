import ShdslBridge.Finsh.Accesses
import ShdslBridge.Finsh.Parser

/-! # Reads, assignments, increments and decrements

The objects that a line can name are the variables of the session and of the system and what a pointer variable points
to. `Exact` says that the code for an operation on one of them accesses the object's bytes and nothing else, and leaves
the object's value, extended by its type to the 32 bits of a stack slot. `exact_iff` says when it does.

`finsh_compile` takes the address of a variable behind `++` and `--` from `id.var`, also for a variable of the system.
The data type of a dereferenced pointer is that of the pointer. Nothing extends a value of one or two bytes: the rest of
the stack slot keeps what was there.
-/

namespace Finsh

namespace FinshType

def objectWidth : FinshType → Option Width
  | unknown | void => none
  | char | uchar => some .byte
  | short | ushort => some .word
  | voidp | charp | shortp | int | uint | intp | long | ulong | longp => some .dword

/-- The value of an object with these bytes. -/
def extend : FinshType → ℕ → BitVec 32
  | short, n => (BitVec.ofNat 16 n).signExtend 32
  | _, n => BitVec.ofNat 32 n

/-- The types that a typed pointer points to. -/
def IsBasic : FinshType → Prop
  | char | uchar | short | ushort | int | uint | long | ulong => True
  | _ => False

end FinshType

inductive Variable
  | session (type : FinshType) (entry : BitVec 32)
  | system (type : FinshType) (entry object : BitVec 32)

namespace Variable

def type : Variable → FinshType
  | session type _ | system type .. => type

def symbol : Variable → Symbol
  | session type entry => .var type entry
  | system type entry object => .sysvar type entry object

def place : Variable → BitVec 32
  | session type entry => (Symbol.var type entry).value
  | system _ _ object => object

end Variable

inductive Lvalue
  | object (x : Variable) (sized : x.type.objectWidth.isSome)
  | deref (p : Variable) (pointee : FinshType) (basic : pointee.IsBasic) (typed : p.type = pointee.pointer)

structure Rhs where
  node : Node
  checked : Node
  code : List Instr
  typed : typeCheck node false = some checked
  compiled : compile checked = some code

inductive LvalueOp
  | read
  | assign (rhs : Rhs)
  | pre (step : StepOp)
  | post (step : StepOp)

namespace Lvalue

variable {W : Type*}

def type : Lvalue → FinshType
  | object x _ => x.type
  | deref _ pointee _ _ => pointee

/-- `sizeof` of the object. -/
def size (lv : Lvalue) : ℕ := (lv.type.objectWidth.map Width.size).getD 0

def address (s : Vm W) : Lvalue → BitVec 32
  | object x _ => x.place
  | deref p _ _ _ => s.load .dword p.place

def pointerReads : Lvalue → List Access
  | object _ _ => []
  | deref p _ _ _ => [⟨false, p.place, 4⟩]

def node : Lvalue → Node → Node
  | object x _, sibling => .node (.id x.symbol) false 0 .nil sibling
  | deref p _ _ _, sibling => .node .getvalue false 0 (.node (.id p.symbol) false 0 .nil .nil) sibling

def load (isAddr : Bool) : Lvalue → List Instr
  | object x _ => x.type.load isAddr x.place
  | deref p _ _ _ => p.type.load false p.place ++ if isAddr then [] else [.ldValueStack .dword]

def codeWidth : Lvalue → Width
  | object x _ => x.type.objectWidth.getD .dword
  | deref .. => .dword

/-- The code of `++` or `--`. There is none for a dereferenced pointer. -/
def stepCode (code : BitVec 32 → Width → List Instr) : Lvalue → List Instr
  | object x sized => code x.symbol.value (object x sized).codeWidth
  | deref .. => []

end Lvalue

namespace LvalueOp

/-- The tree of the operation. -/
def node (lv : Lvalue) : LvalueOp → Node
  | read => lv.node .nil
  | assign rhs => .node .assign false 0 (lv.node rhs.node) .nil
  | pre step => .node step.pre false 0 (lv.node .nil) .nil
  | post step => .node step.post false 0 (lv.node .nil) .nil

def front (lv : Lvalue) : LvalueOp → List Instr
  | read | post _ => lv.load false
  | assign _ | pre _ => lv.load true

def rhsCode : LvalueOp → List Instr
  | assign rhs => rhs.code
  | _ => []

def back (lv : Lvalue) : LvalueOp → List Instr
  | read => []
  | assign _ => [.st lv.codeWidth, .ldValueStack lv.codeWidth]
  | pre step => lv.stepCode (codePre step.op)
  | post step => lv.stepCode (codePost step.op)

/-- The accesses that the operation has to make. -/
def Does (own : List Access) : LvalueOp → Prop
  | read => (∃ access ∈ own, access.write = false) ∧ ∀ access ∈ own, access.write = false
  | assign _ => ∃ access ∈ own, access.write = true
  | pre _ | post _ => (∃ access ∈ own, access.write = false) ∧ ∃ access ∈ own, access.write = true

def yieldedMemory {W : Type*} (s t : Vm W) : LvalueOp → ℕ → BitVec 8
  | read | post _ => s.memory
  | assign _ | pre _ => t.memory

end LvalueOp

section Coded

theorem objectWidth_dataType {type : FinshType} {w : Width} (sized : type.objectWidth = some w) :
    ∃ dataType, type.dataType = some dataType ∧ widthOf dataType = some w := by
  cases type <;> cases sized <;> exact ⟨_, rfl, rfl⟩

theorem pointer_dataType {type : FinshType} (basic : type.IsBasic) :
    type.pointer.dataType = some dataTypeDword ∧ type.pointer ≠ .voidp := by
  cases type <;> first | exact basic.elim | exact ⟨rfl, nofun⟩

theorem leafType_variable (x : Variable) (dataType : ℕ) :
    (NodeType.id x.symbol).leafType dataType = x.type.dataType := by
  cases x <;> rfl

theorem codeNode_variable (x : Variable) (address : Bool) (dataType : ℕ) (child : Node) :
    codeNode (.id x.symbol) address dataType child = some (x.type.load address x.place) := by
  cases x <;> rfl

/-- An object is named by one node, whose data type selects the operations of its width. -/
structure Lvalue.Coded (lv : Lvalue) (isAddr : Bool) (type : NodeType) (dataType : ℕ) (child : Node) : Prop where
  typed : ∀ sibling, typeCheck (lv.node sibling) isAddr =
    (typeCheck sibling false).map (.node type isAddr dataType child)
  compiled : ∀ sibling, compile (.node type isAddr dataType child sibling) =
    (compile sibling).map (lv.load isAddr ++ ·)
  assigns : ∀ sibling, codeAssign (.node type isAddr dataType child sibling) =
    some [.st lv.codeWidth, .ldValueStack lv.codeWidth]
  steps : ∀ code sibling, codeOnId (.node type isAddr dataType child sibling) dataType code = lv.stepCode code

theorem Lvalue.coded (lv : Lvalue) (isAddr : Bool) : ∃ type dataType child, lv.Coded isAddr type dataType child := by
  cases lv with
  | object x sized =>
    obtain ⟨w, width⟩ := Option.isSome_iff_exists.mp sized
    obtain ⟨dataType, typed, selects⟩ := objectWidth_dataType width
    have found : widthOf dataType = some (Lvalue.object x sized).codeWidth := by
      rw [selects, Lvalue.codeWidth, width, Option.getD_some]
    have symbol : (NodeType.id x.symbol).marked false isAddr = isAddr := by cases x <;> rfl
    refine ⟨.id x.symbol, dataType, .nil, fun sibling => ?_, fun sibling => ?_, fun sibling => ?_,
      fun code sibling => ?_⟩
    · rw [Lvalue.node, typeCheck_leaf ((leafType_variable x 0).trans typed), symbol]
    · exact compile_leaf (codeNode_variable x isAddr dataType .nil) sibling
    · rw [codeAssign, found]
      rfl
    · rw [codeOnId, codeTyped, found]
      rfl
  | deref p pointee basic typed =>
    obtain ⟨dword, -⟩ := pointer_dataType basic
    have leaf : (NodeType.id p.symbol).leafType 0 = some 3 := by rw [leafType_variable, typed, dword]; rfl
    have symbol : (NodeType.id p.symbol).marked false false = false := by cases p <;> rfl
    refine ⟨.getvalue, 3, .node (.id p.symbol) false 3 .nil .nil, fun sibling => ?_, fun sibling => ?_, fun _ => rfl,
      fun _ _ => rfl⟩
    · have child : typeCheck (.node (.id p.symbol) false 0 .nil .nil) false =
          some (.node (.id p.symbol) false 3 .nil .nil) := by rw [typeCheck_leaf leaf, symbol]; rfl
      exact typeCheck_of_child child rfl sibling
    · have child : compile (.node (.id p.symbol) false 3 .nil .nil) = some (p.type.load false p.place) := by
        rw [compile_leaf (codeNode_variable p false 3 .nil)]
        exact congrArg some (List.append_nil _)
      exact compile_of_parts child (by cases isAddr <;> rfl) sibling

theorem compilerRun_op (lv : Lvalue) (op : LvalueOp) :
    compilerRun (op.node lv) = some (op.front lv ++ op.rhsCode ++ op.back lv) := by
  have alone {n : Node} {type : NodeType} {address : Bool} {dataType : ℕ} {child : Node} {code : List Instr}
      (typed : typeCheck n false = some (.node type address dataType child .nil))
      (compiled : compile (.node type address dataType child .nil) = some code) : compilerRun n = some code := by
    rw [compilerRun, typed]
    change compileStatements _ = _
    rw [compileStatements, compiled]
    change some (code ++ [] ++ []) = _
    rw [List.append_nil, List.append_nil]
  -- an operation on the object, with the siblings of its node
  have onto (isAddr : Bool) {type : NodeType} {own : List Instr} {sibling checked : Node} {code : List Instr}
      (passes : type.childAddress false = isAddr)
      (typed : typeCheck sibling false = some checked) (compiled : compile checked = some code)
      (coded : ∀ childType dataType child, lv.Coded isAddr childType dataType child →
        codeNode type false dataType (.node childType isAddr dataType child checked) = some own) :
      compilerRun (.node type false 0 (lv.node sibling) .nil) = some (lv.load isAddr ++ code ++ own) := by
    obtain ⟨childType, dataType, child, object⟩ := lv.coded isAddr
    have first : typeCheck (lv.node sibling) (type.childAddress false) =
        some (.node childType isAddr dataType child checked) := by
      rw [passes, object.typed, typed]
      rfl
    have marked : type.marked false false = false := by
      cases type with
      | id symbol => cases symbol <;> rfl
      | _ => rfl
    refine alone (by rw [typeCheck_of_child first rfl, marked]; rfl) ?_
    rw [compile_of_parts (by rw [object.compiled, compiled]; rfl) (coded childType dataType child object)]
    exact congrArg some (List.append_nil _)
  cases op with
  | read =>
    obtain ⟨type, dataType, child, object⟩ := lv.coded false
    refine alone (object.typed .nil) ?_
    rw [object.compiled]
    exact congrArg some (List.append_nil _).symm
  | assign rhs => exact onto true rfl rhs.typed rhs.compiled fun _ _ _ object => object.assigns _
  | pre step => cases step <;> exact onto true rfl rfl rfl fun _ _ _ object => congrArg some (object.steps _ _)
  | post step => cases step <;> exact onto false rfl rfl rfl fun _ _ _ object => congrArg some (object.steps _ _)

end Coded

section Exactness

variable {W : Type*} {functions : Functions W} {lv : Lvalue} {op : LvalueOp} {s t u v : Vm W}
  {first second : List Access}

/-- The code in front is executed, and the one for an assigned expression leaves one more value. -/
def Evaluates (functions : Functions W) (lv : Lvalue) (op : LvalueOp) (s v : Vm W) : Prop :=
  ∃ u, execAll functions s (op.front lv) = some u ∧ execAll functions u op.rhsCode = some v ∧
    match op with
    | .assign _ => v.sp = u.sp + 1 ∧ ∀ b < 4 * u.sp, v.stack b = u.stack b
    | _ => True

/-- The code accesses the bytes of the object and no others, and yields the value of the object. -/
structure Exact (functions : Functions W) (lv : Lvalue) (op : LvalueOp) (s v : Vm W) : Prop where
  coded : compilerRun (op.node lv) = some (op.front lv ++ op.rhsCode ++ op.back lv)
  runs : ∃ u first own second t, Runs functions s (op.front lv) first u ∧ Runs functions v (op.back lv) second t ∧
    first ++ second = lv.pointerReads ++ own ∧
    (∀ access ∈ own, access.address = lv.address s ∧ access.size = lv.size) ∧ op.Does own ∧
    t.sp = s.sp + 1 ∧
    t.get s.sp .dword =
      lv.type.extend (LittleEndian.readNat (op.yieldedMemory s t) (lv.address s).toNat lv.size)

/-- The bytes behind a value of a type are those that the slot has already. -/
def FinshType.Keeps (type : FinshType) (slot : BitVec 32) (size n : ℕ) : Prop :=
  slot.toNat / 256 ^ size = (type.extend n).toNat / 256 ^ size

/-- When the code is right. -/
def Right (s v : Vm W) (op : LvalueOp) : Lvalue → Prop
  | .object x sized =>
    x.type ≠ .voidp ∧
      match op with
      | .read =>
        x.type.Keeps (s.get s.sp .dword) (Lvalue.object x sized).size
          (LittleEndian.readNat s.memory x.place.toNat (Lvalue.object x sized).size)
      | .assign _ =>
        x.type.Keeps x.place (Lvalue.object x sized).size
          (LittleEndian.readNat v.stack (4 * (s.sp + 1)) (Lvalue.object x sized).size)
      | .pre _ => x.type.objectWidth = some .dword ∧ x.symbol.value = x.place
      | .post _ =>
        x.symbol.value = x.place ∧
          x.type.Keeps (s.get s.sp .dword) (Lvalue.object x sized).size
            (LittleEndian.readNat s.memory x.place.toNat (Lvalue.object x sized).size)
  | .deref _ pointee _ _ =>
    match op with
    | .read | .assign _ => pointee.objectWidth = some .dword
    | .pre _ | .post _ => False

theorem exact_of_runs (own : List Access) (front : Runs functions s (op.front lv) first u)
    (back : Runs functions v (op.back lv) second t) (same : first ++ second = lv.pointerReads ++ own) :
    Exact functions lv op s v ↔
      ((∀ access ∈ own, access.address = lv.address s ∧ access.size = lv.size) ∧ op.Does own) ∧ t.sp = s.sp + 1 ∧
        t.get s.sp .dword =
          lv.type.extend (LittleEndian.readNat (op.yieldedMemory s t) (lv.address s).toNat lv.size) := by
  constructor
  · rintro ⟨-, u', first', own', second', t', front', back', same', only, does, height, value⟩
    obtain ⟨rfl, rfl⟩ := front.unique front'
    obtain ⟨rfl, rfl⟩ := back.unique back'
    obtain rfl : own = own' := List.append_cancel_left (same.symm.trans same')
    exact ⟨⟨only, does⟩, height, value⟩
  · rintro ⟨⟨only, does⟩, height, value⟩
    exact ⟨compilerRun_op lv op, u, first, own, second, t, front, back, same, only, does, height, value⟩

theorem exact_iff_value {own : List Access} (front : Runs functions s (op.front lv) first u)
    (back : Runs functions v (op.back lv) second t) (same : first ++ second = lv.pointerReads ++ own)
    (only : (∀ access ∈ own, access.address = lv.address s ∧ access.size = lv.size) ∧ op.Does own)
    (height : t.sp = s.sp + 1) :
    Exact functions lv op s v ↔
      t.get s.sp .dword =
        lv.type.extend (LittleEndian.readNat (op.yieldedMemory s t) (lv.address s).toNat lv.size) := by
  rw [exact_of_runs own front back same, and_iff_right only, and_iff_right height]

theorem Evaluates.alone (evaluates : Evaluates functions lv op s v) (front : Runs functions s (op.front lv) first u)
    (none_ : op.rhsCode = []) : v = u := by
  obtain ⟨middle, ran, rhs, -⟩ := evaluates
  rw [front.execAll] at ran
  rw [none_] at rhs
  exact (Option.some.inj rhs).symm.trans (Option.some.inj ran).symm

theorem Evaluates.assigned {rhs : Rhs} (evaluates : Evaluates functions lv (.assign rhs) s v)
    (front : Runs functions s ((LvalueOp.assign rhs).front lv) first u) :
    v.sp = u.sp + 1 ∧ ∀ slot < u.sp, ∀ w, v.get slot w = u.get slot w := by
  obtain ⟨middle, ran, -, height, below⟩ := evaluates
  rw [front.execAll] at ran
  obtain rfl := Option.some.inj ran
  exact ⟨height, fun slot inside w => Vm.get_congr (fun b _ above => below b (by omega)) w⟩

variable {w : Width} {type : FinshType}

theorem size_of_width (sized : lv.type.objectWidth = some w) : lv.size = w.size := by
  rw [Lvalue.size, sized]
  rfl

theorem size_eq_four (lv : Lvalue) : lv.size = 4 ↔ lv.type.objectWidth = some .dword := by
  rw [Lvalue.size]
  cases lv.type.objectWidth with
  | none => exact iff_of_false (by decide) nofun
  | some w => cases w <;> decide

theorem extend_mod (sized : type.objectWidth = some w) {n : ℕ} (fits : n < 256 ^ w.size) :
    (type.extend n).toNat % 256 ^ w.size = n := by
  cases type with
  | short =>
    obtain rfl := Option.some.inj sized
    exact Width.promote_mod .word fits
  | unknown | void => cases sized
  | char | uchar =>
    obtain rfl := Option.some.inj sized
    exact Width.promote_mod .byte fits
  | ushort =>
    obtain rfl := Option.some.inj sized
    exact (Nat.mod_mod_of_dvd n (by decide)).trans (Nat.mod_eq_of_lt fits)
  | voidp | charp | shortp | int | uint | intp | long | ulong | longp =>
    obtain rfl := Option.some.inj sized
    exact Width.promote_mod .dword fits

theorem extend_dword (sized : type.objectWidth = some .dword) (n : ℕ) : type.extend n = BitVec.ofNat 32 n := by
  cases type <;> first | rfl | cases sized

/-- A value that was put into a slot is extended if the slot has the right bytes behind it. -/
theorem put_extend_iff (sized : type.objectWidth = some w) (s : Vm W) (slot : ℕ) {n m : ℕ} (fits : m < 256 ^ w.size)
    (low : n % 256 ^ w.size = m) :
    (s.put slot w n).get slot .dword = type.extend m ↔ type.Keeps (s.get slot .dword) w.size m :=
  get_put_eq_iff s slot w ((extend_mod sized fits).trans low.symm)

theorem load_of_sized (sized : type.objectWidth = some w) (loads : type ≠ .voidp) (isAddr : Bool) (place : BitVec 32) :
    type.load isAddr place = [if isAddr then .ld .dword place else .ldValue w place] := by
  cases type with
  | unknown | void => cases sized
  | voidp => exact absurd rfl loads
  | _ => cases sized; rfl

theorem runs_ldValue (room : s.sp < finshStackMax) (w : Width) (place : BitVec 32) :
    Runs functions s [.ldValue w place] [⟨false, place, w.size⟩] (s.pushed w (s.load w place).toNat) :=
  .cons (push_eq room _ _) (.nil _)

theorem pushed_get_dword (s : Vm W) (value : BitVec 32) : (s.pushed .dword value.toNat).get s.sp .dword = value :=
  Vm.get_put_dword s s.sp value

theorem pushed_value_iff (sized : type.objectWidth = some w) (s : Vm W) (place : BitVec 32) :
    (s.pushed w (s.load w place).toNat).get s.sp .dword =
        type.extend (LittleEndian.readNat s.memory place.toNat w.size) ↔
      type.Keeps (s.get s.sp .dword) w.size (LittleEndian.readNat s.memory place.toNat w.size) := by
  have fits := LittleEndian.readNat_lt s.memory place.toNat w.size
  exact put_extend_iff sized s s.sp fits (w.promote_mod fits)

section Objects

variable {x : Variable} {sized : x.type.objectWidth.isSome} {w : Width}

theorem runs_loadAddress (functions : Functions W) (width : x.type.objectWidth = some w) (loads : x.type ≠ .voidp)
    (room : s.sp < finshStackMax) :
    Runs functions s (x.type.load true x.place) [] (s.pushed .dword x.place.toNat) := by
  rw [load_of_sized width loads]
  exact .cons (push_eq room _ _) (.nil _)

theorem runs_loadValue (functions : Functions W) (width : x.type.objectWidth = some w) (loads : x.type ≠ .voidp)
    (room : s.sp < finshStackMax) :
    Runs functions s (x.type.load false x.place) [⟨false, x.place, w.size⟩]
      (s.pushed w (s.load w x.place).toNat) := by
  rw [load_of_sized width loads]
  exact runs_ldValue room w x.place

theorem exact_object_read (width : x.type.objectWidth = some w) (loads : x.type ≠ .voidp)
    (room : s.sp + 4 ≤ finshStackMax) (evaluates : Evaluates functions (.object x sized) .read s v) :
    Exact functions (.object x sized) .read s v ↔ Right s v .read (.object x sized) := by
  have size : (Lvalue.object x sized).size = w.size := size_of_width width
  have front : Runs functions s (LvalueOp.read.front (.object x sized)) _ _ :=
    runs_loadValue functions width loads (by omega)
  obtain rfl := evaluates.alone front rfl
  have only : (∀ access ∈ [Access.mk false x.place w.size],
      access.address = (Lvalue.object x sized).address s ∧ access.size = (Lvalue.object x sized).size) ∧
      LvalueOp.read.Does [⟨false, x.place, w.size⟩] := by simp [LvalueOp.Does, Lvalue.address, size]
  rw [exact_iff_value front (.nil _) (List.append_nil _) only rfl, Right, size, and_iff_right loads]
  exact pushed_value_iff width s x.place

theorem exact_object_assign (width : x.type.objectWidth = some w) (loads : x.type ≠ .voidp)
    (room : s.sp + 4 ≤ finshStackMax) {rhs : Rhs}
    (evaluates : Evaluates functions (.object x sized) (.assign rhs) s v) :
    Exact functions (.object x sized) (.assign rhs) s v ↔ Right s v (.assign rhs) (.object x sized) := by
  have size : (Lvalue.object x sized).size = w.size := size_of_width width
  have codeWidth : (Lvalue.object x sized).codeWidth = w := by rw [Lvalue.codeWidth, width, Option.getD_some]
  have front : Runs functions s ((LvalueOp.assign rhs).front (.object x sized)) _ _ :=
    runs_loadAddress functions width loads (by omega)
  obtain ⟨height, below⟩ := evaluates.assigned front
  have slot : v.get s.sp .dword = x.place :=
    (below s.sp (Nat.lt_succ_self _) .dword).trans (pushed_get_dword s x.place)
  obtain ⟨t, back, done, stored, value⟩ := runs_store functions height slot w
  have only : (∀ access ∈ [Access.mk true x.place w.size, ⟨false, x.place, w.size⟩],
      access.address = (Lvalue.object x sized).address s ∧ access.size = (Lvalue.object x sized).size) ∧
      (LvalueOp.assign rhs).Does [⟨true, x.place, w.size⟩, ⟨false, x.place, w.size⟩] := by
    simp [LvalueOp.Does, Lvalue.address, size]
  have back' : Runs functions v ((LvalueOp.assign rhs).back (.object x sized))
      [⟨true, x.place, w.size⟩, ⟨false, x.place, w.size⟩] t := by
    rw [LvalueOp.back, codeWidth]
    exact back
  have fits := LittleEndian.readNat_lt t.memory x.place.toNat w.size
  have extended := put_extend_iff width v s.sp fits (Nat.mod_eq_of_lt fits)
  rw [← value, slot, stored] at extended
  rw [exact_iff_value front back' rfl only done, Right, size, and_iff_right loads]
  change _ = x.type.extend (LittleEndian.readNat t.memory x.place.toNat w.size) ↔ _
  rw [stored]
  exact extended

theorem exact_object_pre (width : x.type.objectWidth = some w) (loads : x.type ≠ .voidp)
    (room : s.sp + 4 ≤ finshStackMax) {step : StepOp}
    (evaluates : Evaluates functions (.object x sized) (.pre step) s v) :
    Exact functions (.object x sized) (.pre step) s v ↔ Right s v (.pre step) (.object x sized) := by
  have size : (Lvalue.object x sized).size = w.size := size_of_width width
  have codeWidth : (Lvalue.object x sized).codeWidth = w := by rw [Lvalue.codeWidth, width, Option.getD_some]
  have front : Runs functions s ((LvalueOp.pre step).front (.object x sized)) _ _ :=
    runs_loadAddress functions width loads (by omega)
  obtain rfl := evaluates.alone front rfl
  obtain ⟨t, back, done, value⟩ := runs_codePre functions (s := s.pushed .dword x.place.toNat) rfl
    (pushed_get_dword s x.place) (by omega) step x.symbol.value w
  have back' : Runs functions (s.pushed .dword x.place.toNat) ((LvalueOp.pre step).back (.object x sized))
      [⟨false, x.symbol.value, w.size⟩, ⟨true, x.place, w.size⟩, ⟨false, x.place, 4⟩] t := by
    rw [LvalueOp.back, Lvalue.stepCode, codeWidth]
    exact back
  rw [exact_of_runs _ front back' rfl, Right, and_iff_right loads]
  constructor
  · rintro ⟨⟨only, -⟩, -, -⟩
    exact ⟨(size_eq_four _).mp (only ⟨false, x.place, 4⟩ (by simp)).2.symm,
      (only ⟨false, x.symbol.value, w.size⟩ (by simp)).1⟩
  · rintro ⟨dword, same⟩
    obtain rfl : w = .dword := Option.some.inj (width.symm.trans dword)
    refine ⟨⟨?_, ?_⟩, done, ?_⟩
    · simp [Lvalue.address, size, same]
    · simp [LvalueOp.Does]
    · rw [value, size]
      exact (extend_dword width _).symm

theorem exact_object_post (width : x.type.objectWidth = some w) (loads : x.type ≠ .voidp)
    (room : s.sp + 4 ≤ finshStackMax) {step : StepOp}
    (evaluates : Evaluates functions (.object x sized) (.post step) s v) :
    Exact functions (.object x sized) (.post step) s v ↔ Right s v (.post step) (.object x sized) := by
  have size : (Lvalue.object x sized).size = w.size := size_of_width width
  have codeWidth : (Lvalue.object x sized).codeWidth = w := by rw [Lvalue.codeWidth, width, Option.getD_some]
  have front : Runs functions s ((LvalueOp.post step).front (.object x sized)) _ _ :=
    runs_loadValue functions width loads (by omega)
  obtain rfl := evaluates.alone front rfl
  obtain ⟨t, back, done, value⟩ := runs_codePost functions (s := s.pushed w (s.load w x.place).toNat) rfl (by omega)
    step x.symbol.value w
  have back' : Runs functions (s.pushed w (s.load w x.place).toNat) ((LvalueOp.post step).back (.object x sized))
      [⟨false, x.symbol.value, w.size⟩, ⟨true, x.symbol.value, w.size⟩] t := by
    rw [LvalueOp.back, Lvalue.stepCode, codeWidth]
    exact back
  rw [exact_of_runs _ front back' rfl, Right, and_iff_right loads, size, value]
  have yields := pushed_value_iff width s x.place
  constructor
  · rintro ⟨⟨only, -⟩, -, value⟩
    exact ⟨(only ⟨false, x.symbol.value, w.size⟩ (by simp)).1, yields.mp value⟩
  · rintro ⟨same, keeps⟩
    refine ⟨⟨?_, ?_⟩, done, yields.mpr keeps⟩
    · simp [Lvalue.address, same]
    · simp [LvalueOp.Does]

/-- A variable of type `void*` is not loaded: the code leaves no value. -/
theorem exact_object_voidp (voidp : x.type = .voidp) (evaluates : Evaluates functions (.object x sized) op s v) :
    Exact functions (.object x sized) op s v ↔ Right s v op (.object x sized) := by
  refine iff_of_false ?_ fun right => right.1 voidp
  rintro ⟨-, u, first, own, second, t, front, back, -, -, -, height, -⟩
  have frontEmpty : op.front (.object x sized) = [] := by
    have none_ (isAddr : Bool) : x.type.load isAddr x.place = [] := by rw [voidp]; rfl
    cases op <;> exact none_ _
  have dword : (Lvalue.object x sized).codeWidth = .dword := by rw [Lvalue.codeWidth, voidp]; rfl
  have start := front.height
  rw [frontEmpty] at start
  have moved := back.height
  cases op with
  | read =>
    obtain rfl := evaluates.alone front rfl
    simp only [LvalueOp.back, List.map_nil, List.sum_nil] at start moved
    omega
  | assign rhs =>
    obtain ⟨more, -⟩ := evaluates.assigned front
    simp only [LvalueOp.back, List.map_nil, List.map_cons, List.sum_nil, List.sum_cons, Instr.takes,
      Instr.gives] at start moved
    omega
  | pre step =>
    obtain rfl := evaluates.alone front rfl
    simp only [LvalueOp.back, Lvalue.stepCode, codePre, ldOne, List.map_nil, List.map_cons, List.sum_nil, List.sum_cons,
      Instr.takes, Instr.gives] at start moved
    omega
  | post step =>
    obtain rfl := evaluates.alone front rfl
    simp only [LvalueOp.back, Lvalue.stepCode, codePost, ldOne,
      List.map_nil, List.map_cons, List.sum_nil, List.sum_cons,
      Instr.takes, Instr.gives] at start moved
    omega

end Objects

section Pointers

variable {p : Variable} {pointee : FinshType} {basic : pointee.IsBasic} {typed : p.type = pointee.pointer}

theorem runs_pointer (functions : Functions W) (typed : p.type = pointee.pointer) (basic : pointee.IsBasic)
    (room : s.sp < finshStackMax) :
    Runs functions s (p.type.load false p.place) [⟨false, p.place, 4⟩]
      (s.pushed .dword (s.load .dword p.place).toNat) := by
  have load : p.type.load false p.place = [.ldValue .dword p.place] := by
    rw [typed]
    cases pointee <;> first | exact basic.elim | rfl
  rw [load]
  exact runs_ldValue room .dword p.place

theorem exact_deref (room : s.sp + 4 ≤ finshStackMax)
    (evaluates : Evaluates functions (.deref p pointee basic typed) op s v) :
    Exact functions (.deref p pointee basic typed) op s v ↔ Right s v op (.deref p pointee basic typed) := by
  let lv : Lvalue := .deref p pointee basic typed
  let place := s.load .dword p.place
  have address : Runs functions s (lv.load true) [⟨false, p.place, 4⟩] (s.pushed .dword place.toNat) := by
    have runs := runs_pointer functions typed basic (show s.sp < finshStackMax by omega)
    rw [← List.append_nil (p.type.load false p.place)] at runs
    exact runs
  have slot : (s.pushed .dword place.toNat).get s.sp .dword = place := pushed_get_dword s place
  have value : Runs functions s (lv.load false) [⟨false, p.place, 4⟩, ⟨false, place, 4⟩]
      ((s.pushed .dword place.toNat).put s.sp .dword (s.load .dword place).toNat) :=
    (runs_pointer functions typed basic (by omega)).append (runs_ldValueStack functions rfl slot .dword)
  -- the object has four bytes if its accesses are right, and then its value is
  have four (accesses : List Access) (written : ∃ write, ⟨write, place, 4⟩ ∈ accesses)
      (only : ∀ access ∈ accesses, access.address = lv.address s ∧ access.size = lv.size) :
      pointee.objectWidth = some .dword := by
    obtain ⟨write, member⟩ := written
    exact (size_eq_four lv).mp (only _ member).2.symm
  have sized (dword : pointee.objectWidth = some .dword) : lv.size = 4 := (size_eq_four lv).mpr dword
  cases op with
  | read =>
    obtain rfl := evaluates.alone value rfl
    have back : Runs functions ((s.pushed .dword place.toNat).put s.sp .dword (s.load .dword place).toNat)
      (LvalueOp.read.back lv) [] _ := .nil _
    rw [exact_of_runs [⟨false, place, 4⟩] value back rfl]
    constructor
    · rintro ⟨⟨only, -⟩, -⟩
      exact four _ ⟨false, by simp⟩ only
    · intro dword
      refine ⟨⟨?_, ?_⟩, rfl, ?_⟩
      · simp [sized dword, lv, Lvalue.address, place]
      · simp [LvalueOp.Does]
      · exact (Vm.get_put_dword _ _ _).trans (by rw [sized dword]; exact (extend_dword dword _).symm)
  | assign rhs =>
    obtain ⟨height, below⟩ := evaluates.assigned address
    have kept : v.get s.sp .dword = place := (below s.sp (Nat.lt_succ_self _) .dword).trans slot
    obtain ⟨t, back, done, stored, result⟩ := runs_store functions height kept .dword
    rw [exact_of_runs [⟨true, place, 4⟩, ⟨false, place, 4⟩] address back rfl]
    constructor
    · rintro ⟨⟨only, -⟩, -⟩
      exact four _ ⟨true, by simp⟩ only
    · intro dword
      refine ⟨⟨?_, ?_⟩, done, ?_⟩
      · simp [sized dword, lv, Lvalue.address, place]
      · simp [LvalueOp.Does]
      · have fits := LittleEndian.readNat_lt t.memory place.toNat 4
        have number := Nat.mod_eq_of_lt (show LittleEndian.readNat t.memory place.toNat 4 < 2 ^ 32 from fits)
        have put := Vm.get_put_dword v s.sp (BitVec.ofNat 32 (LittleEndian.readNat t.memory place.toNat 4))
        rw [BitVec.toNat_ofNat, number] at put
        rw [sized dword]
        exact (result.trans put).trans (extend_dword dword _).symm
  | pre step =>
    obtain rfl := evaluates.alone address rfl
    have back : Runs functions (s.pushed .dword place.toNat) ((LvalueOp.pre step).back lv) [] _ := .nil _
    rw [exact_of_runs [] address back rfl]
    exact iff_of_false (fun exact_ => by simpa [LvalueOp.Does] using exact_.1.2) id
  | post step =>
    obtain rfl := evaluates.alone value rfl
    have back : Runs functions ((s.pushed .dword place.toNat).put s.sp .dword (s.load .dword place).toNat)
      ((LvalueOp.post step).back lv) [] _ := .nil _
    rw [exact_of_runs [⟨false, place, 4⟩] value back rfl]
    exact iff_of_false (fun exact_ => by simpa [LvalueOp.Does] using exact_.1.2) id

end Pointers

/-- For every object, every operation on it and every state of the machine with room for four more values: the code is
exact if and only if it is right. -/
theorem exact_iff (lv : Lvalue) (op : LvalueOp) (room : s.sp + 4 ≤ finshStackMax)
    (evaluates : Evaluates functions lv op s v) : Exact functions lv op s v ↔ Right s v op lv := by
  cases lv with
  | object x sized =>
    by_cases voidp : x.type = .voidp
    · exact exact_object_voidp voidp evaluates
    · obtain ⟨w, width⟩ := Option.isSome_iff_exists.mp sized
      cases op with
      | read => exact exact_object_read width voidp room evaluates
      | assign rhs => exact exact_object_assign width voidp room evaluates
      | pre step => exact exact_object_pre width voidp room evaluates
      | post step => exact exact_object_post width voidp room evaluates
  | deref p pointee basic typed => exact exact_deref room evaluates

/-- `a++` for an `int` variable. -/
theorem exact_iff_int :
    let lv : Lvalue := .object (.session .int 0x20000000) rfl
    let s : Vm Unit := ⟨fun _ => 0, fun _ => 0, 0, ()⟩
    ∃ v, Exact (fun _ _ world => (0, world)) lv (.post .inc) s v := by
  intro lv s
  refine ⟨s.pushed .dword (s.load .dword 0x20000014).toNat, ?_⟩
  refine (exact_iff lv (.post .inc) (by decide) ⟨_, rfl, rfl, trivial⟩).mpr ?_
  exact ⟨nofun, by rw [FinshType.Keeps]; decide +kernel⟩

/-- `a++` for an `int` variable of the system at `0x20001000`, whose entry is at `0x08002000`: the word at `0x08002014`
is increased. -/
theorem system_not_exact :
    let lv : Lvalue := .object (.system .int 0x08002000 0x20001000) rfl
    let s : Vm Unit := ⟨fun _ => 0, fun _ => 0, 0, ()⟩
    let functions : Functions Unit := fun _ _ world => (0, world)
    ∃ v, Evaluates functions lv (.post .inc) s v ∧ ¬ Exact functions lv (.post .inc) s v := by
  intro lv s functions
  have evaluates : Evaluates functions lv (.post .inc) s (s.pushed .dword (s.load .dword 0x20001000).toNat) :=
    ⟨_, rfl, rfl, trivial⟩
  refine ⟨_, evaluates, fun exact_ => ?_⟩
  obtain ⟨-, same, -⟩ := (exact_object_post rfl (by decide) (by decide) evaluates).mp exact_
  exact absurd same (by decide)

end Exactness

end Finsh
