import ShdslBridge.Finsh.Compiler

/-! # Expressions on 32-bit data

What a statement over `int` and `long` data means in C, modulo 2^32, and the syntax tree that stands for
it. Functions are called with the values of their arguments, which are evaluated from left to right.

`Expr.code` is the code that belongs to an expression. `compile_checked` says that the compiler emits
it, unless the first operand of an operator is a call: the data type of a call is `void`, which selects
no operation.
-/

namespace Finsh

/-- `++` and `--`. -/
inductive StepOp
  | inc
  | dec
  deriving DecidableEq

namespace StepOp

def op : StepOp → BinOp
  | inc => .add
  | dec => .sub

def pre : StepOp → NodeType
  | inc => .preinc
  | dec => .predec

def post : StepOp → NodeType
  | inc => .inc
  | dec => .dec

/-- The next value of a variable. -/
def apply (x : BitVec 32) : StepOp → BitVec 32
  | inc => x + 1
  | dec => x - 1

end StepOp

/-- Expressions. Variables are entries of `global_variable`, and functions are named by the addresses of
their entries in the symbol table and of their code. -/
inductive Expr
  | int (value : BitVec 32)
  | long (value : BitVec 32)
  | var (i : Fin 8)
  | bin (op : BinOp) (left right : Expr)
  | bitwise (e : Expr)
  | minus (e : Expr)
  | assign (i : Fin 8) (e : Expr)
  | pre (step : StepOp) (i : Fin 8)
  | post (step : StepOp) (i : Fin 8)
  | call (entry func : BitVec 32) (args : List Expr)

/-- The session variables and what the called functions depend on. -/
structure Store (W : Type*) where
  vars : Fin 8 → BitVec 32
  world : W

/-- What the functions return and what they do. -/
abbrev Effects (W : Type*) := BitVec 32 → List (BitVec 32) → W → BitVec 32 × W

section Meaning

variable {W : Type*} (effects : Effects W)

/-- Assigns a variable. -/
def Store.set (s : Store W) (i : Fin 8) (v : BitVec 32) : Store W := { s with vars := Function.update s.vars i v }

mutual

def Expr.eval : Expr → Store W → Option (BitVec 32 × Store W)
  | .int value, s | .long value, s => some (value, s)
  | .var i, s => some (s.vars i, s)
  | .bin op left right, s =>
    (left.eval s).bind fun (x, s) => (right.eval s).bind fun (y, s) => (op.apply x y).map (·, s)
  | .bitwise e, s => (e.eval s).map fun (x, s) => (~~~ x, s)
  | .minus e, s => (e.eval s).map fun (x, s) => (0 - x, s)
  | .assign i e, s => (e.eval s).map fun (x, s) => (x, s.set i x)
  | .pre step i, s => some (step.apply (s.vars i), s.set i (step.apply (s.vars i)))
  | .post step i, s => some (s.vars i, s.set i (step.apply (s.vars i)))
  | .call _ func args, s => (evalArgs args s).map fun (values, s) =>
    ((effects func values s.world).1, { s with world := (effects func values s.world).2 })

def evalArgs : List Expr → Store W → Option (List (BitVec 32) × Store W)
  | [], s => some ([], s)
  | e :: rest, s => (e.eval s).bind fun (x, s) => (evalArgs rest s).map fun (values, s) => (x :: values, s)

end

/-- The value of the last of the statements `e` and `rest`. -/
def evalStatements (e : Expr) : List Expr → Store W → Option (BitVec 32 × Store W)
  | [], s => e.eval effects s
  | next :: rest, s => (e.eval effects s).bind fun (_, s) => evalStatements next rest s

end Meaning

/-- `global_variable`: its address, and which of its variables are of type `long`. The others are `int`. -/
structure VarTable where
  base : BitVec 32
  long : Fin 8 → Bool

namespace VarTable

variable (table : VarTable)

/-- A `struct finsh_var` has 24 bytes. -/
def symbol (i : Fin 8) : Symbol :=
  .var (if table.long i then .long else .int) (table.base + 24 * BitVec.ofNat 32 i)

def place (i : Fin 8) : BitVec 32 := (table.symbol i).value

end VarTable

section Trees

variable (table : VarTable)

mutual

/-- The syntax tree of an expression in front of a sibling. -/
def Expr.node : Expr → Node → Node
  | .int value, sibling => .node (.valueInt value) false 0 .nil sibling
  | .long value, sibling => .node (.valueLong value) false 0 .nil sibling
  | .var i, sibling => .node (.id (table.symbol i)) false 0 .nil sibling
  | .bin op left right, sibling => .node (.bin op) false 0 (left.node (right.node .nil)) sibling
  | .bitwise e, sibling => .node .bitwise false 0 (e.node .nil) sibling
  | .minus e, sibling =>
    .node (.bin .sub) false 0 (.node (.valueLong 0) false 0 .nil (e.node .nil)) sibling
  | .assign i e, sibling =>
    .node .assign false 0 (.node (.id (table.symbol i)) false 0 .nil (e.node .nil)) sibling
  | .pre step i, sibling => .node step.pre false 0 (.node (.id (table.symbol i)) false 0 .nil .nil) sibling
  | .post step i, sibling => .node step.post false 0 (.node (.id (table.symbol i)) false 0 .nil .nil) sibling
  | .call entry func args, sibling =>
    .node .func false 0 (.node (.id (.syscall entry func)) false 0 .nil (argNodes args)) sibling

/-- The syntax trees of arguments, or of statements. -/
def argNodes : List Expr → Node
  | [] => .nil
  | e :: rest => e.node (argNodes rest)

end

def Expr.dataType : Expr → ℕ
  | .bin _ left _ => left.dataType
  | .bitwise e => e.dataType
  | .call .. => dataTypeVoid
  | _ => dataTypeDword

mutual

/-- The syntax tree of an expression after `finsh_type_check`. -/
def Expr.checked : Expr → Node → Node
  | .int value, sibling => .node (.valueInt value) false 3 .nil sibling
  | .long value, sibling => .node (.valueLong value) false 3 .nil sibling
  | .var i, sibling => .node (.id (table.symbol i)) false 3 .nil sibling
  | .bin op left right, sibling =>
    .node (.bin op) false left.dataType (left.checked (right.checked .nil)) sibling
  | .bitwise e, sibling => .node .bitwise false e.dataType (e.checked .nil) sibling
  | .minus e, sibling =>
    .node (.bin .sub) false 3 (.node (.valueLong 0) false 3 .nil (e.checked .nil)) sibling
  | .assign i e, sibling =>
    .node .assign false 3 (.node (.id (table.symbol i)) true 3 .nil (e.checked .nil)) sibling
  | .pre step i, sibling => .node step.pre false 3 (.node (.id (table.symbol i)) true 3 .nil .nil) sibling
  | .post step i, sibling => .node step.post false 3 (.node (.id (table.symbol i)) false 3 .nil .nil) sibling
  | .call entry func args, sibling =>
    .node .func false 0 (.node (.id (.syscall entry func)) false 0 .nil (checkedArgs args)) sibling

def checkedArgs : List Expr → Node
  | [] => .nil
  | e :: rest => e.checked (checkedArgs rest)

end

mutual

def Expr.code : Expr → List Instr
  | .int value | .long value => [.ld .dword value]
  | .var i => [.ldValue .dword (table.place i)]
  | .bin op left right => left.code ++ right.code ++ [.bin op .dword]
  | .bitwise e => e.code ++ [.bw .dword]
  | .minus e => .ld .dword 0 :: e.code ++ [.bin .sub .dword]
  | .assign i e => .ld .dword (table.place i) :: e.code ++ [.st .dword, .ldValueStack .dword]
  | .pre step i => .ld .dword (table.place i) :: codePre step.op (table.place i) .dword
  | .post step i => .ldValue .dword (table.place i) :: codePost step.op (table.place i) .dword
  | .call _ func args => .ld .dword func :: codeArgs args ++ [.syscall (BitVec.ofNat 8 args.length)]

def codeArgs : List Expr → List Instr
  | [] => []
  | e :: rest => e.code ++ codeArgs rest

end

end Trees

mutual

/-- The number of nodes that an expression takes from `global_node_table`. -/
def Expr.nodes : Expr → ℕ
  | .int _ | .long _ | .var _ => 1
  | .bin _ left right => left.nodes + right.nodes + 1
  | .bitwise e => e.nodes + 1
  | .minus e | .assign _ e => e.nodes + 2
  | .pre .. | .post .. => 2
  | .call _ _ args => nodesOf args + 2

def nodesOf : List Expr → ℕ
  | [] => 0
  | e :: rest => e.nodes + nodesOf rest

end

/-- `FINSH_NODE_MAX`. -/
def finshNodeMax : ℕ := 16

/-- A function is called. -/
def Expr.isCall : Expr → Bool
  | .call .. => true
  | _ => false

mutual

/-- No call is the first operand of a binary operator or the operand of `~`. -/
def Expr.Typed : Expr → Prop
  | .int _ | .long _ | .var _ | .pre .. | .post .. => True
  | .bin _ left right => left.isCall = false ∧ left.Typed ∧ right.Typed
  | .bitwise e => e.isCall = false ∧ e.Typed
  | .minus e | .assign _ e => e.Typed
  | .call _ _ args => TypedArgs args

def TypedArgs : List Expr → Prop
  | [] => True
  | e :: rest => e.Typed ∧ TypedArgs rest

end

section Compiled

variable {table : VarTable}

theorem VarTable.symbol_dataType (i : Fin 8) : (NodeType.id (table.symbol i)).leafType 0 = some 3 := by
  rw [VarTable.symbol]
  cases table.long i <;> rfl

theorem Expr.checked_eq (e : Expr) : ∃ type address child, ∀ sibling,
    e.checked table sibling = .node type address e.dataType child sibling := by
  cases e <;> exact ⟨_, _, _, fun _ => rfl⟩

def NodeType.typeBy (type : NodeType) (dataType : ℕ) : Node → Option ℕ
  | .nil => type.leafType dataType
  | .node _ _ childType _ _ => some childType

theorem typeCheck_of_child {type : NodeType} {address isAddr : Bool} {dataType result : ℕ} {child checked : Node}
    (children : typeCheck child (type.childAddress isAddr) = some checked)
    (typed : type.typeBy dataType checked = some result) (sibling : Node) :
    typeCheck (.node type address dataType child sibling) isAddr =
      (typeCheck sibling false).map (.node type (type.marked address isAddr) result checked) := by
  rw [typeCheck, children]
  cases typeCheck sibling false with
  | none => rfl
  | some next =>
    cases checked with
    | nil =>
      change (type.leafType dataType).bind _ = _
      rw [show type.leafType dataType = some result from typed]
      rfl
    | node _ _ childType _ _ =>
      obtain rfl : childType = result := Option.some.inj typed
      rfl

theorem typeCheck_leaf {type : NodeType} {address isAddr : Bool} {dataType result : ℕ}
    (typed : type.leafType dataType = some result) (sibling : Node) :
    typeCheck (.node type address dataType .nil sibling) isAddr =
      (typeCheck sibling false).map (.node type (type.marked address isAddr) result .nil) := by
  apply typeCheck_of_child
  · rfl
  · exact typed

theorem typeCheck_var (i : Fin 8) (isAddr : Bool) (sibling : Node) :
    typeCheck (.node (.id (table.symbol i)) false 0 .nil sibling) isAddr =
      (typeCheck sibling false).map (.node (.id (table.symbol i)) isAddr 3 .nil) := by
  rw [typeCheck_leaf (VarTable.symbol_dataType i)]
  rfl

mutual

theorem Expr.typeCheck_node (e : Expr) (sibling : Node) :
    typeCheck (e.node table sibling) false = (typeCheck sibling false).map (e.checked table) := by
  cases e with
  | int value | long value => exact typeCheck_leaf rfl sibling
  | var i => exact typeCheck_var i false sibling
  | bin op left right =>
    have children : typeCheck (left.node table (right.node table .nil)) false =
        some (left.checked table (right.checked table .nil)) := by
      rw [left.typeCheck_node, right.typeCheck_node]
      rfl
    obtain ⟨type, address, child, node⟩ := left.checked_eq
    exact typeCheck_of_child children (by rw [node]; rfl) sibling
  | bitwise e =>
    have children : typeCheck (e.node table .nil) false = some (e.checked table .nil) := e.typeCheck_node .nil
    obtain ⟨type, address, child, node⟩ := e.checked_eq
    exact typeCheck_of_child children (by rw [node]; rfl) sibling
  | minus e =>
    have zero : typeCheck (.node (.valueLong 0) false 0 .nil (e.node table .nil)) false =
        some (.node (.valueLong 0) false 3 .nil (e.checked table .nil)) := by
      rw [typeCheck_leaf rfl, e.typeCheck_node]
      rfl
    exact typeCheck_of_child zero rfl sibling
  | assign i e =>
    have variable_ : typeCheck (.node (.id (table.symbol i)) false 0 .nil (e.node table .nil)) true =
        some (.node (.id (table.symbol i)) true 3 .nil (e.checked table .nil)) := by
      rw [typeCheck_var, e.typeCheck_node]
      rfl
    exact typeCheck_of_child variable_ rfl sibling
  | pre step i =>
    have variable_ : typeCheck (.node (.id (table.symbol i)) false 0 .nil .nil) true =
        some (.node (.id (table.symbol i)) true 3 .nil .nil) :=
      typeCheck_var i _ .nil
    cases step <;> exact typeCheck_of_child variable_ rfl sibling
  | post step i =>
    have variable_ : typeCheck (.node (.id (table.symbol i)) false 0 .nil .nil) false =
        some (.node (.id (table.symbol i)) false 3 .nil .nil) :=
      typeCheck_var i _ .nil
    cases step <;> exact typeCheck_of_child variable_ rfl sibling
  | call entry func args =>
    have callee : typeCheck (.node (.id (.syscall entry func)) false 0 .nil (argNodes table args)) false =
        some (.node (.id (.syscall entry func)) false 0 .nil (checkedArgs table args)) := by
      rw [typeCheck_leaf rfl, typeCheck_argNodes args]
      rfl
    exact typeCheck_of_child callee rfl sibling

theorem typeCheck_argNodes (es : List Expr) : typeCheck (argNodes table es) false = some (checkedArgs table es) := by
  cases es with
  | nil => rfl
  | cons e rest =>
    rw [argNodes, e.typeCheck_node, typeCheck_argNodes rest]
    rfl

end

/-- Unless it is a call, a typed expression has the data type of the 32-bit operations. -/
theorem Expr.dataType_eq : (e : Expr) → e.Typed → e.isCall = false → e.dataType = dataTypeDword
  | .bin _ left _, typed, _ => left.dataType_eq typed.2.1 typed.1
  | .bitwise e, typed, _ => e.dataType_eq typed.2 typed.1
  | .call .., _, notCall => absurd notCall (by simp [isCall])
  | .int _, _, _ | .long _, _, _ | .var _, _, _ | .minus _, _, _ | .assign .., _, _ | .pre .., _, _ | .post .., _, _ =>
    rfl

theorem count_checkedArgs (es : List Expr) : (checkedArgs table es).count = es.length := by
  induction es with
  | nil => rfl
  | cons e rest ih =>
    obtain ⟨type, address, child, node⟩ := e.checked_eq
    rw [checkedArgs, node, Node.count, ih, List.length_cons]

theorem compile_of_parts {type : NodeType} {address : Bool} {dataType : ℕ} {child : Node} {children own : List Instr}
    (first : compile child = some children) (self : codeNode type address dataType child = some own) (sibling : Node) :
    compile (.node type address dataType child sibling) = (compile sibling).map (children ++ own ++ ·) := by
  rw [compile, first, self]
  cases compile sibling <;> rfl

theorem compile_leaf {type : NodeType} {address : Bool} {dataType : ℕ} {own : List Instr}
    (self : codeNode type address dataType .nil = some own) (sibling : Node) :
    compile (.node type address dataType .nil sibling) = (compile sibling).map (own ++ ·) :=
  compile_of_parts rfl self sibling

theorem compile_var (i : Fin 8) (address : Bool) (sibling : Node) :
    compile (.node (.id (table.symbol i)) address 3 .nil sibling) = (compile sibling).map
      ([if address then .ld .dword (table.place i) else .ldValue .dword (table.place i)] ++ ·) := by
  apply compile_leaf
  rw [VarTable.place, VarTable.symbol]
  cases table.long i <;> rfl

mutual

theorem Expr.compile_checked (e : Expr) (typed : e.Typed) (sibling : Node) :
    compile (e.checked table sibling) = (compile sibling).map (e.code table ++ ·) := by
  cases e with
  | int value | long value => exact compile_leaf rfl sibling
  | var i => exact compile_var i false sibling
  | bin op left right =>
    have children : compile (left.checked table (right.checked table .nil)) =
        some (left.code table ++ right.code table) := by
      rw [left.compile_checked typed.2.1, right.compile_checked typed.2.2]
      simp [compile]
    have own : codeNode (.bin op) false left.dataType (left.checked table (right.checked table .nil)) =
        some [.bin op .dword] := by
      rw [left.dataType_eq typed.2.1 typed.1]
      rfl
    exact compile_of_parts children own sibling
  | bitwise e =>
    have children : compile (e.checked table .nil) = some (e.code table) := by
      rw [e.compile_checked typed.2]
      simp [compile]
    have own : codeNode .bitwise false e.dataType (e.checked table .nil) = some [.bw .dword] := by
      rw [e.dataType_eq typed.2 typed.1]
      rfl
    exact compile_of_parts children own sibling
  | minus e =>
    have children : compile (.node (.valueLong 0) false 3 .nil (e.checked table .nil)) =
        some (.ld .dword 0 :: e.code table) := by
      rw [compile_leaf rfl, e.compile_checked typed]
      simp [compile]
    exact compile_of_parts children rfl sibling
  | assign i e =>
    have children : compile (.node (.id (table.symbol i)) true 3 .nil (e.checked table .nil)) =
        some (.ld .dword (table.place i) :: e.code table) := by
      rw [compile_var, e.compile_checked typed]
      simp [compile]
    exact compile_of_parts children rfl sibling
  | pre step i =>
    have children : compile (.node (.id (table.symbol i)) true 3 .nil .nil) = some [.ld .dword (table.place i)] :=
      compile_var i _ .nil
    cases step <;> exact compile_of_parts children rfl sibling
  | post step i =>
    have children : compile (.node (.id (table.symbol i)) false 3 .nil .nil) = some [.ldValue .dword (table.place i)] :=
      compile_var i _ .nil
    cases step <;> exact compile_of_parts children rfl sibling
  | call entry func args =>
    have children : compile (.node (.id (.syscall entry func)) false 0 .nil (checkedArgs table args)) =
        some (.ld .dword func :: codeArgs table args) := by
      rw [compile_leaf rfl, compile_checkedArgs args typed]
      rfl
    have own : codeNode .func false 0 (.node (.id (.syscall entry func)) false 0 .nil (checkedArgs table args)) =
        some [.syscall (BitVec.ofNat 8 args.length)] := by
      rw [codeNode, count_checkedArgs]
    exact compile_of_parts children own sibling

theorem compile_checkedArgs (es : List Expr) (typed : TypedArgs es) :
    compile (checkedArgs table es) = some (codeArgs table es) := by
  cases es with
  | nil => rfl
  | cons e rest =>
    rw [checkedArgs, e.compile_checked typed.1, compile_checkedArgs rest typed.2]
    rfl

end

end Compiled

end Finsh
