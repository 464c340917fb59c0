import ShdslBridge.Finsh.Vm

/-! # The compiler of finsh

`finsh_compiler.c`. `finsh_type_check` marks the nodes whose address is wanted and gives every node the
data type of its first child. `finsh_compile` emits the code of the children, of the node, and of the
siblings. A node whose data type has no operation of its own gets no code and no error.

A syntax tree is a node with a first child and a next sibling, as the nodes point to one another.
-/

namespace Finsh

/-- `enum finsh_type`. -/
inductive FinshType
  | unknown
  | void
  | voidp
  | char
  | uchar
  | charp
  | short
  | ushort
  | shortp
  | int
  | uint
  | intp
  | long
  | ulong
  | longp
  deriving DecidableEq

/-- The number of an enumerator. -/
def FinshType.value : FinshType → ℕ
  | unknown => 0
  | void => 1
  | voidp => 2
  | char => 3
  | uchar => 4
  | charp => 5
  | short => 6
  | ushort => 7
  | shortp => 8
  | int => 9
  | uint => 10
  | intp => 11
  | long => 12
  | ulong => 13
  | longp => 14

/-- `FINSH_DATA_TYPE_VOID`, `FINSH_DATA_TYPE_BYTE`, `FINSH_DATA_TYPE_WORD` and `FINSH_DATA_TYPE_DWORD`. -/
def dataTypeVoid : ℕ := 0
def dataTypeByte : ℕ := 1
def dataTypeWord : ℕ := 2
def dataTypeDword : ℕ := 3

def widthOf (dataType : ℕ) : Option Width :=
  if dataType = dataTypeByte then some .byte
  else if dataType = dataTypeWord then some .word
  else if dataType = dataTypeDword then some .dword
  else none

/-- What an identifier stands for, with the address of its `struct finsh_var`, `struct finsh_sysvar` or
`struct finsh_syscall`. -/
inductive Symbol
  | var (type : FinshType) (entry : BitVec 32)
  | sysvar (type : FinshType) (entry address : BitVec 32)
  | syscall (entry func : BitVec 32)
  deriving DecidableEq

/-- `&(node->id.var->value)`: the place of `value` in a `struct finsh_var` at the symbol's address. -/
def Symbol.value : Symbol → BitVec 32
  | var _ entry | sysvar _ entry _ | syscall entry _ => entry + 20

/-- `node_type` with the `value` or the `id` of the node. -/
inductive NodeType
  | id (symbol : Symbol)
  | valueChar (value : BitVec 8)
  | valueInt (value : BitVec 32)
  | valueLong (value : BitVec 32)
  | valueString (ptr : BitVec 32)
  | valueNull (ptr : BitVec 32)
  | bin (op : BinOp)
  | bitwise
  | func
  | assign
  | cast
  | preinc
  | predec
  | inc
  | dec
  | getvalue
  | getaddr
  | null
  deriving DecidableEq

/-- A node with what it points to. `address` is the bit `FINSH_IDTYPE_ADDRESS` of `idtype`. -/
inductive Node
  | nil
  | node (type : NodeType) (address : Bool) (dataType : ℕ) (child sibling : Node)
  deriving DecidableEq

namespace FinshType

/-- The data type of a variable in `finsh_type_check`. -/
def dataType : FinshType → Option ℕ
  | void => some dataTypeVoid
  | char | uchar => some dataTypeByte
  | short | ushort => some dataTypeWord
  | int | uint | long | ulong | charp | voidp | shortp | intp | longp => some dataTypeDword
  | unknown => none

/-- The code that loads a variable, or its address, in `finsh_compile`. -/
def load (address : Bool) (place : BitVec 32) : FinshType → List Instr
  | char | uchar => [if address then .ld .dword place else .ldValue .byte place]
  | short | ushort => [if address then .ld .dword place else .ldValue .word place]
  | int | uint | long | ulong | charp | shortp | intp | longp =>
    [if address then .ld .dword place else .ldValue .dword place]
  | unknown | void | voidp => []

end FinshType

namespace NodeType

/-- What `finsh_type_check` passes on to the children. -/
def childAddress (isAddr : Bool) : NodeType → Bool
  | assign | preinc | predec | getaddr => true
  | getvalue => false
  | _ => isAddr

def marked (address isAddr : Bool) : NodeType → Bool
  | id (.syscall ..) => address
  | _ => address || isAddr

def leafType (dataType : ℕ) : NodeType → Option ℕ
  | id (.var type _) | id (.sysvar type _ _) => type.dataType
  | valueChar _ => some dataTypeByte
  | valueInt _ | valueLong _ | valueString _ | valueNull _ => some dataTypeDword
  | _ => some dataType

end NodeType

/-- `finsh_type_check`, unless it sets an error. -/
def typeCheck : Node → Bool → Option Node
  | .nil, _ => some .nil
  | .node type address dataType child sibling, isAddr => do
    let child ← typeCheck child (type.childAddress isAddr)
    let sibling ← typeCheck sibling false
    let dataType ← match child with
      | .nil => type.leafType dataType
      | .node _ _ childType _ _ => some childType
    some (.node type (type.marked address isAddr) dataType child sibling)

def Node.count : Node → ℕ
  | .nil => 0
  | .node _ _ _ _ sibling => sibling.count + 1

/-- `1` of a data type. -/
def ldOne (w : Width) : Instr := .ld w 1

/-- The code of `++` and `--` in front of a variable. The address is on the stack already. -/
def codePre (op : BinOp) (place : BitVec 32) (w : Width) : List Instr :=
  [.ldValue w place, ldOne w, .bin op w, .st w, .ldValueStack .dword]

/-- The code of `++` and `--` behind a variable. -/
def codePost (op : BinOp) (place : BitVec 32) (w : Width) : List Instr :=
  [.ld .dword place, .ldValue w place, ldOne w, .bin op w, .st w, .pop]

def codeTyped (dataType : ℕ) (code : Width → List Instr) : List Instr := ((widthOf dataType).map code).getD []

def codeOnId (child : Node) (dataType : ℕ) (code : BitVec 32 → Width → List Instr) : List Instr :=
  match child with
  | .node (.id symbol) _ _ _ _ => codeTyped dataType (code symbol.value)
  | _ => []

def codeAssign (child : Node) : Option (List Instr) :=
  let stores (w : Width) : List Instr := [.st w, .ldValueStack w]
  match child with
  | .nil => none
  | .node (.id _) _ dataType _ _ => (widthOf dataType).map stores
  | .node .getvalue _ dataType _ _ => (widthOf (dataType % 16)).map stores
  | _ => some []

/-- The code of the current node in `finsh_compile`, unless it is an error. -/
def codeNode (type : NodeType) (address : Bool) (dataType : ℕ) (child : Node) : Option (List Instr) :=
  match type with
  | .id (.syscall _ func) => some [.ld .dword func]
  | .id (.sysvar type _ place) => some (type.load address place)
  | .id (.var type entry) => some (type.load address (Symbol.var type entry).value)
  | .valueChar value => some [.ld .byte value]
  | .valueInt value | .valueLong value => some [.ld .dword value]
  | .valueString ptr | .valueNull ptr => some [.ld .dword ptr]
  | .bin op => some (codeTyped dataType fun w => [.bin op w])
  | .bitwise => some (codeTyped dataType fun w => [.bw w])
  | .func =>
    match child with
    | .nil => some []
    | .node _ _ _ _ sibling => some [.syscall (BitVec.ofNat 8 sibling.count)]
  | .assign => codeAssign child
  | .cast => none
  | .preinc => some (codeOnId child dataType (codePre .add))
  | .predec => some (codeOnId child dataType (codePre .sub))
  | .inc => some (codeOnId child dataType (codePost .add))
  | .dec => some (codeOnId child dataType (codePost .sub))
  | .getvalue => some (if address then [] else codeTyped dataType fun w => [.ldValueStack w])
  | .getaddr => some []
  -- `finsh_code_dword(0)`
  | .null => some [.noop, .noop, .noop, .noop]

/-- `finsh_compile`, unless it sets an error. -/
def compile : Node → Option (List Instr)
  | .nil => some []
  | .node type address dataType child sibling => do
    let children ← compile child
    let own ← codeNode type address dataType child
    let siblings ← compile sibling
    some (children ++ own ++ siblings)

/-- The loop of `finsh_compiler_run`: the value of a statement is popped if another one follows. -/
def compileStatements : Node → Option (List Instr)
  | .nil => some []
  | .node type address dataType child sibling => do
    let statement ← compile (.node type address dataType child .nil)
    let rest ← compileStatements sibling
    some (statement ++ (match sibling with
      | .nil => []
      | .node .. => [.pop]) ++ rest)

/-- The code that `finsh_compiler_run` puts into the text segment, unless it sets an error. -/
def compilerRun (root : Node) : Option (List Instr) := do
  let root ← typeCheck root false
  compileStatements root

/-- `memset(&finsh_vm_stack[0], 0, sizeof(finsh_vm_stack[0]))`. -/
def clearStack {W : Type*} (s : Vm W) : Vm W := s.put 0 .dword 0

/-- `finsh_compiler_run` and `finsh_vm_run`, when no error is set and the code fits the text segment. -/
def compileAndRun {W : Type*} (functions : Functions W) (root : Node) (s : Vm W) : Option (Vm W) :=
  (compilerRun root).bind fun code =>
    if (encode code).length ≤ finshTextMax then vmRun functions (textOf (encode code)) (clearStack s) else none

end Finsh
