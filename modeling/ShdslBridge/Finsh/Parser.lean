import ShdslBridge.Finsh.Expression
import ShdslBridge.Lib.TokenParser

/-! # The parser of finsh

`finsh_parser.c`, over the tokens of a line. The parser is modelled up to the first error that it sets:
nothing is compiled after one. A function that returns `NULL` in place of an operand has set an error, so
the tests for such operands are left out; `NULL` for a statement without code is the empty list.

The functions that call one another take the parser for `expr_cast` as an argument, and
`procCastExpr` ties the knot. Every recursion takes a token, so that there are rounds enough in
`parserRun`: `parserRun_ne_fuel`.
-/

namespace Finsh

open TokenParser

/-- A name, cut to `FINSH_NAME_MAX` characters where it is looked up. -/
abbrev Name := List Char

/-- `FINSH_NAME_MAX`. -/
def finshNameMax : ℕ := 16

/-- `FINSH_VARIABLE_MAX`. -/
def finshVariableMax : ℕ := 8

/-- `enum finsh_token_type` with the `string` or the `value` of the token. A string literal comes with the
place where `finsh_node_new_string` puts its text. -/
inductive Token
  | leftParen
  | rightParen
  | comma
  | semicolon
  | mul
  | add
  | inc
  | sub
  | dec
  | div
  | mod
  | assign
  | and
  | or
  | xor
  | bitwise
  | shl
  | shr
  | void
  | char
  | short
  | int
  | long
  | unsigned
  | valueChar (value : BitVec 8)
  | valueInt (value : BitVec 32)
  | valueLong (value : BitVec 32)
  | valueString (ptr : BitVec 32)
  | valueNull
  | identifier (name : Name)
  | bad
  | eof
  deriving DecidableEq

inductive FinshError
  | invalidToken
  | expectType
  | unknownType
  | variableExist
  | memoryFull
  | unknownSymbol
  | nullNode
  deriving DecidableEq

/-- `finsh_sysvar_lookup`, `finsh_syscall_lookup` and the address of `global_variable`. -/
structure Env where
  table : BitVec 32
  sysvar : Name → Option (FinshType × BitVec 32 × BitVec 32)
  syscall : Name → Option (BitVec 32 × BitVec 32)

/-- The entries of `global_node_table` that are taken, and `global_variable`. -/
structure Tables where
  nodes : ℕ
  vars : List (Option (Name × FinshType))
  deriving DecidableEq

abbrev Parser (α : Type) := TokenParser.Parser Token Tables FinshError α

namespace Token

/-- `is_base_type`, with the type in `proc_type`. -/
def baseType : Token → Option FinshType
  | void => some .void
  | char => some .char
  | short => some .short
  | int => some .int
  | long => some .long
  | _ => none

/-- The type of a base type behind `unsigned`. -/
def unsignedType : Token → Option FinshType
  | char => some .uchar
  | short => some .ushort
  | int => some .uint
  | long => some .ulong
  | _ => none

/-- The operators that each loop over operators goes on with. -/
def orOp : Token → Option BinOp
  | or => some .or
  | _ => none

def xorOp : Token → Option BinOp
  | xor => some .xor
  | _ => none

def andOp : Token → Option BinOp
  | and => some .and
  | _ => none

def shiftOp : Token → Option BinOp
  | shl => some .shl
  | shr => some .shr
  | _ => none

def additiveOp : Token → Option BinOp
  | sub => some .sub
  | add => some .add
  | _ => none

def multiplicativeOp : Token → Option BinOp
  | mul => some .mul
  | div => some .div
  | mod => some .mod
  | _ => none

end Token

/-- The type behind which `proc_type` has found a `*`. -/
def FinshType.pointer : FinshType → FinshType
  | void => voidp
  | char | uchar => charp
  | short | ushort => shortp
  | int | uint => intp
  | long | ulong => longp
  | _ => voidp

/-- `finsh_node_sibling(node) = sibling`. -/
def Node.withSibling : Node → Node → Node
  | .nil, _ => .nil
  | .node type address dataType child _, sibling => .node type address dataType child sibling

def Node.recast (type : FinshType) : Node → Node
  | .nil => .nil
  | .node nodeType address _ child sibling => .node nodeType address type.value child sibling

/-- Nodes that are linked by `sibling`. -/
def chain : List Node → Node
  | [] => .nil
  | node :: rest => node.withSibling (chain rest)

/-- `finsh_var_lookup`. -/
def varLookup (vars : List (Option (Name × FinshType))) (name : Name) : Option (ℕ × FinshType) :=
  (vars.zipIdx.find? fun entry => entry.1.any (·.1 = name)).bind fun entry =>
    entry.1.map fun variable_ => (entry.2, variable_.2)

/-- `finsh_var_insert`, unless there is a variable of this name or no empty entry. -/
def varInsert (vars : List (Option (Name × FinshType))) (name : Name) (type : FinshType) :
    Option (List (Option (Name × FinshType))) :=
  if vars.any fun entry => entry.any (·.1 = name) then none
  else (vars.findIdx? Option.isNone).map fun empty => vars.set empty (some (name, type))

/-- What a name stands for, with a variable before a system variable before a function. -/
def Env.lookup (env : Env) (vars : List (Option (Name × FinshType))) (name : Name) : Option Symbol :=
  match varLookup vars name with
  | some (i, type) => some (.var type (env.table + 24 * BitVec.ofNat 32 i))
  | none =>
    match env.sysvar name with
    | some (type, entry, address) => some (.sysvar type entry address)
    | none => (env.syscall name).map fun (entry, func) => .syscall entry func

section Primitives

/-- `next_token`. -/
def next : Parser Token := nextToken .eof

/-- `finsh_token_replay`. -/
def putBack (token : Token) : Parser Unit := replay .eof token

/-- `match_token`. -/
def matchToken (type : Token) : Parser Unit := do
  let token ← next
  if token = type then pure () else fail .invalidToken

/-- `finsh_node_allocate`, with the error that is set if the table is full. -/
def nodeAllocate (full : FinshError) (node : Node) : Parser Node := do
  let tables ← getData
  if tables.nodes < finshNodeMax then do
    setData { tables with nodes := tables.nodes + 1 }
    pure node
  else fail full

/-- `make_sys_node`. -/
def makeSysNode (type : NodeType) (node1 node2 : Node) : Parser Node :=
  nodeAllocate .nullNode (.node type false 0 (node1.withSibling node2) .nil)

/-- `finsh_node_new_char`, `finsh_node_new_int`, `finsh_node_new_long`, `finsh_node_new_string` and
`finsh_node_new_ptr`. -/
def nodeNewValue (type : NodeType) : Parser Node := nodeAllocate .memoryFull (.node type false 0 .nil .nil)

/-- `finsh_node_new_id`. -/
def nodeNewId (env : Env) (name : Name) : Parser Node := do
  let tables ← getData
  match env.lookup tables.vars name with
  | some symbol => nodeAllocate .memoryFull (.node (.id symbol) false 0 .nil .nil)
  | none => fail .unknownSymbol

/-- `proc_identifier`. -/
def procIdentifier : Parser Name := do
  let token ← next
  match token with
  | .identifier name => pure (name.take finshNameMax)
  | _ => fail .invalidToken

/-- The base type at the beginning of `proc_type`. -/
def procBaseType : Parser FinshType := do
  let token ← next
  match token.baseType with
  | some type => pure type
  | none =>
    if token = .unsigned then do
      let token ← next
      match token.unsignedType with
      | some type => pure type
      | none => fail (if token.baseType.isSome then .unknownType else .expectType)
    else fail .unknownType

/-- `proc_type`. -/
def procType : Parser FinshType := do
  let type ← procBaseType
  let token ← next
  if token = .mul then pure type.pointer
  else do
    putBack token
    pure type

end Primitives

section Expressions

/-! The parser for `expr_cast`, and the rounds of each loop. -/

variable (env : Env) (cast : Parser Node) (fuel : ℕ)

def procBinary (op : Token → Option BinOp) (operand : Parser Node) : Parser Node := do
  let left ← operand
  operators .eof op operand (fun op left right => makeSysNode (.bin op) left right) fuel left

/-- `proc_multiplicative_expr`. -/
def procMultiplicativeExpr : Parser Node := procBinary fuel Token.multiplicativeOp cast

/-- `proc_additive_expr`. -/
def procAdditiveExpr : Parser Node := procBinary fuel Token.additiveOp (procMultiplicativeExpr cast fuel)

/-- `proc_shift_expr`. -/
def procShiftExpr : Parser Node := procBinary fuel Token.shiftOp (procAdditiveExpr cast fuel)

/-- `proc_and_expr`. -/
def procAndExpr : Parser Node := procBinary fuel Token.andOp (procShiftExpr cast fuel)

/-- `proc_exclusive_or_expr`. -/
def procExclusiveOrExpr : Parser Node := procBinary fuel Token.xorOp (procAndExpr cast fuel)

/-- `proc_inclusive_or_expr`. -/
def procInclusiveOrExpr : Parser Node := procBinary fuel Token.orOp (procExclusiveOrExpr cast fuel)

/-- `proc_assign_expr`, with a number of nested assignments. -/
def procAssignExpr : ℕ → Parser Node
  | 0 => outOfFuel
  | rounds + 1 => do
    let or ← procInclusiveOrExpr cast fuel
    let token ← next
    if token = .assign then do
      let assign ← procAssignExpr rounds
      makeSysNode .assign or assign
    else do
      putBack token
      pure or

/-- `proc_expr`. -/
def procExpr : Parser Node := procAssignExpr cast fuel fuel

/-- The loop of `proc_param_list`. -/
def paramLoop : ℕ → List Node → Parser (List Node)
  | 0, _ => outOfFuel
  | rounds + 1, nodes => do
    let token ← next
    if token = .comma then do
      let assign ← procExpr cast fuel
      paramLoop rounds (nodes ++ [assign])
    else do
      putBack token
      pure nodes

/-- `proc_param_list`. -/
def procParamList : Parser (List Node) := do
  let assign ← procExpr cast fuel
  paramLoop cast fuel fuel [assign]

/-- The parameters of a call and the `)` behind them. -/
def procParams : Parser (List Node) := do
  let token ← next
  if token = .rightParen then pure []
  else do
    putBack token
    let params ← procParamList cast fuel
    matchToken .rightParen
    pure params

/-- `proc_primary_expr`. -/
def procPrimaryExpr : Parser Node := do
  let token ← next
  match token with
  | .identifier name => nodeNewId env (name.take finshNameMax)
  | .leftParen => do
    let expr ← procExpr cast fuel
    matchToken .rightParen
    pure expr
  | .valueInt value => nodeNewValue (.valueInt value)
  | .valueLong value => nodeNewValue (.valueLong value)
  | .valueChar value => nodeNewValue (.valueChar value)
  | .valueString ptr => nodeNewValue (.valueString ptr)
  | .valueNull => nodeNewValue (.valueNull 0)
  | _ => fail .invalidToken

/-- The loop of `proc_postfix_expr`. -/
def postfixLoop : ℕ → Node → Parser Node
  | 0, _ => outOfFuel
  | rounds + 1, operand => do
    let token ← next
    match token with
    | .inc => do
      let operand ← makeSysNode .inc operand .nil
      postfixLoop rounds operand
    | .dec => do
      let operand ← makeSysNode .dec operand .nil
      postfixLoop rounds operand
    | .leftParen => do
      let params ← procParams cast fuel
      let operand ← makeSysNode .func operand (chain params)
      postfixLoop rounds operand
    | token => do
      putBack token
      pure operand

/-- `proc_postfix_expr`. -/
def procPostfixExpr : Parser Node := do
  let operand ← procPrimaryExpr env cast fuel
  postfixLoop cast fuel fuel operand

def procPrefix (type : NodeType) : Parser Node := do
  let operand ← cast
  makeSysNode type operand .nil

/-- `proc_unary_expr`. -/
def procUnaryExpr : Parser Node := do
  let token ← next
  match token with
  | .add => cast
  | .inc => procPrefix cast .preinc
  | .sub => do
    let operand ← cast
    let zero ← nodeNewValue (.valueLong 0)
    makeSysNode (.bin .sub) zero operand
  | .dec => procPrefix cast .predec
  | .bitwise => procPrefix cast .bitwise
  | .mul => procPrefix cast .getvalue
  | .and => procPrefix cast .getaddr
  | token => do
    putBack token
    procPostfixExpr env cast fuel

end Expressions

/-- `proc_cast_expr`. -/
def procCastExpr (env : Env) : ℕ → Parser Node
  | 0 => outOfFuel
  | fuel + 1 => do
    let token ← next
    if token = .leftParen then do
      let type ← procType
      matchToken .rightParen
      let cast ← procCastExpr env fuel
      pure (cast.recast type)
    else do
      putBack token
      procUnaryExpr env (procCastExpr env fuel) (fuel + 1)

section Statements

/-! The parser for an initialiser or an expression. -/

variable (env : Env) (expr : Parser Node)

/-- `finsh_var_insert` of a declared variable. -/
def declare (name : Name) (type : FinshType) : Parser Unit := do
  let tables ← getData
  match varInsert tables.vars name type with
  | some vars => setData { tables with vars }
  | none => fail .variableExist

def procInitialiser (name : Name) (token : Token) (nodes : List Node) : Parser (Token × List Node) :=
  if token = .assign then do
    let assign ← expr
    let idnode ← nodeNewId env name
    let node ← makeSysNode .assign idnode assign
    let token ← next
    pure (token, nodes ++ [node])
  else pure (token, nodes)

/-- The loop over the declarators of `proc_variable_decl`, each behind a comma. -/
def declaratorLoop (type : FinshType) : ℕ → Token → List Node → Parser (List Node)
  | 0, _, _ => outOfFuel
  | rounds + 1, token, nodes =>
    if token = .comma then do
      let name ← procIdentifier
      declare name type
      let token ← next
      let (token, nodes) ← procInitialiser env expr name token nodes
      declaratorLoop type rounds token nodes
    else if token = .semicolon then pure nodes
    else fail .invalidToken

/-- `proc_variable_decl`. A second declarator is parsed as the ones in the loops are. -/
def procVariableDecl (fuel : ℕ) : Parser (List Node) := do
  let type ← procType
  let name ← procIdentifier
  declare name type
  let token ← next
  match token with
  | .comma => declaratorLoop env expr type fuel .comma []
  | .assign => do
    let (token, nodes) ← procInitialiser env expr name .assign []
    declaratorLoop env expr type fuel token nodes
  | .semicolon => pure []
  | _ => fail .expectType

/-- `proc_expr_statement`. -/
def procExprStatement : Parser (List Node) := do
  let token ← next
  if token = .semicolon then pure []
  else do
    putBack token
    let expr ← expr
    matchToken .semicolon
    pure [expr]

/-- The statements from `root` to the one in front of `node`, and `node` with its siblings. -/
structure Statements where
  front : List Node
  node : List Node

/-- Links a statement behind `node`, and goes on to its first node if it has one. What was linked behind
`node` before is lost. -/
def Statements.link (statements : Statements) (statement : List Node) : Statements :=
  match statements.node, statement with
  | [], _ => { statements with node := statement }
  | node :: _, [] => { statements with node := [node] }
  | node :: _, first :: rest => { front := statements.front ++ [node], node := first :: rest }

def procStatement (fuel : ℕ) (token : Token) (statements : Statements) : Parser (List Node) := do
  putBack token
  match token with
  | .identifier _ => procExprStatement expr
  | _ =>
    if token.baseType.isSome ∨ token = .unsigned then procVariableDecl env expr fuel
    else do
      let statement ← procExprStatement expr
      -- a token is taken behind an empty statement
      if statements.node ≠ [] ∧ statement = [] then do
        let _ ← next
        pure statement
      else pure statement

/-- The loop of `finsh_parser_run`. -/
def parserLoop (fuel : ℕ) : ℕ → Token → Statements → Parser Statements
  | 0, _, _ => outOfFuel
  | rounds + 1, token, statements =>
    if token = .eof ∨ token = .bad then pure statements
    else do
      let statement ← procStatement env expr fuel token statements
      let statements := statements.link statement
      -- no root found, break out
      if statements.node = [] then pure statements
      else do
        let token ← next
        parserLoop fuel rounds token statements

end Statements

/-- `finsh_parser_run`, with a number of rounds for every loop and every recursion. -/
def procLine (env : Env) (fuel : ℕ) : Parser Statements := do
  let token ← next
  parserLoop env (procExpr (procCastExpr env fuel) fuel) fuel fuel token ⟨[], []⟩

/-- `finsh_parser_run` on a line: the trees from `root` on and the variables that are declared then, unless
an error is set. -/
def parserRun (env : Env) (vars : List (Option (Name × FinshType))) (tokens : List Token) :
    Except (Stop FinshError) (List Node × List (Option (Name × FinshType))) :=
  (procLine env (tokens.length + 1) ⟨tokens, ⟨0, vars⟩⟩).map fun (statements, state) =>
    (statements.front ++ statements.node, state.data.vars)

end Finsh
