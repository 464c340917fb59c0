import ShdslBridge.Finsh.ParsedTrees

/-! # The grammar of finsh

The grammar in the comments of `finsh_parser.c`, with the trees that belong to the phrases: the binary
operators associate to the left, and an assignment to the right. `Derives` says which tokens are which
phrase. Two rules are kept apart, as the parser does not follow them: `loose` is needed for
`expr_primary -> '(' expr ')'`, and for a `param_list` whose first parameter is left out.

A type may also be `long`, which the comments leave out, and a pointer.
-/

namespace Finsh

inductive Level
  | multiplicative
  | additive
  | shift
  | and
  | exclusiveOr
  | inclusiveOr

inductive Phrase
  | primary
  | postfixExpr
  | params
  | unary
  | cast
  | binary (level : Level)
  | assign

namespace Level

def op : Level → Token → Option BinOp
  | multiplicative => Token.multiplicativeOp
  | additive => Token.additiveOp
  | shift => Token.shiftOp
  | and => Token.andOp
  | exclusiveOr => Token.xorOp
  | inclusiveOr => Token.orOp

def operand : Level → Phrase
  | multiplicative => .cast
  | additive => .binary multiplicative
  | shift => .binary additive
  | and => .binary shift
  | exclusiveOr => .binary and
  | inclusiveOr => .binary exclusiveOr

end Level

namespace Token

def literal : Token → Option NodeType
  | valueInt value => some (.valueInt value)
  | valueLong value => some (.valueLong value)
  | valueChar value => some (.valueChar value)
  | valueString ptr => some (.valueString ptr)
  | valueNull => some (.valueNull 0)
  | _ => none

/-- The node of an operator in front of its operand, except `+` and `-`. -/
def prefixOp : Token → Option NodeType
  | inc => some .preinc
  | dec => some .predec
  | bitwise => some .bitwise
  | mul => some .getvalue
  | and => some .getaddr
  | _ => none

def postfixOp : Token → Option NodeType
  | inc => some .inc
  | dec => some .dec
  | _ => none

variable {token : Token} {type : NodeType}

theorem literal_takes (found : token.literal = some type) : type.Takes 0 := by
  cases token <;> cases found <;> rfl

theorem prefixOp_takes (found : token.prefixOp = some type) : type.Takes 1 := by
  cases token <;> cases found <;> rfl

theorem postfixOp_takes (found : token.postfixOp = some type) : type.Takes 1 := by
  cases token <;> cases found <;> rfl

end Token

def leaf (type : NodeType) : Node := .node type false 0 .nil .nil

/-- A node with its children, as `make_sys_node` links them. -/
def sysNode (type : NodeType) (node1 node2 : Node) : Node := .node type false 0 (node1.withSibling node2) .nil

/-- The base types. -/
inductive BaseName : List Token → FinshType → Prop
  | base {token : Token} {type : FinshType} : token.baseType = some type → BaseName [token] type
  | unsigned {token : Token} {type : FinshType} : token.unsignedType = some type → BaseName [.unsigned, token] type

/-- The types. -/
inductive TypeName : List Token → FinshType → Prop
  | base {tokens : List Token} {type : FinshType} : BaseName tokens type → TypeName tokens type
  | pointer {tokens : List Token} {type : FinshType} : BaseName tokens type → TypeName (tokens ++ [.mul]) type.pointer

/-- The phrases, with the trees that they stand for. -/
inductive Derives (lookup : Name → Option Symbol) (loose : Bool) : Phrase → List Token → List Node → Prop
  | identifier {name : Name} {symbol : Symbol} : lookup (name.take finshNameMax) = some symbol →
    Derives lookup loose .primary [.identifier name] [leaf (.id symbol)]
  | literal {token : Token} {type : NodeType} : token.literal = some type →
    Derives lookup loose .primary [token] [leaf type]
  | paren {tokens : List Token} {node : Node} : loose → Derives lookup loose .assign tokens [node] →
    Derives lookup loose .primary (.leftParen :: tokens ++ [.rightParen]) [node]
  | primary {tokens : List Token} {node : Node} : Derives lookup loose .primary tokens [node] →
    Derives lookup loose .postfixExpr tokens [node]
  | postfixOp {tokens : List Token} {node : Node} {token : Token} {type : NodeType} :
    Derives lookup loose .postfixExpr tokens [node] → token.postfixOp = some type →
    Derives lookup loose .postfixExpr (tokens ++ [token]) [sysNode type node .nil]
  | call {tokens params : List Token} {node : Node} {nodes : List Node} :
      Derives lookup loose .postfixExpr tokens [node] →
    Derives lookup loose .params params nodes →
    Derives lookup loose .postfixExpr (tokens ++ (.leftParen :: params ++ [.rightParen]))
        [sysNode .func node (chain nodes)]
  | noParam : Derives lookup loose .params [] []
  | param {tokens : List Token} {node : Node} : Derives lookup loose .assign tokens [node] →
    Derives lookup loose .params tokens [node]
  | moreParams {params tokens : List Token} {nodes : List Node} {node : Node} :
      Derives lookup loose .params params nodes →
    (nodes ≠ [] ∨ loose) → Derives lookup loose .assign tokens [node] →
    Derives lookup loose .params (params ++ .comma :: tokens) (nodes ++ [node])
  | ofPostfix {tokens : List Token} {node : Node} : Derives lookup loose .postfixExpr tokens [node] →
    Derives lookup loose .unary tokens [node]
  | plus {tokens : List Token} {node : Node} : Derives lookup loose .cast tokens [node] →
    Derives lookup loose .unary (.add :: tokens) [node]
  | minus {tokens : List Token} {node : Node} : Derives lookup loose .cast tokens [node] →
    Derives lookup loose .unary (.sub :: tokens) [sysNode (.bin .sub) (leaf (.valueLong 0)) node]
  | prefixOp {tokens : List Token} {node : Node} {token : Token} {type : NodeType} : token.prefixOp = some type →
    Derives lookup loose .cast tokens [node] → Derives lookup loose .unary (token :: tokens) [sysNode type node .nil]
  | unary {tokens : List Token} {node : Node} : Derives lookup loose .unary tokens [node] →
    Derives lookup loose .cast tokens [node]
  | cast {name tokens : List Token} {type : FinshType} {node : Node} : TypeName name type →
    Derives lookup loose .cast tokens [node] →
    Derives lookup loose .cast (.leftParen :: name ++ .rightParen :: tokens) [node.recast type]
  | operand {level : Level} {tokens : List Token} {node : Node} : Derives lookup loose level.operand tokens [node] →
    Derives lookup loose (.binary level) tokens [node]
  | binary {level : Level} {front back : List Token} {left right : Node} {token : Token} {op : BinOp} :
    Derives lookup loose (.binary level) front [left] → level.op token = some op →
    Derives lookup loose level.operand back [right] →
    Derives lookup loose (.binary level) (front ++ token :: back) [sysNode (.bin op) left right]
  | inclusiveOr {tokens : List Token} {node : Node} : Derives lookup loose (.binary .inclusiveOr) tokens [node] →
    Derives lookup loose .assign tokens [node]
  | assign {front back : List Token} {left right : Node} : Derives lookup loose .unary front [left] →
    Derives lookup loose .assign back [right] →
    Derives lookup loose .assign (front ++ .assign :: back) [sysNode .assign left right]

namespace Derives

variable {lookup : Name → Option Symbol} {loose : Bool} {phrase : Phrase} {tokens : List Token} {nodes : List Node}

theorem trees (derives : Derives lookup loose phrase tokens nodes) : Trees nodes := by
  have head {node : Node} (trees : Trees [node]) : node.IsTree := trees node List.mem_cons_self
  induction derives with
  | identifier => exact Trees.single (Node.isTree_leaf _ rfl)
  | literal found => exact Trees.single (Node.isTree_leaf _ (Token.literal_takes found))
  | paren _ _ ih | primary _ ih | param _ ih | ofPostfix _ ih
  | plus _ ih | unary _ ih | operand _ ih | inclusiveOr _ ih => exact ih
  | postfixOp _ found ih => exact Trees.single ((head ih).unary _ (Token.postfixOp_takes found)).1
  | call _ _ ih params_ih => exact Trees.single ((head ih).call params_ih).1
  | noParam => exact Trees.nil
  | moreParams _ _ _ params_ih ih => exact params_ih.append ih
  | minus _ ih => exact Trees.single ((Node.isTree_leaf (.valueLong 0) rfl).binary (head ih) (.bin .sub) rfl).1
  | prefixOp found _ ih => exact Trees.single ((head ih).unary _ (Token.prefixOp_takes found)).1
  | cast _ _ ih => exact Trees.single ((head ih).recast _).1
  | @binary _ _ _ _ _ _ op _ _ _ left_ih right_ih =>
    exact Trees.single ((head left_ih).binary (head right_ih) (.bin op) rfl).1
  | assign _ _ left_ih right_ih => exact Trees.single ((head left_ih).binary (head right_ih) .assign rfl).1

theorem tree {node : Node} (derives : Derives lookup loose phrase tokens [node]) : node.IsTree :=
  derives.trees node List.mem_cons_self

end Derives

end Finsh
