import ShdslBridge.Finsh.StackDiscipline

/-! # The size of the code

`finsh_code_byte` and its siblings store at `finsh_compile_pc` without looking where the text segment ends, and
`finsh_compile` goes on behind an error. `Node.codeSize` adds the bytes up over a tree: a constant or a variable takes
five of them, an operation one or two, and `++` behind a variable up to 18.

`codeStaysInside_iff` says that the sum decides whether the segment is left.
-/

namespace Finsh

/-- `text_segment` and `finsh_compile_pc`. -/
structure Segment where
  text : ℕ → BitVec 8
  pc : ℕ

namespace Segment

/-- The segment that `finsh_compiler_run` begins with. -/
def empty : Segment := ⟨fun _ => 0, 0⟩

/-- `finsh_code_byte`, which fails behind the segment. -/
def codeByte (segment : Segment) (byte : BitVec 8) : Option Segment :=
  if segment.pc < finshTextMax then some ⟨Function.update segment.text segment.pc byte, segment.pc + 1⟩ else none

/-- The bytes of some operations. -/
def code (segment : Segment) (instrs : List Instr) : Option Segment := (encode instrs).foldlM codeByte segment

end Segment

/-- `finsh_type_check`, also behind an error: a variable of an unknown type keeps the data type of its node. -/
def checkTypes : Node → Bool → Node
  | .nil, _ => .nil
  | .node type address dataType child sibling, isAddr =>
    let child := checkTypes child (type.childAddress isAddr)
    let sibling := checkTypes sibling false
    let dataType := match child with
      | .nil => (type.leafType dataType).getD dataType
      | .node _ _ childType _ _ => childType
    .node type (type.marked address isAddr) dataType child sibling

/-- `finsh_compile`, also behind an error, for which there is no code. -/
def compileInto : Node → Segment → Option Segment
  | .nil, segment => some segment
  | .node type address dataType child sibling, segment => do
    let segment ← compileInto child segment
    let segment ← segment.code ((codeNode type address dataType child).getD [])
    compileInto sibling segment

/-- The code between two statements. -/
def separator : Node → List Instr
  | .nil => []
  | .node .. => [.pop]

/-- The loop of `finsh_compiler_run`. -/
def compileStatementsInto : Node → Segment → Option Segment
  | .nil, segment => some segment
  | .node type address dataType child sibling, segment => do
    let segment ← compileInto (.node type address dataType child .nil) segment
    let segment ← segment.code (separator sibling)
    compileStatementsInto sibling segment

/-- The segment that `finsh_compiler_run` leaves. -/
def compilerSegment (root : Node) : Option Segment := compileStatementsInto (checkTypes root false) .empty

/-- No operation that the machine fetches in its loop reaches behind the segment. -/
def FetchesInside {W : Type} (functions : Functions W) (text : ℕ → BitVec 8) : (rounds pc : ℕ) → Vm W → Prop
  | 0, _, _ => True
  | rounds + 1, pc, s =>
    pc < finshTextMax → ∀ instr behind, fetch text pc = some (instr, behind) →
      behind ≤ finshTextMax ∧ ∀ t, instr.exec functions s = some t → FetchesInside functions text rounds behind t

/-- The compiler stores inside the segment, and whatever the machine and the functions are, it fetches there. -/
def CodeStaysInside (root : Node) : Prop :=
  ∃ segment, compilerSegment root = some segment ∧ ∀ (W : Type) (functions : Functions W) (s : Vm W),
    FetchesInside functions segment.text finshTextMax 0 { s with sp := 0 }

/-! ## The bytes of every kind of node -/

/-- The code that loads a variable, or its address. -/
def FinshType.loadSize : FinshType → ℕ
  | unknown | void | voidp => 0
  | _ => 5

def typedSize (dataType : ℕ) (size : Width → ℕ) : ℕ := ((widthOf dataType).map size).getD 0

def Node.typeOf : Node → ℕ
  | .nil => 0
  | .node type _ dataType child _ =>
    match child with
    | .nil => (type.leafType dataType).getD dataType
    | child => child.typeOf

def NodeType.codeSize (address : Bool) (dataType : ℕ) (child : Node) : NodeType → ℕ
  | id (.syscall ..) | valueInt _ | valueLong _ | valueString _ | valueNull _ => 5
  | id (.var type _) | id (.sysvar type ..) => type.loadSize
  | valueChar _ => 2
  | bin _ | bitwise => typedSize dataType fun _ => 1
  | func => if child = .nil then 0 else 2
  | assign =>
    match child with
    | .node (.id _) .. => typedSize child.typeOf fun _ => 2
    | .node .getvalue .. => typedSize (child.typeOf % 16) fun _ => 2
    | _ => 0
  | preinc | predec =>
    match child with
    | .node (.id _) .. => typedSize dataType fun w => 9 + w.size
    | _ => 0
  | inc | dec =>
    match child with
    | .node (.id _) .. => typedSize dataType fun w => 14 + w.size
    | _ => 0
  | getvalue => if address then 0 else typedSize dataType fun _ => 1
  | cast | getaddr => 0
  | null => 4

def Node.codeSize : Node → Bool → ℕ
  | .nil, _ => 0
  | .node type address dataType child sibling, isAddr =>
    child.codeSize (type.childAddress isAddr) +
      type.codeSize (address || isAddr) (Node.node type address dataType child sibling).typeOf child +
      sibling.codeSize false

/-- The bytes for the statements from a node on, with one between any two of them. -/
def statementsSize : Node → ℕ
  | .nil => 0
  | .node type address dataType child sibling =>
    (Node.node type address dataType child .nil).codeSize false + (if sibling = .nil then 0 else 1) +
      statementsSize sibling

section Sizes

theorem checkTypes_node (type : NodeType) (address : Bool) (dataType : ℕ) (child sibling : Node) (isAddr : Bool) :
    checkTypes (.node type address dataType child sibling) isAddr =
      .node type (type.marked address isAddr) (Node.node type address dataType child sibling).typeOf
        (checkTypes child (type.childAddress isAddr)) (checkTypes sibling false) := by
  induction child generalizing type address dataType sibling isAddr with
  | nil => rfl
  | node childType childAddress childData child next ih =>
    have first := ih childType childAddress childData next (type.childAddress isAddr)
    rw [checkTypes, first]
    rfl

/-- The length of the code of an operation that a data type selects. -/
theorem length_codeTyped (dataType : ℕ) (code : Width → List Instr) :
    (encode (codeTyped dataType code)).length = typedSize dataType fun w => (encode (code w)).length := by
  rw [codeTyped, typedSize]
  cases widthOf dataType <;> rfl

theorem length_load (type : FinshType) (address : Bool) (place : BitVec 32) :
    (encode (type.load address place)).length = type.loadSize := by
  cases type <;> cases address <;> rfl

theorem length_codePre (op : BinOp) (place : BitVec 32) (w : Width) :
    (encode (codePre op place w)).length = 9 + w.size := by
  cases w <;> rfl

theorem length_codePost (op : BinOp) (place : BitVec 32) (w : Width) :
    (encode (codePost op place w)).length = 14 + w.size := by
  cases w <;> rfl

theorem length_codeNode (type : NodeType) (address isAddr : Bool) (dataType : ℕ) (child : Node) :
    (encode ((codeNode type (type.marked address isAddr) dataType (checkTypes child (type.childAddress isAddr))).getD
      [])).length = type.codeSize (address || isAddr) dataType child := by
  have onId (code : BitVec 32 → Width → List Instr) (size : Width → ℕ)
      (length : ∀ place w, (encode (code place w)).length = size w) (inner : Bool) :
      (encode (codeOnId (checkTypes child inner) dataType code)).length =
        match child with
        | .node (.id _) .. => typedSize dataType size
        | _ => 0 := by
    cases child with
    | nil => rfl
    | node childType =>
      rw [checkTypes_node]
      cases childType with
      | id symbol =>
        change (encode (codeTyped dataType (code symbol.value))).length = typedSize dataType size
        rw [length_codeTyped]
        simp only [length]
      | _ => rfl
  have stores (dataType : ℕ) :
      (encode (((widthOf dataType).map fun w => [Instr.st w, .ldValueStack w]).getD [])).length =
        typedSize dataType fun _ => 2 := by
    have length := length_codeTyped dataType fun w => [.st w, .ldValueStack w]
    rw [codeTyped] at length
    exact length
  cases type with
  | id symbol =>
    cases symbol with
    | syscall => rfl
    | var type entry => exact length_load type _ _
    | sysvar type entry place => exact length_load type _ _
  | valueChar | valueInt | valueLong | valueString | valueNull | cast | getaddr | null => rfl
  | bin | bitwise => exact length_codeTyped dataType _
  | func =>
    cases child with
    | nil => rfl
    | node =>
      rw [checkTypes_node]
      rfl
  | assign =>
    cases child with
    | nil => rfl
    | node childType =>
      rw [checkTypes_node]
      cases childType with
      | id | getvalue => exact stores _
      | _ => rfl
  | preinc => exact onId _ _ (length_codePre .add) _
  | predec => exact onId _ _ (length_codePre .sub) _
  | inc => exact onId _ _ (length_codePost .add) _
  | dec => exact onId _ _ (length_codePost .sub) _
  | getvalue =>
    change (encode ((some (if (address || isAddr) = true then _ else _)).getD [])).length =
      if (address || isAddr) = true then 0 else _
    split_ifs
    · rfl
    · exact length_codeTyped dataType _

/-- The code that `compileInto` stores. -/
def emitted : Node → List Instr
  | .nil => []
  | .node type address dataType child sibling =>
    emitted child ++ (codeNode type address dataType child).getD [] ++ emitted sibling

/-- The code that `compileStatementsInto` stores. -/
def emittedStatements : Node → List Instr
  | .nil => []
  | .node type address dataType child sibling =>
    emitted (.node type address dataType child .nil) ++ separator sibling ++ emittedStatements sibling

theorem length_emitted (n : Node) (isAddr : Bool) :
    (encode (emitted (checkTypes n isAddr))).length = n.codeSize isAddr := by
  induction n generalizing isAddr with
  | nil => rfl
  | node type address dataType child sibling ihChild ihSibling =>
    rw [checkTypes_node, emitted, encode_append, encode_append, List.length_append, List.length_append, ihChild,
      ihSibling, length_codeNode]
    rfl

theorem length_emittedStatements (n : Node) :
    (encode (emittedStatements (checkTypes n false))).length = statementsSize n := by
  induction n with
  | nil => rfl
  | node type address dataType child sibling _ ihSibling =>
    -- the statement alone has the types that it has among the others
    have alone := length_emitted (.node type address dataType child .nil) false
    have types : (Node.node type address dataType child .nil).typeOf =
        (Node.node type address dataType child sibling).typeOf := by cases child <;> rfl
    rw [checkTypes_node, types] at alone
    rw [checkTypes_node, emittedStatements, encode_append, encode_append, List.length_append, List.length_append,
      ihSibling, statementsSize, ← alone]
    cases sibling with
    | nil => rfl
    | node =>
      rw [checkTypes_node]
      rfl

end Sizes

section Segments

theorem Segment.code_append (segment : Segment) (left right : List Instr) :
    segment.code (left ++ right) = (segment.code left).bind fun segment => segment.code right := by
  rw [code, encode_append, List.foldlM_append]
  rfl

/-- Bytes are stored one behind the other, as far as the segment goes. -/
theorem Segment.code_eq (segment : Segment) (inside : segment.pc ≤ finshTextMax) (instrs : List Instr) :
    segment.code instrs =
      if segment.pc + (encode instrs).length ≤ finshTextMax then
        some ⟨Memory.writeAt segment.text segment.pc (encode instrs), segment.pc + (encode instrs).length⟩
      else none := by
  rw [code]
  generalize encode instrs = bytes
  induction bytes generalizing segment with
  | nil =>
    rw [Memory.writeAt_nil]
    exact (if_pos (show segment.pc + 0 ≤ finshTextMax from inside)).symm
  | cons byte bytes ih =>
    rw [List.foldlM_cons, codeByte]
    split_ifs with room fits fits
    · refine (ih ⟨_, _⟩ room).trans ?_
      rw [List.length_cons] at fits
      have place : segment.pc + 1 + bytes.length = segment.pc + (bytes.length + 1) := by omega
      rw [if_pos (show segment.pc + 1 + bytes.length ≤ finshTextMax by omega), Memory.writeAt_update, List.length_cons,
        ← place]
    · refine (ih ⟨_, _⟩ room).trans ?_
      rw [List.length_cons] at fits
      exact if_neg (show ¬ segment.pc + 1 + bytes.length ≤ finshTextMax by omega)
    · rw [List.length_cons] at fits
      omega
    · rfl

theorem compileInto_eq (n : Node) (segment : Segment) : compileInto n segment = segment.code (emitted n) := by
  induction n generalizing segment with
  | nil => rfl
  | node type address dataType child sibling ihChild ihSibling =>
    rw [compileInto, emitted, Segment.code_append, Segment.code_append, ihChild, Option.bind_assoc]
    congr 1
    funext segment
    change (segment.code _).bind _ = _
    congr 1
    funext segment
    exact ihSibling segment

theorem compileStatementsInto_eq (n : Node) (segment : Segment) :
    compileStatementsInto n segment = segment.code (emittedStatements n) := by
  induction n generalizing segment with
  | nil => rfl
  | node type address dataType child sibling _ ihSibling =>
    rw [compileStatementsInto, emittedStatements, Segment.code_append, Segment.code_append, compileInto_eq,
      Option.bind_assoc]
    congr 1
    funext segment
    change (segment.code _).bind _ = _
    congr 1
    funext segment
    exact ihSibling segment

theorem compilerSegment_eq (root : Node) :
    compilerSegment root =
      if statementsSize root ≤ finshTextMax then
        some ⟨textOf (encode (emittedStatements (checkTypes root false))), statementsSize root⟩
      else none := by
  have written (bytes : List (BitVec 8)) : Memory.writeAt (fun _ => 0) 0 bytes = textOf bytes := by
    funext i
    rw [textOf]
    rcases Nat.lt_or_ge i bytes.length with inside | behind
    · have cell := Memory.writeAt_inside (fun _ => (0 : BitVec 8)) 0 bytes inside
      rw [Nat.zero_add] at cell
      rw [cell, List.getElem?_eq_getElem inside, Option.getD_some]
    · rw [Memory.writeAt_outside _ _ _ (.inr (by omega)), List.getElem?_eq_none behind, Option.getD_none]
  have stored := Segment.code_eq .empty (Nat.zero_le _) (emittedStatements (checkTypes root false))
  rw [length_emittedStatements] at stored
  rw [compilerSegment, compileStatementsInto_eq, stored]
  change (if 0 + statementsSize root ≤ finshTextMax then
    some (Segment.mk (Memory.writeAt (fun _ => 0) 0 _) (0 + statementsSize root)) else none) = _
  rw [Nat.zero_add, written]

end Segments

section Errors

/-! Without an error the code is that of `compilerRun`. -/

theorem checkTypes_of_typeCheck {n checked : Node} {isAddr : Bool} (ok : typeCheck n isAddr = some checked) :
    checkTypes n isAddr = checked := by
  induction n generalizing isAddr checked with
  | nil => exact Option.some.inj ok
  | node type address dataType child sibling ihChild ihSibling =>
    obtain ⟨first, next, result, childOk, siblingOk, typed, rfl⟩ := typeCheck_cases ok
    rw [checkTypes, ihChild childOk, ihSibling siblingOk]
    cases first with
    | nil =>
      change type.leafType dataType = some result at typed
      dsimp only
      rw [typed]
      rfl
    | node =>
      obtain rfl := Option.some.inj typed
      rfl

theorem emitted_of_compile {n : Node} {code : List Instr} (ok : compile n = some code) : emitted n = code := by
  induction n generalizing code with
  | nil => exact Option.some.inj ok
  | node type address dataType child sibling ihChild ihSibling =>
    obtain ⟨children, childOk, ok⟩ := Option.bind_eq_some_iff.mp ok
    obtain ⟨own, ownOk, ok⟩ := Option.bind_eq_some_iff.mp ok
    obtain ⟨siblings, siblingOk, ok⟩ := Option.bind_eq_some_iff.mp ok
    rw [emitted, ihChild childOk, ihSibling siblingOk, ownOk, ← Option.some.inj ok]
    rfl

theorem emittedStatements_of_compileStatements {n : Node} {code : List Instr} (ok : compileStatements n = some code) :
    emittedStatements n = code := by
  induction n generalizing code with
  | nil => exact Option.some.inj ok
  | node type address dataType child sibling _ ihSibling =>
    rw [compileStatements.eq_def] at ok
    obtain ⟨statement, statementOk, ok⟩ := Option.bind_eq_some_iff.mp ok
    obtain ⟨rest, restOk, ok⟩ := Option.bind_eq_some_iff.mp ok
    rw [emittedStatements, emitted_of_compile statementOk, ihSibling restOk, ← Option.some.inj ok]
    cases sibling <;> rfl

theorem compilerSegment_of_compilerRun {root : Node} {code : List Instr} (ran : compilerRun root = some code)
    (fits : (encode code).length ≤ finshTextMax) :
    compilerSegment root = some ⟨textOf (encode code), (encode code).length⟩ := by
  obtain ⟨checked, typed, compiled⟩ := Option.bind_eq_some_iff.mp ran
  have size := length_emittedStatements root
  rw [checkTypes_of_typeCheck typed, emittedStatements_of_compileStatements compiled] at size
  rw [compilerSegment_eq, checkTypes_of_typeCheck typed, emittedStatements_of_compileStatements compiled, ← size,
    if_pos fits]

end Errors

section Fetches

variable {W : Type} {functions : Functions W} {text : ℕ → BitVec 8}

/-- The code at `pc` is fetched, and then the zeros behind it. -/
theorem fetchesInside_encode (rounds : ℕ) (code : List Instr) {pc : ℕ} (s : Vm W)
    (coded : ∀ i (inside : i < (encode code).length), text (pc + i) = (encode code)[i])
    (zeros : ∀ i, pc + (encode code).length ≤ i → text i = 0) (fits : pc + (encode code).length ≤ finshTextMax) :
    FetchesInside functions text rounds pc s := by
  induction rounds generalizing code pc s with
  | zero => trivial
  | succ rounds ih =>
    intro inside instr behind fetched
    cases code with
    | nil =>
      have noop : fetch text pc = some (.noop, pc + 1) := by
        rw [fetch, zeros pc le_rfl]
        rfl
      rw [noop] at fetched
      cases fetched
      exact ⟨inside, fun t _ => ih [] t (by rintro _ ⟨⟩)
        (fun i later => zeros i (by exact Nat.le_of_succ_le later)) inside⟩
    | cons first rest =>
      have whole := encode_cons first rest
      rw [whole, List.length_append] at zeros fits
      have instr_ : fetch text pc = some (first, pc + first.encode.length) := by
        apply fetch_encode
        intro i inside
        rw [coded i (by rw [whole, List.length_append]; omega)]
        simp only [whole, List.getElem_append_left inside]
      rw [instr_] at fetched
      cases fetched
      refine ⟨by omega, fun t _ => ih rest t ?_ (fun i later => zeros i (by omega)) (by omega)⟩
      intro i inside
      rw [Nat.add_assoc, coded (instr.encode.length + i) (by rw [whole, List.length_append]; omega)]
      simp [whole]

end Fetches

/-- The code of some trees is stored and fetched inside the text segment, if and only if the bytes for their nodes add
up to no more than it holds. -/
theorem codeStaysInside_iff (root : Node) : CodeStaysInside root ↔ statementsSize root ≤ finshTextMax := by
  rw [CodeStaysInside, compilerSegment_eq]
  constructor
  · rintro ⟨segment, stored, -⟩
    by_contra large
    rw [if_neg large] at stored
    cases stored
  · intro fits
    rw [if_pos fits]
    have size := length_emittedStatements root
    refine ⟨_, rfl, fun W functions s => ?_⟩
    apply fetchesInside_encode finshTextMax (emittedStatements (checkTypes root false))
    · intro i inside
      simp [textOf, inside]
    · intro i behind
      rw [Nat.zero_add] at behind
      simp [textOf, behind]
    · omega

/-- `a++;a++;a++;a++;a++;a++;` for an `int` variable: six statements of 23 bytes. -/
theorem increments_not_codeStaysInside : ∃ trees after,
    parserRun envOfF (some (['a'], .int) :: List.replicate 7 none)
        (List.replicate 6 [.identifier ['a'], .inc, .semicolon]).flatten = .ok (trees, after) ∧
      ¬ CodeStaysInside (chain trees) := by
  refine ⟨List.replicate 6 (.node .inc false 0 (.node (.id (.var .int envOfF.table)) false 0 .nil .nil) .nil),
    some (['a'], .int) :: List.replicate 7 none, by decide +kernel, ?_⟩
  rintro ⟨segment, stored, -⟩
  rw [compilerSegment_eq, if_neg (by decide)] at stored
  cases stored

end Finsh
