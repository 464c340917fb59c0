import ShdslBridge.Finsh.ParsedTrees
import ShdslBridge.Finsh.StackEffect

/-! # The stack discipline of compiled lines

The code of a statement leaves one value, and takes nothing from below its start, if every node of the
statement gets the code that it needs. A node goes without in three places: a variable of type `void` or
`void *` is not loaded, an operator is not coded if its first operand has the data type of a function,
and an assignment is not coded unless a variable or a dereferenced pointer is on its left side.

`Node.steady` excludes these. `discipline_of_steady` is the result for the lines that the parser lets
through.
-/

namespace Finsh

namespace Node

/-- The data type that `finsh_type_check` gives to the first of some nodes: that of its leftmost leaf. -/
def leftType : Node → Option ℕ
  | .nil => none
  | .node type _ dataType .nil _ => type.leafType dataType
  | .node _ _ _ (.node type address dataType child sibling) _ => (node type address dataType child sibling).leftType

/-- A variable or a dereferenced pointer. -/
def isPlace : Node → Bool
  | .node (.id _) .. | .node .getvalue .. => true
  | _ => false

end Node

def FinshType.isLoaded (type : FinshType) : Bool := type ≠ .unknown ∧ type ≠ .void ∧ type ≠ .voidp

def NodeType.steadyOn (children : Node) : NodeType → Bool
  | .id (.var type _) | .id (.sysvar type _ _) => type.isLoaded
  | .bin _ => (children.leftType.bind widthOf).isSome
  | .assign => children.isPlace
  | _ => true

/-- All nodes get the code that they need. -/
def Node.steady : Node → Bool
  | .nil => true
  | .node type _ _ child sibling => type.steadyOn child && child.steady && sibling.steady

def Node.statements : Node → List Node
  | .nil => []
  | .node type address dataType child sibling => .node type address dataType child .nil :: sibling.statements

/-- Code that leaves one value where it starts, and takes nothing from below. -/
structure LeavesOne (code : List Instr) : Prop where
  leaves : ∀ (W : Type) (functions : Functions W) (s t : Vm W), execAll functions s code = some t → t.sp = s.sp + 1
  takes : ∀ front instr back, code = front ++ instr :: back → ∀ (W : Type) (functions : Functions W) (s t : Vm W),
    execAll functions s front = some t →
      s.sp + instr.takes ≤ t.sp ∧ ∀ field ∈ instr.reads t.sp, s.sp ≤ field.1

/-- The call of the first node with the others as arguments finds what the code of the first has left. -/
def CallFinds : Node → Prop
  | .nil => True
  | .node type address dataType child args =>
    ∀ callee params, compile (.node type address dataType child .nil) = some callee →
    compile args = some params → ∀ (W : Type) (functions : Functions W) (s t u : Vm W),
      execAll functions s callee = some t → execAll functions t params = some u →
        t.sp = s.sp + 1 ∧ u.sp = s.sp + 1 + (BitVec.ofNat 8 args.count).toNat ∧ u.get s.sp .dword = t.get s.sp .dword

/-- Every call among the nodes does. -/
def CallsFind : Node → Prop
  | .nil => True
  | .node type _ _ child sibling =>
    (match type with
      | .func => CallFinds child
      | _ => True) ∧ CallsFind child ∧ CallsFind sibling

/-- The rounds of `finsh_vm_run`: the places and the states that are reached. -/
inductive Reaches {W : Type} (functions : Functions W) (text : ℕ → BitVec 8) (s : Vm W) : ℕ → Vm W → Prop
  | start : Reaches functions text s 0 s
  | round {pc next : ℕ} {t u : Vm W} {instr : Instr} : Reaches functions text s pc t → pc < finshTextMax →
    fetch text pc = some (instr, next) → instr.exec functions t = some u → Reaches functions text s next u

/-- What is required of a line with these trees: the machine executes the code of all statements, each of
them leaves one value, calls find their functions, and the opcodes are in `op_table`. -/
structure StackDiscipline (root : Node) : Prop where
  whole : ∀ code, compilerRun root = some code → ∀ (W : Type) (functions : Functions W) (s : Vm W),
    vmRun functions (textOf (encode code)) s = execAll functions { s with sp := 0 } code
  statements : ∀ checked, typeCheck root false = some checked → ∀ statement ∈ checked.statements, ∀ code,
    compile statement = some code → LeavesOne code
  calls : ∀ checked, typeCheck root false = some checked → CallsFind checked
  opcodes : ∀ code, compilerRun root = some code → ∀ (W : Type) (functions : Functions W) (s t : Vm W) (pc : ℕ),
    Reaches functions (textOf (encode code)) s pc t → pc < finshTextMax → (fetch (textOf (encode code)) pc).isSome

section Checked

variable {type : NodeType} {address isAddr : Bool} {dataType : ℕ} {child sibling checked : Node}

theorem typeCheck_cases (ok : typeCheck (.node type address dataType child sibling) isAddr = some checked) :
    ∃ first next result, typeCheck child (type.childAddress isAddr) = some first ∧
      typeCheck sibling false = some next ∧ type.typeBy dataType first = some result ∧
      checked = .node type (type.marked address isAddr) result first next := by
  rw [typeCheck] at ok
  obtain ⟨first, checked_child, ok⟩ := Option.bind_eq_some_iff.mp ok
  obtain ⟨next, checked_sibling, ok⟩ := Option.bind_eq_some_iff.mp ok
  cases first with
  | nil =>
    obtain ⟨result, typed, ok⟩ := Option.bind_eq_some_iff.mp ok
    exact ⟨_, next, result, checked_child, checked_sibling, typed, (Option.some.inj ok).symm⟩
  | node => exact ⟨_, next, _, checked_child, checked_sibling, rfl, (Option.some.inj ok).symm⟩

def Node.firstType : Node → Option ℕ
  | .nil => none
  | .node _ _ dataType _ _ => some dataType

theorem typeCheck_nil (ok : typeCheck .nil isAddr = some checked) : checked = .nil := (Option.some.inj ok).symm

theorem typeCheck_facts {n : Node} (ok : typeCheck n isAddr = some checked) :
    checked.count = n.count ∧ checked.firstType = n.leftType ∧ checked.isPlace = n.isPlace := by
  induction n generalizing isAddr checked with
  | nil =>
    rw [typeCheck_nil ok]
    exact ⟨rfl, rfl, rfl⟩
  | node type address dataType child sibling child_ih sibling_ih =>
    obtain ⟨first, next, result, checked_child, checked_sibling, typed, rfl⟩ := typeCheck_cases ok
    obtain ⟨-, first_type, -⟩ := child_ih checked_child
    obtain ⟨count, -, -⟩ := sibling_ih checked_sibling
    refine ⟨by rw [Node.count, Node.count, count], ?_, by cases type <;> rfl⟩
    rw [Node.firstType, ← typed]
    cases child with
    | nil =>
      rw [typeCheck_nil checked_child]
      rfl
    | node =>
      rw [Node.leftType, ← first_type]
      obtain ⟨_, _, _, -, -, -, rfl⟩ := typeCheck_cases checked_child
      rfl

end Checked

section Heights

theorem heightAfter_one {instr : Instr} (takes : instr.takes = 0) (gives : instr.gives = 1) (height : ℕ) :
    heightAfter [instr] height = some (height + 1) := by
  rw [heightAfter, if_pos (by omega), heightAfter, takes, gives]
  rfl

theorem heightAfter_load {type : FinshType} (loaded : type.isLoaded) (address : Bool) (place : BitVec 32) (height : ℕ) :
    heightAfter (type.load address place) height = some (height + 1) := by
  cases type with
  | unknown | void | voidp => exact absurd loaded (by decide)
  | _ => cases address <;> exact heightAfter_one rfl rfl height

theorem heightAfter_codeTyped {code : Width → List Instr} {before after : ℕ}
    (counts : ∀ w, heightAfter (code w) before = some after)
    {dataType : ℕ} (or : (widthOf dataType).isSome ∨ before = after) :
    heightAfter (codeTyped dataType code) before = some after := by
  rw [codeTyped]
  cases width : widthOf dataType with
  | some w => exact counts w
  | none =>
    rw [width] at or
    exact congrArg some (or.resolve_left (by decide))

theorem heightAfter_codeOnId {code : BitVec 32 → Width → List Instr} {height : ℕ}
    (counts : ∀ place w, heightAfter (code place w) height = some height) (child : Node) (dataType : ℕ) :
    heightAfter (codeOnId child dataType code) height = some height := by
  rw [codeOnId.eq_def]
  split
  · exact heightAfter_codeTyped (counts _) (.inr rfl)
  · rfl

theorem typeBy_of_count {type : NodeType} {dataType : ℕ} {children : Node} (some : 1 ≤ children.count) :
    type.typeBy dataType children = children.firstType := by
  cases children with
  | nil => exact absurd some (by decide)
  | node => rfl

/-- The code of a node leaves one value in place of those of its children. -/
theorem heightAfter_codeNode {type : NodeType} {address : Bool} {dataType : ℕ} {child checked : Node} {own : List Instr}
    {isAddr : Bool} {before : ℕ} (ok : typeCheck child isAddr = some checked)
    (typed : type.typeBy before checked = some dataType)
    (takes : type.Takes child.count) (steady : type.steadyOn child) (few : child.count ≤ finshNodeMax)
    (coded : codeNode type address dataType checked = some own) (height : ℕ) :
    heightAfter own (height + child.count) = some (height + 1) := by
  obtain ⟨count, first_type, place⟩ := typeCheck_facts ok
  cases type with
  | cast | null => exact absurd takes id
  | id symbol =>
    rw [show child.count = 0 from takes]
    cases symbol with
    | syscall =>
      cases coded
      exact heightAfter_one rfl rfl height
    | var | sysvar =>
      cases coded
      exact heightAfter_load steady _ _ _
  | valueChar | valueInt | valueLong | valueString | valueNull =>
    rw [show child.count = 0 from takes]
    cases coded
    exact heightAfter_one rfl rfl height
  | bin op =>
    rw [show child.count = 2 from takes]
    cases coded
    have width : (widthOf dataType).isSome := by
      have same : checked.firstType = some dataType := by
        rw [← typed, typeBy_of_count (by rw [count, takes]; decide)]
      rw [first_type] at same
      rwa [NodeType.steadyOn, same] at steady
    exact heightAfter_codeTyped (fun w => rfl) (.inl width)
  | bitwise =>
    rw [show child.count = 1 from takes]
    cases coded
    exact heightAfter_codeTyped (fun w => rfl) (.inr rfl)
  | getvalue =>
    rw [show child.count = 1 from takes]
    cases coded
    cases address with
    | true => rfl
    | false => exact heightAfter_codeTyped (fun w => rfl) (.inr rfl)
  | getaddr =>
    rw [show child.count = 1 from takes]
    cases coded
    rfl
  | preinc | predec | inc | dec =>
    rw [show child.count = 1 from takes]
    cases coded
    exact heightAfter_codeOnId (fun place w => rfl) _ _
  | func =>
    cases checked with
    | nil => exact absurd takes (by rw [← count]; exact Nat.not_succ_le_zero 0)
    | node _ _ _ _ args =>
      cases coded
      rw [Node.count] at count
      have size : (BitVec.ofNat 8 args.count).toNat = args.count := by
        have : finshNodeMax < 256 := by decide
        exact Nat.mod_eq_of_lt (by omega)
      rw [heightAfter, Instr.takes, size, count, if_pos (Nat.le_add_left _ _), Nat.add_sub_cancel]
      rfl
  | assign =>
    rw [show child.count = 2 from takes]
    rw [NodeType.steadyOn, ← place] at steady
    have stores {w : Option Width} (stored : w.map (fun w => [Instr.st w, Instr.ldValueStack w]) = some own) :
        heightAfter own (height + 2) = some (height + 1) := by
      obtain ⟨w, -, rfl⟩ := Option.map_eq_some_iff.mp stored
      rfl
    cases checked with
    | nil => cases coded
    | node left _ _ _ _ =>
      cases left with
      | id | getvalue => exact stores coded
      | _ => cases steady

theorem Node.count_le_size (n : Node) : n.count ≤ n.size := by
  induction n with
  | nil => exact le_rfl
  | node _ _ _ _ _ _ ih =>
    rw [count, size]
    omega

theorem heightAfter_compile {n checked : Node} {isAddr : Bool}
    (ok : typeCheck n isAddr = some checked) (shaped : n.Shaped)
    (few : n.size ≤ finshNodeMax) (steady : n.steady) {code : List Instr} (compiled : compile checked = some code)
    (height : ℕ) : heightAfter code height = some (height + n.count) := by
  induction n generalizing isAddr checked code height with
  | nil =>
    rw [typeCheck_nil ok] at compiled
    cases compiled
    rfl
  | node type address dataType child sibling child_ih sibling_ih =>
    obtain ⟨first, next, result, checked_child, checked_sibling, typed, rfl⟩ := typeCheck_cases ok
    obtain ⟨-, takes, child_shaped, sibling_shaped⟩ := shaped
    rw [Node.size] at few
    rw [Node.steady, Bool.and_eq_true, Bool.and_eq_true] at steady
    rw [compile] at compiled
    obtain ⟨children, compiled_child, compiled⟩ := Option.bind_eq_some_iff.mp compiled
    obtain ⟨own, coded, compiled⟩ := Option.bind_eq_some_iff.mp compiled
    obtain ⟨siblings, compiled_sibling, compiled⟩ := Option.bind_eq_some_iff.mp compiled
    obtain rfl := Option.some.inj compiled
    have few_children := child.count_le_size
    rw [heightAfter_append, heightAfter_append,
      child_ih checked_child child_shaped (by omega) steady.1.2 compiled_child, Option.bind_some,
      heightAfter_codeNode checked_child typed takes steady.1.1 (by omega) coded, Option.bind_some,
      sibling_ih checked_sibling sibling_shaped (by omega) steady.2 compiled_sibling, Node.count]
    congr 1
    omega

theorem Instr.reads_above {instr : Instr} {sp : ℕ} (enough : instr.takes ≤ sp) {field : ℕ × Width}
    (read : field ∈ instr.reads sp) : sp - instr.takes ≤ field.1 := by
  cases instr with
  | noop | ld | ldValue | pop => exact absurd read List.not_mem_nil
  | bw | ldValueStack =>
    obtain rfl := List.mem_singleton.mp read
    exact le_rfl
  | bin | st =>
    rcases List.mem_cons.mp read with rfl | read
    · exact le_rfl
    · obtain rfl := List.mem_singleton.mp read
      exact Nat.sub_le_sub_left one_le_two sp
  | syscall =>
    obtain ⟨i, -, rfl⟩ := List.mem_map.mp read
    rw [takes] at enough ⊢
    dsimp only
    omega

theorem leavesOne_of_height {code : List Instr} (counts : heightAfter code 0 = some 1) : LeavesOne code where
  leaves _ _ s _ executed := (execAll_height counts (Nat.add_zero s.sp).symm executed).1
  takes front instr back split W functions s t executed := by
    rw [split] at counts
    obtain ⟨middle, first, enough⟩ := takes_le_of_heightAfter counts
    obtain ⟨sp, -⟩ := execAll_height first (Nat.add_zero s.sp).symm executed
    refine ⟨by omega, fun field read => ?_⟩
    have := Instr.reads_above (by omega) read
    omega

end Heights

section Lines

/-- What is known of the nodes of a line. -/
structure Node.Sound (n : Node) : Prop where
  shaped : n.Shaped
  few : n.size ≤ finshNodeMax
  steady : n.steady

theorem Node.Sound.height {n checked : Node} (sound : n.Sound) {isAddr : Bool} (ok : typeCheck n isAddr = some checked)
    {code : List Instr} (compiled : compile checked = some code) (height : ℕ) :
    heightAfter code height = some (height + n.count) :=
  heightAfter_compile ok sound.shaped sound.few sound.steady compiled height

section Parts

variable {type : NodeType} {address isAddr : Bool} {dataType : ℕ} {child sibling : Node}

theorem Node.Sound.parts (sound : (Node.node type address dataType child sibling).Sound) :
    (Node.node type address dataType child .nil).Sound ∧ child.Sound ∧ sibling.Sound := by
  obtain ⟨⟨unmarked, takes, child_shaped, sibling_shaped⟩, few, steady⟩ := sound
  rw [size] at few
  rw [Node.steady, Bool.and_eq_true, Bool.and_eq_true] at steady
  refine ⟨⟨⟨unmarked, takes, child_shaped, trivial⟩, ?_, ?_⟩, ⟨child_shaped, by omega, steady.1.2⟩,
    sibling_shaped, by omega, steady.2⟩
  · rw [size, size]
    omega
  · rw [Node.steady, steady.1.1, steady.1.2]
    rfl

theorem typeCheck_alone {first next : Node} {newType : NodeType} {newAddress : Bool} {result : ℕ}
    (ok : typeCheck (.node type address dataType child sibling) isAddr =
      some (.node newType newAddress result first next)) :
    typeCheck (.node type address dataType child .nil) isAddr = some (.node newType newAddress result first .nil) ∧
      typeCheck child (type.childAddress isAddr) = some first ∧ typeCheck sibling false = some next := by
  obtain ⟨first, next, result, checked_child, checked_sibling, typed, same⟩ := typeCheck_cases ok
  cases same
  exact ⟨typeCheck_of_child checked_child typed .nil, checked_child, checked_sibling⟩

end Parts

variable {code : List Instr}

theorem leavesOne_statement {n checked : Node} (sound : n.Sound) {isAddr : Bool}
    (ok : typeCheck n isAddr = some checked) {statement : Node} (inside : statement ∈ checked.statements)
    (compiled : compile statement = some code) : LeavesOne code := by
  induction n generalizing isAddr checked with
  | nil =>
    rw [typeCheck_nil ok] at inside
    exact absurd inside List.not_mem_nil
  | node type address dataType child sibling _ ih =>
    obtain ⟨alone, -, rest⟩ := sound.parts
    obtain ⟨first, next, result, -, -, -, rfl⟩ := typeCheck_cases ok
    obtain ⟨checked_alone, -, checked_sibling⟩ := typeCheck_alone ok
    rcases List.mem_cons.mp inside with rfl | later
    · exact leavesOne_of_height (alone.height checked_alone compiled 0)
    · exact ih rest checked_sibling later

theorem callFinds_of_sound {n checked : Node} (sound : n.Sound)
    {isAddr : Bool} (ok : typeCheck n isAddr = some checked) :
    CallFinds checked := by
  cases n with
  | nil =>
    rw [typeCheck_nil ok]
    trivial
  | node type address dataType child sibling =>
    obtain ⟨alone, -, rest⟩ := sound.parts
    obtain ⟨first, args, result, -, -, -, rfl⟩ := typeCheck_cases ok
    obtain ⟨checked_alone, -, checked_args⟩ := typeCheck_alone ok
    intro callee params compiled_callee compiled_params W functions s t u called evaluated
    obtain ⟨above, -⟩ := execAll_height (alone.height checked_alone compiled_callee 0) (Nat.add_zero s.sp).symm called
    have sp : t.sp = s.sp + 1 := above
    have counts := rest.height checked_args compiled_params 0
    obtain ⟨sp', kept⟩ := execAll_height counts (Nat.add_zero t.sp).symm evaluated
    obtain ⟨count, -, -⟩ := typeCheck_facts checked_args
    have small : (BitVec.ofNat 8 args.count).toNat = args.count := by
      have few := sibling.count_le_size
      have bound := rest.few
      have : finshNodeMax < 256 := by decide
      exact Nat.mod_eq_of_lt (by omega)
    refine ⟨sp, ?_, ?_⟩
    · rw [small, count]
      omega
    · rw [Vm.get, Vm.get, LittleEndian.readNat_congr fun b _ below => kept b ?_]
      rw [Width.size] at below
      omega

theorem callsFind_of_sound {n checked : Node} (sound : n.Sound)
    {isAddr : Bool} (ok : typeCheck n isAddr = some checked) :
    CallsFind checked := by
  induction n generalizing isAddr checked with
  | nil =>
    rw [typeCheck_nil ok]
    trivial
  | node type address dataType child sibling child_ih sibling_ih =>
    obtain ⟨-, below, rest⟩ := sound.parts
    obtain ⟨first, next, result, checked_child, checked_sibling, -, rfl⟩ := typeCheck_cases ok
    refine ⟨?_, child_ih below checked_child, sibling_ih rest checked_sibling⟩
    cases type with
    | func => exact callFinds_of_sound below checked_child
    | _ => trivial

theorem fetch_inside (front : List Instr) (instr : Instr) (back : List Instr) :
    fetch (textOf (encode (front ++ instr :: back))) (encode front).length =
      some (instr, (encode (front ++ [instr])).length) := by
  have coded (i : ℕ) (inside : i < instr.encode.length) :
      textOf (encode (front ++ instr :: back)) ((encode front).length + i) = instr.encode[i] := by
    rw [textOf, encode_append, encode_cons, List.getElem?_append_right (Nat.le_add_right _ _), Nat.add_sub_cancel_left,
      List.getElem?_append_left inside, List.getElem?_eq_getElem inside]
    rfl
  rw [fetch_encode coded, encode_append, List.length_append]
  simp [encode]

theorem fetch_behind {pc : ℕ} (behind : (encode code).length ≤ pc) :
    fetch (textOf (encode code)) pc = some (.noop, pc + 1) := by
  have zero : textOf (encode code) pc = 0 := by simp [textOf, behind]
  rw [fetch, zero]
  rfl

/-- The machine is at an instruction of the code, or behind the code. -/
theorem Reaches.boundary {W : Type} {functions : Functions W} {s t : Vm W} {pc : ℕ}
    (reaches : Reaches functions (textOf (encode code)) s pc t) :
    (∃ front instr back, code = front ++ instr :: back ∧ pc = (encode front).length) ∨ (encode code).length ≤ pc := by
  have at_ (front back : List Instr) (split : code = front ++ back) :
      (∃ front' instr back, code = front' ++ instr :: back ∧ (encode front).length = (encode front').length) ∨
        (encode code).length ≤ (encode front).length := by
    cases back with
    | nil =>
      rw [split, List.append_nil]
      exact .inr le_rfl
    | cons instr back => exact .inl ⟨front, instr, back, split, rfl⟩
  induction reaches with
  | start => exact at_ [] code rfl
  | round _ _ fetched _ ih =>
    rcases ih with ⟨front, instr, back, split, rfl⟩ | behind
    · rw [split, fetch_inside] at fetched
      cases fetched
      exact at_ _ back (by rw [split, List.append_assoc, List.singleton_append])
    · rw [fetch_behind behind] at fetched
      cases fetched
      exact .inr (Nat.le_succ_of_le behind)

/-- Every opcode that is fetched is in `op_table`. -/
theorem Reaches.fetch_isSome {W : Type} {functions : Functions W} {s t : Vm W} {pc : ℕ}
    (reaches : Reaches functions (textOf (encode code)) s pc t) : (fetch (textOf (encode code)) pc).isSome := by
  rcases reaches.boundary with ⟨front, instr, back, rfl, rfl⟩ | behind
  · rw [fetch_inside]
    rfl
  · rw [fetch_behind behind]
    rfl

variable {env : Env} {vars after : List (Option (Name × FinshType))} {tokens : List Token} {trees : List Node}

/-- A line without an error keeps the stack discipline if its code fits the text segment and every node
gets the code that it needs. -/
theorem discipline_of_steady (parsed : parserRun env vars tokens = .ok (trees, after)) {code : List Instr}
    (compiled : compilerRun (chain trees) = some code) (fits : (encode code).length ≤ finshTextMax)
    (steady : (chain trees).steady) : StackDiscipline (chain trees) := by
  obtain ⟨all, few⟩ := parserRun_trees parsed
  obtain ⟨shaped, -, size⟩ := all.chain
  have sound : (chain trees).Sound := ⟨shaped, by omega, steady⟩
  refine ⟨fun other compiled' W functions s => ?_, fun checked ok statement inside code compiled => ?_,
    fun checked ok => ?_, fun code _ W functions s t pc reaches _ => ?_⟩
  · cases compiled.symm.trans compiled'
    exact vmRun_encode code fits s
  · exact leavesOne_statement sound ok inside compiled
  · exact callsFind_of_sound sound ok
  · exact reaches.fetch_isSome

/-- The function `f` alone. -/
def envOfF : Env :=
  ⟨0x20000000, fun _ => none, fun name => if name = ['f'] then some (0x08001000, 0x08000400) else none⟩

/-- `f(-2);` -/
theorem discipline_of_steady_call : StackDiscipline (chain [.node .func false 0
    (.node (.id (.syscall 0x08001000 0x08000400)) false 0 .nil (.node (.bin .sub) false 0
      (.node (.valueLong 0) false 0 .nil (.node (.valueInt 2) false 0 .nil .nil)) .nil)) .nil]) :=
  @discipline_of_steady envOfF (List.replicate 8 none) (List.replicate 8 none)
    [.identifier ['f'], .leftParen, .sub, .valueInt 2, .rightParen, .semicolon] _ (by decide +kernel)
    [.ld .dword 0x08000400, .ld .dword 0, .ld .dword 2, .bin .sub .dword, .syscall 1] (by decide +kernel) (by decide)
    (by decide +kernel)

/-- `f(1) + 2;` leaves the result of the call and the 2. -/
theorem callPlusTwo_undisciplined : ∃ trees after code,
    parserRun envOfF (List.replicate 8 none) [.identifier ['f'],
        .leftParen, .valueInt 1, .rightParen, .add, .valueInt 2,
      .semicolon] = .ok (trees, after) ∧
    compilerRun (chain trees) = some code ∧ (encode code).length ≤ finshTextMax ∧ ¬ StackDiscipline (chain trees) := by
  let code : List Instr := [.ld .dword 0x08000400, .ld .dword 1, .syscall 1, .ld .dword 2]
  refine ⟨[.node (.bin .add) false 0 (.node .func false 0 (.node (.id (.syscall 0x08001000 0x08000400)) false 0 .nil
    (.node (.valueInt 1) false 0 .nil .nil)) (.node (.valueInt 2) false 0 .nil .nil)) .nil],
    List.replicate 8 none, code,
    by decide +kernel, by decide +kernel, by decide, fun discipline => ?_⟩
  have one := discipline.statements _ rfl _ (List.mem_singleton.mpr rfl) code (by decide +kernel)
  let s : Vm Unit := ⟨fun _ => 0, fun _ => 0, 0, ()⟩
  have two : ∃ t, execAll (fun _ _ world => (5, world)) s code = some t ∧ t.sp = 2 := ⟨_, rfl, rfl⟩
  obtain ⟨t, executed, sp⟩ := two
  have := one.leaves Unit _ s t executed
  rw [sp] at this
  exact absurd this (by decide)

end Lines

end Finsh
