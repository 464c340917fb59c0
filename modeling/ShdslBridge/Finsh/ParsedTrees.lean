import ShdslBridge.Finsh.Parser

/-! # What the parser builds

`parserRun_ne_fuel`: every line ends with statements or with an error. `parserRun_trees`: every node of a
statement has the children that its type asks for, and there are at most `FINSH_NODE_MAX` nodes.
-/

namespace Finsh

open TokenParser

/-- The numbers of children that a node of a type can have. -/
def NodeType.Takes (type : NodeType) (children : ℕ) : Prop :=
  match type with
  | .id _ | .valueChar _ | .valueInt _ | .valueLong _ | .valueString _ | .valueNull _ => children = 0
  | .bitwise | .preinc | .predec | .inc | .dec | .getvalue | .getaddr => children = 1
  | .bin _ | .assign => children = 2
  | .func => 1 ≤ children
  | .cast | .null => False

namespace Node

/-- The nodes have the children that their types ask for, and no address is marked. -/
def Shaped : Node → Prop
  | .nil => True
  | .node type address _ child sibling =>
    address = false ∧ type.Takes child.count ∧ child.Shaped ∧ sibling.Shaped

/-- The number of nodes. -/
def size : Node → ℕ
  | .nil => 0
  | .node _ _ _ child sibling => child.size + sibling.size + 1

/-- One node with well-shaped nodes below it. -/
structure IsTree (node : Node) : Prop where
  shaped : node.Shaped
  count : node.count = 1

variable {node right : Node}

theorem IsTree.withSibling (tree : node.IsTree) {sibling : Node} (shaped : sibling.Shaped) :
    (node.withSibling sibling).Shaped ∧ (node.withSibling sibling).count = sibling.count + 1 ∧
      (node.withSibling sibling).size = node.size + sibling.size := by
  cases node with
  | nil => exact absurd tree.count (by decide)
  | node type address dataType child next =>
    have alone : next.size = 0 := by
      cases next with
      | nil => rfl
      | node => exact absurd (Nat.succ.inj tree.count) (Nat.succ_ne_zero _)
    refine ⟨⟨tree.shaped.1, tree.shaped.2.1, tree.shaped.2.2.1, shaped⟩, rfl, ?_⟩
    rw [Node.withSibling, size, size, alone]
    omega

theorem IsTree.recast (tree : node.IsTree) (type : FinshType) :
    (node.recast type).IsTree ∧ (node.recast type).size = node.size := by
  cases node with
  | nil => exact ⟨tree, rfl⟩
  | node => exact ⟨⟨tree.shaped, tree.count⟩, rfl⟩

theorem isTree_leaf (type : NodeType) (takes : type.Takes 0) : (Node.node type false 0 .nil .nil).IsTree :=
  ⟨⟨rfl, takes, trivial, trivial⟩, rfl⟩

theorem IsTree.unary (tree : node.IsTree) (type : NodeType) (takes : type.Takes 1) :
    (Node.node type false 0 (node.withSibling .nil) .nil).IsTree ∧
      (Node.node type false 0 (node.withSibling .nil) .nil).size = node.size + 1 := by
  obtain ⟨shaped, count, size⟩ := @tree.withSibling _ .nil trivial
  exact ⟨⟨⟨rfl, by rwa [count], shaped, trivial⟩, rfl⟩, by rw [Node.size, size]; rfl⟩

theorem IsTree.binary (tree : node.IsTree) (second : right.IsTree) (type : NodeType) (takes : type.Takes 2) :
    (Node.node type false 0 (node.withSibling right) .nil).IsTree ∧
      (Node.node type false 0 (node.withSibling right) .nil).size = node.size + right.size + 1 := by
  obtain ⟨shaped, count, size⟩ := tree.withSibling second.shaped
  exact ⟨⟨⟨rfl, by rwa [count, second.count], shaped, trivial⟩, rfl⟩, by rw [Node.size, size]; rfl⟩

end Node

/-- Trees only. -/
def Trees (nodes : List Node) : Prop := ∀ node ∈ nodes, node.IsTree

def sizes (nodes : List Node) : ℕ := (nodes.map Node.size).sum

theorem Trees.nil : Trees [] := nofun

theorem Trees.append {front back : List Node} (first : Trees front) (second : Trees back) : Trees (front ++ back) := by
  intro node inside
  rcases List.mem_append.mp inside with early | late
  · exact first node early
  · exact second node late

theorem Trees.single {node : Node} (tree : node.IsTree) : Trees [node] := fun _ inside =>
  List.mem_singleton.mp inside ▸ tree

theorem sizes_append (front back : List Node) : sizes (front ++ back) = sizes front + sizes back := by
  simp [sizes]

theorem sizes_single (node : Node) : sizes [node] = node.size := by
  simp [sizes]

theorem Trees.chain {nodes : List Node} (trees : Trees nodes) :
    (chain nodes).Shaped ∧ (chain nodes).count = nodes.length ∧ (chain nodes).size = sizes nodes := by
  induction nodes with
  | nil => exact ⟨trivial, rfl, rfl⟩
  | cons node rest ih =>
    obtain ⟨shaped, count, size⟩ := ih fun other inside => trees other (List.mem_cons_of_mem _ inside)
    obtain ⟨linked, more, larger⟩ := (trees node List.mem_cons_self).withSibling shaped
    refine ⟨linked, by rw [Finsh.chain, more, count, List.length_cons], ?_⟩
    rw [Finsh.chain, larger, size, sizes, sizes, List.map_cons, List.sum_cons]

theorem Node.IsTree.call {callee : Node} (tree : callee.IsTree) {params : List Node} (trees : Trees params) :
    (Node.node .func false 0 (callee.withSibling (chain params)) .nil).IsTree ∧
      (Node.node .func false 0 (callee.withSibling (chain params)) .nil).size = callee.size + sizes params + 1 := by
  obtain ⟨shaped, -, size⟩ := trees.chain
  obtain ⟨linked, count, larger⟩ := tree.withSibling shaped
  refine ⟨⟨⟨rfl, by rw [count]; exact Nat.le_add_left 1 _, linked, trivial⟩, rfl⟩, ?_⟩
  rw [Node.size, larger, size]
  rfl

/-- At least `k` nodes were taken from the table, which is not larger than it is. -/
structure Took (k : ℕ) (s t : Tables) : Prop where
  grows : s.nodes + k ≤ t.nodes
  bound : t.nodes ≤ max s.nodes finshNodeMax

namespace Took

variable {j k : ℕ} {s t u : Tables}

theorem refl (s : Tables) : Took 0 s s := ⟨le_rfl, le_max_left _ _⟩

theorem trans (first : Took j s t) (second : Took k t u) : Took (j + k) s u := by
  have := first.grows
  have := first.bound
  have := second.grows
  have := second.bound
  exact ⟨by omega, by omega⟩

theorem of_eq (took : Took j s t) (same : k = j) : Took k s t := same ▸ took

end Took

/-- A tree was built of nodes that were taken. -/
structure Built (s : Tables) (node : Node) (t : Tables) : Prop where
  tree : node.IsTree
  took : Took node.size s t

structure BuiltAll (s : Tables) (nodes : List Node) (t : Tables) : Prop where
  trees : Trees nodes
  took : Took (sizes nodes) s t

theorem BuiltAll.nil (s : Tables) : BuiltAll s [] s := ⟨Trees.nil, Took.refl s⟩

theorem BuiltAll.append {s t u : Tables} {front back : List Node} (first : BuiltAll s front t)
    (second : BuiltAll t back u) : BuiltAll s (front ++ back) u :=
  ⟨first.trees.append second.trees, (first.took.trans second.took).of_eq (sizes_append _ _)⟩

theorem Built.single {s t : Tables} {node : Node} (built : Built s node t) : BuiltAll s [node] t :=
  ⟨Trees.single built.tree, built.took.of_eq (sizes_single node)⟩

section Primitives

variable (s : State Token Tables)

theorem meets_next : Meets next s fun token t => Read .eof token s t := meets_nextToken s

theorem meets_putBack {token : Token} {s t : State Token Tables} (read : Read .eof token s t) :
    Meets (putBack token) t fun _ u => u.tokens.length ≤ s.tokens.length ∧ u.data = s.data := read.replay

theorem meets_matchToken (type : Token) (some : type ≠ .eof) :
    Meets (matchToken type) s fun _ t => t.tokens.length < s.tokens.length ∧ t.data = s.data := by
  apply (meets_next s).bind
  intro token t read
  by_cases same : token = type
  · rw [if_pos same]
    exact Meets.pure ⟨read.lt (same ▸ some), read.data⟩
  · rw [if_neg same]
    exact Meets.fail _

theorem meets_nodeAllocate (full : FinshError) (node : Node) :
    Meets (nodeAllocate full node) s fun a t => t.tokens = s.tokens ∧ a = node ∧ Took 1 s.data t.data := by
  have data : Meets (getData : Parser Tables) s fun tables t => tables = s.data ∧ t = s := Meets.getData ⟨rfl, rfl⟩
  apply data.bind
  rintro _ s ⟨rfl, rfl⟩
  by_cases empty : s.data.nodes < finshNodeMax
  · rw [if_pos empty]
    have stored : Meets (setData { s.data with nodes := s.data.nodes + 1 } : Parser Unit) s
        fun _ t => t.tokens = s.tokens ∧ Took 1 s.data t.data := Meets.setData ⟨rfl, le_rfl, le_max_of_le_right empty⟩
    apply stored.bind
    rintro _ t ⟨same, took⟩
    exact Meets.pure ⟨same, rfl, took⟩
  · rw [if_neg empty]
    exact Meets.fail _

variable {s}

theorem meets_leaf (full : FinshError) (type : NodeType) (takes : type.Takes 0) :
    Meets (nodeAllocate full (.node type false 0 .nil .nil)) s fun a t => t.tokens = s.tokens ∧
        Built s.data a t.data := by
  apply (meets_nodeAllocate s full _).mono
  rintro a t ⟨same, rfl, took⟩
  exact ⟨same, Node.isTree_leaf type takes, took⟩

theorem meets_unary (type : NodeType) (takes : type.Takes 1) {before : Tables} {node : Node}
    (built : Built before node s.data) :
    Meets (makeSysNode type node .nil) s fun a t => t.tokens = s.tokens ∧ Built before a t.data := by
  obtain ⟨tree, size⟩ := built.tree.unary type takes
  apply (meets_nodeAllocate s _ _).mono
  rintro a t ⟨same, rfl, took⟩
  exact ⟨same, tree, (built.took.trans took).of_eq size⟩

theorem meets_binary (type : NodeType) (takes : type.Takes 2)
    {before : Tables} {left right : Node} (first : left.IsTree)
    (second : right.IsTree) (operands : Took (left.size + right.size) before s.data) :
    Meets (makeSysNode type left right) s fun a t => t.tokens = s.tokens ∧ Built before a t.data := by
  obtain ⟨tree, size⟩ := first.binary second type takes
  apply (meets_nodeAllocate s _ _).mono
  rintro a t ⟨same, rfl, took⟩
  exact ⟨same, tree, (operands.trans took).of_eq size⟩

theorem meets_call {before middle : Tables} {callee : Node} {params : List Node} (first : Built before callee middle)
    (second : BuiltAll middle params s.data) :
    Meets (makeSysNode .func callee (chain params)) s fun a t => t.tokens = s.tokens ∧ Built before a t.data := by
  obtain ⟨tree, size⟩ := first.tree.call second.trees
  apply (meets_nodeAllocate s _ _).mono
  rintro a t ⟨same, rfl, took⟩
  exact ⟨same, tree, ((first.took.trans second.took).trans took).of_eq size⟩

variable (s)

theorem meets_nodeNewId (env : Env) (name : Name) :
    Meets (nodeNewId env name) s fun a t => t.tokens = s.tokens ∧ Built s.data a t.data := by
  have data : Meets (getData : Parser Tables) s fun _ t => t = s := Meets.getData rfl
  apply data.bind
  rintro tables _ rfl
  cases env.lookup tables.vars name with
  | some symbol => exact meets_leaf _ _ rfl
  | none => exact Meets.fail _

theorem meets_procIdentifier :
    Meets procIdentifier s fun _ t => t.tokens.length < s.tokens.length ∧ t.data = s.data := by
  apply (meets_next s).bind
  intro token t read
  cases token with
  | identifier name => exact Meets.pure ⟨read.lt nofun, read.data⟩
  | _ => exact Meets.fail _

theorem meets_procBaseType :
    Meets procBaseType s fun _ t => t.tokens.length < s.tokens.length ∧ t.data = s.data := by
  apply (meets_next s).bind
  intro token t read
  cases found : token.baseType with
  | some type => exact Meets.pure ⟨read.lt (fun none => by rw [none] at found; cases found), read.data⟩
  | none =>
    dsimp only
    split_ifs with unsigned
    · have shorter := read.lt (unsigned ▸ nofun)
      apply (meets_next t).bind
      intro token u read'
      have le := read'.le
      cases token.unsignedType with
      | some type => exact Meets.pure ⟨by omega, read'.data.trans read.data⟩
      | none => exact Meets.fail _
    · exact Meets.fail _

theorem meets_procType : Meets procType s fun _ t => t.tokens.length < s.tokens.length ∧ t.data = s.data := by
  apply (meets_procBaseType s).bind
  rintro type t ⟨shorter, same⟩
  apply (meets_next t).bind
  intro token u read
  have le := read.le
  split_ifs
  · exact Meets.pure ⟨by omega, read.data.trans same⟩
  · apply (meets_putBack read).bind
    rintro _ v ⟨le, same'⟩
    exact Meets.pure ⟨by omega, same'.trans same⟩

theorem meets_declare (name : Name) (type : FinshType) :
    Meets (declare name type) s fun _ t => t.tokens = s.tokens ∧ Took 0 s.data t.data := by
  have data : Meets (getData : Parser Tables) s fun tables t => tables = s.data ∧ t = s := Meets.getData ⟨rfl, rfl⟩
  apply data.bind
  rintro _ s ⟨rfl, rfl⟩
  cases varInsert s.data.vars name type with
  | some vars => exact Meets.setData ⟨rfl, le_rfl, le_max_left _ _⟩
  | none => exact Meets.fail _

end Primitives

section Expressions

variable {env : Env} {cast : Parser Node} {fuel n : ℕ}

theorem parses_procBinary (op : Token → Option BinOp) (notEof : op .eof = none) {operand : Parser Node}
    (parses : Parses n operand Built) (enough : n ≤ fuel) : Parses n (procBinary fuel op operand) Built := by
  intro s fewer
  apply (parses s fewer).bind
  rintro left t ⟨shorter, built⟩
  have combines (o : BinOp) {before : Tables} {left : Node} {middle : Tables} {right : Node} {after : Tables}
      (first : Built before left middle) (second : Built middle right after) (tokens : List Token) :
      Meets (makeSysNode (.bin o) left right) ⟨tokens, after⟩ fun a t => t.tokens = tokens ∧ Built before a t.data :=
    meets_binary (.bin o) rfl first.tree second.tree (first.took.trans second.took)
  apply (meets_operators parses combines notEof (by omega) (by omega) built).mono
  rintro a u ⟨le, a_built⟩
  exact ⟨by omega, a_built⟩

theorem parses_procInclusiveOrExpr (parses : Parses n cast Built) (enough : n ≤ fuel) :
    Parses n (procInclusiveOrExpr cast fuel) Built := by
  have multiplicative := parses_procBinary Token.multiplicativeOp rfl parses enough
  have additive := parses_procBinary Token.additiveOp rfl multiplicative enough
  have shift := parses_procBinary Token.shiftOp rfl additive enough
  have and := parses_procBinary Token.andOp rfl shift enough
  have xor := parses_procBinary Token.xorOp rfl and enough
  exact parses_procBinary Token.orOp rfl xor enough

theorem meets_procAssignExpr (parses : Parses n cast Built) (enough : n ≤ fuel) {rounds : ℕ}
    {s : State Token Tables} (fewer : s.tokens.length < n) (left : s.tokens.length < rounds) :
    Meets (procAssignExpr cast fuel rounds) s fun a t => t.tokens.length < s.tokens.length ∧ Built s.data a t.data := by
  induction rounds generalizing s with
  | zero => exact absurd left (Nat.not_lt_zero _)
  | succ rounds ih =>
    apply (parses_procInclusiveOrExpr parses enough s fewer).bind
    rintro or t ⟨shorter, or_built⟩
    apply (meets_next t).bind
    intro token u read
    have le := read.le
    split_ifs with assigned
    · have lt := read.lt (assigned ▸ nofun)
      apply (ih (by omega) (by omega)).bind
      rintro assign v ⟨shorter', built⟩
      rw [read.data] at built
      apply (meets_binary .assign rfl or_built.tree built.tree (or_built.took.trans built.took)).mono
      rintro a w ⟨same, a_built⟩
      exact ⟨by rw [same]; omega, a_built⟩
    · apply (meets_putBack read).bind
      rintro _ v ⟨le, same⟩
      exact Meets.pure ⟨by omega, same ▸ or_built⟩

theorem parses_procExpr (parses : Parses n cast Built) (enough : n ≤ fuel) :
    Parses n (procExpr cast fuel) Built := fun _ fewer =>
  meets_procAssignExpr parses enough fewer (by omega)

theorem meets_paramLoop (parses : Parses n cast Built) (enough : n ≤ fuel) {rounds : ℕ} {s : State Token Tables}
    (fewer : s.tokens.length < n) (left : s.tokens.length < rounds) {before : Tables} {nodes : List Node}
    (built : BuiltAll before nodes s.data) :
    Meets (paramLoop cast fuel rounds nodes) s fun params t =>
      t.tokens.length ≤ s.tokens.length ∧ BuiltAll before params t.data := by
  induction rounds generalizing s nodes with
  | zero => exact absurd left (Nat.not_lt_zero _)
  | succ rounds ih =>
    apply (meets_next s).bind
    intro token t read
    split_ifs with comma
    · have lt := read.lt (comma ▸ nofun)
      apply (parses_procExpr parses enough t (by omega)).bind
      rintro assign u ⟨shorter, assign_built⟩
      rw [read.data] at assign_built
      apply (ih (by omega) (by omega) (built.append assign_built.single)).mono
      rintro params v ⟨le, params_built⟩
      exact ⟨by omega, params_built⟩
    · apply (meets_putBack read).bind
      rintro _ u ⟨le, same⟩
      exact Meets.pure ⟨le, same ▸ built⟩

theorem meets_procParams (parses : Parses n cast Built) (enough : n ≤ fuel) {s : State Token Tables}
    (fewer : s.tokens.length < n) :
    Meets (procParams cast fuel) s fun params t =>
      t.tokens.length ≤ s.tokens.length ∧ BuiltAll s.data params t.data := by
  apply (meets_next s).bind
  intro token t read
  split_ifs with closed
  · exact Meets.pure ⟨read.le, read.data ▸ BuiltAll.nil _⟩
  · apply (meets_putBack read).bind
    rintro _ u ⟨le, same⟩
    have list : Meets (procParamList cast fuel) u fun params v =>
        v.tokens.length ≤ u.tokens.length ∧ BuiltAll u.data params v.data := by
      apply (parses_procExpr parses enough u (by omega)).bind
      rintro assign v ⟨shorter, built⟩
      apply (meets_paramLoop parses enough (by omega) (by omega) built.single).mono
      rintro params w ⟨le, params_built⟩
      exact ⟨by omega, params_built⟩
    apply list.bind
    rintro params v ⟨le', built⟩
    apply (meets_matchToken v .rightParen nofun).bind
    rintro _ w ⟨shorter, same'⟩
    refine Meets.pure ⟨by omega, ?_⟩
    rwa [same', ← same]

/-- With a token in front of them there are rounds enough for the expressions in an operand. -/
theorem parses_procPrimaryExpr (parses : Parses n cast Built) (enough : n ≤ fuel) :
    Parses (n + 1) (procPrimaryExpr env cast fuel) Built := by
  intro s fewer
  apply (meets_next s).bind
  intro token t read
  have value (type : NodeType) (takes : type.Takes 0) (some : token ≠ .eof) :
      Meets (nodeNewValue type) t fun a u => u.tokens.length < s.tokens.length ∧ Built s.data a u.data := by
    apply (meets_leaf .memoryFull type takes).mono
    rintro a u ⟨same, built⟩
    exact ⟨by rw [same]; exact read.lt some, read.data ▸ built⟩
  cases token with
  | identifier name =>
    apply (meets_nodeNewId t env _).mono
    rintro a u ⟨same, built⟩
    exact ⟨by rw [same]; exact read.lt nofun, read.data ▸ built⟩
  | leftParen =>
    have lt := read.lt nofun
    apply (parses_procExpr parses enough t (by omega)).bind
    rintro expr u ⟨shorter, built⟩
    apply (meets_matchToken u .rightParen nofun).bind
    rintro _ v ⟨shorter', same⟩
    refine Meets.pure ⟨by omega, ?_⟩
    rwa [same, ← read.data]
  | valueInt | valueLong | valueChar | valueString | valueNull => exact value _ rfl nofun
  | _ => exact Meets.fail _

theorem meets_postfixLoop (parses : Parses n cast Built) (enough : n ≤ fuel) {rounds : ℕ}
    {s : State Token Tables} (fewer : s.tokens.length < n + 1) (left : s.tokens.length < rounds) {before : Tables}
    {operand : Node} (built : Built before operand s.data) :
    Meets (postfixLoop cast fuel rounds operand) s fun a t =>
      t.tokens.length ≤ s.tokens.length ∧ Built before a t.data := by
  induction rounds generalizing s operand with
  | zero => exact absurd left (Nat.not_lt_zero _)
  | succ rounds ih =>
    apply (meets_next s).bind
    intro token t read
    -- a new node, and the loop from there on
    have goOn {p : Parser Node} {u : State Token Tables} (lt : u.tokens.length < s.tokens.length)
        (new : Meets p u fun a v => v.tokens = u.tokens ∧ Built before a v.data) :
        Meets (p >>= postfixLoop cast fuel rounds) u
          fun a t => t.tokens.length ≤ s.tokens.length ∧ Built before a t.data := by
      apply new.bind
      rintro a v ⟨same, a_built⟩
      have length : v.tokens.length = u.tokens.length := by rw [same]
      apply (ih (by omega) (by omega) a_built).mono
      rintro b w ⟨le, b_built⟩
      exact ⟨by omega, b_built⟩
    have stop : Meets (putBack token >>= fun _ => pure operand) t
        fun a u => u.tokens.length ≤ s.tokens.length ∧ Built before a u.data := by
      apply (meets_putBack read).bind
      rintro _ u ⟨le, same⟩
      exact Meets.pure ⟨le, same ▸ built⟩
    cases token with
    | inc => exact goOn (read.lt nofun) (meets_unary .inc rfl (read.data ▸ built))
    | dec => exact goOn (read.lt nofun) (meets_unary .dec rfl (read.data ▸ built))
    | leftParen =>
      have lt := read.lt nofun
      apply (@meets_procParams _ _ _ parses enough t (by omega)).bind
      rintro params u ⟨le, params_built⟩
      rw [read.data] at params_built
      exact goOn (by omega) (meets_call built params_built)
    | _ => exact stop

theorem parses_procUnaryExpr (parses : Parses n cast Built) (enough : n + 1 ≤ fuel) :
    Parses (n + 1) (procUnaryExpr env cast fuel) Built := by
  intro s fewer
  apply (meets_next s).bind
  intro token t read
  have operand (some : token ≠ .eof) :
      Meets cast t fun a u => u.tokens.length < s.tokens.length ∧ Built s.data a u.data := by
    have lt := read.lt some
    apply (parses t (by omega)).mono
    rintro a u ⟨shorter, built⟩
    exact ⟨by omega, read.data ▸ built⟩
  have unary (type : NodeType) (takes : type.Takes 1) (some : token ≠ .eof) :
      Meets (procPrefix cast type) t fun a u => u.tokens.length < s.tokens.length ∧ Built s.data a u.data := by
    apply (operand some).bind
    rintro a u ⟨shorter, built⟩
    apply (meets_unary type takes built).mono
    rintro b v ⟨same, b_built⟩
    exact ⟨by rw [same]; exact shorter, b_built⟩
  have postfix_ : Meets (putBack token >>= fun _ => procPostfixExpr env cast fuel) t
      fun a u => u.tokens.length < s.tokens.length ∧ Built s.data a u.data := by
    apply (meets_putBack read).bind
    rintro _ u ⟨le, same⟩
    apply (parses_procPrimaryExpr parses (by omega) u (by omega)).bind
    rintro a v ⟨shorter, built⟩
    rw [same] at built
    apply (meets_postfixLoop parses (by omega) (by omega) (by omega) built).mono
    rintro b w ⟨le', b_built⟩
    exact ⟨by omega, b_built⟩
  cases token with
  | add => exact operand nofun
  | inc | dec | bitwise | mul | and => exact unary _ rfl nofun
  | sub =>
    apply (operand nofun).bind
    rintro a u ⟨shorter, built⟩
    apply (meets_leaf .memoryFull (.valueLong 0) rfl).bind
    rintro zero v ⟨same, zero_built⟩
    have operands := (built.took.trans zero_built.took).of_eq (Nat.add_comm _ _)
    apply (meets_binary (.bin .sub) rfl zero_built.tree built.tree operands).mono
    rintro b w ⟨same', b_built⟩
    exact ⟨by rw [same', same]; exact shorter, b_built⟩
  | _ => exact postfix_

theorem parses_procCastExpr (env : Env) (n : ℕ) : Parses n (procCastExpr env n) Built := by
  induction n with
  | zero => exact fun s fewer => absurd fewer (Nat.not_lt_zero _)
  | succ n ih =>
    intro s fewer
    apply (meets_next s).bind
    intro token t read
    split_ifs with open_
    · have lt := read.lt (open_ ▸ nofun)
      apply (meets_procType t).bind
      rintro type u ⟨shorter, same⟩
      apply (meets_matchToken u .rightParen nofun).bind
      rintro _ v ⟨shorter', same'⟩
      apply (ih v (by omega)).bind
      rintro a w ⟨shorter'', built⟩
      rw [same', same, read.data] at built
      obtain ⟨tree, size⟩ := built.tree.recast type
      exact Meets.pure ⟨by omega, tree, built.took.of_eq size⟩
    · apply (meets_putBack read).bind
      rintro _ u ⟨le, same⟩
      apply (parses_procUnaryExpr ih le_rfl u (by omega)).mono
      rintro a v ⟨shorter, built⟩
      exact ⟨by omega, same ▸ built⟩

end Expressions

section Statements

variable {env : Env} {expr : Parser Node} {n : ℕ}

theorem meets_procInitialiser (parses : Parses n expr Built) {s : State Token Tables} (fewer : s.tokens.length < n)
    (name : Name) (token : Token) {before : Tables} {nodes : List Node} (built : BuiltAll before nodes s.data) :
    Meets (procInitialiser env expr name token nodes) s fun result t =>
      t.tokens.length ≤ s.tokens.length ∧ BuiltAll before result.2 t.data := by
  rw [procInitialiser]
  split_ifs
  · apply (parses s fewer).bind
    rintro assign t ⟨shorter, assign_built⟩
    apply (meets_nodeNewId t env name).bind
    rintro idnode u ⟨same, id_built⟩
    have operands := (assign_built.took.trans id_built.took).of_eq (Nat.add_comm _ _)
    apply (meets_binary .assign rfl id_built.tree assign_built.tree operands).bind
    rintro node v ⟨same', node_built⟩
    have length : v.tokens.length = t.tokens.length := by rw [same', same]
    apply (meets_next v).bind
    intro token w read
    have le := read.le
    exact Meets.pure ⟨by omega, read.data ▸ built.append node_built.single⟩
  · exact Meets.pure ⟨le_rfl, built⟩

theorem meets_declaratorLoop (parses : Parses n expr Built) (type : FinshType) {rounds : ℕ} {s : State Token Tables}
    (fewer : s.tokens.length < n) (left : s.tokens.length < rounds) (token : Token) {before : Tables}
    {nodes : List Node} (built : BuiltAll before nodes s.data) :
    Meets (declaratorLoop env expr type rounds token nodes) s fun result t =>
      t.tokens.length ≤ s.tokens.length ∧ BuiltAll before result t.data := by
  induction rounds generalizing s token nodes with
  | zero => exact absurd left (Nat.not_lt_zero _)
  | succ rounds ih =>
    rw [declaratorLoop]
    split_ifs
    · apply (meets_procIdentifier s).bind
      rintro name t ⟨shorter, same⟩
      apply (meets_declare t name type).bind
      rintro _ u ⟨same', took⟩
      have length : u.tokens.length = t.tokens.length := by rw [same']
      apply (meets_next u).bind
      intro token v read
      have le := read.le
      rw [← read.data, same] at took
      have built : BuiltAll before nodes v.data := ⟨built.trees, built.took.trans took⟩
      apply (meets_procInitialiser parses (by omega) name token built).bind
      rintro ⟨token, nodes⟩ w ⟨le', built⟩
      apply (ih (by omega) (by omega) token built).mono
      rintro result x ⟨le'', result_built⟩
      exact ⟨by omega, result_built⟩
    · exact Meets.pure ⟨le_rfl, built⟩
    · exact Meets.fail _

theorem parses_procVariableDecl (parses : Parses n expr Built) {fuel : ℕ} (enough : n ≤ fuel) :
    Parses n (procVariableDecl env expr fuel) BuiltAll := by
  intro s fewer
  apply (meets_procType s).bind
  rintro type t ⟨shorter, same⟩
  apply (meets_procIdentifier t).bind
  rintro name u ⟨shorter', same'⟩
  apply (meets_declare u name type).bind
  rintro _ v ⟨same'', took⟩
  have length : v.tokens.length = u.tokens.length := by rw [same'']
  apply (meets_next v).bind
  intro token w read
  have le := read.le
  rw [← read.data, same', same] at took
  have declared : BuiltAll s.data [] w.data := ⟨Trees.nil, took⟩
  have rest {x : State Token Tables} (le : x.tokens.length ≤ w.tokens.length) (token : Token) {nodes : List Node}
      (built : BuiltAll s.data nodes x.data) : Meets (declaratorLoop env expr type fuel token nodes) x
        fun result y => y.tokens.length < s.tokens.length ∧ BuiltAll s.data result y.data := by
    apply (meets_declaratorLoop parses type (by omega) (by omega) token built).mono
    rintro result y ⟨le', result_built⟩
    exact ⟨by omega, result_built⟩
  cases token with
  | comma => exact rest le_rfl .comma declared
  | assign =>
    apply (meets_procInitialiser parses (by omega) name .assign declared).bind
    rintro ⟨token, nodes⟩ x ⟨le', built⟩
    exact rest le' token built
  | semicolon => exact Meets.pure ⟨by omega, declared⟩
  | _ => exact Meets.fail _

theorem parses_procExprStatement (parses : Parses n expr Built) : Parses n (procExprStatement expr) BuiltAll := by
  intro s fewer
  apply (meets_next s).bind
  intro token t read
  split_ifs with empty
  · exact Meets.pure ⟨read.lt (empty ▸ nofun), read.data ▸ BuiltAll.nil _⟩
  · apply (meets_putBack read).bind
    rintro _ u ⟨le, same⟩
    apply (parses u (by omega)).bind
    rintro expr v ⟨shorter, built⟩
    apply (meets_matchToken v .semicolon nofun).bind
    rintro _ w ⟨shorter', same'⟩
    refine Meets.pure ⟨by omega, ?_⟩
    rw [same', ← same]
    exact built.single

theorem meets_procStatement (parses : Parses n expr Built) {fuel : ℕ} (enough : n ≤ fuel)
    {s t : State Token Tables} (fewer : s.tokens.length < n) {token : Token} (read : Read .eof token s t)
    (statements : Statements) :
    Meets (procStatement env expr fuel token statements) t fun result u =>
      u.tokens.length < s.tokens.length ∧ BuiltAll s.data result u.data := by
  apply (meets_putBack read).bind
  rintro _ u ⟨le, same⟩
  have statement : Meets (procExprStatement expr) u fun result v =>
      v.tokens.length < s.tokens.length ∧ BuiltAll s.data result v.data := by
    apply (parses_procExprStatement parses u (by omega)).mono
    rintro result v ⟨shorter, built⟩
    exact ⟨by omega, same ▸ built⟩
  have other : Meets (if token.baseType.isSome ∨ token = .unsigned then procVariableDecl env expr fuel
      else do
        let statement ← procExprStatement expr
        if statements.node ≠ [] ∧ statement = [] then do
          let _ ← next
          pure statement
        else pure statement) u fun result v =>
          v.tokens.length < s.tokens.length ∧ BuiltAll s.data result v.data := by
    split_ifs
    · apply (parses_procVariableDecl parses enough u (by omega)).mono
      rintro result v ⟨shorter, built⟩
      exact ⟨by omega, same ▸ built⟩
    · apply statement.bind
      rintro result v ⟨shorter, built⟩
      split_ifs
      · apply (meets_next v).bind
        intro _ w read
        have le := read.le
        exact Meets.pure ⟨by omega, read.data ▸ built⟩
      · exact Meets.pure ⟨shorter, built⟩
  cases token with
  | identifier => exact statement
  | _ => exact other

/-- What was linked is made of the nodes that were there and of the statement's. -/
theorem Statements.link_built {statements : Statements} {s t u : Tables}
    (built : BuiltAll s (statements.front ++ statements.node) t)
    {statement : List Node} (new : BuiltAll t statement u) :
    BuiltAll s ((statements.link statement).front ++ (statements.link statement).node) u := by
  obtain ⟨front, node⟩ := statements
  cases node with
  | nil =>
    rw [List.append_nil] at built
    exact built.append new
  | cons first rest =>
    have trees : Trees (front ++ [first]) := by
      intro node inside
      apply built.trees
      rcases List.mem_append.mp inside with early | here
      · exact List.mem_append_left _ early
      · exact List.mem_append_right _ (List.mem_singleton.mp here ▸ List.mem_cons_self)
    -- the nodes behind `first` are lost
    have fewer : sizes (front ++ [first]) ≤ sizes (front ++ first :: rest) := by
      simp [sizes]
    have took := built.took
    have kept : BuiltAll s (front ++ [first]) t :=
      ⟨trees, Nat.le_trans (Nat.add_le_add_left fewer _) took.grows, took.bound⟩
    cases statement with
    | nil => exact ⟨trees, kept.took.trans new.took⟩
    | cons => exact kept.append new

theorem meets_parserLoop (parses : Parses n expr Built) {fuel : ℕ} (enough : n ≤ fuel) {rounds : ℕ}
    {s t : State Token Tables} (fewer : s.tokens.length < n) (left : s.tokens.length < rounds) {token : Token}
    (read : Read .eof token s t) {before : Tables} {statements : Statements}
    (built : BuiltAll before (statements.front ++ statements.node) s.data) :
    Meets (parserLoop env expr fuel rounds token statements) t fun result u =>
      BuiltAll before (result.front ++ result.node) u.data := by
  induction rounds generalizing s t token statements with
  | zero => exact absurd left (Nat.not_lt_zero _)
  | succ rounds ih =>
    rw [parserLoop]
    split_ifs
    · exact Meets.pure (read.data ▸ built)
    · apply (meets_procStatement parses enough fewer read statements).bind
      rintro statement u ⟨shorter, new⟩
      have linked := Statements.link_built built new
      dsimp only
      split_ifs
      · exact Meets.pure linked
      · apply (meets_next u).bind
        intro token v read'
        exact ih (by omega) (by omega) read' linked

end Statements

theorem meets_procLine (env : Env) {n : ℕ} {s : State Token Tables} (fewer : s.tokens.length < n) :
    Meets (procLine env n) s fun result t => BuiltAll s.data (result.front ++ result.node) t.data := by
  have parses := parses_procExpr (parses_procCastExpr env n) le_rfl
  apply (meets_next s).bind
  intro token t read
  exact meets_parserLoop parses le_rfl fewer fewer read (BuiltAll.nil _)

theorem parserRun_ne_fuel (env : Env) (vars : List (Option (Name × FinshType))) (tokens : List Token) :
    parserRun env vars tokens ≠ .error .fuel := by
  have meets := @meets_procLine env _ ⟨tokens, ⟨0, vars⟩⟩ (Nat.lt_succ_self tokens.length)
  intro stopped
  rw [parserRun] at stopped
  cases result : procLine env (tokens.length + 1) ⟨tokens, ⟨0, vars⟩⟩ with
  | ok returned =>
    rw [result] at stopped
    cases stopped
  | error stop =>
    rw [result] at stopped
    cases stopped
    exact meets.ne_fuel result

theorem parserRun_trees {env : Env} {vars after : List (Option (Name × FinshType))} {tokens : List Token}
    {trees : List Node} (parsed : parserRun env vars tokens = .ok (trees, after)) :
    Trees trees ∧ sizes trees ≤ finshNodeMax := by
  have meets := @meets_procLine env _ ⟨tokens, ⟨0, vars⟩⟩ (Nat.lt_succ_self tokens.length)
  rw [parserRun] at parsed
  cases result : procLine env (tokens.length + 1) ⟨tokens, ⟨0, vars⟩⟩ with
  | error stop =>
    rw [result] at parsed
    cases parsed
  | ok returned =>
    obtain ⟨built, took⟩ := meets.of_ok result
    rw [result] at parsed
    cases parsed
    have grows := took.grows
    have bound := took.bound
    rw [Nat.zero_max] at bound
    exact ⟨built, by omega⟩

end Finsh
