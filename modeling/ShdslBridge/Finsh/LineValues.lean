import ShdslBridge.Finsh.CompilerCorrect
import ShdslBridge.Finsh.LineTrees

/-! # The value of a line

A line of expression statements goes through the parser, the compiler and the machine. The trees that the
parser links are those that the compiler expects, so what the machine leaves is the value that the statements
have in C.
-/

namespace Finsh

open TokenParser

section Trees

variable (table : VarTable)

mutual

theorem Expr.size_node (e : Expr) (sibling : Node) : (e.node table sibling).size = e.nodes + sibling.size := by
  cases e with
  | int | long | var | pre | post =>
    simp only [Expr.node, Node.size, Expr.nodes]
    omega
  | bin op left right =>
    simp only [Expr.node, Node.size, Expr.nodes, left.size_node, right.size_node]
    omega
  | bitwise e | minus e | assign i e =>
    simp only [Expr.node, Node.size, Expr.nodes, e.size_node]
    omega
  | call entry func args =>
    simp only [Expr.node, Node.size, Expr.nodes, size_argNodes args]
    omega

theorem size_argNodes (es : List Expr) : (argNodes table es).size = nodesOf es := by
  cases es with
  | nil => rfl
  | cons e rest => rw [argNodes, e.size_node, size_argNodes rest, nodesOf]

end

/-- The trees of the statements take as many nodes as the expressions. -/
theorem sizes_nodes (es : List Expr) : sizes (es.map (·.node table .nil)) = nodesOf es := by
  induction es with
  | nil => rfl
  | cons e rest ih => rw [List.map_cons, sizes, List.map_cons, List.sum_cons, ← sizes, ih, e.size_node, nodesOf, Node.size,
    Nat.add_zero]

theorem chain_nodes (es : List Expr) : chain (es.map (·.node table .nil)) = argNodes table es := by
  induction es with
  | nil => rfl
  | cons e rest ih =>
    rw [List.map_cons, chain, ih, argNodes]
    cases e <;> rfl

end Trees

section Lines

variable {env : Env} {vars : List (Option (Name × FinshType))} {statements : List (List Token × Node)}

def exprLine (statements : List (List Token × Node)) : List (List Token × List Node) :=
  statements.map fun statement => (statement.1 ++ [.semicolon], [statement.2])

theorem line_of_derives
    (derives : ∀ statement ∈ statements, Derives (env.lookup vars) false .assign statement.1 [statement.2]) :
    Line env false vars (exprLine statements) vars ∧ Chained (.trees 1) (exprLine statements) := by
  induction statements with
  | nil => exact ⟨.nil, trivial⟩
  | cons statement rest ih =>
    obtain ⟨line, chained⟩ := ih fun other member => derives other (List.mem_cons_of_mem _ member)
    have first := derives statement List.mem_cons_self
    refine ⟨.cons (.expr first) line, le_rfl, ?_⟩
    have shape : statement.1 ++ [.semicolon] ≠ [.semicolon] := by
      obtain ⟨token, others, tokens, -⟩ := first.first (List.cons_ne_nil _ _)
      rw [tokens]
      simp
    rw [behindStatement, if_neg shape]
    exact chained

theorem parserRun_exprLine {first : List Token × Node}
    (derives : ∀ statement ∈ first :: statements, Derives (env.lookup vars) false .assign statement.1 [statement.2])
    (few : sizes ((first :: statements).map Prod.snd) ≤ finshNodeMax) :
    ∃ declared, parserRun env vars ((exprLine (first :: statements)).flatMap Prod.fst) =
      .ok ((first :: statements).map Prod.snd, declared) := by
  obtain ⟨line, chained⟩ := line_of_derives fun other member => derives other (List.mem_cons_of_mem _ member)
  have same (list : List (List Token × Node)) : (exprLine list).flatMap Prod.snd = list.map Prod.snd := by
    induction list with
    | nil => rfl
    | cons _ _ ih => exact congrArg _ ih
  have statement : Statement env false vars vars (first.1 ++ [Token.semicolon]) [first.2] :=
    .expr (derives first List.mem_cons_self)
  have text : (exprLine (first :: statements)).flatMap Prod.fst =
      (first.1 ++ [Token.semicolon]) ++ (exprLine statements).flatMap Prod.fst := rfl
  rw [List.map_cons, ← List.singleton_append, sizes_append, ← same] at few
  rw [text, List.map_cons, ← same]
  generalize first.1 ++ [Token.semicolon] = tokens at statement
  generalize exprLine statements = rest at line chained few
  have accepts := accepts_procExpr env (tokens.length + (rest.flatMap Prod.fst).length + 1)
  have one := statement.tokens_pos
  have round := @parserLoop_round env _ _ vars vars tokens (rest.flatMap Prod.fst) [first.2] 0 accepts statement
    (by rw [List.length_append]; exact Nat.lt_succ_self _) (by omega) ⟨[], []⟩ (List.cons_ne_nil _ _)
    (tokens.length + (rest.flatMap Prod.fst).length)
  obtain ⟨last, state, ran, kept⟩ := @Line.taken _ _ _ _ _ (0 + sizes [first.2]) rest accepts line _ chained
    ⟨[], [first.2]⟩ (List.cons_ne_nil _ _) rfl (by omega) (tokens.length + (rest.flatMap Prod.fst).length) (by omega)
    (by omega)
  refine ⟨state.data.vars, ?_⟩
  rw [parserRun, List.length_append, procLine, round.trans ran]
  change Except.ok (last.front ++ last.node, state.data.vars) = _
  rw [kept]
  rfl

end Lines

/-- What a line of expression statements computes is what the statements mean in C, if they have few enough nodes, their
code fits, and no call is the first operand of an operator. -/
theorem line_value {env : Env} {vars : List (Option (Name × FinshType))} (table : VarTable)
    (first : List Token × Expr) (others : List (List Token × Expr))
    (derives : ∀ statement ∈ first :: others,
      Derives (env.lookup vars) false .assign statement.1 [statement.2.node table .nil])
    (small : nodesOf ((first :: others).map Prod.snd) ≤ finshNodeMax)
    (typed : TypedArgs ((first :: others).map Prod.snd))
    (fits : (encode (statementsCode table first.2 (others.map Prod.snd))).length ≤ finshTextMax) {W : Type}
    (effects : Effects W) (s : Vm W) {store after : Store W} {v : BitVec 32} (rep : Represents table s store)
    (value : evalStatements effects first.2 (others.map Prod.snd) store = some (v, after)) :
    ∃ trees declared t,
      parserRun env vars ((first :: others).flatMap fun statement => statement.1 ++ [.semicolon]) =
        .ok (trees, declared) ∧
      compileAndRun effects.functions (chain trees) s = some t ∧ t.get 0 .dword = v ∧ t.sp = 1 ∧
        Represents table t after := by
  have trees : (((first :: others).map fun statement => (statement.1, statement.2.node table .nil)).map Prod.snd) =
      ((first :: others).map Prod.snd).map (·.node table .nil) := by
    rw [List.map_map, List.map_map]
    rfl
  have parsed := @parserRun_exprLine env vars
    (others.map fun statement => (statement.1, statement.2.node table .nil)) (first.1, first.2.node table .nil)
  rw [← List.map_cons (f := fun statement : List Token × Expr => (statement.1, statement.2.node table .nil)), trees,
    sizes_nodes, exprLine, List.map_map, List.flatMap_map] at parsed
  obtain ⟨declared, parsed⟩ := parsed (List.forall_mem_map.mpr derives) small
  have room : Room { clearStack s with sp := 0 } (statementsCode table first.2 (others.map Prod.snd)) := by
    have enough : finshTextMax ≤ 5 * finshStackMax := by decide
    rw [Room]
    dsimp only
    omega
  obtain ⟨t, run, leaves, rep⟩ :=
    exec_statementsCode first.2 (others.map Prod.snd) small room (rep.congr rfl rfl) value
  refine ⟨_, declared, t, parsed, ?_, leaves.get 0 v rfl, leaves.sp, rep⟩
  rw [chain_nodes, compileAndRun, compilerRun, typeCheck_argNodes]
  change ((compileStatements _).bind _) = _
  rw [List.map_cons, compileStatements_checked _ _ typed, Option.bind_some, if_pos fits, vmRun_encode _ fits, run]

/-- `1; 3;` -/
theorem line_value_two : ∃ trees declared t,
    parserRun emptyEnv (tableOf []) [.valueInt 1, .semicolon, .valueInt 3, .semicolon] = .ok (trees, declared) ∧
    compileAndRun (Effects.functions fun _ _ _ => (0, ())) (chain trees) ⟨fun _ => 0, fun _ => 0, 0, ()⟩ = some t ∧
    t.get 0 .dword = 3 ∧ t.sp = 1 ∧ Represents ⟨0x20000000, fun _ => false⟩ t ⟨fun _ => 0, ()⟩ := by
  have start : Represents ⟨0x20000000, fun _ => false⟩ ⟨fun _ => 0, fun _ => 0, 0, ()⟩ ⟨fun _ => 0, ()⟩ :=
    ⟨fun _ => rfl, rfl⟩
  apply line_value _ ([.valueInt 1], .int 1) [([.valueInt 3], .int 3)] _ (by decide) ⟨trivial, trivial, trivial⟩
    (by decide) _ _ start rfl
  refine List.forall_mem_cons.mpr ⟨derives_valueInt _ _ 1, List.forall_mem_cons.mpr ⟨derives_valueInt _ _ 3, ?_⟩⟩
  exact List.forall_mem_nil _

end Finsh
