import ShdslBridge.Finsh.ParserComplete

/-! # The trees of a line

`Line` says which statements a line consists of, with the trees that belong to them: one for an expression,
and one for each initialiser. `finsh_parser_run` keeps them all if `Keeps` holds. It stops behind a first
statement without a tree, it loses the trees behind the first of a declaration if another statement follows,
and it takes a token behind an empty statement.
-/

namespace Finsh

open TokenParser

section Grammar

variable (env : Env) (loose : Bool)

/-- A declarator, with the variables before and behind it. -/
inductive Declarator (type : FinshType) (vars after : List (Option (Name × FinshType))) : List Token → List Node → Prop
  | plain {name : Name} : varInsert vars (name.take finshNameMax) type = some after →
    Declarator type vars after [.identifier name] []
  | initialised {name : Name} {symbol : Symbol} {tokens : List Token} {node : Node} :
    varInsert vars (name.take finshNameMax) type = some after →
    env.lookup after (name.take finshNameMax) = some symbol → Derives (env.lookup after) loose .assign tokens [node] →
    Declarator type vars after (.identifier name :: .assign :: tokens) [sysNode .assign (leaf (.id symbol)) node]

/-- The declarators behind the first one. -/
inductive Declarators (type : FinshType) : List (Option (Name × FinshType)) → List (Option (Name × FinshType)) →
    List Token → List Node → Prop
  | nil {vars : List (Option (Name × FinshType))} : Declarators type vars vars [] []
  | cons {vars mid after : List (Option (Name × FinshType))} {front back : List Token} {nodes others : List Node} :
    Declarator env loose type vars mid front nodes → Declarators type mid after back others →
    Declarators type vars after (.comma :: front ++ back) (nodes ++ others)

inductive Statement (vars : List (Option (Name × FinshType))) : List (Option (Name × FinshType)) → List Token →
    List Node → Prop
  | empty : Statement vars vars [.semicolon] []
  | expr {tokens : List Token} {node : Node} : Derives (env.lookup vars) loose .assign tokens [node] →
    Statement vars vars (tokens ++ [.semicolon]) [node]
  | decl {name front back : List Token} {type : FinshType} {mid after : List (Option (Name × FinshType))}
    {nodes others : List Node} : TypeName name type → Declarator env loose type vars mid front nodes →
    Declarators env loose type mid after back others →
    Statement vars after (name ++ front ++ back ++ [.semicolon]) (nodes ++ others)

inductive Line : List (Option (Name × FinshType)) →
    List (List Token × List Node) → List (Option (Name × FinshType)) → Prop
  | nil {vars : List (Option (Name × FinshType))} : Line vars [] vars
  | cons {vars mid after : List (Option (Name × FinshType))} {tokens : List Token} {nodes : List Node}
    {rest : List (List Token × List Node)} : Statement env loose vars mid tokens nodes → Line mid rest after →
    Line vars ((tokens, nodes) :: rest) after

end Grammar

/-- What the loop has got behind: a number of trees, or an empty statement, behind which it takes a token. -/
inductive Behind
  | trees (count : ℕ)
  | empty

/-- The trees that the last node of the chain stands for. -/
def Behind.count : Behind → ℕ
  | trees count => count
  | empty => 1

def Behind.left (tokens : List Token) : Behind → List Token
  | trees _ => tokens
  | empty => tokens.tail

def behindStatement (tokens : List Token) (nodes : List Node) : Behind :=
  if tokens = [.semicolon] then .empty else .trees (max 1 nodes.length)

/-- The loop keeps the trees of the statements that follow. -/
def Chained : Behind → List (List Token × List Node) → Prop
  | _, [] => True
  | .empty, (tokens, _) :: rest => tokens = [.semicolon] ∧ Chained (.trees 1) rest
  | .trees count, (tokens, nodes) :: rest => count ≤ 1 ∧ Chained (behindStatement tokens nodes) rest

/-- The loop keeps the trees of a line. -/
def Keeps : List (List Token × List Node) → Prop
  | [] => True
  | (_, nodes) :: rest => if nodes = [] then rest.flatMap Prod.snd = [] else Chained (.trees nodes.length) rest

section Declarations

variable {env : Env} {expr : Parser Node} {n : ℕ}

/-- The parser takes every expression in front of fewer than `n` tokens. -/
def Accepts (env : Env) (n : ℕ) (expr : Parser Node) : Prop :=
  ∀ ⦃vars : List (Option (Name × FinshType))⦄ ⦃tokens rest : List Token⦄ ⦃node : Node⦄,
    Derives (env.lookup vars) false .assign tokens [node] → (tokens ++ rest).length < n → Follows .assign rest →
    Gives expr vars tokens rest node node.size

theorem accepts_procExpr (env : Env) (n : ℕ) : Accepts env n (procExpr (procCastExpr env n) n) :=
  fun _ _ _ _ derives fewer follows => derives.accepted _ rfl n n n _ fewer fewer fewer follows

variable {vars after : List (Option (Name × FinshType))} {tokens front back rest others : List Token}
  {nodes kept : List Node} {type : FinshType} {token : Token} {k : ℕ} {name : Name}

theorem declare_bind {α : Type} (inserted : varInsert vars name type = some after) (f : Unit → Parser α) :
    (declare name type >>= f) ⟨tokens, ⟨k, vars⟩⟩ = f () ⟨tokens, ⟨k, after⟩⟩ := by
  have data : (getData : Parser Tables) ⟨tokens, ⟨k, vars⟩⟩ = .ok (⟨k, vars⟩, ⟨tokens, ⟨k, vars⟩⟩) := rfl
  have declared : declare name type ⟨tokens, ⟨k, vars⟩⟩ = .ok ((), ⟨tokens, ⟨k, after⟩⟩) := by
    rw [declare, bind_of_ok data]
    dsimp only
    rw [inserted]
    rfl
  exact bind_of_ok declared

theorem procInitialiser_apply (accepts : Accepts env n expr)
    {symbol : Symbol} (found : env.lookup vars name = some symbol)
    {node : Node} (derives : Derives (env.lookup vars) false .assign tokens [node])
    (fewer : (tokens ++ token :: others).length < n) (follows : Follows .assign (token :: others))
    (room : k + sizes [sysNode .assign (leaf (.id symbol)) node] ≤ finshNodeMax) :
    procInitialiser env expr name .assign kept ⟨tokens ++ token :: others, ⟨k, vars⟩⟩ =
      .ok ((token, kept ++ [sysNode .assign (leaf (.id symbol)) node]),
        ⟨others, ⟨k + sizes [sysNode .assign (leaf (.id symbol)) node], vars⟩⟩) := by
  have size : (sysNode .assign (leaf (.id symbol)) node).size = 1 + node.size + 1 :=
    ((Node.isTree_leaf (.id symbol) rfl).binary derives.tree .assign rfl).2
  rw [sizes_single, size] at room ⊢
  have taken := accepts derives fewer follows k (by omega)
  rw [procInitialiser, if_pos rfl, bind_of_ok taken, bind_of_ok (nodeNewId_apply found (by omega)),
    bind_of_ok (makeSysNode_apply (by omega) _ _ _), next_bind, Nat.add_comm 1 node.size]
  rfl

theorem follows_separator (separator : token = .comma ∨ token = .semicolon) : Follows .assign (token :: others) := by
  rcases separator with rfl | rfl <;> exact ⟨_, _, rfl, nofun, rfl⟩

theorem Declarator.taken (accepts : Accepts env n expr) (declarator : Declarator env false type vars after front nodes)
    (fewer : (front ++ token :: others).length < n) (separator : token = .comma ∨ token = .semicolon)
    (room : k + sizes nodes ≤ finshNodeMax) :
    ∃ name first behind, front ++ token :: others = .identifier name :: first :: behind ∧
      (first = .assign ∨ first = token ∧ behind = others ∧ nodes = []) ∧
      varInsert vars (name.take finshNameMax) type = some after ∧ ∀ kept,
        procInitialiser env expr (name.take finshNameMax) first kept ⟨behind, ⟨k, after⟩⟩ =
          .ok ((token, kept ++ nodes), ⟨others, ⟨k + sizes nodes, after⟩⟩) := by
  cases declarator with
  | @plain name inserted =>
    refine ⟨name, token, others, rfl, .inr ⟨rfl, rfl, rfl⟩, inserted, fun kept => ?_⟩
    have plain : ¬ token = .assign := by rcases separator with rfl | rfl <;> rintro ⟨⟩
    rw [procInitialiser, if_neg plain, List.append_nil]
    rfl
  | @initialised name symbol tokens node inserted found derives =>
    refine ⟨name, .assign, tokens ++ token :: others, rfl, .inl rfl, inserted, fun kept => ?_⟩
    rw [List.cons_append, List.cons_append, List.length_cons, List.length_cons] at fewer
    exact procInitialiser_apply accepts found derives (by omega) (follows_separator separator) room

theorem Declarators.next (declarators : Declarators env false type vars after back nodes) (rest : List Token) :
    ∃ token others, back ++ .semicolon :: rest = token :: others ∧ (token = .comma ∨ token = .semicolon) := by
  cases declarators with
  | nil => exact ⟨_, _, rfl, .inr rfl⟩
  | cons => exact ⟨_, _, rfl, .inl rfl⟩

theorem Declarators.taken (accepts : Accepts env n expr)
    (declarators : Declarators env false type vars after back nodes)
    {rounds : ℕ} (enough : back.length < rounds) (fewer : (back ++ .semicolon :: rest).length < n)
    (split : back ++ .semicolon :: rest = token :: others) (room : k + sizes nodes ≤ finshNodeMax) :
    declaratorLoop env expr type rounds token kept ⟨others, ⟨k, vars⟩⟩ =
      .ok (kept ++ nodes, ⟨rest, ⟨k + sizes nodes, after⟩⟩) := by
  induction declarators generalizing rounds token others kept k with
  | nil =>
    cases split
    cases rounds with
    | zero => exact absurd enough (Nat.not_lt_zero _)
    | succ rounds =>
      rw [List.append_nil, declaratorLoop, if_neg (by rintro ⟨⟩), if_pos rfl]
      rfl
  | @cons vars mid after front back nodes more declarator declarators ih =>
    cases split
    cases rounds with
    | zero => exact absurd enough (Nat.not_lt_zero _)
    | succ rounds =>
      obtain ⟨token, others, behind, separator⟩ := declarators.next rest
      rw [List.cons_append, List.length_cons, List.length_append] at enough
      rw [List.append_assoc, List.cons_append, List.length_cons, List.length_append, List.length_append,
        List.length_cons] at fewer
      rw [sizes_append] at room ⊢
      have length : (token :: others).length = back.length + (rest.length + 1) := by
        rw [← behind, List.length_append]; rfl
      have shorter : (front ++ token :: others).length < n := by rw [List.length_append]; omega
      obtain ⟨name, first, tokens, starts, -, inserted, initialiser⟩ := declarator.taken accepts shorter separator
        (by omega : k + sizes nodes ≤ finshNodeMax)
      have left : declaratorLoop env expr type rounds token (kept ++ nodes) ⟨others, ⟨k + sizes nodes, mid⟩⟩ =
          .ok (kept ++ nodes ++ more, ⟨rest, ⟨k + sizes nodes + sizes more, after⟩⟩) :=
        ih (by omega) (by rw [behind]; omega) behind (by omega)
      have tokens_split : (front ++ back) ++ .semicolon :: rest = .identifier name :: first :: tokens := by
        rw [List.append_assoc, behind, starts]
      change declaratorLoop env expr type (rounds + 1)
        .comma kept ⟨(front ++ back) ++ .semicolon :: rest, ⟨k, vars⟩⟩ = _
      rw [declaratorLoop, if_pos rfl, tokens_split]
      change (declare (name.take finshNameMax) type >>= _) _ = _
      rw [declare_bind inserted, next_bind, bind_of_ok (initialiser kept), ← List.append_assoc, ← Nat.add_assoc]
      exact left

theorem TypeName.first {name : List Token} (named : TypeName name type) :
    ∃ token others, name = token :: others ∧ (token.baseType.isSome ∨ token = .unsigned) := by
  have base {name : List Token} {type : FinshType} (named : BaseName name type) :
      ∃ token others, name = token :: others ∧ (token.baseType.isSome ∨ token = .unsigned) := by
    cases named with
    | base found => exact ⟨_, _, rfl, .inl (by rw [found]; rfl)⟩
    | unsigned => exact ⟨_, _, rfl, .inr rfl⟩
  cases named with
  | base named => exact base named
  | pointer named =>
    obtain ⟨token, others, rfl, first⟩ := base named
    exact ⟨token, _, rfl, first⟩

theorem procVariableDecl_apply (accepts : Accepts env n expr) {name : List Token} (named : TypeName name type)
    {mid : List (Option (Name × FinshType))} {more : List Node}
    (declarator : Declarator env false type vars mid front nodes)
    (declarators : Declarators env false type mid after back more)
    (fewer : (name ++ (front ++ (back ++ .semicolon :: rest))).length < n)
    (room : k + sizes (nodes ++ more) ≤ finshNodeMax) :
    procVariableDecl env expr n ⟨name ++ (front ++ (back ++ .semicolon :: rest)), ⟨k, vars⟩⟩ =
      .ok (nodes ++ more, ⟨rest, ⟨k + sizes (nodes ++ more), after⟩⟩) := by
  obtain ⟨token, others, behind, separator⟩ := declarators.next rest
  rw [List.length_append, List.length_append, List.length_append, List.length_cons] at fewer
  rw [sizes_append] at room ⊢
  have length : (token :: others).length = back.length + (rest.length + 1) := by
    rw [← behind, List.length_append, List.length_cons]
  have shorter : (front ++ token :: others).length < n := by rw [List.length_append]; omega
  obtain ⟨id, first, tokens, starts, shape, inserted, initialiser⟩ := declarator.taken accepts shorter separator
    (by omega : k + sizes nodes ≤ finshNodeMax)
  have left : declaratorLoop env expr type n token nodes ⟨others, ⟨k + sizes nodes, mid⟩⟩ =
      .ok (nodes ++ more, ⟨rest, ⟨k + sizes nodes + sizes more, after⟩⟩) :=
    declarators.taken accepts (by omega) (by rw [behind]; omega) behind (by omega)
  have not_eof : Token.identifier id ≠ .eof := nofun
  have not_mul : Token.identifier id ≠ .mul := nofun
  rw [behind, starts, procVariableDecl, bind_of_ok (procType_apply named not_eof not_mul)]
  change (declare (id.take finshNameMax) type >>= _) _ = _
  rw [declare_bind inserted, next_bind, ← Nat.add_assoc]
  rcases shape with rfl | ⟨rfl, rfl, rfl⟩
  · dsimp only
    rw [bind_of_ok (initialiser [])]
    exact left
  · cases n with
    | zero => exact absurd shorter (Nat.not_lt_zero _)
    | succ n => rcases separator with rfl | rfl <;> exact left

/-- An expression with its `;`. -/
theorem procExprStatement_apply (accepts : Accepts env n expr) {node : Node}
    (derives : Derives (env.lookup vars) false .assign tokens [node])
    (fewer : (tokens ++ .semicolon :: rest).length < n)
    (room : k + node.size ≤ finshNodeMax) : procExprStatement expr ⟨tokens ++ .semicolon :: rest, ⟨k, vars⟩⟩ =
      .ok ([node], ⟨rest, ⟨k + node.size, vars⟩⟩) := by
  have taken := accepts derives fewer (follows_separator (.inr rfl)) k room
  obtain ⟨token, others, rfl, begins⟩ := derives.first (List.cons_ne_nil _ _)
  obtain ⟨some, -, -, other, -⟩ := Token.begins_ne begins
  rw [procExprStatement, List.cons_append, next_bind, if_neg other, putBack_bind some]
  rw [List.cons_append] at taken
  rw [bind_of_ok taken, bind_of_ok matchToken_apply]
  rfl

theorem Statement.taken (accepts : Accepts env n expr) (statement : Statement env false vars after tokens nodes)
    (fewer : (tokens ++ rest).length < n) (room : k + sizes nodes ≤ finshNodeMax) :
    ∃ token others, tokens = token :: others ∧ token ≠ .eof ∧ token ≠ .bad ∧ ∀ statements : Statements,
      procStatement env expr n token statements ⟨others ++ rest, ⟨k, vars⟩⟩ =
        .ok (nodes, ⟨if statements.node = [] then rest else (behindStatement tokens nodes).left rest,
            ⟨k + sizes nodes, after⟩⟩) := by
  cases statement with
  | empty =>
    refine ⟨_, _, rfl, nofun, nofun, fun statements => ?_⟩
    have some : Token.semicolon ≠ .eof := nofun
    have empty : procExprStatement expr ⟨.semicolon :: rest, ⟨k, vars⟩⟩ = .ok ([], ⟨rest, ⟨k, vars⟩⟩) := rfl
    rw [procStatement.eq_def, List.nil_append, putBack_bind some]
    rw [if_neg (by decide)]
    change (procExprStatement expr >>= _) _ = _
    rw [bind_of_ok empty]
    cases statements.node with
    | nil => rfl
    | cons =>
      rw [behindStatement, if_pos rfl]
      cases rest <;> rfl
  | @expr _ node derives =>
    rw [List.append_assoc, List.singleton_append] at fewer
    rw [sizes_single] at room ⊢
    have ran := procExprStatement_apply accepts derives fewer room
    obtain ⟨token, others, rfl, begins⟩ := derives.first (List.cons_ne_nil _ _)
    obtain ⟨some, good, -, other, base, signed⟩ := Token.begins_ne begins
    have shape : token :: others ++ [.semicolon] ≠ [.semicolon] := fun same => other (List.cons.inj same).1
    refine ⟨token, others ++ [.semicolon], rfl, some, good, fun statements => ?_⟩
    rw [procStatement.eq_def, putBack_bind some, List.append_assoc,
      List.singleton_append, behindStatement, if_neg shape, Behind.left, ite_self]
    rw [List.cons_append] at ran
    have untyped : ¬ (token.baseType.isSome ∨ token = .unsigned) := by
      rw [base]
      exact fun typed => typed.elim nofun signed
    rw [if_neg untyped]
    have kept : (procExprStatement expr >>= fun statement =>
        if statements.node ≠ [] ∧ statement = [] then next >>= fun _ => pure statement else pure statement)
          ⟨token :: (others ++ .semicolon :: rest), ⟨k, vars⟩⟩ = .ok ([node], ⟨rest, ⟨k + node.size, vars⟩⟩) := by
      rw [bind_of_ok ran, if_neg (fun empty => List.cons_ne_nil _ _ empty.2)]
      rfl
    cases token <;> first | exact ran | exact kept
  | @decl name front back type mid _ nodes more named declarator declarators =>
    simp only [List.append_assoc, List.singleton_append] at fewer
    have ran := procVariableDecl_apply accepts named declarator declarators fewer room
    obtain ⟨token, others, rfl, base⟩ := named.first
    have kind : token ≠ .eof ∧ token ≠ .bad ∧ token ≠ .semicolon ∧ ∀ name, token ≠ .identifier name := by
      rcases base with base | rfl
      · cases token <;> first | exact Bool.noConfusion base | exact ⟨nofun, nofun, nofun, nofun⟩
      · exact ⟨nofun, nofun, nofun, nofun⟩
    obtain ⟨some, good, other, plain⟩ := kind
    refine ⟨token, others ++ front ++ back ++ [.semicolon], rfl, some, good, fun statements => ?_⟩
    have shape : token :: others ++ front ++ back ++ [.semicolon] ≠ [.semicolon] :=
      fun same => other (List.cons.inj same).1
    simp only [List.append_assoc, List.cons_append] at ran shape ⊢
    rw [procStatement.eq_def, putBack_bind some, behindStatement, if_neg shape, Behind.left, ite_self, if_pos base]
    cases token <;> first | exact absurd rfl (plain _) | exact ran

/-- The only statement that is a `;`. -/
theorem Statement.of_semicolon (statement : Statement env false vars after [.semicolon] nodes) :
    nodes = [] ∧ after = vars := by
  generalize whole : [Token.semicolon] = tokens at statement
  cases statement with
  | empty => exact ⟨rfl, rfl⟩
  | expr derives =>
    obtain ⟨token, others, rfl, -⟩ := derives.first (List.cons_ne_nil _ _)
    exact absurd (congrArg List.length whole) (by simp)
  | decl named =>
    obtain ⟨token, others, rfl, -⟩ := named.first
    exact absurd (congrArg List.length whole) (by simp)

theorem Statement.tokens_pos (statement : Statement env false vars after tokens nodes) : 0 < tokens.length := by
  cases statement <;> simp

theorem parserLoop_round (accepts : Accepts env n expr) (statement : Statement env false vars after tokens nodes)
    (fewer : (tokens ++ rest).length < n) (room : k + sizes nodes ≤ finshNodeMax) {statements : Statements}
    (found : (statements.link nodes).node ≠ []) (rounds : ℕ) :
    (next >>= fun token => parserLoop env expr n (rounds + 1) token statements) ⟨tokens ++ rest, ⟨k, vars⟩⟩ =
      (next >>= fun token => parserLoop env expr n rounds token (statements.link nodes))
        ⟨if statements.node = [] then rest else (behindStatement tokens nodes).left rest,
          ⟨k + sizes nodes, after⟩⟩ := by
  obtain ⟨token, others, rfl, some, good, taken⟩ := statement.taken accepts fewer room
  rw [List.cons_append, next_bind, parserLoop, if_neg (fun last => last.elim some good), bind_of_ok (taken statements),
    if_neg found]

theorem parserLoop_end {rounds : ℕ} (left : 0 < rounds) (statements : Statements) (data : Tables) :
    (next >>= fun token => parserLoop env expr n rounds token statements) ⟨[], data⟩ =
    .ok (statements, ⟨[], data⟩) := by
  cases rounds with
  | zero => exact absurd left (Nat.lt_irrefl _)
  | succ rounds => rfl

theorem Statements.link_single {statements : Statements} {node : Node} (single : statements.node = [node])
    (nodes : List Node) : (statements.link nodes).front ++ (statements.link nodes).node =
      statements.front ++ statements.node ++ nodes ∧ (statements.link nodes).node.length = max 1 nodes.length := by
  rw [Statements.link.eq_def, single]
  cases nodes with
  | nil => exact ⟨(List.append_nil _).symm, rfl⟩
  | cons => exact ⟨rfl, (Nat.max_eq_right (Nat.le_add_left 1 _)).symm⟩

theorem Line.taken {statements : List (List Token × List Node)} (accepts : Accepts env n expr)
    (line : Line env false vars statements after) {behind : Behind} (chained : Chained behind statements)
    {before : Statements} (found : before.node ≠ []) (count : before.node.length = behind.count)
    (room : k + sizes (statements.flatMap Prod.snd) ≤ finshNodeMax) {rounds : ℕ}
    (fewer : (statements.flatMap Prod.fst).length < n) (enough : (statements.flatMap Prod.fst).length < rounds) :
    ∃ last state, (next >>= fun token => parserLoop env expr n rounds token before)
        ⟨behind.left (statements.flatMap Prod.fst), ⟨k, vars⟩⟩ = .ok (last, state) ∧
      last.front ++ last.node = before.front ++ before.node ++ statements.flatMap Prod.snd := by
  induction line generalizing behind before k rounds with
  | @nil vars =>
    have stopped := @parserLoop_end env expr n rounds (Nat.zero_lt_of_lt enough) before ⟨k, vars⟩
    refine ⟨before, ⟨[], ⟨k, vars⟩⟩, ?_, (List.append_nil _).symm⟩
    cases behind <;> exact stopped
  | @cons vars mid after tokens nodes rest statement line ih =>
    simp only [List.flatMap_cons, List.length_append, sizes_append] at fewer enough room ⊢
    cases behind with
    | empty =>
      obtain ⟨rfl, chained⟩ := chained
      obtain ⟨rfl, rfl⟩ := statement.of_semicolon
      exact ih chained found count (by omega) (by omega) (by omega)
    | trees number =>
      obtain ⟨few, chained⟩ := chained
      have some := List.length_pos_iff.mpr found
      rw [Behind.count] at count
      obtain ⟨node, single⟩ := List.length_eq_one_iff.mp (by omega : before.node.length = 1)
      obtain ⟨linked, length⟩ := Statements.link_single single nodes
      have link_found : (before.link nodes).node ≠ [] := List.length_pos_iff.mp (by omega)
      cases rounds with
      | zero => exact absurd enough (Nat.not_lt_zero _)
      | succ rounds =>
        have round := @parserLoop_round env expr n vars mid tokens (rest.flatMap Prod.fst) nodes k accepts statement
          (by rw [List.length_append]; omega) (by omega) before link_found rounds
        have count_left : (before.link nodes).node.length = (behindStatement tokens nodes).count := by
          rw [length, behindStatement]
          split_ifs with empty
          · cases empty
            rw [statement.of_semicolon.1]
            rfl
          · rfl
        have one := statement.tokens_pos
        obtain ⟨last, state, ran, kept⟩ := @ih (k + sizes nodes) _ chained _ link_found count_left (by omega) rounds
          (by omega) (by omega)
        refine ⟨last, state, ?_, by rw [kept, linked, List.append_assoc]⟩
        rw [Behind.left, round, if_neg found]
        exact ran
end Declarations

section Lines

variable {env : Env} {vars after : List (Option (Name × FinshType))} {statements : List (List Token × List Node)}

/-- The trees of a line are those of its statements, in order, if the loop keeps them. -/
theorem parserRun_of_keeps (line : Line env false vars statements after)
    (few : sizes (statements.flatMap Prod.snd) ≤ finshNodeMax) (keeps : Keeps statements) :
    ∃ declared, parserRun env vars (statements.flatMap Prod.fst) = .ok (statements.flatMap Prod.snd, declared) := by
  have returned {last : Statements} {state : State Token Tables}
      (ran : procLine env ((statements.flatMap Prod.fst).length + 1) ⟨statements.flatMap Prod.fst, ⟨0, vars⟩⟩ =
        .ok (last, state)) :
      parserRun env vars (statements.flatMap Prod.fst) = .ok (last.front ++ last.node, state.data.vars) := by
    rw [parserRun, ran]
    rfl
  have accepts := accepts_procExpr env ((statements.flatMap Prod.fst).length + 1)
  cases line with
  | nil => exact ⟨vars, rfl⟩
  | @cons _ mid _ tokens nodes rest statement line =>
    have first : Statements.link ⟨[], []⟩ nodes = ⟨[], nodes⟩ := rfl
    simp only [List.flatMap_cons, List.length_append, sizes_append] at accepts few returned ⊢
    have room : 0 + sizes nodes ≤ finshNodeMax := by omega
    have fewer : (tokens ++ rest.flatMap Prod.fst).length < tokens.length + (rest.flatMap Prod.fst).length + 1 := by
      rw [List.length_append]
      exact Nat.lt_succ_self _
    by_cases none : nodes = []
    · rw [Keeps, if_pos none] at keeps
      obtain ⟨token, others, rfl, some, good, taken⟩ := statement.taken accepts fewer room
      have stopped : procLine env ((token :: others).length + (rest.flatMap Prod.fst).length + 1)
          ⟨token :: others ++ rest.flatMap Prod.fst, ⟨0, vars⟩⟩ =
            .ok (⟨[], []⟩, ⟨rest.flatMap Prod.fst, ⟨0 + sizes nodes, mid⟩⟩) := by
        rw [procLine, List.cons_append, next_bind, parserLoop, if_neg (fun last => last.elim some good),
          bind_of_ok (taken _), first, if_pos none, none]
        rfl
      refine ⟨mid, (returned stopped).trans ?_⟩
      rw [keeps, none]
    · rw [Keeps, if_neg none] at keeps
      have one := statement.tokens_pos
      have round := @parserLoop_round env _ _ vars mid tokens (rest.flatMap Prod.fst)
          nodes 0 accepts statement fewer room
        ⟨[], []⟩ none (tokens.length + (rest.flatMap Prod.fst).length)
      obtain ⟨last, state, ran, kept⟩ :=
        @Line.taken _ _ _ _ _ (0 + sizes nodes) rest accepts line _ keeps ⟨[], nodes⟩ none
        rfl (by omega) (tokens.length + (rest.flatMap Prod.fst).length) (by omega) (by omega)
      refine ⟨state.data.vars, (returned (round.trans ran)).trans ?_⟩
      rw [kept]
      rfl

end Lines

/-- There are no system variables and functions. -/
def emptyEnv : Env := ⟨0x20000000, fun _ => none, fun _ => none⟩

def tableOf (declared : List (Name × FinshType)) : List (Option (Name × FinshType)) :=
  declared.map some ++ List.replicate (finshVariableMax - declared.length) none

/-- The tree of a literal that is given to the variable in entry `i`. -/
def initialTree (i : ℕ) (value : BitVec 32) : Node :=
  sysNode .assign (leaf (.id (.var .int (emptyEnv.table + 24 * BitVec.ofNat 32 i)))) (leaf (.valueInt value))

theorem derives_valueInt (lookup : Name → Option Symbol) (loose : Bool) (value : BitVec 32) :
    Derives lookup loose .assign [.valueInt value] [leaf (.valueInt value)] := by
  have literal : Derives lookup loose .primary [.valueInt value] [leaf (.valueInt value)] := .literal rfl
  have multiplicative : Derives lookup loose (.binary .multiplicative) _ _ :=
    .operand (.unary (.ofPostfix (.primary literal)))
  have shift : Derives lookup loose (.binary .shift) _ _ := .operand (.operand multiplicative)
  have inclusiveOr : Derives lookup loose (.binary .inclusiveOr) _ _ := .operand (.operand (.operand shift))
  exact .inclusiveOr inclusiveOr

/-- `int x = 3;;;1;` -/
theorem parserRun_of_keeps_empty_statements : ∃ declared,
    parserRun emptyEnv (tableOf []) [.int, .identifier ['x'], .assign, .valueInt 3, .semicolon, .semicolon, .semicolon,
      .valueInt 1, .semicolon] = .ok ([initialTree 0 3, leaf (.valueInt 1)], declared) := by
  have declaration : Statement emptyEnv false (tableOf []) (tableOf [(['x'], .int)])
      [.int, .identifier ['x'], .assign, .valueInt 3, .semicolon] [initialTree 0 3] :=
    .decl (.base (.base rfl)) (.initialised rfl rfl (derives_valueInt _ _ 3)) .nil
  have line : Line emptyEnv false (tableOf [])
      [([.int, .identifier ['x'], .assign, .valueInt 3, .semicolon], [initialTree 0 3]), ([.semicolon], []),
        ([.semicolon], []), ([.valueInt 1, .semicolon], [leaf (.valueInt 1)])] (tableOf [(['x'], .int)]) :=
    .cons declaration (.cons .empty (.cons .empty (.cons (.expr (derives_valueInt _ _ 1)) .nil)))
  have kept := parserRun_of_keeps line (by decide) (by simp [Keeps, Chained, behindStatement])
  simpa only [List.flatMap_cons, List.flatMap_nil, List.cons_append, List.nil_append, List.append_nil] using kept

/-- In `int x = 3, y = 4; 1;` the second initialiser is lost. -/
theorem secondInitialiser_lost : ∃ (env : Env) (vars after : List (Option (Name × FinshType)))
    (statements : List (List Token × List Node)), Line env true vars statements after ∧
      sizes (statements.flatMap Prod.snd) ≤ finshNodeMax ∧
      ¬ ∃ declared, parserRun env vars (statements.flatMap Prod.fst) = .ok (statements.flatMap Prod.snd, declared) := by
  have second : Declarators emptyEnv true .int (tableOf [(['x'], .int)]) (tableOf [(['x'], .int), (['y'], .int)])
      [.comma, .identifier ['y'], .assign, .valueInt 4] [initialTree 1 4] :=
    .cons (.initialised rfl rfl (derives_valueInt _ _ 4)) .nil
  have declaration : Statement emptyEnv true (tableOf []) (tableOf [(['x'], .int), (['y'], .int)])
      [.int, .identifier ['x'], .assign, .valueInt 3, .comma, .identifier ['y'], .assign, .valueInt 4, .semicolon]
      [initialTree 0 3, initialTree 1 4] :=
    .decl (.base (.base rfl)) (.initialised rfl rfl (derives_valueInt _ _ 3)) second
  refine ⟨emptyEnv, tableOf [], _, _, .cons declaration (.cons (.expr (derives_valueInt _ _ 1)) .nil), by decide, ?_⟩
  have ran : parserRun emptyEnv (tableOf []) [.int, .identifier ['x'], .assign, .valueInt 3, .comma, .identifier ['y'],
      .assign, .valueInt 4, .semicolon, .valueInt 1, .semicolon] =
        .ok ([initialTree 0 3, leaf (.valueInt 1)], tableOf [(['x'], .int), (['y'], .int)]) := by
    decide +kernel
  rintro ⟨declared, same⟩
  exact absurd (Prod.mk.inj (Except.ok.inj (ran.symm.trans same))).1 (by decide)

end Finsh
