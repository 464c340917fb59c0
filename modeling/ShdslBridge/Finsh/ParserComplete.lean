import ShdslBridge.Finsh.Grammar

/-! # The parser accepts expressions

`Derives.accepted`: where an expression is followed by a token that cannot belong to it, the parser takes
the expression and returns its tree. The loops over operators and parameters are entered at the first
operand, so that a phrase with operators is one that puts the loop behind its last operand.
-/

namespace Finsh

open TokenParser

def Token.goesOnPostfix : Token → Bool
  | inc | dec | leftParen => true
  | _ => false

def Level.levels : Level → List Level
  | multiplicative => [multiplicative]
  | additive => [additive, multiplicative]
  | shift => [shift, additive, multiplicative]
  | and => [and, shift, additive, multiplicative]
  | exclusiveOr => [exclusiveOr, and, shift, additive, multiplicative]
  | inclusiveOr => [inclusiveOr, exclusiveOr, and, shift, additive, multiplicative]

def Level.goesOn (token : Token) (level : Level) : Bool :=
  level.levels.any (fun inner => (inner.op token).isSome) || token.goesOnPostfix

def Phrase.goesOn (token : Token) : Phrase → Bool
  | primary => false
  | postfixExpr | unary | cast => token.goesOnPostfix
  | binary level => level.goesOn token
  | assign => Level.inclusiveOr.goesOn token || token = .assign
  | params => Level.inclusiveOr.goesOn token || token = .assign || token = .comma

/-- The phrase does not go on with what is left. -/
def Follows (phrase : Phrase) (rest : List Token) : Prop :=
  ∃ token others, rest = token :: others ∧ token ≠ .eof ∧ phrase.goesOn token = false

/-- The parser takes the tokens and as many nodes as the result has. -/
def Gives {α : Type} (p : Parser α) (vars : List (Option (Name × FinshType))) (tokens rest : List Token) (result : α)
    (size : ℕ) : Prop :=
  ∀ k, k + size ≤ finshNodeMax → p ⟨tokens ++ rest, ⟨k, vars⟩⟩ = .ok (result, ⟨rest, ⟨k + size, vars⟩⟩)

section Primitives

variable {α β : Type} {vars : List (Option (Name × FinshType))}
    {tokens rest : List Token} {data : Tables} {token : Token}
  {k : ℕ}

theorem next_bind (f : Token → Parser α) : (next >>= f) ⟨token :: tokens, data⟩ = f token ⟨tokens, data⟩ := rfl

theorem putBack_bind (some : token ≠ .eof) (f : Unit → Parser α) :
    (putBack token >>= f) ⟨tokens, data⟩ = f () ⟨token :: tokens, data⟩ :=
  bind_of_ok (replay_of_ne some tokens data)

theorem matchToken_apply : matchToken token ⟨token :: tokens, data⟩ = .ok ((), ⟨tokens, data⟩) := by
  rw [matchToken, next_bind, if_pos rfl]
  rfl

theorem nodeAllocate_apply (room : k < finshNodeMax) (full : FinshError) (node : Node) :
    nodeAllocate full node ⟨tokens, ⟨k, vars⟩⟩ = .ok (node, ⟨tokens, ⟨k + 1, vars⟩⟩) := by
  have data : (getData : Parser Tables) ⟨tokens, ⟨k, vars⟩⟩ = .ok (⟨k, vars⟩, ⟨tokens, ⟨k, vars⟩⟩) := rfl
  rw [nodeAllocate, bind_of_ok data, if_pos room]
  rfl

theorem makeSysNode_apply (room : k < finshNodeMax) (type : NodeType) (node1 node2 : Node) :
    makeSysNode type node1 node2 ⟨tokens, ⟨k, vars⟩⟩ = .ok (sysNode type node1 node2, ⟨tokens, ⟨k + 1, vars⟩⟩) :=
  nodeAllocate_apply room _ _

theorem nodeNewId_apply {env : Env} {name : Name} {symbol : Symbol} (found : env.lookup vars name = some symbol)
    (room : k < finshNodeMax) :
    nodeNewId env name ⟨tokens, ⟨k, vars⟩⟩ = .ok (leaf (.id symbol), ⟨tokens, ⟨k + 1, vars⟩⟩) := by
  have data : (getData : Parser Tables) ⟨tokens, ⟨k, vars⟩⟩ = .ok (⟨k, vars⟩, ⟨tokens, ⟨k, vars⟩⟩) := rfl
  rw [nodeNewId, bind_of_ok data]
  dsimp only
  rw [found]
  exact nodeAllocate_apply room _ _

theorem procBaseType_apply {type : FinshType} (name : BaseName tokens type) :
    procBaseType ⟨tokens ++ rest, data⟩ = .ok (type, ⟨rest, data⟩) := by
  cases name with
  | base found =>
    rw [procBaseType, List.singleton_append, next_bind, found]
    rfl
  | unsigned found =>
    rw [procBaseType, List.cons_append, next_bind]
    change (next >>= _) _ = _
    rw [List.singleton_append, next_bind, found]
    rfl

/-- A type in front of something that is not a `*`. -/
theorem procType_apply {type : FinshType} (name : TypeName tokens type) {others : List Token} (some : token ≠ .eof)
    (other : token ≠ .mul) : procType ⟨tokens ++ token :: others, data⟩ = .ok (type, ⟨token :: others, data⟩) := by
  cases name with
  | base name =>
    rw [procType, bind_of_ok (procBaseType_apply name), next_bind, if_neg other, putBack_bind some]
    rfl
  | pointer name =>
    rw [List.append_assoc, procType, bind_of_ok (procBaseType_apply name)]
    rfl

end Primitives

section Levels

variable {token : Token}

theorem Level.goesOn_operand {level : Level} (stops : (Phrase.binary level).goesOn token = false) :
    level.op token = none ∧ level.operand.goesOn token = false := by
  rw [Phrase.goesOn, goesOn, Bool.or_eq_false_iff] at stops
  cases level <;> simp_all [Phrase.goesOn, goesOn, levels, operand]

theorem Level.op_stops {level : Level} {op : BinOp} (found : level.op token = some op) :
    token ≠ .eof ∧ level.operand.goesOn token = false := by
  cases level <;> cases token <;> cases found <;> exact ⟨nofun, rfl⟩

def Level.parser (cast : Parser Node) (fuel : ℕ) : Level → Parser Node
  | multiplicative => procMultiplicativeExpr cast fuel
  | additive => procAdditiveExpr cast fuel
  | shift => procShiftExpr cast fuel
  | and => procAndExpr cast fuel
  | exclusiveOr => procExclusiveOrExpr cast fuel
  | inclusiveOr => procInclusiveOrExpr cast fuel

def Level.operandParser (cast : Parser Node) (fuel : ℕ) : Level → Parser Node
  | multiplicative => cast
  | additive => multiplicative.parser cast fuel
  | shift => additive.parser cast fuel
  | and => shift.parser cast fuel
  | exclusiveOr => and.parser cast fuel
  | inclusiveOr => exclusiveOr.parser cast fuel

def Level.loop (cast : Parser Node) (fuel : ℕ) (level : Level) : ℕ → Node → Parser Node :=
  operators .eof level.op (level.operandParser cast fuel) fun op left right => makeSysNode (.bin op) left right

theorem Level.parser_eq (cast : Parser Node) (fuel : ℕ) (level : Level) :
    level.parser cast fuel = level.operandParser cast fuel >>= level.loop cast fuel fuel := by
  cases level <;> rfl

end Levels

section Phrases

/-- What the parser does with a phrase in front of `rest`, with rounds enough. A phrase with a loop is one
that the loop has got behind, with rounds left. -/
def Accepted (env : Env) (vars : List (Option (Name × FinshType))) (phrase : Phrase) (tokens : List Token)
    (nodes : List Node) : Prop :=
  match phrase with
  | .primary => ∀ node, nodes = [node] → ∀ c fuel rest, (tokens ++ rest).length ≤ c → (tokens ++ rest).length < fuel →
    Gives (procPrimaryExpr env (procCastExpr env c) fuel) vars tokens rest node node.size
  | .postfixExpr => ∀ node, nodes = [node] → ∀ c fuel rest, (tokens ++ rest).length ≤ c →
    (tokens ++ rest).length < fuel → ∃ rounds, rest.length < rounds ∧ ∀ k, k + node.size ≤ finshNodeMax →
      procPostfixExpr env (procCastExpr env c) fuel ⟨tokens ++ rest, ⟨k, vars⟩⟩ =
        postfixLoop (procCastExpr env c) fuel rounds node ⟨rest, ⟨k + node.size, vars⟩⟩
  | .params => ∀ c fuel rest, (tokens ++ rest).length < c → (tokens ++ rest).length < fuel → Follows .assign rest →
    (nodes = [] → tokens = []) ∧ (nodes ≠ [] → ∃ rounds, rest.length < rounds ∧ ∀ k, k + sizes nodes ≤ finshNodeMax →
      procParamList (procCastExpr env c) fuel ⟨tokens ++ rest, ⟨k, vars⟩⟩ =
        paramLoop (procCastExpr env c) fuel rounds nodes ⟨rest, ⟨k + sizes nodes, vars⟩⟩)
  | .unary => ∀ node, nodes = [node] → ∀ c fuel rest, (tokens ++ rest).length ≤ c → (tokens ++ rest).length < fuel →
    Follows .unary rest → Gives (procUnaryExpr env (procCastExpr env c) fuel) vars tokens rest node node.size
  | .cast => ∀ node, nodes = [node] → ∀ c rest, (tokens ++ rest).length < c → Follows .cast rest →
    Gives (procCastExpr env c) vars tokens rest node node.size
  | .binary level => ∀ node, nodes = [node] → ∀ c fuel rest, (tokens ++ rest).length < c →
    (tokens ++ rest).length < fuel → Follows level.operand rest → ∃ rounds, rest.length < rounds ∧
      ∀ k, k + node.size ≤ finshNodeMax → level.parser (procCastExpr env c) fuel ⟨tokens ++ rest, ⟨k, vars⟩⟩ =
        level.loop (procCastExpr env c) fuel rounds node ⟨rest, ⟨k + node.size, vars⟩⟩
  | .assign => ∀ node, nodes = [node] → ∀ c fuel rounds rest, (tokens ++ rest).length < c →
    (tokens ++ rest).length < fuel → (tokens ++ rest).length < rounds → Follows .assign rest →
    Gives (procAssignExpr (procCastExpr env c) fuel rounds) vars tokens rest node node.size

variable {env : Env} {vars : List (Option (Name × FinshType))} {tokens rest : List Token} {node : Node} {c fuel : ℕ}

theorem Level.loop_stops {level : Level} (follows : Follows (.binary level) rest) {rounds : ℕ}
    (left : rest.length < rounds) (data : Tables) :
    level.loop (procCastExpr env c) fuel rounds node ⟨rest, data⟩ = .ok (node, ⟨rest, data⟩) := by
  obtain ⟨token, others, rfl, some, stops⟩ := follows
  cases rounds with
  | zero => exact absurd left (Nat.not_lt_zero _)
  | succ rounds =>
    have other := (Level.goesOn_operand stops).1
    rw [loop, operators]
    change (next >>= _) _ = _
    rw [next_bind, other]
    exact putBack_bind some _

theorem Accepted.level {level : Level} (accepted : Accepted env vars (.binary level) tokens [node])
    (bound : (tokens ++ rest).length < c) (enough : (tokens ++ rest).length < fuel)
    (follows : Follows (.binary level) rest) :
    Gives (level.parser (procCastExpr env c) fuel) vars tokens rest node node.size := by
  have operand : Follows level.operand rest := by
    obtain ⟨token, others, rfl, some, stops⟩ := follows
    exact ⟨token, others, rfl, some, (Level.goesOn_operand stops).2⟩
  obtain ⟨rounds, left, runs⟩ := accepted node rfl c fuel rest bound enough operand
  intro k room
  rw [runs k room]
  exact level.loop_stops follows left _

theorem Accepted.operand {level : Level} (accepted : Accepted env vars level.operand tokens [node])
    (bound : (tokens ++ rest).length < c)
    (enough : (tokens ++ rest).length < fuel) (follows : Follows level.operand rest) :
    Gives (level.operandParser (procCastExpr env c) fuel) vars tokens rest node node.size := by
  cases level with
  | multiplicative => exact accepted node rfl c rest bound follows
  | _ => exact Accepted.level accepted bound enough follows

theorem Level.parser_of_operand {level : Level}
    (gives : Gives (level.operandParser (procCastExpr env c) fuel) vars tokens rest node node.size) {k : ℕ}
    (room : k + node.size ≤ finshNodeMax) : level.parser (procCastExpr env c) fuel ⟨tokens ++ rest, ⟨k, vars⟩⟩ =
      level.loop (procCastExpr env c) fuel fuel node ⟨rest, ⟨k + node.size, vars⟩⟩ := by
  rw [level.parser_eq]
  exact bind_of_ok (gives k room)

end Phrases

def Token.isOperand : Token → Bool
  | identifier _ | valueInt _ | valueLong _ | valueChar _ | valueString _ | valueNull => true
  | _ => false

def Token.begins : Token → Bool
  | leftParen | add | sub | inc | dec | bitwise | mul | and => true
  | token => token.isOperand

/-- What is known of the first token of a phrase. -/
def Phrase.starts (token : Token) : Phrase → Prop
  | primary | postfixExpr => token.isOperand
  | unary => token.begins ∧ token ≠ .leftParen
  | cast | binary _ | assign | params => token.begins

theorem Token.isOperand_begins {token : Token} (operand : token.isOperand) : token.begins ∧ token ≠ .leftParen := by
  cases token <;> first | exact Bool.noConfusion operand | exact ⟨rfl, nofun⟩

theorem Token.begins_ne {token : Token} (begins : token.begins) :
    token ≠ .eof ∧ token ≠ .bad ∧ token ≠ .rightParen ∧ token ≠ .semicolon ∧ token.baseType = none ∧
      token ≠ .unsigned := by
  cases token <;> first | exact Bool.noConfusion begins | exact ⟨nofun, nofun, nofun, nofun, rfl, nofun⟩

theorem Derives.first {lookup : Name → Option Symbol} {phrase : Phrase} {tokens : List Token} {nodes : List Node}
    (derives : Derives lookup false phrase tokens nodes) (some : nodes ≠ []) :
    ∃ token others, tokens = token :: others ∧ phrase.starts token := by
  induction derives with
  | identifier => exact ⟨_, _, rfl, rfl⟩
  | @literal token _ found => exact ⟨_, _, rfl, by cases token <;> cases found <;> rfl⟩
  | paren loose => cases loose
  | primary _ ih => exact ih some
  | postfixOp _ _ ih | call _ _ ih | binary _ _ _ ih =>
    obtain ⟨token, others, rfl, starts⟩ := ih (List.cons_ne_nil _ _)
    exact ⟨token, _, rfl, starts⟩
  | noParam => exact absurd rfl some
  | param _ ih | inclusiveOr _ ih => exact ih some
  | moreParams _ more _ ih =>
    obtain ⟨token, others, rfl, starts⟩ := ih (more.resolve_right nofun)
    exact ⟨token, _, rfl, starts⟩
  | ofPostfix _ ih =>
    obtain ⟨token, others, rfl, operand⟩ := ih some
    exact ⟨token, others, rfl, Token.isOperand_begins operand⟩
  | plus | minus => exact ⟨_, _, rfl, rfl, nofun⟩
  | @prefixOp _ _ token _ found =>
    refine ⟨token, _, rfl, ?_⟩
    cases token <;> cases found <;> exact ⟨rfl, nofun⟩
  | unary _ ih =>
    obtain ⟨token, others, rfl, starts⟩ := ih some
    exact ⟨token, others, rfl, starts.1⟩
  | cast => exact ⟨_, _, rfl, rfl⟩
  | @operand level _ _ _ ih =>
    obtain ⟨token, others, rfl, starts⟩ := ih some
    refine ⟨token, others, rfl, ?_⟩
    cases level <;> exact starts
  | assign _ _ ih =>
    obtain ⟨token, others, rfl, starts⟩ := ih (List.cons_ne_nil _ _)
    exact ⟨token, _, rfl, starts.1⟩

section Cases

variable {env : Env} {vars : List (Option (Name × FinshType))} {tokens : List Token} {node : Node}

theorem accepted_identifier {name : Name} {symbol : Symbol}
    (found : env.lookup vars (name.take finshNameMax) = some symbol) :
    Accepted env vars .primary [.identifier name] [leaf (.id symbol)] := by
  rintro _ ⟨⟩ c fuel rest - - k room
  rw [procPrimaryExpr, List.singleton_append, next_bind]
  exact nodeNewId_apply found room

variable {type : NodeType} {nodes : List Node}

theorem accepted_literal {token : Token} (found : token.literal = some type) :
    Accepted env vars .primary [token] [leaf type] := by
  rintro _ ⟨⟩ c fuel rest - - k room
  rw [procPrimaryExpr, List.singleton_append, next_bind]
  cases token <;> cases found <;> exact nodeAllocate_apply room _ _

theorem Accepted.primary (accepted : Accepted env vars .primary tokens [node]) :
    Accepted env vars .postfixExpr tokens [node] := by
  rintro _ ⟨⟩ c fuel rest bound enough
  refine ⟨fuel, ?_, fun k room => bind_of_ok (accepted node rfl c fuel rest bound enough k room)⟩
  rw [List.length_append] at enough
  omega

theorem Accepted.postfixRound (accepted : Accepted env vars .postfixExpr tokens [node]) {back rest : List Token}
    {c fuel : ℕ} (bound : (tokens ++ back ++ rest).length ≤ c) (enough : (tokens ++ back ++ rest).length < fuel)
    (some : back ≠ []) {result : Node}
    (round : ∀ rounds k, k + result.size ≤ finshNodeMax →
      postfixLoop (procCastExpr env c) fuel (rounds + 1) node ⟨back ++ rest, ⟨k + node.size, vars⟩⟩ =
        postfixLoop (procCastExpr env c) fuel rounds result ⟨rest, ⟨k + result.size, vars⟩⟩)
    (grows : node.size ≤ result.size) :
    ∃ rounds, rest.length < rounds ∧ ∀ k, k + result.size ≤ finshNodeMax →
      procPostfixExpr env (procCastExpr env c) fuel ⟨tokens ++ back ++ rest, ⟨k, vars⟩⟩ =
        postfixLoop (procCastExpr env c) fuel rounds result ⟨rest, ⟨k + result.size, vars⟩⟩ := by
  rw [List.append_assoc] at bound enough ⊢
  obtain ⟨rounds, left, runs⟩ := accepted node rfl c fuel (back ++ rest) bound enough
  have present := List.length_pos_iff.mpr some
  rw [List.length_append] at left
  cases rounds with
  | zero => exact absurd left (Nat.not_lt_zero _)
  | succ rounds =>
    refine ⟨rounds, by omega, fun k room => ?_⟩
    rw [runs k (by omega), round rounds k room]

theorem Accepted.postfixOp (accepted : Accepted env vars .postfixExpr tokens [node]) (tree : node.IsTree)
    {token : Token} (found : token.postfixOp = some type) :
    Accepted env vars .postfixExpr (tokens ++ [token]) [sysNode type node .nil] := by
  rintro _ ⟨⟩ c fuel rest bound enough
  have size : (sysNode type node .nil).size = node.size + 1 := (tree.unary type (Token.postfixOp_takes found)).2
  apply accepted.postfixRound bound enough (List.cons_ne_nil _ _)
  · intro rounds k room
    rw [size] at room ⊢
    rw [postfixLoop, List.singleton_append, next_bind]
    cases token <;> cases found <;> exact bind_of_ok (makeSysNode_apply room _ _ _)
  · omega

/-- The loop over parameters ends at the `)`. -/
theorem paramLoop_stops {c fuel rounds : ℕ} (left : 0 < rounds)
    (nodes : List Node) (rest : List Token) (data : Tables) :
    paramLoop (procCastExpr env c) fuel rounds nodes ⟨.rightParen :: rest, data⟩ =
      .ok (nodes, ⟨.rightParen :: rest, data⟩) := by
  cases rounds with
  | zero => exact absurd left (Nat.lt_irrefl _)
  | succ rounds => rfl

theorem Accepted.parenthesised {params rest : List Token} (accepted : Accepted env vars .params params nodes)
    (first : nodes ≠ [] → ∃ token others, params = token :: others ∧ Phrase.starts token .params) {c fuel : ℕ}
    (bound : (params ++ .rightParen :: rest).length < c) (enough : (params ++ .rightParen :: rest).length < fuel)
    {k : ℕ} (room : k + sizes nodes ≤ finshNodeMax) :
    procParams (procCastExpr env c) fuel ⟨params ++ .rightParen :: rest, ⟨k, vars⟩⟩ =
      .ok (nodes, ⟨rest, ⟨k + sizes nodes, vars⟩⟩) := by
  obtain ⟨empty, runs⟩ := accepted c fuel (.rightParen :: rest) bound enough ⟨_, _, rfl, nofun, rfl⟩
  cases nodes with
  | nil =>
    rw [empty rfl]
    rfl
  | cons head tail =>
    obtain ⟨rounds, left, runs⟩ := runs (List.cons_ne_nil _ _)
    have list := (runs k room).trans (paramLoop_stops (Nat.zero_lt_of_lt left) _ _ _)
    obtain ⟨token, others, rfl, begins⟩ := first (List.cons_ne_nil _ _)
    obtain ⟨some, -, other, -⟩ := Token.begins_ne begins
    rw [procParams, List.cons_append, next_bind, if_neg other, putBack_bind some, ← List.cons_append,
      bind_of_ok list]
    exact bind_of_ok matchToken_apply

theorem Accepted.call (accepted : Accepted env vars .postfixExpr tokens [node]) (tree : node.IsTree)
    {params : List Token} (inner : Accepted env vars .params params nodes) (trees : Trees nodes)
    (first : nodes ≠ [] → ∃ token others, params = token :: others ∧ Phrase.starts token .params) :
    Accepted env vars .postfixExpr (tokens ++ (.leftParen :: params ++ [.rightParen]))
        [sysNode .func node (chain nodes)] := by
  rintro _ ⟨⟩ c fuel rest bound enough
  have size : (sysNode .func node (chain nodes)).size = node.size + sizes nodes + 1 := (tree.call trees).2
  apply accepted.postfixRound bound enough (List.cons_ne_nil _ _)
  · intro rounds k room
    rw [size] at room ⊢
    have params_taken : procParams (procCastExpr env c) fuel ⟨params ++ .rightParen :: rest, ⟨k + node.size, vars⟩⟩ =
        .ok (nodes, ⟨rest, ⟨k + node.size + sizes nodes, vars⟩⟩) := by
      simp only [List.length_append, List.length_cons, List.length_nil] at bound enough
      have fewer : (params ++ .rightParen :: rest).length = params.length + rest.length + 1 := List.length_append
      exact inner.parenthesised first (by omega) (by omega) (by omega)
    rw [postfixLoop, List.cons_append, List.cons_append, next_bind, List.append_assoc]
    dsimp only
    rw [List.singleton_append, bind_of_ok params_taken]
    have linked := @makeSysNode_apply vars rest (k + node.size + sizes nodes) (by omega) .func node (chain nodes)
    rw [bind_of_ok linked]
    congr 3
    omega
  · omega

theorem accepted_noParam : Accepted env vars .params [] [] :=
  fun _ _ _ _ _ _ => ⟨fun _ => rfl, fun some => absurd rfl some⟩

theorem Accepted.param (accepted : Accepted env vars .assign tokens [node]) :
    Accepted env vars .params tokens [node] := by
  intro c fuel rest bound enough follows
  refine ⟨nofun, fun _ => ⟨fuel, ?_, fun k room => ?_⟩⟩
  · rw [List.length_append] at enough
    omega
  · rw [sizes_single] at room ⊢
    exact bind_of_ok (accepted node rfl c fuel fuel rest bound enough enough follows k room)

theorem Accepted.moreParams {params : List Token} (accepted : Accepted env vars .params params nodes)
    (some : nodes ≠ []) (inner : Accepted env vars .assign tokens [node]) :
    Accepted env vars .params (params ++ .comma :: tokens) (nodes ++ [node]) := by
  intro c fuel rest bound enough follows
  refine ⟨fun none => absurd (List.append_eq_nil_iff.mp none).1 some, fun _ => ?_⟩
  rw [List.append_assoc] at bound enough ⊢
  obtain ⟨-, runs⟩ := accepted c fuel (.comma :: tokens ++ rest) bound enough ⟨_, _, rfl, nofun, rfl⟩
  obtain ⟨rounds, left, runs⟩ := runs some
  rw [List.cons_append, List.length_cons] at left
  rw [List.length_append, List.cons_append, List.length_cons] at bound enough
  cases rounds with
  | zero => exact absurd left (Nat.not_lt_zero _)
  | succ rounds =>
    refine ⟨rounds, by rw [List.length_append] at left; omega, fun k room => ?_⟩
    rw [sizes_append, sizes_single] at room ⊢
    rw [runs k (by omega), paramLoop, List.cons_append, next_bind, if_pos rfl]
    have taken := inner node rfl c fuel fuel rest (by omega) (by omega) (by omega) follows (k + sizes nodes) (by omega)
    rw [Nat.add_assoc] at taken
    exact bind_of_ok taken

theorem postfixLoop_stops {c fuel rounds : ℕ} {rest : List Token} (left : rest.length < rounds)
    (follows : Follows .unary rest) (data : Tables) :
    postfixLoop (procCastExpr env c) fuel rounds node ⟨rest, data⟩ = .ok (node, ⟨rest, data⟩) := by
  obtain ⟨token, others, rfl, some, stops⟩ := follows
  cases rounds with
  | zero => exact absurd left (Nat.not_lt_zero _)
  | succ rounds =>
    rw [postfixLoop, next_bind]
    cases token <;> first | exact Bool.noConfusion stops | exact putBack_bind some _

theorem Accepted.ofPostfix (accepted : Accepted env vars .postfixExpr tokens [node])
    (first : ∃ token others, tokens = token :: others ∧ Phrase.starts token .postfixExpr) :
    Accepted env vars .unary tokens [node] := by
  rintro _ ⟨⟩ c fuel rest bound enough follows k room
  obtain ⟨rounds, left, runs⟩ := accepted node rfl c fuel rest bound enough
  have taken := (runs k room).trans (postfixLoop_stops left follows _)
  obtain ⟨token, others, rfl, operand⟩ := first
  have some : token ≠ .eof := by
    rintro rfl
    exact Bool.noConfusion operand
  have replayed := (putBack_bind some fun _ => procPostfixExpr env (procCastExpr env c) fuel).trans taken
  rw [procUnaryExpr, List.cons_append, next_bind]
  cases token <;> first | exact Bool.noConfusion operand | exact replayed

theorem Accepted.plus (accepted : Accepted env vars .cast tokens [node]) :
    Accepted env vars .unary (.add :: tokens) [node] := by
  rintro _ ⟨⟩ c fuel rest bound enough follows k room
  exact accepted node rfl c rest bound follows k room

theorem Accepted.minus (accepted : Accepted env vars .cast tokens [node]) (tree : node.IsTree) :
    Accepted env vars .unary (.sub :: tokens) [sysNode (.bin .sub) (leaf (.valueLong 0)) node] := by
  rintro _ ⟨⟩ c fuel rest bound enough follows k room
  have size : (sysNode (.bin .sub) (leaf (.valueLong 0)) node).size = 1 + node.size + 1 :=
    ((Node.isTree_leaf (.valueLong 0) rfl).binary tree (.bin .sub) rfl).2
  rw [size] at room ⊢
  have taken := accepted node rfl c rest bound follows k (by omega)
  have zero : nodeNewValue (.valueLong 0) ⟨rest, ⟨k + node.size, vars⟩⟩ =
      .ok (leaf (.valueLong 0), ⟨rest, ⟨k + node.size + 1, vars⟩⟩) := nodeAllocate_apply (by omega) _ _
  rw [procUnaryExpr, List.cons_append, next_bind]
  dsimp only
  rw [bind_of_ok taken, bind_of_ok zero, makeSysNode_apply (by omega)]
  congr 4
  omega

theorem Accepted.prefixOp (accepted : Accepted env vars .cast tokens [node]) (tree : node.IsTree) {token : Token}
    (found : token.prefixOp = some type) : Accepted env vars .unary (token :: tokens) [sysNode type node .nil] := by
  rintro _ ⟨⟩ c fuel rest bound enough follows k room
  have size : (sysNode type node .nil).size = node.size + 1 := (tree.unary type (Token.prefixOp_takes found)).2
  rw [size] at room ⊢
  have operand : procPrefix (procCastExpr env c) type ⟨tokens ++ rest, ⟨k, vars⟩⟩ =
      .ok (sysNode type node .nil, ⟨rest, ⟨k + (node.size + 1), vars⟩⟩) := by
    rw [procPrefix, bind_of_ok (accepted node rfl c rest bound follows k (by omega))]
    exact makeSysNode_apply room _ _ _
  rw [procUnaryExpr, List.cons_append, next_bind]
  cases token <;> cases found <;> exact operand

theorem Accepted.unary (accepted : Accepted env vars .unary tokens [node])
    (first : ∃ token others, tokens = token :: others ∧ Phrase.starts token .unary) :
    Accepted env vars .cast tokens [node] := by
  rintro _ ⟨⟩ c rest bound follows k room
  cases c with
  | zero => exact absurd bound (Nat.not_lt_zero _)
  | succ c =>
    have taken := accepted node rfl c (c + 1) rest (Nat.le_of_lt_succ bound) bound follows k room
    obtain ⟨token, others, rfl, begins, other⟩ := first
    obtain ⟨some, -⟩ := Token.begins_ne begins
    rw [procCastExpr, List.cons_append, next_bind, if_neg other, putBack_bind some]
    exact taken

theorem Accepted.cast (accepted : Accepted env vars .cast tokens [node]) (tree : node.IsTree) {name : List Token}
    {type : FinshType} (named : TypeName name type) :
    Accepted env vars .cast (.leftParen :: name ++ .rightParen :: tokens) [node.recast type] := by
  rintro _ ⟨⟩ c rest bound follows k room
  cases c with
  | zero => exact absurd bound (Nat.not_lt_zero _)
  | succ c =>
    rw [(tree.recast type).2] at room ⊢
    have type_taken := @procType_apply (name) ⟨k, vars⟩ .rightParen type named (tokens ++ rest) nofun nofun
    rw [List.append_assoc, List.cons_append, List.length_cons,
      List.length_append, List.cons_append, List.length_cons] at bound
    rw [procCastExpr, List.append_assoc, List.cons_append,
      next_bind, if_pos rfl, List.cons_append, bind_of_ok type_taken,
      bind_of_ok matchToken_apply, bind_of_ok (accepted node rfl c rest (by omega) follows k room)]
    rfl

theorem Accepted.ofOperand {level : Level} (accepted : Accepted env vars level.operand tokens [node]) :
    Accepted env vars (.binary level) tokens [node] := by
  rintro _ ⟨⟩ c fuel rest bound enough follows
  refine ⟨fuel, ?_, fun k room => level.parser_of_operand (accepted.operand bound enough follows) room⟩
  rw [List.length_append] at enough
  omega

theorem Accepted.binary {level : Level}
    (accepted : Accepted env vars (.binary level) tokens [node]) (tree : node.IsTree)
    {token : Token} {op : BinOp} (found : level.op token = some op) {back : List Token} {right : Node}
    (inner : Accepted env vars level.operand back [right]) (right_tree : right.IsTree) :
    Accepted env vars (.binary level) (tokens ++ token :: back) [sysNode (.bin op) node right] := by
  rintro _ ⟨⟩ c fuel rest bound enough follows
  have size : (sysNode (.bin op) node right).size = node.size + right.size + 1 :=
    (tree.binary right_tree (.bin op) rfl).2
  obtain ⟨some, stops⟩ := Level.op_stops found
  rw [List.append_assoc] at bound enough ⊢
  obtain ⟨rounds, left, runs⟩ := accepted node rfl c fuel (token :: back ++ rest) bound enough ⟨_, _, rfl, some, stops⟩
  rw [List.cons_append, List.length_cons] at left
  rw [List.length_append, List.cons_append, List.length_cons] at bound enough
  cases rounds with
  | zero => exact absurd left (Nat.not_lt_zero _)
  | succ rounds =>
    refine ⟨rounds, by rw [List.length_append] at left; omega, fun k room => ?_⟩
    rw [size] at room ⊢
    rw [runs k (by omega), Level.loop, operators]
    have taken : level.operandParser (procCastExpr env c) fuel ⟨back ++ rest, ⟨k + node.size, vars⟩⟩ =
        .ok (right, ⟨rest, ⟨k + node.size + right.size, vars⟩⟩) :=
      inner.operand (by omega) (by omega) follows (k + node.size) (by omega)
    have linked := @makeSysNode_apply vars rest (k + node.size + right.size) (by omega) (.bin op) node right
    change (next >>= _) _ = _
    rw [List.cons_append, next_bind, found]
    dsimp only
    rw [bind_of_ok taken, bind_of_ok linked]
    congr 3
    omega

/-- An assignment without a `=`. -/
theorem Accepted.inclusiveOr (accepted : Accepted env vars (.binary .inclusiveOr) tokens [node]) :
    Accepted env vars .assign tokens [node] := by
  rintro _ ⟨⟩ c fuel rounds rest bound enough left follows k room
  obtain ⟨token, others, rfl, some, stops⟩ := follows
  rw [Phrase.goesOn, Bool.or_eq_false_iff] at stops
  cases rounds with
  | zero => exact absurd left (Nat.not_lt_zero _)
  | succ rounds =>
    have taken : procInclusiveOrExpr (procCastExpr env c) fuel ⟨tokens ++ token :: others, ⟨k, vars⟩⟩ =
        .ok (node, ⟨token :: others, ⟨k + node.size, vars⟩⟩) :=
      accepted.level bound enough ⟨token, others, rfl, some, stops.1⟩ k room
    rw [procAssignExpr, bind_of_ok taken, next_bind, if_neg (of_decide_eq_false stops.2), putBack_bind some]
    rfl

theorem Accepted.assign (accepted : Accepted env vars .cast tokens [node]) (tree : node.IsTree) {back : List Token}
    {right : Node} (inner : Accepted env vars .assign back [right]) (right_tree : right.IsTree) :
    Accepted env vars .assign (tokens ++ .assign :: back) [sysNode .assign node right] := by
  rintro _ ⟨⟩ c fuel rounds rest bound enough left follows k room
  have size : (sysNode .assign node right).size = node.size + right.size + 1 := (tree.binary right_tree .assign rfl).2
  have multiplicative : Accepted env vars (.binary .multiplicative) tokens [node] := accepted.ofOperand
  have additive : Accepted env vars (.binary .additive) tokens [node] := multiplicative.ofOperand
  have shift : Accepted env vars (.binary .shift) tokens [node] := additive.ofOperand
  have and : Accepted env vars (.binary .and) tokens [node] := shift.ofOperand
  have exclusiveOr : Accepted env vars (.binary .exclusiveOr) tokens [node] := and.ofOperand
  have or : Accepted env vars (.binary .inclusiveOr) tokens [node] := exclusiveOr.ofOperand
  rw [size] at room ⊢
  rw [List.append_assoc] at bound enough left ⊢
  have operand : procInclusiveOrExpr (procCastExpr env c) fuel ⟨tokens ++ (.assign :: back ++ rest), ⟨k, vars⟩⟩ =
      .ok (node, ⟨.assign :: back ++ rest, ⟨k + node.size, vars⟩⟩) :=
    or.level bound enough ⟨_, _, rfl, nofun, rfl⟩ k (by omega)
  rw [List.length_append, List.cons_append, List.length_cons] at bound enough left
  cases rounds with
  | zero => exact absurd left (Nat.not_lt_zero _)
  | succ rounds =>
    have taken := inner right rfl c fuel rounds rest (by omega) (by omega) (by omega) follows (k + node.size) (by omega)
    rw [procAssignExpr, bind_of_ok operand, List.cons_append, next_bind, if_pos rfl, bind_of_ok taken,
      makeSysNode_apply (by omega)]
    congr 4
    omega

end Cases

theorem Derives.accepted {env : Env} {vars : List (Option (Name × FinshType))} {phrase : Phrase} {tokens : List Token}
    {nodes : List Node} (derives : Derives (env.lookup vars) false phrase tokens nodes) :
    Accepted env vars phrase tokens nodes := by
  induction derives with
  | identifier found => exact accepted_identifier found
  | literal found => exact accepted_literal found
  | paren loose => cases loose
  | primary _ ih => exact ih.primary
  | postfixOp derives found ih => exact ih.postfixOp derives.tree found
  | call derives params ih params_ih => exact ih.call derives.tree params_ih params.trees params.first
  | noParam => exact accepted_noParam
  | param _ ih => exact ih.param
  | moreParams _ more _ params_ih ih => exact params_ih.moreParams (more.resolve_right nofun) ih
  | ofPostfix derives ih => exact ih.ofPostfix (derives.first (List.cons_ne_nil _ _))
  | plus _ ih => exact ih.plus
  | minus derives ih => exact ih.minus derives.tree
  | prefixOp found derives ih => exact ih.prefixOp derives.tree found
  | unary derives ih => exact ih.unary (derives.first (List.cons_ne_nil _ _))
  | cast named derives ih => exact ih.cast derives.tree named
  | operand _ ih => exact ih.ofOperand
  | binary left found right left_ih right_ih => exact left_ih.binary left.tree found right_ih right.tree
  | inclusiveOr _ ih => exact ih.inclusiveOr
  | assign left right left_ih right_ih =>
    exact (left_ih.unary (left.first (List.cons_ne_nil _ _))).assign left.tree right_ih right.tree

end Finsh
