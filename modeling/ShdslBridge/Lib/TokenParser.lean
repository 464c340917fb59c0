import Mathlib.Data.Nat.Basic

/-! # Recursive descent with one token of replay

A parser reads a list of tokens behind which there is nothing but `eof`, and may hand the last token
back. It has a state besides the tokens, and it stops at the first error. A recursion or a loop that is
bounded by a number of rounds stops with `fuel` when the rounds are used up.

`Meets` is a total specification: the parser does not run out of rounds, and what it returns satisfies a
postcondition. Results of runs that succeed are computed with `bind_of_ok`.
-/

namespace TokenParser

/-- Why a parser stops before it has returned. -/
inductive Stop (ε : Type)
  | error (code : ε)
  | fuel
  deriving DecidableEq

/-- The tokens that are left, and what else a parser keeps. -/
structure State (τ σ : Type) where
  tokens : List τ
  data : σ

/-- A parser of `α`. -/
def Parser (τ σ ε α : Type) := State τ σ → Except (Stop ε) (α × State τ σ)

section Monad

variable {τ σ ε : Type}

instance : Monad (Parser τ σ ε) where
  pure a s := .ok (a, s)
  bind p f s :=
    match p s with
    | .ok (a, t) => f a t
    | .error stop => .error stop

variable {α β : Type} {p : Parser τ σ ε α} {f : α → Parser τ σ ε β} {s t : State τ σ} {a : α}

/-- What follows a parser that has returned. -/
theorem bind_of_ok (returned : p s = .ok (a, t)) : (p >>= f) s = f a t := by
  change (match p s with | .ok (a, t) => f a t | .error stop => .error stop) = _
  rw [returned]

theorem bind_of_error {stop : Stop ε} (stopped : p s = .error stop) : (p >>= f) s = .error stop := by
  change (match p s with | .ok (a, t) => f a t | .error stop => .error stop) = _
  rw [stopped]

end Monad

section Primitives

variable {τ σ ε : Type} (eof : τ)

/-- The next token. -/
def nextToken : Parser τ σ ε τ := fun s =>
  match s.tokens with
  | [] => .ok (eof, s)
  | token :: tokens => .ok (token, { s with tokens })

/-- Hands a token back. Behind the tokens there is an `eof` already. -/
def replay [DecidableEq τ] (token : τ) : Parser τ σ ε Unit := fun s =>
  if token = eof ∧ s.tokens = [] then .ok ((), s) else .ok ((), { s with tokens := token :: s.tokens })

/-- Stops with an error. -/
def fail {α : Type} (code : ε) : Parser τ σ ε α := fun _ => .error (.error code)

/-- Stops because the rounds are used up. -/
def outOfFuel {α : Type} : Parser τ σ ε α := fun _ => .error .fuel

/-- The state besides the tokens. -/
def getData : Parser τ σ ε σ := fun s => .ok (s.data, s)

def setData (data : σ) : Parser τ σ ε Unit := fun s => .ok ((), { s with data })

/-- Operands with left-associative operators between them. The operand in front has been read. -/
def operators [DecidableEq τ] {α β : Type} (op : τ → Option β) (operand : Parser τ σ ε α)
    (combine : β → α → α → Parser τ σ ε α) : ℕ → α → Parser τ σ ε α
  | 0, _ => outOfFuel
  | fuel + 1, left => do
    let token ← nextToken eof
    match op token with
    | some operator => do
      let right ← operand
      let left ← combine operator left right
      operators op operand combine fuel left
    | none => do
      replay eof token
      pure left

end Primitives

section Runs

variable {τ σ ε : Type} {eof : τ}

variable [DecidableEq τ]

/-- A token that was read is handed back. -/
theorem replay_of_ne {token : τ} (other : token ≠ eof) (tokens : List τ) (data : σ) :
    (replay eof token : Parser τ σ ε Unit) ⟨tokens, data⟩ = .ok ((), ⟨token :: tokens, data⟩) :=
  if_neg fun same => other same.1

end Runs

/-! ### Specifications -/

/-- The parser does not run out of rounds, and what it returns satisfies the postcondition. -/
def Meets {τ σ ε α : Type} (p : Parser τ σ ε α) (s : State τ σ) (post : α → State τ σ → Prop) : Prop :=
  match p s with
  | .ok (a, t) => post a t
  | .error (.error _) => True
  | .error .fuel => False

namespace Meets

variable {τ σ ε α β : Type} {p : Parser τ σ ε α} {f : α → Parser τ σ ε β} {s : State τ σ}
  {mid post : α → State τ σ → Prop} {last : β → State τ σ → Prop}

theorem of_ok (meets : Meets p s post) {a : α} {t : State τ σ} (returned : p s = .ok (a, t)) : post a t := by
  rw [Meets, returned] at meets
  exact meets

theorem ne_fuel (meets : Meets p s post) : p s ≠ .error .fuel := by
  intro stopped
  rw [Meets, stopped] at meets
  exact meets

theorem mono (meets : Meets p s mid) (weaker : ∀ a t, mid a t → post a t) : Meets p s post := by
  rw [Meets] at meets ⊢
  split <;> simp_all

theorem bind (first : Meets p s mid) (second : ∀ a t, mid a t → Meets (f a) t last) : Meets (p >>= f) s last := by
  rw [Meets] at first
  cases result : p s with
  | ok returned =>
    rw [result] at first
    rw [Meets, bind_of_ok result]
    exact second _ _ first
  | error stop =>
    rw [result] at first
    rw [Meets, bind_of_error result]
    cases stop with
    | error code => trivial
    | fuel => exact first

theorem pure {a : α} (holds : post a s) : Meets (Pure.pure a : Parser τ σ ε α) s post := holds

theorem fail (code : ε) : Meets (TokenParser.fail code) s post := trivial

theorem getData {post : σ → State τ σ → Prop} (holds : post s.data s) :
    Meets (TokenParser.getData : Parser τ σ ε σ) s post := holds

theorem setData {data : σ} {post : Unit → State τ σ → Prop} (holds : post () { s with data }) :
    Meets (TokenParser.setData data : Parser τ σ ε Unit) s post := holds

/-- Reading a token takes it off, unless there is none. -/
theorem nextToken {eof : τ} {post : τ → State τ σ → Prop} (none : s.tokens = [] → post eof s)
    (some : ∀ token tokens, s.tokens = token :: tokens → post token { s with tokens }) :
    Meets (TokenParser.nextToken eof : Parser τ σ ε τ) s post := by
  obtain ⟨tokens, data⟩ := s
  cases tokens with
  | nil => exact none rfl
  | cons token tokens => exact some token tokens rfl

end Meets

section Lengths

variable {τ σ ε α β : Type} {eof : τ}

/-- A token was read in `s`. -/
structure Read (eof token : τ) (s t : State τ σ) : Prop where
  taken : t.tokens.length + 1 = s.tokens.length ∨ token = eof ∧ s.tokens.length = 0 ∧ t.tokens.length = 0
  data : t.data = s.data

namespace Read

variable {token : τ} {s t : State τ σ}

theorem le (read : Read eof token s t) : t.tokens.length ≤ s.tokens.length := by
  rcases read.taken with shorter | ⟨-, before, after⟩ <;> omega

theorem lt (read : Read eof token s t) (some : token ≠ eof) : t.tokens.length < s.tokens.length := by
  rcases read.taken with shorter | ⟨none, -⟩
  · omega
  · exact absurd none some

/-- A token that is handed back leaves no more tokens than there were. -/
theorem replay [DecidableEq τ] (read : Read eof token s t) :
    Meets (replay eof token : Parser τ σ ε Unit) t
      fun _ u => u.tokens.length ≤ s.tokens.length ∧ u.data = s.data := by
  rw [Meets, TokenParser.replay]
  split_ifs with atEnd
  · exact ⟨read.le, read.data⟩
  · refine ⟨?_, read.data⟩
    rcases read.taken with shorter | ⟨none, -, after⟩
    · exact Nat.le_of_eq shorter
    · exact absurd ⟨none, List.eq_nil_of_length_eq_zero after⟩ atEnd

end Read

theorem meets_nextToken (s : State τ σ) :
    Meets (nextToken eof : Parser τ σ ε τ) s fun token t => Read eof token s t := by
  apply Meets.nextToken
  · exact fun none => ⟨Or.inr ⟨rfl, by rw [none]; rfl, by rw [none]; rfl⟩, rfl⟩
  · intro token tokens some
    exact ⟨Or.inl (by rw [some]; rfl), rfl⟩

/-- With fewer than `n` tokens left, the parser takes some of them and returns something good for what it
has done with the state. -/
def Parses (n : ℕ) (p : Parser τ σ ε α) (good : σ → α → σ → Prop) : Prop :=
  ∀ s, s.tokens.length < n → Meets p s fun a t => t.tokens.length < s.tokens.length ∧ good s.data a t.data

/-- The loop over the operators returns something good if its operands and its results are. -/
theorem meets_operators [DecidableEq τ] {op : τ → Option β} {operand : Parser τ σ ε α}
    {combine : β → α → α → Parser τ σ ε α} {n : ℕ} {good : σ → α → σ → Prop} (parses : Parses n operand good)
    (combines : ∀ o {before left middle right after}, good before left middle → good middle right after → ∀ tokens,
      Meets (combine o left right) ⟨tokens, after⟩ fun a t => t.tokens = tokens ∧ good before a t.data)
    (notEof : op eof = none) {fuel : ℕ} {s : State τ σ} (rounds : s.tokens.length < fuel) (fewer : s.tokens.length < n)
    {before : σ} {left : α} (holds : good before left s.data) :
    Meets (operators eof op operand combine fuel left) s
      fun a t => t.tokens.length ≤ s.tokens.length ∧ good before a t.data := by
  induction fuel generalizing s left with
  | zero => exact absurd rounds (Nat.not_lt_zero _)
  | succ fuel ih =>
    rw [operators]
    apply (meets_nextToken s).bind
    intro token t read
    cases found : op token with
    | none =>
      dsimp only
      apply read.replay.bind
      rintro _ u ⟨shorter, same⟩
      exact Meets.pure ⟨shorter, same ▸ holds⟩
    | some o =>
      have shorter := read.lt fun none => by rw [none, notEof] at found; cases found
      dsimp only
      apply (parses t (by omega)).bind
      rintro right u ⟨taken, right_holds⟩
      rw [read.data] at right_holds
      apply (combines o holds right_holds u.tokens).bind
      rintro a v ⟨same, a_holds⟩
      have length : v.tokens.length = u.tokens.length := by rw [same]
      apply (ih (by omega) (by omega) a_holds).mono
      rintro b w ⟨le, b_holds⟩
      exact ⟨by omega, b_holds⟩

end Lengths

end TokenParser
