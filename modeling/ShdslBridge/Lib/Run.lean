import Mathlib.Order.OrderIsoNat

/-! # Runs of a deterministic step function

A system is a step function over a state and an event. A run is the list of its events. Two
predicates speak about a run as a whole: `Along` says that every event meets a condition in the
state that it finds, and `Always` says that every state visited has a property.

`along_iff_along` and `always_iff_along` turn a one-step argument into an exact statement about
runs: as long as the condition is met an invariant is kept and the steps are good, and the first
event that breaks the condition is not good.
-/

namespace Run

variable {S E : Type*}

/-- The state reached from `source` by the events of a run, first event first. -/
def exec (step : S → E → S) (source : S) (events : List E) : S :=
  events.foldl step source

/-- Every event of the run meets `cond` in the state that it finds. -/
def Along (step : S → E → S) (cond : S → E → Prop) : S → List E → Prop
  | _, [] => True
  | source, event :: rest => cond source event ∧ Along step cond (step source event) rest

/-- Every state visited by the run, the first and the last included, has the property. -/
def Always (step : S → E → S) (good : S → Prop) : S → List E → Prop
  | source, [] => good source
  | source, event :: rest => good source ∧ Always step good (step source event) rest

variable {step : S → E → S}

@[simp] theorem exec_nil (source : S) : exec step source [] = source := rfl

@[simp] theorem exec_cons (source : S) (event : E) (rest : List E) :
    exec step source (event :: rest) = exec step (step source event) rest := rfl

theorem exec_append (source : S) (left right : List E) :
    exec step source (left ++ right) = exec step (exec step source left) right :=
  List.foldl_append

@[simp] theorem along_nil {cond : S → E → Prop} (source : S) : Along step cond source [] := trivial

@[simp] theorem along_cons {cond : S → E → Prop} (source : S) (event : E) (rest : List E) :
    Along step cond source (event :: rest) ↔
      cond source event ∧ Along step cond (step source event) rest := Iff.rfl

@[simp] theorem always_nil {good : S → Prop} (source : S) :
    Always step good source [] ↔ good source := Iff.rfl

@[simp] theorem always_cons {good : S → Prop} (source : S) (event : E) (rest : List E) :
    Always step good source (event :: rest) ↔
      good source ∧ Always step good (step source event) rest := Iff.rfl

instance decidableAlong {cond : S → E → Prop} [∀ s e, Decidable (cond s e)] (source : S) :
    (events : List E) → Decidable (Along step cond source events)
  | [] => isTrue trivial
  | event :: rest =>
    haveI : Decidable (Along step cond (step source event) rest) := decidableAlong (step source event) rest
    inferInstanceAs (Decidable (cond source event ∧ Along step cond (step source event) rest))

/-- Two conditions along a run. -/
theorem along_and {cond other : S → E → Prop} {source : S} {events : List E} :
    Along step (fun s e => cond s e ∧ other s e) source events ↔
      Along step cond source events ∧ Along step other source events := by
  induction events generalizing source with
  | nil => exact ⟨fun _ => ⟨trivial, trivial⟩, fun _ => trivial⟩
  | cons event rest ih =>
    rw [along_cons, along_cons, along_cons, ih]
    exact and_and_and_comm

/-- `Always` speaks about the last state of the run as well. -/
theorem Always.last {good : S → Prop} {source : S} {events : List E}
    (always : Always step good source events) : good (exec step source events) := by
  induction events generalizing source with
  | nil => exact always
  | cons event rest ih => exact ih always.2

theorem Along.mono {cond weaker : S → E → Prop} (imp : ∀ s e, cond s e → weaker s e) {source : S}
    {events : List E} (along : Along step cond source events) : Along step weaker source events := by
  induction events generalizing source with
  | nil => trivial
  | cons event rest ih => exact ⟨imp _ _ along.1, ih along.2⟩

/-- An invariant kept by every step under the condition holds at the end of the run. -/
theorem Along.invariant {inv : S → Prop} {cond : S → E → Prop}
    (keeps : ∀ s e, inv s → cond s e → inv (step s e)) {source : S} {events : List E}
    (start : inv source) (along : Along step cond source events) : inv (exec step source events) := by
  induction events generalizing source with
  | nil => exact start
  | cons event rest ih => exact ih (keeps _ _ start along.1) along.2

/-- Under the condition, what the invariant implies holds in every state visited. -/
theorem Along.always {inv good : S → Prop} {cond : S → E → Prop}
    (keeps : ∀ s e, inv s → cond s e → inv (step s e)) (implies : ∀ s, inv s → good s) {source : S}
    {events : List E} (start : inv source) (along : Along step cond source events) :
    Always step good source events := by
  induction events generalizing source with
  | nil => exact implies _ start
  | cons event rest ih => exact ⟨implies _ start, ih (keeps _ _ start along.1) along.2⟩

/-- What an invariant implies about the next step holds along the run. -/
theorem Along.along {inv : S → Prop} {cond good : S → E → Prop}
    (keeps : ∀ s e, inv s → cond s e → inv (step s e)) (implies : ∀ s e, inv s → cond s e → good s e)
    {source : S} {events : List E} (start : inv source) (along : Along step cond source events) :
    Along step good source events := by
  induction events generalizing source with
  | nil => trivial
  | cons event rest ih => exact ⟨implies _ _ start along.1, ih (keeps _ _ start along.1) along.2⟩

/-- A condition on the events alone holds along the run if and only if it holds of each of them. -/
theorem along_iff_forall {cond : E → Prop} (source : S) (events : List E) :
    Along step (fun _ event => cond event) source events ↔ ∀ event ∈ events, cond event := by
  induction events generalizing source with
  | nil => simp
  | cons event rest ih => rw [along_cons, ih, List.forall_mem_cons]

theorem along_of_forall {cond : E → Prop} (source : S) {events : List E} (all : ∀ event ∈ events, cond event) :
    Along step (fun _ event => cond event) source events :=
  (along_iff_forall source events).mpr all

/-- What an invariant of every step implies holds in every state visited. -/
theorem always_of_invariant {inv good : S → Prop} (keeps : ∀ s e, inv s → inv (step s e))
    (implies : ∀ s, inv s → good s) {source : S} (start : inv source) (events : List E) :
    Always step good source events := by
  induction events generalizing source with
  | nil => exact implies _ start
  | cons event rest ih => exact ⟨implies _ start, ih (keeps _ _ start)⟩

/-- Every step of a run is good exactly when every step meets the condition, if the condition
decides the next step's goodness in each state with the invariant. -/
theorem along_iff_along {inv : S → Prop} {cond good : S → E → Prop}
    (keeps : ∀ s e, inv s → cond s e → inv (step s e))
    (exact_ : ∀ s e, inv s → (good s e ↔ cond s e)) {source : S} (start : inv source)
    (events : List E) : Along step good source events ↔ Along step cond source events := by
  induction events generalizing source with
  | nil => simp
  | cons event rest ih =>
    rw [along_cons, along_cons, exact_ _ _ start]
    exact and_congr_right fun holds => ih (keeps _ _ start holds)

/-- Every state visited is good exactly when every step meets the condition, if a step that breaks
the condition leads to a bad state. -/
theorem always_iff_along {inv good : S → Prop} {cond : S → E → Prop}
    (keeps : ∀ s e, inv s → cond s e → inv (step s e)) (implies : ∀ s, inv s → good s)
    (breaks : ∀ s e, inv s → ¬ cond s e → ¬ good (step s e)) {source : S} (start : inv source)
    (events : List E) : Always step good source events ↔ Along step cond source events := by
  constructor
  · intro always
    induction events generalizing source with
    | nil => trivial
    | cons event rest ih =>
      have holds : cond source event := by
        by_contra fails
        refine breaks _ _ start fails ?_
        cases rest with
        | nil => exact always.2
        | cons => exact always.2.1
      exact ⟨holds, ih (keeps _ _ start holds) always.2⟩
  · exact Along.always keeps implies start

/-! ### Endless runs -/

/-- The state behind the first events of an endless run. -/
def reached (step : S → E → S) (source : S) (events : ℕ → E) : ℕ → S
  | 0 => source
  | k + 1 => step (reached step source events k) (events k)

/-- An invariant kept by every step under the condition holds in every state of an endless run. -/
theorem reached_invariant {inv : S → Prop} {cond : S → E → Prop} (keeps : ∀ s e, inv s → cond s e → inv (step s e))
    {source : S} {events : ℕ → E} (start : inv source) (along : ∀ k, cond (reached step source events k) (events k))
    (k : ℕ) : inv (reached step source events k) := by
  induction k with
  | zero => exact start
  | succ k ih => exact keeps _ _ ih (along k)

/-- A weight that does not grow from some state on stays the same in the end. -/
theorem weight_settles (weight : ℕ → ℕ) {start : ℕ} (falls : ∀ k ≥ start, weight (k + 1) ≤ weight k) :
    ∃ k ≥ start, ∀ j ≥ k, weight j = weight k := by
  have antitone : Antitone fun i => weight (start + i) :=
    antitone_nat_of_succ_le fun i => falls (start + i) (Nat.le_add_right start i)
  obtain ⟨i, same⟩ := WellFoundedLT.antitone_chain_condition antitone
  refine ⟨start + i, Nat.le_add_right start i, fun j behind => ?_⟩
  obtain ⟨more, rfl⟩ := Nat.exists_eq_add_of_le behind
  rw [Nat.add_assoc]
  exact (same (i + more) (Nat.le_add_right i more)).symm

end Run
