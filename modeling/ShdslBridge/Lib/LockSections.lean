import ShdslBridge.Lib.Run
import Mathlib.Algebra.Order.Group.Int
import Mathlib.Data.Int.Basic

/-! # Sections under semaphores

A thread takes and releases semaphores. What it does to them is a log, the list of these operations in
their order. `net` is what a log does to the counter of a semaphore, and `walk` follows a log as long as
it takes only what it does not hold and releases only what it holds.

Threads run their logs in any order of steps, and wait where a counter is zero. If every log can be
followed, and the counters start with one, no two threads are inside a section of one semaphore at once.
-/

namespace LockSections

/-- An operation on a semaphore. -/
inductive Op (ι : Type*)
  | take (lock : ι)
  | release (lock : ι)
  deriving DecidableEq

variable {ι τ : Type*} [DecidableEq ι] [DecidableEq τ]

/-- What the log adds to the counter of a semaphore. -/
def net (lock : ι) : List (Op ι) → ℤ
  | [] => 0
  | .take other :: rest => (if other = lock then -1 else 0) + net lock rest
  | .release other :: rest => (if other = lock then 1 else 0) + net lock rest

/-- What is held behind the log; `none` where it takes what it holds or releases what it does not hold. -/
def walk (held : ι → Bool) : List (Op ι) → Option (ι → Bool)
  | [] => some held
  | .take lock :: rest => if held lock = true then none else walk (Function.update held lock true) rest
  | .release lock :: rest => if held lock = true then walk (Function.update held lock false) rest else none

/-- Nothing is held. -/
def nothing : ι → Bool := fun _ => false

/-- The log is made of sections that are entered and left. -/
def Bracketed (log : List (Op ι)) : Prop := walk nothing log = some nothing

/-- A section around a log. -/
def sectionOf (lock : ι) (inner : List (Op ι)) : List (Op ι) := .take lock :: (inner ++ [.release lock])

/-! ## Logs -/

theorem net_append (lock : ι) (left right : List (Op ι)) :
    net lock (left ++ right) = net lock left + net lock right := by
  induction left with
  | nil => simp [net]
  | cons op rest ih =>
    cases op with
    | take other => rw [List.cons_append, net, net, ih, add_assoc]
    | release other => rw [List.cons_append, net, net, ih, add_assoc]

theorem walk_append (held : ι → Bool) (left right : List (Op ι)) :
    walk held (left ++ right) = (walk held left).bind fun between => walk between right := by
  induction left generalizing held with
  | nil => rfl
  | cons op rest ih =>
    cases op with
    | take lock =>
      rw [List.cons_append, walk, walk]
      split_ifs
      · rfl
      · exact ih _
    | release lock =>
      rw [List.cons_append, walk, walk]
      split_ifs
      · exact ih _
      · rfl

/-- The counter has gone down by what is held more. -/
theorem net_of_walk {held after : ι → Bool} {log : List (Op ι)} (walks : walk held log = some after)
    (lock : ι) : net lock log = (held lock).toNat - (after lock).toNat := by
  induction log generalizing held with
  | nil =>
    obtain rfl := Option.some.inj walks
    rw [net]
    omega
  | cons op rest ih =>
    cases op with
    | take other =>
      rw [walk] at walks
      split_ifs at walks with free
      rw [net, ih walks]
      rcases eq_or_ne other lock with rfl | ne
      · simp only [if_true, Function.update_self, Bool.eq_false_of_not_eq_true free, Bool.toNat_false,
          Bool.toNat_true]
        omega
      · simp only [if_neg ne, Function.update_of_ne ne.symm]
        omega
    | release other =>
      rw [walk] at walks
      split_ifs at walks with owned
      rw [net, ih walks]
      rcases eq_or_ne other lock with rfl | ne
      · simp only [if_true, Function.update_self, owned, Bool.toNat_false, Bool.toNat_true]
        omega
      · simp only [if_neg ne, Function.update_of_ne ne.symm]
        omega

namespace Bracketed

variable {left right inner : List (Op ι)}

theorem net_eq_zero (bracketed : Bracketed left) (lock : ι) : net lock left = 0 := by
  rw [net_of_walk bracketed, sub_self]

theorem nil : Bracketed ([] : List (Op ι)) := rfl

theorem append (first : Bracketed left) (second : Bracketed right) : Bracketed (left ++ right) := by
  rw [Bracketed, walk_append, first, Option.bind_some, second]

/-- Logs one after the other. -/
theorem flatten {logs : List (List (Op ι))} (each : ∀ log ∈ logs, Bracketed log) : Bracketed logs.flatten := by
  induction logs with
  | nil => exact nil
  | cons log rest ih =>
    obtain ⟨first, later⟩ := List.forall_mem_cons.mp each
    exact first.append (ih later)

end Bracketed

theorem bracketed_section (lock : ι) : Bracketed (sectionOf lock []) := by
  have back : Function.update (Function.update nothing lock true) lock false = (nothing : ι → Bool) := by
    rw [Function.update_idem]
    exact Function.update_eq_self lock nothing
  change walk nothing [.take lock, .release lock] = _
  rw [walk, if_neg (by simp [nothing]), walk, Function.update_self, if_pos rfl, walk, back]

/-- A section of another semaphore inside. -/
theorem bracketed_nested {outer lock : ι} (ne : lock ≠ outer) :
    Bracketed (sectionOf outer (sectionOf lock [])) := by
  change walk nothing [.take outer, .take lock, .release lock, .release outer] = _
  have free : Function.update nothing outer true lock = false := Function.update_of_ne ne _ _
  have back : Function.update (Function.update (Function.update nothing outer true) lock true) lock false =
      Function.update (nothing : ι → Bool) outer true := by
    rw [Function.update_idem]
    exact Function.update_eq_iff.mpr ⟨free.symm, fun _ _ => rfl⟩
  have clear : Function.update (Function.update nothing outer true) outer false = (nothing : ι → Bool) := by
    rw [Function.update_idem]
    exact Function.update_eq_self outer nothing
  rw [walk, if_neg (by simp [nothing]), walk, free, if_neg (by decide), walk, Function.update_self, if_pos rfl,
    back, walk, Function.update_self, if_pos rfl, clear, walk]

/-! ## Threads -/

/-- The counters, what each thread holds, and what is left of its log. -/
structure Threads (τ ι : Type*) where
  value : ι → ℕ
  held : τ → ι → Bool
  todo : τ → List (Op ι)

namespace Threads

/-- A thread does the next operation of its log, or waits. -/
def step (s : Threads τ ι) (thread : τ) : Threads τ ι :=
  match s.todo thread with
  | [] => s
  | .take lock :: rest =>
    if s.value lock = 0 then s
    else
      { value := Function.update s.value lock (s.value lock - 1)
        held := Function.update s.held thread (Function.update (s.held thread) lock true)
        todo := Function.update s.todo thread rest }
  | .release lock :: rest =>
    { value := Function.update s.value lock (s.value lock + 1)
      held := Function.update s.held thread (Function.update (s.held thread) lock false)
      todo := Function.update s.todo thread rest }

/-- Every counter is one and nothing is held. -/
def start (todo : τ → List (Op ι)) : Threads τ ι := { value := fun _ => 1, held := fun _ => nothing, todo }

/-- At most one thread is inside the sections of a semaphore. -/
def Exclusive (s : Threads τ ι) : Prop :=
  ∀ lock first second, s.held first lock = true → s.held second lock = true → first = second

/-- The counter of a semaphore is one and nobody holds it, or it is zero and one thread does; and every
thread can go on with its log. -/
structure Inv (s : Threads τ ι) : Prop where
  counted : ∀ lock, (s.value lock = 1 ∧ ∀ thread, s.held thread lock = false) ∨
    (s.value lock = 0 ∧ ∃ holder, ∀ thread, s.held thread lock = true ↔ thread = holder)
  walks : ∀ thread, walk (s.held thread) (s.todo thread) ≠ none

variable {s : Threads τ ι}

omit [DecidableEq τ] in
theorem Inv.exclusive (inv : s.Inv) : s.Exclusive := by
  intro lock first second left right
  obtain ⟨-, nobody⟩ | ⟨-, holder, one⟩ := inv.counted lock
  · rw [nobody first] at left
    cases left
  · exact ((one first).mp left).trans ((one second).mp right).symm

/-- A change of one semaphore and of what one thread holds of it. -/
theorem Inv.change (inv : s.Inv) {thread : τ} {lock : ι} {value : ℕ} {owned : Bool} {rest : List (Op ι)}
    (counted : (value = 1 ∧ owned = false ∧ ∀ other ≠ thread, s.held other lock = false) ∨
      (value = 0 ∧ owned = true ∧ ∀ other ≠ thread, s.held other lock = false))
    (walks : walk (Function.update (s.held thread) lock owned) rest ≠ none) :
    Inv { value := Function.update s.value lock value
          held := Function.update s.held thread (Function.update (s.held thread) lock owned)
          todo := Function.update s.todo thread rest } := by
  constructor
  · intro other
    dsimp only
    rcases eq_or_ne other lock with rfl | ne
    · rw [Function.update_self]
      have here (t : τ) : Function.update s.held thread (Function.update (s.held thread) other owned) t other =
          if t = thread then owned else s.held t other := by
        rcases eq_or_ne t thread with rfl | away
        · rw [Function.update_self, Function.update_self, if_pos rfl]
        · rw [Function.update_of_ne away, if_neg away]
      simp only [here]
      rcases counted with ⟨one, free, nobody⟩ | ⟨zero, taken, nobody⟩
      · refine .inl ⟨one, fun t => ?_⟩
        split_ifs with same
        · exact free
        · exact nobody t same
      · refine .inr ⟨zero, thread, fun t => ?_⟩
        split_ifs with same
        · exact iff_of_true taken same
        · rw [nobody t same]
          exact iff_of_false nofun same
    · have same (t : τ) : Function.update s.held thread (Function.update (s.held thread) lock owned) t other =
          s.held t other := by
        rcases eq_or_ne t thread with rfl | away
        · rw [Function.update_self, Function.update_of_ne ne]
        · rw [Function.update_of_ne away]
      rw [Function.update_of_ne ne]
      simp only [same]
      exact inv.counted other
  · intro other
    dsimp only
    rcases eq_or_ne other thread with rfl | ne
    · rw [Function.update_self, Function.update_self]
      exact walks
    · rw [Function.update_of_ne ne, Function.update_of_ne ne]
      exact inv.walks other

theorem Inv.step (inv : s.Inv) (thread : τ) : (s.step thread).Inv := by
  have walks := inv.walks thread
  rw [Threads.step]
  split
  · exact inv
  · rename_i lock rest todo
    split
    · exact inv
    · rename_i positive
      rw [todo, walk] at walks
      split_ifs at walks with owned
      · exact absurd rfl walks
      · obtain ⟨one, nobody⟩ := (inv.counted lock).resolve_right fun zero => positive zero.1
        exact inv.change (.inr ⟨by rw [one], rfl, fun other _ => nobody other⟩) walks
  · rename_i lock rest todo
    rw [todo, walk] at walks
    split_ifs at walks with owned
    · obtain ⟨zero, holder, one⟩ := (inv.counted lock).resolve_left fun free => by
        rw [free.2 thread] at owned
        cases owned
      have mine := (one thread).mp owned
      refine inv.change (.inl ⟨by rw [zero], rfl, fun other away => ?_⟩) walks
      exact Bool.eq_false_of_not_eq_true fun held => away (((one other).mp held).trans mine.symm)
    · exact absurd rfl walks

/-- Threads whose logs are made of sections exclude each other, in whatever order they run. -/
theorem exclusive_of_bracketed {todo : τ → List (Op ι)} (bracketed : ∀ thread, Bracketed (todo thread))
    (schedule : List τ) : Run.Always step Exclusive (start todo) schedule := by
  have inv : Inv (start todo) := by
    refine ⟨fun lock => .inl ⟨rfl, fun _ => rfl⟩, fun thread => ?_⟩
    change walk nothing (todo thread) ≠ none
    rw [bracketed thread]
    exact nofun
  exact Run.always_of_invariant (fun _ thread inv => inv.step thread) (fun _ inv => inv.exclusive) inv schedule

end Threads

end LockSections
