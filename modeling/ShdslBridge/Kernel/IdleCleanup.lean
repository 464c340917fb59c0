import ShdslBridge.Lib.DoublyLinked
import Mathlib.Data.List.Count

/-! # The clean-up of dead threads

`rt_thread_idle_excute` takes the first thread of `rt_thread_defunct` out of the list, calls its cleanup and,
if the thread is a dynamic one, releases its stack and its object and goes on. Behind a static thread it
returns, so that what is behind the first static thread stays in the list.
-/

namespace RtThread

open DoublyLinked

/-- What is read of a thread: `type & RT_Object_Class_Static`, and whether it has a cleanup. -/
structure DeadThread where
  isSystemobject : Bool
  hasCleanup : Bool

inductive IdleAction
  | cleanup (thread : ℕ)
  | freeStack (thread : ℕ)
  | deleteObject (thread : ℕ)
  deriving DecidableEq

/-- The links of the nodes `tlist`, which stand for their threads, and what has been done so far. -/
structure IdleState where
  next : ℕ → ℕ
  prev : ℕ → ℕ
  actions : List IdleAction

namespace IdleState

/-- `rt_list_remove`. -/
def rtListRemove (s : IdleState) (n : ℕ) : IdleState :=
  let prev := Function.update s.prev (s.next n) (s.prev n)
  let next := Function.update s.next (prev n) (s.next n)
  { s with next := Function.update next n n, prev := Function.update prev n n }

/-- A step that is recorded. -/
def act (s : IdleState) (action : IdleAction) : IdleState := { s with actions := s.actions ++ [action] }

/-- `_has_defunct_thread`. -/
def hasDefunctThread (s : IdleState) (rtThreadDefunct : ℕ) : Bool := s.next rtThreadDefunct != rtThreadDefunct

variable (rtThreadDefunct : ℕ) (threads : ℕ → DeadThread)

/-- A round of the loop, and whether the loop goes on. -/
def idleRound (s : IdleState) : IdleState × Bool :=
  if s.hasDefunctThread rtThreadDefunct then
    let thread := s.next rtThreadDefunct
    let s := s.rtListRemove thread
    let s := if (threads thread).hasCleanup then s.act (.cleanup thread) else s
    if (threads thread).isSystemobject then (s, false)
    else ((s.act (.freeStack thread)).act (.deleteObject thread), true)
  else (s, false)

/-- `rt_thread_idle_excute`, with a bound on the rounds. -/
def rtThreadIdleExcute : (fuel : ℕ) → IdleState → Option IdleState
  | 0, _ => none
  | fuel + 1, s =>
    if s.hasDefunctThread rtThreadDefunct then
      let (s, more) := s.idleRound rtThreadDefunct threads
      if more then rtThreadIdleExcute fuel s else some s
    else some s

end IdleState

/-! ## The list of dead threads -/

def idleActions (threads : ℕ → DeadThread) (thread : ℕ) : List IdleAction :=
  (if (threads thread).hasCleanup then [.cleanup thread] else []) ++
    if (threads thread).isSystemobject then [] else [.freeStack thread, .deleteObject thread]

def cleanUp (threads : ℕ → DeadThread) : List ℕ → List ℕ × List IdleAction
  | [] => ([], [])
  | thread :: rest =>
    if (threads thread).isSystemobject then (rest, idleActions threads thread)
    else ((cleanUp threads rest).1, idleActions threads thread ++ (cleanUp threads rest).2)

variable {rtThreadDefunct : ℕ} {threads : ℕ → DeadThread} {s : IdleState} {dead : List ℕ}

namespace IdleState

/-- The list with the dead threads in order, first one first. -/
def Holds (rtThreadDefunct : ℕ) (s : IdleState) (dead : List ℕ) : Prop := Ring s.next s.prev (rtThreadDefunct :: dead)

theorem Holds.congr {s' : IdleState} (holds : s.Holds rtThreadDefunct dead) (next : s'.next = s.next)
    (prev : s'.prev = s.prev) : s'.Holds rtThreadDefunct dead := by
  rw [Holds, next, prev]
  exact holds

theorem Holds.nil (holds : s.Holds rtThreadDefunct []) : s.hasDefunctThread rtThreadDefunct = false := by
  simp [hasDefunctThread, holds.alone.1]

theorem Holds.cons {thread : ℕ} (holds : s.Holds rtThreadDefunct (thread :: dead)) :
    s.next rtThreadDefunct = thread ∧ s.hasDefunctThread rtThreadDefunct = true := by
  have ring : Ring s.next s.prev ([] ++ rtThreadDefunct :: thread :: dead) := holds
  have linked : s.next rtThreadDefunct = thread := ring.linked.1
  refine ⟨linked, ?_⟩
  rw [hasDefunctThread, linked]
  exact bne_iff_ne.mpr fun same => (List.nodup_cons.mp holds.nodup).1 (same ▸ List.mem_cons_self)

theorem Holds.hasDefunctThread_iff (holds : s.Holds rtThreadDefunct dead) :
    s.hasDefunctThread rtThreadDefunct = false ↔ dead = [] := by
  cases dead with
  | nil => exact iff_of_true holds.nil rfl
  | cons thread rest =>
    rw [holds.cons.2]
    exact iff_of_false nofun nofun

theorem Holds.remove {thread : ℕ} (holds : s.Holds rtThreadDefunct (thread :: dead)) :
    (s.rtListRemove thread).Holds rtThreadDefunct dead := by
  have ring : Ring s.next s.prev ([rtThreadDefunct] ++ thread :: dead) := holds
  have whole : Ring s.next s.prev ([] ++ rtThreadDefunct :: thread :: dead) := holds
  have back : s.prev thread = rtThreadDefunct := whole.linked.2
  obtain ⟨outside, once⟩ :=
    List.nodup_cons.mp (ring.rotate : Ring s.next s.prev (thread :: dead ++ [rtThreadDefunct])).nodup
  have others (a : ℕ) (member : a ∈ [rtThreadDefunct] ++ dead) : a ≠ thread := by
    rintro rfl
    exact outside (List.mem_append.mpr (List.mem_append.mp member).symm)
  have ahead : s.next thread ≠ thread := by
    obtain ⟨node, member, same⟩ : ∃ node ∈ [rtThreadDefunct] ++ dead, s.next thread = node := by
      cases dead with
      | nil =>
        have two : Ring s.next s.prev (rtThreadDefunct :: ([] ++ [thread])) := holds
        exact ⟨rtThreadDefunct, by simp, two.closed.1⟩
      | cons node rest => exact ⟨node, by simp, ring.linked.1⟩
    rw [same]
    exact others node member
  have previous : Function.update s.prev (s.next thread) (s.prev thread) thread = rtThreadDefunct := by
    rw [Function.update_of_ne ahead.symm, back]
  have first : rtThreadDefunct ≠ thread := others rtThreadDefunct (by simp)
  apply ring.remove
  · rw [back, rtListRemove, previous]
    dsimp only
    rw [Function.update_of_ne first, Function.update_self]
  · rw [rtListRemove]
    dsimp only
    rw [Function.update_of_ne ahead, Function.update_self]
  · intro a member apart
    rw [rtListRemove, previous]
    dsimp only
    rw [Function.update_of_ne (others a member), Function.update_of_ne (back ▸ apart)]
  · intro a member apart
    rw [rtListRemove]
    dsimp only
    rw [Function.update_of_ne (others a member), Function.update_of_ne apart]

theorem Holds.idleRound {thread : ℕ} (threads : ℕ → DeadThread) (holds : s.Holds rtThreadDefunct (thread :: dead)) :
    ∃ s', s.idleRound rtThreadDefunct threads = (s', !(threads thread).isSystemobject) ∧
      s'.Holds rtThreadDefunct dead ∧ s'.actions = s.actions ++ idleActions threads thread := by
  obtain ⟨first, nonempty⟩ := holds.cons
  have removed := holds.remove
  rw [IdleState.idleRound, if_pos nonempty, first, idleActions]
  dsimp only
  cases called : (threads thread).hasCleanup with
  | true =>
    cases static : (threads thread).isSystemobject with
    | true => exact ⟨_, rfl, removed.congr rfl rfl, rfl⟩
    | false => exact ⟨_, rfl, removed.congr rfl rfl, by simp [act, rtListRemove]⟩
  | false =>
    cases static : (threads thread).isSystemobject with
    | true => exact ⟨_, rfl, removed, (List.append_nil _).symm⟩
    | false => exact ⟨_, rfl, removed.congr rfl rfl, by simp [act, rtListRemove]⟩

/-- The loop leaves what `cleanUp` leaves, and does what `cleanUp` does. -/
theorem Holds.rtThreadIdleExcute {fuel : ℕ} (threads : ℕ → DeadThread)
    (holds : s.Holds rtThreadDefunct dead) (enough : dead.length < fuel) :
    ∃ s', s.rtThreadIdleExcute rtThreadDefunct threads fuel = some s' ∧
      s'.Holds rtThreadDefunct (cleanUp threads dead).1 ∧ s'.actions = s.actions ++ (cleanUp threads dead).2 := by
  induction dead generalizing s fuel with
  | nil =>
    obtain ⟨fuel, rfl⟩ := Nat.exists_eq_add_one.mpr enough
    refine ⟨s, ?_, holds, (List.append_nil _).symm⟩
    rw [IdleState.rtThreadIdleExcute, holds.nil]
    rfl
  | cons thread rest ih =>
    obtain ⟨fuel, rfl⟩ := Nat.exists_eq_add_one.mpr (Nat.lt_of_le_of_lt (Nat.zero_le _) enough)
    obtain ⟨s₁, round, holds₁, actions₁⟩ := holds.idleRound threads
    rw [IdleState.rtThreadIdleExcute, if_pos holds.cons.2, round, cleanUp]
    cases static : (threads thread).isSystemobject with
    | true => exact ⟨s₁, rfl, holds₁, actions₁⟩
    | false =>
      obtain ⟨s', runs, holds', actions'⟩ := ih holds₁ (Nat.lt_of_succ_lt_succ enough)
      refine ⟨s', runs, holds', ?_⟩
      rw [actions', actions₁, List.append_assoc]
      rfl

end IdleState

/-- The list is empty, the cleanup of each thread has been called once, and each dynamic thread has lost its
stack and its object once. -/
structure CleanedUp (rtThreadDefunct : ℕ) (threads : ℕ → DeadThread) (dead : List ℕ) (s : IdleState) : Prop where
  empty : s.hasDefunctThread rtThreadDefunct = false
  cleanedOnce : ∀ thread ∈ dead, (threads thread).hasCleanup → s.actions.count (.cleanup thread) = 1
  stackFreed : ∀ thread ∈ dead, ¬ (threads thread).isSystemobject → s.actions.count (.freeStack thread) = 1
  objectFreed : ∀ thread ∈ dead, ¬ (threads thread).isSystemobject → s.actions.count (.deleteObject thread) = 1

/-- A static thread may only be the last one. -/
def StaticLast (threads : ℕ → DeadThread) (dead : List ℕ) : Prop :=
  ∀ thread ∈ dead.dropLast, ¬ (threads thread).isSystemobject

theorem cleanUp_empty_iff : (cleanUp threads dead).1 = [] ↔ StaticLast threads dead := by
  induction dead with
  | nil => exact iff_of_true rfl nofun
  | cons thread rest ih =>
    rw [cleanUp]
    cases rest with
    | nil =>
      refine iff_of_true ?_ nofun
      split_ifs <;> rfl
    | cons other rest =>
      rw [StaticLast, List.dropLast_cons_cons, List.forall_mem_cons, ← StaticLast, ← ih]
      split_ifs with static
      · exact iff_of_false nofun fun both => both.1 static
      · exact (and_iff_right static).symm

/-- While a static thread is at most the last one, all threads are dealt with in order. -/
theorem cleanUp_actions (last : StaticLast threads dead) :
    (cleanUp threads dead).2 = dead.flatMap (idleActions threads) := by
  induction dead with
  | nil => rfl
  | cons thread rest ih =>
    rw [cleanUp, List.flatMap_cons]
    cases rest with
    | nil => split_ifs <;> simp [cleanUp]
    | cons other rest =>
      rw [StaticLast, List.dropLast_cons_cons, List.forall_mem_cons, ← StaticLast] at last
      rw [if_neg last.1, ih last.2]

/-- An action that belongs to one thread only is done as often as that thread does it. -/
theorem count_flatMap {action : IdleAction} {thread : ℕ} (once : dead.Nodup) (member : thread ∈ dead)
    (own : ∀ other, other ≠ thread → (idleActions threads other).count action = 0) :
    (dead.flatMap (idleActions threads)).count action = (idleActions threads thread).count action := by
  induction dead with
  | nil => cases member
  | cons first rest ih =>
    obtain ⟨outside, once⟩ := List.nodup_cons.mp once
    rw [List.flatMap_cons, List.count_append]
    rcases List.mem_cons.mp member with rfl | later
    · have none_ : (rest.flatMap (idleActions threads)).count action = 0 := by
        rw [List.count_eq_zero]
        intro inside
        obtain ⟨other, inRest, does⟩ := List.mem_flatMap.mp inside
        have apart : other ≠ thread := fun same => outside (same ▸ inRest)
        exact List.count_eq_zero.mp (own other apart) does
      rw [none_, Nat.add_zero]
    · have apart : first ≠ thread := fun same => outside (same ▸ later)
      rw [own first apart, Nat.zero_add, ih once later]

theorem idleActions_own (thread : ℕ) :
    (idleActions threads thread).count (.cleanup thread) = (if (threads thread).hasCleanup then 1 else 0) ∧
      (idleActions threads thread).count (.freeStack thread) = (if (threads thread).isSystemobject then 0 else 1) ∧
      (idleActions threads thread).count (.deleteObject thread) =
        (if (threads thread).isSystemobject then 0 else 1) := by
  rw [idleActions]
  cases (threads thread).hasCleanup <;> cases (threads thread).isSystemobject <;> simp

theorem idleActions_other {other thread : ℕ} (ne : other ≠ thread) :
    (idleActions threads other).count (.cleanup thread) = 0 ∧
      (idleActions threads other).count (.freeStack thread) = 0 ∧
      (idleActions threads other).count (.deleteObject thread) = 0 := by
  rw [idleActions]
  cases (threads other).hasCleanup <;> cases (threads other).isSystemobject <;> simp [ne]

/-- The clean-up is complete exactly if no static thread is in front of another thread. -/
theorem rtThreadIdleExcute_complete_iff {fuel : ℕ} (holds : s.Holds rtThreadDefunct dead) (fresh : s.actions = [])
    (enough : dead.length < fuel) :
    (∃ s', s.rtThreadIdleExcute rtThreadDefunct threads fuel = some s' ∧ CleanedUp rtThreadDefunct threads dead s') ↔
      StaticLast threads dead := by
  obtain ⟨s', runs, holds', actions⟩ := holds.rtThreadIdleExcute threads enough
  rw [fresh, List.nil_append] at actions
  have once : dead.Nodup := (List.nodup_cons.mp holds.nodup).2
  rw [runs]
  constructor
  · rintro ⟨_, same, cleaned⟩
    obtain rfl := Option.some.inj same
    exact cleanUp_empty_iff.mp (holds'.hasDefunctThread_iff.mp cleaned.empty)
  · intro last
    rw [cleanUp_actions last] at actions
    refine ⟨s', rfl, holds'.hasDefunctThread_iff.mpr (cleanUp_empty_iff.mpr last), ?_, ?_, ?_⟩
    · intro thread member has
      rw [actions, count_flatMap once member fun other ne => (idleActions_other ne).1,
        (idleActions_own thread).1, if_pos has]
    · intro thread member dynamic
      rw [actions, count_flatMap once member fun other ne => (idleActions_other ne).2.1,
        (idleActions_own thread).2.1, if_neg dynamic]
    · intro thread member dynamic
      rw [actions, count_flatMap once member fun other ne => (idleActions_other ne).2.2,
        (idleActions_own thread).2.2, if_neg dynamic]

/-- Two threads in the list, at the nodes 1 and 2. -/
def twoDead : IdleState := ⟨fun n => (n + 1) % 3, fun n => (n + 2) % 3, []⟩

theorem twoDead_holds : twoDead.Holds 0 [1, 2] :=
  Ring.of_path (by simp [DoublyLinked.Path, twoDead]) (by decide)

/-- A dynamic thread in front of a static one. -/
theorem rtThreadIdleExcute_complete_iff_dynamic :
    (∃ s', twoDead.rtThreadIdleExcute 0 (fun n => ⟨n == 2, true⟩) 3 = some s' ∧
        CleanedUp 0 (fun n => ⟨n == 2, true⟩) [1, 2] s') ↔ StaticLast (fun n => ⟨n == 2, true⟩) [1, 2] :=
  rtThreadIdleExcute_complete_iff twoDead_holds rfl (by decide)

/-- Behind a static thread the second one stays in the list. -/
theorem static_not_complete :
    ¬ ∀ (rtThreadDefunct : ℕ) (threads : ℕ → DeadThread) (s : IdleState) (dead : List ℕ),
      s.Holds rtThreadDefunct dead → s.actions = [] →
        ∃ s', s.rtThreadIdleExcute rtThreadDefunct threads (dead.length + 1) = some s' ∧
          CleanedUp rtThreadDefunct threads dead s' := by
  intro all
  obtain ⟨s', runs, cleaned⟩ := all 0 (fun n => ⟨n == 1, true⟩) twoDead [1, 2] twoDead_holds rfl
  have stays : ∀ s' ∈ twoDead.rtThreadIdleExcute 0 (fun n => ⟨n == 1, true⟩) 3, s'.hasDefunctThread 0 = true := by
    decide
  have full := stays s' runs
  rw [cleaned.empty] at full
  exact Bool.noConfusion full

end RtThread
