import ShdslBridge.Kernel.Thread
import ShdslBridge.Lib.Run

/-! # Mutexes: ownership, recursion and hand-over

A run interleaves the takes and the releases of any number of threads on any number of mutexes with
the timers of the waiting threads. A take of the owner nests; a take of another thread waits and
raises the priority of the owner; the last release restores the priority that the owner had when it
took the mutex and hands the mutex to the first waiting thread. The counter of the nested takes
has eight bits.

The structure of the waiting lists is an invariant of every run. Mutual exclusion holds exactly as
long as nobody releases a mutex out of a nesting that has wrapped the counter.
-/

namespace RtThread

variable {τ μ : Type*} [DecidableEq τ] [DecidableEq μ]

/-- `struct rt_mutex`. -/
structure RtMutex (τ : Type*) where
  value : BitVec 16
  originalPriority : ℕ
  hold : BitVec 8
  owner : Option τ
  flag : IpcFlag
  suspendThread : List τ
  deriving DecidableEq

/-- `rt_mutex_init`. -/
def rtMutexInit (flag : IpcFlag) : RtMutex τ :=
  { value := 1, originalPriority := 0xFF, hold := 0, owner := none, flag, suspendThread := [] }

/-- A thread as `rt_thread_init` and `rt_thread_startup` leave it. -/
def Thread.started (priority : ℕ) : Thread :=
  { currentPriority := priority, initPriority := priority }

structure MutexState (τ μ : Type*) where
  threads : τ → Thread
  mutexes : μ → RtMutex τ
  /-- The mutex in whose `rt_mutex_take` the thread has called `rt_schedule`. -/
  inTake : τ → Option μ
  /-- The successful takes of a mutex by a thread; a hand-over is one. -/
  taken : τ → μ → ℕ
  /-- The successful releases of a mutex by a thread. -/
  given : τ → μ → ℕ

inductive MutexEvent (τ μ : Type*)
  | take (thread : τ) (mutex : μ) (time : ℤ)
  | release (thread : τ) (mutex : μ)
  | timeout (thread : τ)
  | wake (thread : τ)

namespace MutexState

def count (counts : τ → μ → ℕ) (thread : τ) (mutex : μ) : τ → μ → ℕ :=
  Function.update counts thread (Function.update (counts thread) mutex (counts thread mutex + 1))

/-- The thread can call: it is ready and not inside a take. -/
def Running (s : MutexState τ μ) (thread : τ) : Prop :=
  (s.threads thread).stat = .ready ∧ s.inTake thread = none

instance (s : MutexState τ μ) (thread : τ) : Decidable (s.Running thread) :=
  inferInstanceAs (Decidable (_ ∧ _))

def takeNested (s : MutexState τ μ) (thread : τ) (mutex : μ) : MutexState τ μ :=
  { s with
    threads := onThread s.threads thread (Thread.setError .eok)
    mutexes := Function.update s.mutexes mutex
      { s.mutexes mutex with hold := (s.mutexes mutex).hold + 1 }
    taken := count s.taken thread mutex }

def takeFree (s : MutexState τ μ) (thread : τ) (mutex : μ) : MutexState τ μ :=
  { s with
    threads := onThread s.threads thread (Thread.setError .eok)
    mutexes := Function.update s.mutexes mutex
      { s.mutexes mutex with
        value := (s.mutexes mutex).value - 1
        owner := some thread
        originalPriority := (s.threads thread).currentPriority
        hold := (s.mutexes mutex).hold + 1 }
    taken := count s.taken thread mutex }

def raiseOwner (s : MutexState τ μ) (thread : τ) (mutex : μ) : τ → Thread :=
  match (s.mutexes mutex).owner with
  | none => s.threads
  | some owner =>
    if (s.threads thread).currentPriority < (s.threads owner).currentPriority then
      onThread s.threads owner (Thread.rtThreadControl (s.threads thread).currentPriority)
    else s.threads

/-- A take of a mutex of another thread, up to the `rt_schedule`. -/
def takeWait (s : MutexState τ μ) (thread : τ) (mutex : μ) (time : ℤ) : MutexState τ μ :=
  let threads := s.raiseOwner thread mutex
  { s with
    threads := onThread threads thread (Thread.enterWait time)
    mutexes := Function.update s.mutexes mutex
      { s.mutexes mutex with
        suspendThread :=
          rtIpcListInsert (s.mutexes mutex).flag threads thread (s.mutexes mutex).suspendThread }
    inTake := Function.update s.inTake thread (some mutex) }

/-- `rt_mutex_take` up to its return or its `rt_schedule`. -/
def rtMutexTake (s : MutexState τ μ) (thread : τ) (mutex : μ) (time : ℤ) : MutexState τ μ :=
  if (s.mutexes mutex).owner = some thread then s.takeNested thread mutex
  else if 0 < (s.mutexes mutex).value then s.takeFree thread mutex
  else if time = 0 then { s with threads := onThread s.threads thread (Thread.setError .etimeout) }
  else s.takeWait thread mutex time

def restoreOwner (s : MutexState τ μ) (thread : τ) (mutex : μ) : τ → Thread :=
  if (s.mutexes mutex).originalPriority ≠ (s.threads thread).currentPriority then
    onThread s.threads thread (Thread.rtThreadControl (s.mutexes mutex).originalPriority)
  else s.threads

/-- The release that ends the last nested take: hand-over to the first waiting thread, or a free
mutex. -/
def releaseLast (s : MutexState τ μ) (thread : τ) (mutex : μ) : MutexState τ μ :=
  let threads := s.restoreOwner thread mutex
  match (s.mutexes mutex).suspendThread with
  | [] =>
    { s with
      threads
      mutexes := Function.update s.mutexes mutex
        { s.mutexes mutex with
          hold := 0, value := (s.mutexes mutex).value + 1, owner := none, originalPriority := 0xFF }
      given := count s.given thread mutex }
  | first :: _ =>
    let (list, resumed) := rtIpcListResume (s.mutexes mutex).suspendThread threads
    { s with
      threads := resumed
      mutexes := Function.update s.mutexes mutex
        { s.mutexes mutex with
          hold := 1, owner := some first, suspendThread := list
          originalPriority := (threads first).currentPriority }
      taken := count s.taken first mutex
      given := count s.given thread mutex }

def releaseNested (s : MutexState τ μ) (thread : τ) (mutex : μ) : MutexState τ μ :=
  { s with
    mutexes := Function.update s.mutexes mutex
      { s.mutexes mutex with hold := (s.mutexes mutex).hold - 1 }
    given := count s.given thread mutex }

/-- `rt_mutex_release`. -/
def rtMutexRelease (s : MutexState τ μ) (thread : τ) (mutex : μ) : MutexState τ μ :=
  if (s.mutexes mutex).owner ≠ some thread then
    { s with threads := onThread s.threads thread (Thread.setError .error) }
  else if (s.mutexes mutex).hold - 1 = 0 then s.releaseLast thread mutex
  else s.releaseNested thread mutex

/-- The timer of a suspended thread fires and takes the thread out of the list that it is in. -/
def timeoutTake (s : MutexState τ μ) (thread : τ) : MutexState τ μ :=
  { s with
    threads := onThread s.threads thread Thread.rtThreadTimeout
    mutexes := fun mutex =>
      { s.mutexes mutex with suspendThread := (s.mutexes mutex).suspendThread.erase thread } }

/-- `rt_mutex_take` behind its `rt_schedule`: the thread returns its error code. -/
def finishTake (s : MutexState τ μ) (thread : τ) : MutexState τ μ :=
  { s with inTake := Function.update s.inTake thread none }

/-- One event. An event that cannot happen in the state changes nothing. -/
def step (s : MutexState τ μ) : MutexEvent τ μ → MutexState τ μ
  | .take thread mutex time => if s.Running thread then s.rtMutexTake thread mutex time else s
  | .release thread mutex => if s.Running thread then s.rtMutexRelease thread mutex else s
  | .timeout thread => if (s.threads thread).CanTimeout then s.timeoutTake thread else s
  | .wake thread =>
    if s.inTake thread ≠ none ∧ (s.threads thread).stat = .ready then s.finishTake thread else s

def start (priority : τ → ℕ) (flag : μ → IpcFlag) : MutexState τ μ :=
  { threads := fun thread => .started (priority thread)
    mutexes := fun mutex => rtMutexInit (flag mutex)
    inTake := fun _ => none
    taken := fun _ _ => 0
    given := fun _ _ => 0 }

section Priorities

omit [DecidableEq μ]

variable (s : MutexState τ μ) (thread : τ) (mutex : μ) (other : τ)

theorem raiseOwner_apply : s.raiseOwner thread mutex other =
    if (s.mutexes mutex).owner = some other ∧
        (s.threads thread).currentPriority < (s.threads other).currentPriority then
      (s.threads other).rtThreadControl (s.threads thread).currentPriority
    else s.threads other := by
  unfold raiseOwner
  rcases owned : (s.mutexes mutex).owner with _ | owner
  · simp
  · rcases eq_or_ne other owner with rfl | ne
    · simp only [true_and]
      split <;> simp
    · simp only [Option.some.injEq, ne.symm, false_and, if_false]
      split <;> simp [ne]

theorem restoreOwner_apply : s.restoreOwner thread mutex other =
    if other = thread then (s.threads other).rtThreadControl (s.mutexes mutex).originalPriority
    else s.threads other := by
  unfold restoreOwner
  rcases eq_or_ne other thread with rfl | ne
  · rcases eq_or_ne (s.mutexes mutex).originalPriority (s.threads other).currentPriority with same | differs
    · simp [same, Thread.rtThreadControl]
    · simp [differs]
  · simp only [if_neg ne]
    split <;> simp [ne]

@[simp] theorem raiseOwner_stat : (s.raiseOwner thread mutex other).stat = (s.threads other).stat := by
  rw [raiseOwner_apply]
  split <;> rfl

@[simp] theorem raiseOwner_initPriority :
    (s.raiseOwner thread mutex other).initPriority = (s.threads other).initPriority := by
  rw [raiseOwner_apply]
  split <;> rfl

@[simp] theorem restoreOwner_stat : (s.restoreOwner thread mutex other).stat = (s.threads other).stat := by
  rw [restoreOwner_apply]
  split <;> rfl

@[simp] theorem restoreOwner_initPriority :
    (s.restoreOwner thread mutex other).initPriority = (s.threads other).initPriority := by
  rw [restoreOwner_apply]
  split <;> rfl

end Priorities

/-- The waiting list of a mutex, its owner and the calls fit together. -/
structure Fits (threads : τ → Thread) (inTake : τ → Option μ) (mutex : μ) (mx : RtMutex τ) : Prop where
  distinct : mx.suspendThread.Nodup
  waiting : ∀ thread, thread ∈ mx.suspendThread ↔
    inTake thread = some mutex ∧ (threads thread).stat = .suspend
  owned : mx.owner = none → mx.suspendThread = []
  apart : ∀ thread, mx.owner = some thread → thread ∉ mx.suspendThread
  value : mx.value = if mx.owner = none then 1 else 0
  idle : mx.owner = none → mx.hold = 0

def Structured (s : MutexState τ μ) : Prop :=
  ∀ mutex, Fits s.threads s.inTake mutex (s.mutexes mutex)

omit [DecidableEq τ] [DecidableEq μ] in
theorem structured_start (priority : τ → ℕ) (flag : μ → IpcFlag) : (start priority flag).Structured :=
  fun _ => {
    distinct := List.nodup_nil
    waiting := by simp [start, rtMutexInit]
    owned := fun _ => rfl
    apart := by simp [start, rtMutexInit]
    value := rfl
    idle := fun _ => rfl }

omit [DecidableEq τ] [DecidableEq μ] in
/-- A mutex that does not change fits as long as the same threads wait for it. -/
theorem Fits.frame {threads threads' : τ → Thread} {inTake inTake' : τ → Option μ} {mutex : μ} {mx : RtMutex τ}
    (fits : Fits threads inTake mutex mx)
    (same : ∀ thread, (inTake' thread = some mutex ∧ (threads' thread).stat = .suspend) ↔
      inTake thread = some mutex ∧ (threads thread).stat = .suspend) :
    Fits threads' inTake' mutex mx :=
  { fits with waiting := fun thread => by rw [fits.waiting, same] }

omit [DecidableEq τ] in
/-- A change of one mutex: the others fit as long as the same threads wait for them. -/
theorem Structured.update {s : MutexState τ μ} (st : s.Structured) {threads' : τ → Thread}
    {inTake' : τ → Option μ} {mutex : μ} {mx : RtMutex τ} (here : Fits threads' inTake' mutex mx)
    (same : ∀ other ≠ mutex, ∀ thread, (inTake' thread = some other ∧ (threads' thread).stat = .suspend) ↔
      s.inTake thread = some other ∧ (s.threads thread).stat = .suspend) (other : μ) :
    Fits threads' inTake' other (Function.update s.mutexes mutex mx other) := by
  rcases eq_or_ne other mutex with rfl | ne
  · rw [Function.update_self]
    exact here
  · rw [Function.update_of_ne ne]
    exact (st other).frame (same other ne)

omit [DecidableEq μ] in
theorem Structured.setError {s : MutexState τ μ} (st : s.Structured) (thread : τ) (code : RtErr) :
    Structured { s with threads := onThread s.threads thread (Thread.setError code) } := by
  intro mutex
  refine (st mutex).frame fun other => ?_
  rw [onThread_keeps Thread.stat rfl]

theorem Structured.takeNested {s : MutexState τ μ} (st : s.Structured) {thread : τ} {mutex : μ}
    (owner : (s.mutexes mutex).owner = some thread) : (s.takeNested thread mutex).Structured := by
  apply (st.setError thread .eok).update
  · have fits := st.setError thread .eok mutex
    exact { fits with idle := fun free => by simp [owner] at free }
  · exact fun _ _ _ => Iff.rfl

theorem Structured.takeFree {s : MutexState τ μ} (st : s.Structured) (thread : τ) {mutex : μ}
    (free : (s.mutexes mutex).owner = none) : (s.takeFree thread mutex).Structured := by
  apply (st.setError thread .eok).update
  · have fits := st.setError thread .eok mutex
    have nobody := (st mutex).owned free
    exact {
      distinct := fits.distinct
      waiting := fits.waiting
      owned := fun none => by simp at none
      apart := fun _ _ => by simp [nobody]
      value := by simp [(st mutex).value, free]
      idle := fun none => by simp at none }
  · exact fun _ _ _ => Iff.rfl

theorem Structured.takeWait {s : MutexState τ μ} (st : s.Structured) {thread : τ} {mutex : μ}
    (running : s.Running thread) {owner : τ} (owned : (s.mutexes mutex).owner = some owner)
    (foreign : owner ≠ thread) (time : ℤ) : (s.takeWait thread mutex time).Structured := by
  obtain ⟨ready, outside⟩ := running
  have raised : (s.raiseOwner thread mutex thread).stat = .ready := by rw [raiseOwner_stat, ready]
  have notWaiting : thread ∉ (s.mutexes mutex).suspendThread := by simp [(st mutex).waiting, outside]
  apply st.update
  · have fits := st mutex
    constructor
    · exact rtIpcListInsert_nodup.mpr ⟨notWaiting, fits.distinct⟩
    · intro other
      rcases eq_or_ne other thread with rfl | ne
      · simp [MutexState.takeWait, Thread.enterWait_of_ready raised]
      · simp [MutexState.takeWait, ne, fits.waiting]
    · intro free
      simp [owned] at free
    · intro other isOwner
      obtain rfl : owner = other := Option.some.inj (owned.symm.trans isOwner)
      simp [foreign, fits.apart owner isOwner]
    · exact fits.value
    · exact fits.idle
  · intro other ne at_
    rcases eq_or_ne at_ thread with rfl | neThread
    · simp [MutexState.takeWait, outside, ne.symm]
    · simp [MutexState.takeWait, neThread]

theorem releaseLast_free {s : MutexState τ μ} (thread : τ) {mutex : μ}
    (nobody : (s.mutexes mutex).suspendThread = []) :
    s.releaseLast thread mutex =
      { s with
        threads := s.restoreOwner thread mutex
        mutexes := Function.update s.mutexes mutex
          { s.mutexes mutex with
            hold := 0, value := (s.mutexes mutex).value + 1, owner := none, originalPriority := 0xFF }
        given := count s.given thread mutex } := by
  simp only [releaseLast, nobody]

theorem releaseLast_handOver {s : MutexState τ μ} (st : s.Structured) (thread : τ) {mutex : μ} {first : τ}
    {rest : List τ} (queue : (s.mutexes mutex).suspendThread = first :: rest) :
    s.releaseLast thread mutex =
      { s with
        threads := onThread (s.restoreOwner thread mutex) first Thread.rtThreadResume
        mutexes := Function.update s.mutexes mutex
          { s.mutexes mutex with
            hold := 1, owner := some first, suspendThread := rest
            originalPriority := (s.restoreOwner thread mutex first).currentPriority }
        taken := count s.taken first mutex
        given := count s.given thread mutex } := by
  have member : first ∈ (s.mutexes mutex).suspendThread := by simp [queue]
  have suspended : (s.restoreOwner thread mutex first).stat = .suspend := by
    rw [restoreOwner_stat]
    exact (((st mutex).waiting first).mp member).2
  simp only [releaseLast, queue, rtIpcListResume_cons suspended]

theorem Structured.releaseLast {s : MutexState τ μ} (st : s.Structured) {thread : τ} {mutex : μ}
    (owner : (s.mutexes mutex).owner = some thread) : (s.releaseLast thread mutex).Structured := by
  have fits := st mutex
  rcases queue : (s.mutexes mutex).suspendThread with _ | ⟨first, rest⟩
  · rw [releaseLast_free thread queue]
    apply st.update
    · exact {
        distinct := fits.distinct
        waiting := fun other => by simp only [restoreOwner_stat, fits.waiting]
        owned := fun _ => queue
        apart := fun _ none => by simp at none
        value := by simp [fits.value, owner]
        idle := fun _ => rfl }
    · exact fun _ _ _ => by simp only [restoreOwner_stat]
  · rw [releaseLast_handOver st thread queue]
    obtain ⟨notLater, restDistinct⟩ := List.nodup_cons.mp (queue ▸ fits.distinct)
    have inside : s.inTake first = some mutex := ((fits.waiting first).mp (by simp [queue])).1
    apply st.update
    · exact {
        distinct := restDistinct
        waiting := fun other => by
          rcases eq_or_ne other first with rfl | ne
          · simp [notLater, Thread.rtThreadResume]
          · simp [ne, ← fits.waiting, queue]
        owned := fun none => by simp at none
        apart := fun other isFirst => by
          obtain rfl := Option.some.inj isFirst
          exact notLater
        value := by simp [fits.value, owner]
        idle := fun none => by simp at none }
    · intro other ne at_
      rcases eq_or_ne at_ first with rfl | neFirst
      · simp [inside, ne.symm]
      · simp [neFirst]

theorem Structured.releaseNested {s : MutexState τ μ} (st : s.Structured) {thread : τ} {mutex : μ}
    (owner : (s.mutexes mutex).owner = some thread) : (s.releaseNested thread mutex).Structured := by
  apply st.update
  · exact { st mutex with idle := fun free => by simp [owner] at free }
  · exact fun _ _ _ => Iff.rfl

omit [DecidableEq μ] in
theorem Structured.timeoutTake {s : MutexState τ μ} (st : s.Structured) (thread : τ) :
    (s.timeoutTake thread).Structured := by
  intro mutex
  have fits := st mutex
  constructor
  · exact fits.distinct.erase thread
  · intro other
    simp only [MutexState.timeoutTake, fits.distinct.mem_erase_iff]
    rcases eq_or_ne other thread with rfl | ne
    · simp [Thread.rtThreadTimeout]
    · simp [ne, fits.waiting]
  · intro free
    simp [MutexState.timeoutTake, fits.owned free]
  · intro other isOwner member
    exact fits.apart other isOwner (List.mem_of_mem_erase member)
  · exact fits.value
  · exact fits.idle

omit [DecidableEq μ] in
theorem Structured.finishTake {s : MutexState τ μ} (st : s.Structured) {thread : τ}
    (ready : (s.threads thread).stat = .ready) : (s.finishTake thread).Structured := by
  intro mutex
  refine (st mutex).frame fun other => ?_
  rcases eq_or_ne other thread with rfl | ne
  · simp [MutexState.finishTake, ready]
  · simp [MutexState.finishTake, ne]

/-- What an event does to a state with the structure: nothing, a refused call, or one of the ways
in which a take and a release can go. -/
inductive Outcome (s : MutexState τ μ) : MutexEvent τ μ → MutexState τ μ → Prop
  | idle (event) : Outcome s event s
  | refused (event) (thread : τ) (code : RtErr) :
    Outcome s event { s with threads := onThread s.threads thread (Thread.setError code) }
  | nested (thread mutex time) : s.Running thread → (s.mutexes mutex).owner = some thread →
    Outcome s (.take thread mutex time) (s.takeNested thread mutex)
  | free (thread mutex time) : s.Running thread → (s.mutexes mutex).owner = none →
    Outcome s (.take thread mutex time) (s.takeFree thread mutex)
  | wait (thread mutex time owner) : s.Running thread → (s.mutexes mutex).owner = some owner →
    owner ≠ thread → time ≠ 0 → Outcome s (.take thread mutex time) (s.takeWait thread mutex time)
  | unnested (thread mutex) : s.Running thread → (s.mutexes mutex).owner = some thread →
    (s.mutexes mutex).hold ≠ 1 → Outcome s (.release thread mutex) (s.releaseNested thread mutex)
  | last (thread mutex) : s.Running thread → (s.mutexes mutex).owner = some thread →
    (s.mutexes mutex).hold = 1 → Outcome s (.release thread mutex) (s.releaseLast thread mutex)
  | timeout (thread) : (s.threads thread).CanTimeout → Outcome s (.timeout thread) (s.timeoutTake thread)
  | wake (thread) : s.inTake thread ≠ none → (s.threads thread).stat = .ready →
    Outcome s (.wake thread) (s.finishTake thread)

theorem Structured.rtMutexTake_outcome {s : MutexState τ μ} (st : s.Structured) {thread : τ}
    (running : s.Running thread) (mutex : μ) (time : ℤ) :
    Outcome s (.take thread mutex time) (s.rtMutexTake thread mutex time) := by
  have value := (st mutex).value
  rcases owned : (s.mutexes mutex).owner with _ | owner
  · have available : 0 < (s.mutexes mutex).value := by simp [value, owned]
    simp only [MutexState.rtMutexTake, owned, reduceCtorEq, if_false, if_pos available]
    exact .free _ _ _ running owned
  · have unavailable : ¬ 0 < (s.mutexes mutex).value := by simp [value, owned]
    rcases eq_or_ne owner thread with rfl | foreign
    · simp only [MutexState.rtMutexTake, owned, if_true]
      exact .nested _ _ _ running owned
    · simp only [MutexState.rtMutexTake, owned, Option.some.injEq, foreign, if_false, if_neg unavailable]
      split
      · exact .refused _ _ _
      · exact .wait _ _ _ _ running owned foreign ‹_›

omit [DecidableEq μ] in
theorem hold_sub_eq_zero {hold : BitVec 8} : hold - 1 = 0 ↔ hold = 1 := by
  constructor <;> intro equation <;> bv_omega

theorem rtMutexRelease_outcome {s : MutexState τ μ} {thread : τ} (running : s.Running thread) (mutex : μ) :
    Outcome s (.release thread mutex) (s.rtMutexRelease thread mutex) := by
  unfold MutexState.rtMutexRelease
  split
  · exact .refused _ _ _
  · have owner : (s.mutexes mutex).owner = some thread := of_not_not ‹_›
    split
    · exact .last _ _ running owner (hold_sub_eq_zero.mp ‹_›)
    · exact .unnested _ _ running owner (fun one => ‹¬ _› (hold_sub_eq_zero.mpr one))

theorem Structured.outcome {s : MutexState τ μ} (st : s.Structured) (event : MutexEvent τ μ) :
    Outcome s event (s.step event) := by
  cases event with
  | take thread mutex time =>
    simp only [MutexState.step]
    split
    · exact st.rtMutexTake_outcome ‹_› mutex time
    · exact .idle _
  | release thread mutex =>
    simp only [MutexState.step]
    split
    · exact rtMutexRelease_outcome ‹_› mutex
    · exact .idle _
  | timeout thread =>
    simp only [MutexState.step]
    split
    · exact .timeout _ ‹_›
    · exact .idle _
  | wake thread =>
    simp only [MutexState.step]
    split
    · exact .wake _ (And.left ‹_›) (And.right ‹_›)
    · exact .idle _

theorem Structured.step {s : MutexState τ μ} (st : s.Structured) (event : MutexEvent τ μ) :
    (s.step event).Structured := by
  have outcome := st.outcome event
  generalize s.step event = after at outcome
  cases outcome with
  | idle => exact st
  | refused _ thread code => exact st.setError thread code
  | nested _ _ _ _ owner => exact st.takeNested owner
  | free thread _ _ _ free => exact st.takeFree thread free
  | wait _ _ time _ running owned foreign => exact st.takeWait running owned foreign time
  | unnested _ _ _ owner => exact st.releaseNested owner
  | last _ _ _ owner => exact st.releaseLast owner
  | timeout thread => exact st.timeoutTake thread
  | wake _ _ ready => exact st.finishTake ready

end MutexState

end RtThread
