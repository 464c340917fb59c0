import ShdslBridge.Kernel.Thread
import ShdslBridge.Lib.Run

/-! # Semaphores: tokens are neither lost nor made

A release either counts a token in the 16-bit field `value` or hands it to the first waiting
thread, which has not returned from its take yet. A run interleaves takes, releases, timers that
fire and threads that get the processor back; interrupt handlers call too, but cannot wait. The
tokens are accounted for in every state of a run exactly as long as no release finds the counter
at its last value.
-/

namespace RtThread

variable {τ : Type*} [DecidableEq τ]

/-- `struct rt_semaphore`. -/
structure RtSemaphore (τ : Type*) where
  value : BitVec 16
  flag : IpcFlag
  suspendThread : List τ
  deriving DecidableEq

/-- `rt_sem_init`, which stores the low half of the value. -/
def rtSemInit (value : BitVec 32) (flag : IpcFlag) : RtSemaphore τ :=
  { value := value.setWidth 16, flag, suspendThread := [] }

structure SemState (τ : Type*) where
  sem : RtSemaphore τ
  threads : τ → Thread
  /-- The thread is in the `rt_schedule` of its `rt_sem_take`. -/
  inTake : τ → Bool
  /-- The calls of `rt_sem_release`. -/
  released : ℕ := 0
  /-- The calls of `rt_sem_take` that have returned `RT_EOK`. -/
  succeeded : ℕ := 0
  /-- The threads that a release has resumed and that have not returned from their take. -/
  granted : List τ := []

/-- What happens to a semaphore. The caller of a take is a thread or, as `none`, an interrupt
handler. -/
inductive SemEvent (τ : Type*)
  | take (caller : Option τ) (time : ℤ)
  | release
  | timeout (thread : τ)
  | wake (thread : τ)

namespace SemState

/-- The thread can call: it is ready and not inside a take. -/
def Running (s : SemState τ) (thread : τ) : Prop :=
  (s.threads thread).stat = .ready ∧ s.inTake thread = false

instance (s : SemState τ) (thread : τ) : Decidable (s.Running thread) :=
  inferInstanceAs (Decidable (_ ∧ _))

/-- The part of `rt_sem_take` behind an unsuccessful test, for a thread that waits. -/
def suspendTake (s : SemState τ) (thread : τ) (time : ℤ) : SemState τ :=
  { s with
    sem := { s.sem with suspendThread := rtIpcListInsert s.sem.flag s.threads thread s.sem.suspendThread }
    threads := onThread s.threads thread (Thread.enterWait time)
    inTake := Function.update s.inTake thread true }

/-- `rt_sem_take` up to its return or its `rt_schedule`. A handler that would have to wait stops at
the check of its context. -/
def rtSemTake (s : SemState τ) (caller : Option τ) (time : ℤ) : SemState τ :=
  if 0 < s.sem.value then
    { s with sem := { s.sem with value := s.sem.value - 1 }, succeeded := s.succeeded + 1 }
  else if time = 0 then s
  else
    match caller with
    | none => s
    | some thread => s.suspendTake thread time

/-- `rt_sem_take` behind its `rt_schedule`: it returns the error code of the thread. -/
def finishTake (s : SemState τ) (thread : τ) : SemState τ :=
  let s := { s with inTake := Function.update s.inTake thread false }
  if (s.threads thread).error ≠ .eok then s
  else { s with succeeded := s.succeeded + 1, granted := s.granted.erase thread }

/-- `rt_sem_release`. -/
def rtSemRelease (s : SemState τ) : SemState τ :=
  let s := { s with released := s.released + 1 }
  match s.sem.suspendThread with
  | [] => { s with sem := { s.sem with value := s.sem.value + 1 } }
  | thread :: _ =>
    let (list, threads) := rtIpcListResume s.sem.suspendThread s.threads
    { s with sem := { s.sem with suspendThread := list }, threads, granted := thread :: s.granted }

def timeoutTake (s : SemState τ) (thread : τ) : SemState τ :=
  { s with
    sem := { s.sem with suspendThread := s.sem.suspendThread.erase thread }
    threads := onThread s.threads thread Thread.rtThreadTimeout }

/-- One event. An event that cannot happen in the state changes nothing. -/
def step (s : SemState τ) : SemEvent τ → SemState τ
  | .take none time => s.rtSemTake none time
  | .take (some thread) time => if s.Running thread then s.rtSemTake (some thread) time else s
  | .release => s.rtSemRelease
  | .timeout thread => if (s.threads thread).CanTimeout then s.timeoutTake thread else s
  | .wake thread =>
    if s.inTake thread = true ∧ (s.threads thread).stat = .ready then s.finishTake thread else s

/-- The state after `rt_sem_init`. -/
def start (value : BitVec 32) (flag : IpcFlag) (threads : τ → Thread) : SemState τ :=
  { sem := rtSemInit value flag, threads, inTake := fun _ => false }

/-- The tokens put in are the tokens counted, handed over and taken, and no thread waits beside a
token. -/
def Conserved (initial : ℕ) (s : SemState τ) : Prop :=
  initial + s.released = s.sem.value.toNat + (s.succeeded + s.granted.length) ∧
    (0 < s.sem.value → s.sem.suspendThread = [])

/-- The event does not overflow the counter: a release either finds a waiting thread or a counter
below its last value. -/
def NoOverflow (s : SemState τ) : SemEvent τ → Prop
  | .release => s.sem.suspendThread = [] → s.sem.value ≠ BitVec.allOnes 16
  | _ => True

/-- Who waits, who has a token in transit, and how many tokens there are. -/
structure Inv (initial : ℕ) (s : SemState τ) : Prop where
  conserved : initial + s.released = s.sem.value.toNat + (s.succeeded + s.granted.length)
  idle : 0 < s.sem.value → s.sem.suspendThread = []
  distinct : s.sem.suspendThread.Nodup
  waiting : ∀ thread, thread ∈ s.sem.suspendThread ↔
    s.inTake thread = true ∧ (s.threads thread).stat = .suspend
  waitsClean : ∀ thread ∈ s.sem.suspendThread, (s.threads thread).error = .eok
  holders : ∀ thread, thread ∈ s.granted ↔
    s.inTake thread = true ∧ (s.threads thread).stat = .ready ∧ (s.threads thread).error = .eok
  holdersDistinct : s.granted.Nodup

omit [DecidableEq τ] in
theorem inv_start {value : BitVec 32} (small : value.toNat < 65536) (flag : IpcFlag) (threads : τ → Thread) :
    Inv value.toNat (start value flag threads) where
  conserved := by
    simp only [start, rtSemInit, BitVec.toNat_setWidth, List.length_nil]
    omega
  idle := fun _ => rfl
  distinct := List.nodup_nil
  waiting := by simp [start, rtSemInit]
  waitsClean := by simp [start, rtSemInit]
  holders := by simp [start]
  holdersDistinct := List.nodup_nil

variable {initial : ℕ} {s : SemState τ}

theorem Inv.suspendTake (inv : Inv initial s) {thread : τ} (running : s.Running thread) (empty : ¬ 0 < s.sem.value)
    (time : ℤ) : Inv initial (s.suspendTake thread time) := by
  obtain ⟨ready, outside⟩ := running
  have notWaiting : thread ∉ s.sem.suspendThread := by simp [inv.waiting, outside]
  have notHolding : thread ∉ s.granted := by simp [inv.holders, outside]
  constructor
  · exact inv.conserved
  · exact fun positive => absurd positive empty
  · exact rtIpcListInsert_nodup.mpr ⟨notWaiting, inv.distinct⟩
  · intro other
    rcases eq_or_ne other thread with rfl | ne
    · simp [SemState.suspendTake, Thread.enterWait_of_ready ready]
    · simp [SemState.suspendTake, ne, inv.waiting]
  · intro other member
    rcases eq_or_ne other thread with rfl | ne
    · simp [SemState.suspendTake]
    · have waits : other ∈ s.sem.suspendThread := by simpa [SemState.suspendTake, ne] using member
      simpa [SemState.suspendTake, ne] using inv.waitsClean other waits
  · intro other
    rcases eq_or_ne other thread with rfl | ne
    · simp [SemState.suspendTake, Thread.enterWait_of_ready ready, notHolding]
    · simp [SemState.suspendTake, ne, inv.holders]
  · exact inv.holdersDistinct

theorem Inv.rtSemTake (inv : Inv initial s) {caller : Option τ} (running : ∀ thread ∈ caller, s.Running thread)
    (time : ℤ) : Inv initial (s.rtSemTake caller time) := by
  rcases Decidable.em (0 < s.sem.value) with available | empty
  · unfold SemState.rtSemTake
    rw [if_pos available]
    refine { inv with conserved := ?_, idle := fun _ => inv.idle available }
    have counted := inv.conserved
    have positive : 0 < s.sem.value.toNat := available
    have decremented : (s.sem.value - 1).toNat = s.sem.value.toNat - 1 := by bv_omega
    simp only [decremented]
    omega
  · unfold SemState.rtSemTake
    rw [if_neg empty]
    split
    · exact inv
    · cases caller with
      | none => exact inv
      | some thread => exact inv.suspendTake (running thread rfl) empty time

theorem Inv.finishTake (inv : Inv initial s) {thread : τ} (inside : s.inTake thread = true)
    (ready : (s.threads thread).stat = .ready) : Inv initial (s.finishTake thread) := by
  have notWaiting : thread ∉ s.sem.suspendThread := by simp [inv.waiting, ready]
  have waiting : ∀ other, other ∈ s.sem.suspendThread ↔
      Function.update s.inTake thread false other = true ∧ (s.threads other).stat = .suspend := by
    intro other
    rcases eq_or_ne other thread with rfl | ne
    · simp [notWaiting]
    · simp [ne, inv.waiting]
  rcases eq_or_ne (s.threads thread).error .eok with success | failure
  · have holding : thread ∈ s.granted := (inv.holders thread).mpr ⟨inside, ready, success⟩
    have positive : 0 < s.granted.length := List.length_pos_of_mem holding
    simp only [SemState.finishTake, success, ne_eq, not_true_eq_false, if_false]
    constructor
    · have counted := inv.conserved
      simp only [List.length_erase_of_mem holding]
      omega
    · exact inv.idle
    · exact inv.distinct
    · exact waiting
    · exact inv.waitsClean
    · intro other
      rw [inv.holdersDistinct.mem_erase_iff]
      rcases eq_or_ne other thread with rfl | ne
      · simp
      · simp [ne, inv.holders]
    · exact inv.holdersDistinct.erase thread
  · simp only [SemState.finishTake, failure, ne_eq, not_false_eq_true, if_true]
    refine { inv with waiting := waiting, holders := ?_ }
    intro other
    rcases eq_or_ne other thread with rfl | ne
    · simp [inv.holders, failure]
    · simp [ne, inv.holders]

theorem Inv.timeoutTake (inv : Inv initial s) {thread : τ} (fires : (s.threads thread).CanTimeout) :
    Inv initial (s.timeoutTake thread) := by
  obtain ⟨suspended, -⟩ := fires
  have notHolding : thread ∉ s.granted := by simp [inv.holders, suspended]
  constructor
  · exact inv.conserved
  · intro positive
    simp [SemState.timeoutTake, inv.idle positive]
  · exact inv.distinct.erase thread
  · intro other
    simp only [SemState.timeoutTake, inv.distinct.mem_erase_iff]
    rcases eq_or_ne other thread with rfl | ne
    · simp [Thread.rtThreadTimeout]
    · simp [ne, inv.waiting]
  · intro other member
    obtain ⟨ne, waits⟩ := inv.distinct.mem_erase_iff.mp member
    simpa [SemState.timeoutTake, ne] using inv.waitsClean other waits
  · intro other
    rcases eq_or_ne other thread with rfl | ne
    · simp [SemState.timeoutTake, notHolding, Thread.rtThreadTimeout]
    · simp [SemState.timeoutTake, ne, inv.holders]
  · exact inv.holdersDistinct

theorem Inv.rtSemRelease (inv : Inv initial s) (fits : s.NoOverflow .release) : Inv initial s.rtSemRelease := by
  have counted := inv.conserved
  rcases queue : s.sem.suspendThread with _ | ⟨thread, rest⟩
  · have below : s.sem.value ≠ BitVec.allOnes 16 := fits queue
    have incremented : (s.sem.value + 1).toNat = s.sem.value.toNat + 1 := by
      have top : (BitVec.allOnes 16).toNat = 65535 := by decide
      bv_omega
    have same : s.rtSemRelease =
        { s with sem := { s.sem with value := s.sem.value + 1 }, released := s.released + 1 } := by
      simp [SemState.rtSemRelease, queue]
    rw [same]
    refine { inv with conserved := ?_, idle := fun _ => queue }
    simp only [incremented]
    omega
  · have member : thread ∈ s.sem.suspendThread := by simp [queue]
    obtain ⟨inside, suspended⟩ := (inv.waiting thread).mp member
    have notHolding : thread ∉ s.granted := by simp [inv.holders, suspended]
    have clean := inv.waitsClean thread member
    have distinct := queue ▸ inv.distinct
    obtain ⟨notLater, restDistinct⟩ := List.nodup_cons.mp distinct
    simp only [SemState.rtSemRelease, queue, rtIpcListResume_cons suspended]
    constructor
    · simp only [List.length_cons]
      omega
    · intro positive
      simp [inv.idle positive] at queue
    · exact restDistinct
    · intro other
      rcases eq_or_ne other thread with rfl | ne
      · simp [notLater, Thread.rtThreadResume]
      · simp [ne, ← inv.waiting, queue]
    · intro other waits
      have ne : other ≠ thread := fun same => notLater (same ▸ waits)
      simpa [ne] using inv.waitsClean other (by simp [queue, waits])
    · intro other
      rcases eq_or_ne other thread with rfl | ne
      · simp [Thread.rtThreadResume, inside, clean]
      · simp [ne, inv.holders]
    · exact List.nodup_cons.mpr ⟨notHolding, inv.holdersDistinct⟩

theorem Inv.step (inv : Inv initial s) {event : SemEvent τ} (fits : s.NoOverflow event) :
    Inv initial (s.step event) := by
  cases event with
  | take caller time =>
    cases caller with
    | none =>
      have nobody : ∀ thread ∈ (none : Option τ), s.Running thread := by simp
      exact inv.rtSemTake nobody time
    | some thread =>
      rcases Decidable.em (s.Running thread) with running | blocked
      · rw [SemState.step, if_pos running]
        exact inv.rtSemTake (by simpa using running) time
      · rw [SemState.step, if_neg blocked]
        exact inv
  | release => exact inv.rtSemRelease fits
  | timeout thread =>
    rcases Decidable.em (s.threads thread).CanTimeout with fires | quiet
    · rw [SemState.step, if_pos fires]
      exact inv.timeoutTake fires
    · rw [SemState.step, if_neg quiet]
      exact inv
  | wake thread =>
    rcases Decidable.em (s.inTake thread = true ∧ (s.threads thread).stat = .ready) with back | away
    · rw [SemState.step, if_pos back]
      exact inv.finishTake back.1 back.2
    · rw [SemState.step, if_neg away]
      exact inv

/-- A release that overflows the counter destroys all the tokens that it held. -/
theorem Inv.overflow (inv : Inv initial s) {event : SemEvent τ} (overflows : ¬ s.NoOverflow event) :
    ¬ Conserved initial (s.step event) := by
  cases event with
  | release =>
    obtain ⟨queue, full⟩ : s.sem.suspendThread = [] ∧ s.sem.value = BitVec.allOnes 16 := by
      simpa [NoOverflow] using overflows
    rintro ⟨counted, -⟩
    have before := inv.conserved
    simp only [SemState.step, SemState.rtSemRelease, queue, full] at counted before
    have wrapped : (BitVec.allOnes 16 + 1).toNat = 0 := by decide
    have top : (BitVec.allOnes 16).toNat = 65535 := by decide
    omega
  | take | timeout | wake => exact absurd trivial overflows

/-- The tokens of a semaphore are conserved in every state of a run exactly as long as no release
overflows the counter. -/
theorem conserved_iff {value : BitVec 32} (small : value.toNat < 65536) (flag : IpcFlag)
    (threads : τ → Thread) (events : List (SemEvent τ)) :
    Run.Always step (Conserved value.toNat) (start value flag threads) events ↔
      Run.Along step NoOverflow (start value flag threads) events := by
  apply Run.always_iff_along _ _ _ (inv_start small flag threads)
  · intro s event inv fits
    exact inv.step fits
  · intro s inv
    exact ⟨inv.conserved, inv.idle⟩
  · intro s event inv overflows
    exact inv.overflow overflows

/-- The theorem at a token that is taken and given back. -/
theorem conserved_takeRelease :
    Run.Always step (Conserved (1 : BitVec 32).toNat)
      (start 1 .fifo fun _ : Unit => { currentPriority := 10, initPriority := 10 })
      [.take (some ()) (-1), .release] := by
  have fits : Run.Along step NoOverflow
      (start 1 .fifo fun _ : Unit => { currentPriority := 10, initPriority := 10 })
      [.take (some ()) (-1), .release] := ⟨trivial, fun _ => by decide, trivial⟩
  exact (conserved_iff (by decide) .fifo _ _).mpr fits

/-- The 65536th token of a semaphore that nobody waits for leaves none. -/
theorem fullSemaphore_not_conserved :
    ¬ Conserved 65535 (Run.exec step
      (start 65535 .fifo fun _ : Unit => { currentPriority := 10, initPriority := 10 }) [.release]) := by
  rintro ⟨counted, -⟩
  revert counted
  decide

end SemState

end RtThread
