import ShdslBridge.Kernel.Thread
import ShdslBridge.Lib.Run

/-! # Completions of the device drivers

A completion is a flag that one side sets and one waiter at a time consumes. The waiter is resumed
by the signal or by its own timer; afterwards it clears the flag in a second critical section,
whatever has resumed it. A signal that comes between the expiry of the timer and the clearing is
lost: the wait reports a timeout, and the flag is clear. As long as no signal falls there, every
signal is consumed by exactly one successful wait.
-/

namespace RtThread

/-- `RT_COMPLETED` and `RT_UNCOMPLETED`. -/
inductive CompletionFlag | uncompleted | completed
  deriving DecidableEq, Repr

/-- `struct rt_completion`. -/
structure RtCompletion (τ : Type*) where
  flag : CompletionFlag
  suspendedList : List τ

/-- `rt_completion_init`. -/
def rtCompletionInit {τ : Type*} : RtCompletion τ := { flag := .uncompleted, suspendedList := [] }

/-- Where a suspended wait stands: in its `rt_schedule`, or behind the read of `thread->error`. -/
inductive WaitPhase | scheduled | woken (result : RtErr)
  deriving DecidableEq, Repr

/-- One completion, the threads, the wait in progress, the callers of `rt_completion_done` that have
passed the test of the flag, and two counts of the run. -/
structure CompletionState (τ κ : Type*) where
  completion : RtCompletion τ
  threads : τ → Thread
  waiter : Option (τ × WaitPhase)
  doing : κ → Bool
  /-- The calls of `rt_completion_done` that have completed the flag. -/
  signalled : ℕ := 0
  /-- The calls of `rt_completion_wait` that have returned `RT_EOK`. -/
  succeeded : ℕ := 0

/-- What happens next. `rt_completion_done` tests the flag before it disables interrupts. -/
inductive CompletionEvent (τ κ : Type*)
  | wait (t : τ) (timeout : ℤ)
  | timeout (t : τ)
  | wake (t : τ)
  | clear (t : τ)
  | test (caller : κ)
  | set (caller : κ)

namespace CompletionState

variable {τ κ : Type*} [DecidableEq τ] [DecidableEq κ]

/-- The first critical section of `rt_completion_wait`. -/
def rtCompletionWait (s : CompletionState τ κ) (t : τ) (timeout : ℤ) : CompletionState τ κ :=
  if s.completion.flag ≠ .completed then
    -- `RT_ASSERT` of an empty list, and the return of `-RT_ETIMEOUT`
    if s.completion.suspendedList ≠ [] ∨ timeout = 0 then s
    else
      { s with
        completion := { s.completion with suspendedList := s.completion.suspendedList ++ [t] }
        threads := onThread s.threads t (Thread.enterWait timeout)
        waiter := some (t, .scheduled) }
  else { s with completion := { s.completion with flag := .uncompleted }, succeeded := s.succeeded + 1 }

/-- The second critical section of `rt_completion_wait`, and its return. -/
def finishWait (s : CompletionState τ κ) (result : RtErr) : CompletionState τ κ :=
  { s with
    completion := { s.completion with flag := .uncompleted }
    waiter := none
    succeeded := if result = .eok then s.succeeded + 1 else s.succeeded }

/-- The critical section of `rt_completion_done`. -/
def rtCompletionDone (s : CompletionState τ κ) (caller : κ) : CompletionState τ κ :=
  let (suspendedList, threads) := rtIpcListResume s.completion.suspendedList s.threads
  { s with
    completion := { flag := .completed, suspendedList }
    threads
    doing := Function.update s.doing caller false
    signalled := if s.completion.flag = .completed then s.signalled else s.signalled + 1 }

/-- One event. One thread at a time waits, and an event that cannot happen changes nothing. -/
def step (s : CompletionState τ κ) : CompletionEvent τ κ → CompletionState τ κ
  | .wait t timeout =>
    if s.waiter = none ∧ (s.threads t).stat = .ready then s.rtCompletionWait t timeout else s
  | .timeout t =>
    if (s.threads t).CanTimeout then
      { s with
        completion := { s.completion with suspendedList := s.completion.suspendedList.erase t }
        threads := onThread s.threads t Thread.rtThreadTimeout }
    else s
  | .wake t =>
    if s.waiter = some (t, .scheduled) ∧ (s.threads t).stat = .ready then
      { s with waiter := some (t, .woken (s.threads t).error) }
    else s
  | .clear t =>
    match s.waiter with
    | some (thread, .woken result) => if thread = t then s.finishWait result else s
    | _ => s
  | .test caller =>
    if s.completion.flag = .completed then s else { s with doing := Function.update s.doing caller true }
  | .set caller => if s.doing caller = true then s.rtCompletionDone caller else s

/-- The state behind `rt_completion_init`. -/
def start (threads : τ → Thread) : CompletionState τ κ where
  completion := rtCompletionInit
  threads
  waiter := none
  doing := fun _ => false

/-- The value that the wait in progress is going to return, once its thread has been resumed. -/
def outcome (s : CompletionState τ κ) : Option RtErr :=
  match s.waiter with
  | none => none
  | some (t, .scheduled) => if (s.threads t).stat = .ready then some (s.threads t).error else none
  | some (_, .woken result) => some result

/-- The timer has ended the wait in progress. -/
def TimedOut (s : CompletionState τ κ) : Prop := s.outcome = some .etimeout

instance (s : CompletionState τ κ) : Decidable s.TimedOut := inferInstanceAs (Decidable (_ = _))

/-- Every signal has been consumed by one successful wait or is still there, and the wait in progress
does not clear it and report a timeout. -/
def Accounted (s : CompletionState τ κ) : Prop :=
  s.signalled = s.succeeded + (if s.completion.flag = .completed then 1 else 0) ∧
    (s.TimedOut → s.completion.flag ≠ .completed)

instance (s : CompletionState τ κ) : Decidable s.Accounted := inferInstanceAs (Decidable (_ ∧ _))

/-- No signal comes between the expiry of the timer of a wait and the return of that wait. -/
def NotLate (s : CompletionState τ κ) : CompletionEvent τ κ → Prop
  | .set caller => s.doing caller = true → ¬ s.TimedOut
  | _ => True

/-! ## What every run keeps -/

def suspended (s : CompletionState τ κ) : List τ :=
  match s.waiter with
  | some (t, .scheduled) => if (s.threads t).stat = .suspend then [t] else []
  | _ => []

structure Inv (s : CompletionState τ κ) : Prop where
  accounted : s.Accounted
  listed : s.completion.suspendedList = s.suspended
  waiting : ∀ t, s.waiter = some (t, .scheduled) → (s.threads t).stat = .suspend →
    (s.threads t).error = .eok ∧ s.completion.flag ≠ .completed
  outcomes : ∀ result, s.outcome = some result → result = .eok ∨ result = .etimeout
  granted : s.outcome = some .eok → s.completion.flag = .completed

section

variable {s : CompletionState τ κ} {t : τ}

omit [DecidableEq τ] [DecidableEq κ] in
/-- While nothing has ended the wait, only the balance and the list matter. -/
theorem inv_of_undecided (undecided : s.outcome = none)
    (balance : s.signalled = s.succeeded + (if s.completion.flag = .completed then 1 else 0))
    (listed : s.completion.suspendedList = s.suspended)
    (waiting : ∀ t, s.waiter = some (t, .scheduled) →
      (s.threads t).error = .eok ∧ s.completion.flag ≠ .completed) : Inv s where
  accounted := ⟨balance, fun late => by rw [TimedOut, undecided] at late; cases late⟩
  listed := listed
  waiting := fun t waits _ => waiting t waits
  outcomes := fun _ ended => by rw [undecided] at ended; cases ended
  granted := fun ended => by rw [undecided] at ended; cases ended

omit [DecidableEq τ] [DecidableEq κ] in
/-- The invariant reads nothing but the completion, the waiter with its thread, and the counts. -/
theorem Inv.congr {target : CompletionState τ κ} (inv : Inv s) (completion : target.completion = s.completion)
    (waiter : target.waiter = s.waiter)
    (counts : target.signalled = s.signalled ∧ target.succeeded = s.succeeded)
    (thread : ∀ t, s.waiter = some (t, .scheduled) → target.threads t = s.threads t) : Inv target := by
  have outcome : target.outcome = s.outcome := by
    unfold CompletionState.outcome
    rw [waiter]
    split
    · rfl
    · rw [thread _ (by assumption)]
    · rfl
  have suspended : target.suspended = s.suspended := by
    unfold CompletionState.suspended
    rw [waiter]
    split
    · rw [thread _ (by assumption)]
    · rfl
  refine ⟨?_, ?_, ?_, ?_, ?_⟩
  · rw [Accounted, TimedOut, outcome, completion, counts.1, counts.2]
    exact inv.accounted
  · rw [completion, suspended]
    exact inv.listed
  · intro t waits suspends
    rw [waiter] at waits
    rw [thread t waits] at suspends ⊢
    rw [completion]
    exact inv.waiting t waits suspends
  · rw [outcome]
    exact inv.outcomes
  · rw [outcome, completion]
    exact inv.granted

omit [DecidableEq τ] [DecidableEq κ] in
theorem inv_start (threads : τ → Thread) : Inv (start threads : CompletionState τ κ) :=
  inv_of_undecided rfl rfl rfl fun _ waits => by cases waits

omit [DecidableEq κ] in
theorem Inv.rtCompletionWait (inv : Inv s) (idle : s.waiter = none) (ready : (s.threads t).stat = .ready)
    (timeout : ℤ) : Inv (s.rtCompletionWait t timeout) := by
  obtain ⟨balance, -⟩ := inv.accounted
  have listed : s.completion.suspendedList = [] := by rw [inv.listed, suspended, idle]
  unfold CompletionState.rtCompletionWait
  split_ifs with uncompleted stop
  · exact inv
  · have entered := Thread.enterWait_of_ready ready timeout
    refine inv_of_undecided ?_ balance ?_ ?_
    · simp [outcome, entered]
    · simp [suspended, entered, listed]
    · intro other waits
      obtain rfl : t = other := by simpa using waits
      exact ⟨by simp, uncompleted⟩
  · rw [if_pos (not_not.mp uncompleted)] at balance
    refine inv_of_undecided ?_ balance inv.listed ?_
    · simp [outcome, idle]
    · simp [idle]

omit [DecidableEq τ] [DecidableEq κ] in
/-- The waiter clears the flag: it consumes the signal, or finds none. -/
theorem Inv.finishWait (inv : Inv s) {result : RtErr} (woken : s.waiter = some (t, .woken result)) :
    Inv (s.finishWait result) := by
  obtain ⟨balance, kept⟩ := inv.accounted
  have ended : s.outcome = some result := by rw [outcome, woken]
  refine inv_of_undecided rfl ?_ ?_ fun _ waits => by cases waits
  · simp only [CompletionState.finishWait, reduceCtorEq, if_false, Nat.add_zero]
    rcases inv.outcomes result ended with rfl | rfl
    · rwa [if_pos (inv.granted ended)] at balance
    · rwa [if_neg (kept ended)] at balance
  · rw [CompletionState.finishWait, inv.listed, suspended, woken]
    rfl

omit [DecidableEq κ] in
theorem Inv.timeout (inv : Inv s) (canTimeout : (s.threads t).CanTimeout) :
    Inv
      { s with
        completion := { s.completion with suspendedList := s.completion.suspendedList.erase t }
        threads := onThread s.threads t Thread.rtThreadTimeout } := by
  obtain ⟨balance, kept⟩ := inv.accounted
  by_cases waits : s.waiter = some (t, .scheduled)
  · obtain ⟨-, uncompleted⟩ := inv.waiting t waits canTimeout.1
    have ended : outcome
        { s with
          completion := { s.completion with suspendedList := s.completion.suspendedList.erase t }
          threads := onThread s.threads t Thread.rtThreadTimeout } = some .etimeout := by
      simp [outcome, waits, Thread.rtThreadTimeout]
    refine ⟨⟨balance, fun _ => uncompleted⟩, ?_, ?_, ?_, ?_⟩
    · simp [inv.listed, suspended, waits, canTimeout.1, Thread.rtThreadTimeout]
    · intro other same suspends
      obtain rfl : t = other := by simpa [waits] using same
      simp [Thread.rtThreadTimeout] at suspends
    · intro result some
      rw [ended] at some
      exact .inr (Option.some.inj some).symm
    · intro some
      rw [ended] at some
      cases some
  · have absent : t ∉ s.completion.suspendedList := by
      rw [inv.listed, suspended]
      split
      · split_ifs
        · rw [List.mem_singleton]
          rintro rfl
          exact waits (by assumption)
        · exact List.not_mem_nil
      · exact List.not_mem_nil
    rw [List.erase_of_not_mem absent]
    refine inv.congr rfl rfl ⟨rfl, rfl⟩ ?_
    intro other same
    apply onThread_other
    rintro rfl
    exact waits same

omit [DecidableEq τ] [DecidableEq κ] in
theorem Inv.wake (inv : Inv s) (waits : s.waiter = some (t, .scheduled)) (ready : (s.threads t).stat = .ready) :
    Inv { s with waiter := some (t, .woken (s.threads t).error) } := by
  have ended : outcome { s with waiter := some (t, .woken (s.threads t).error) } = s.outcome := by
    simp [outcome, waits, ready]
  refine ⟨?_, ?_, ?_, ?_, ?_⟩
  · rw [Accounted, TimedOut, ended]
    exact inv.accounted
  · rw [inv.listed]
    simp [suspended, waits, ready]
  · intro other same
    simp at same
  · rw [ended]
    exact inv.outcomes
  · rw [ended]
    exact inv.granted

omit [DecidableEq τ] [DecidableEq κ] in
theorem suspended_cases (s : CompletionState τ κ) :
    s.suspended = [] ∨
      ∃ t, s.suspended = [t] ∧ s.waiter = some (t, .scheduled) ∧ (s.threads t).stat = .suspend := by
  unfold suspended
  split
  · split_ifs with suspends
    · exact .inr ⟨_, rfl, by assumption, suspends⟩
    · exact .inl rfl
  · exact .inl rfl

theorem outcome_done_alone (alone : s.completion.suspendedList = []) (caller : κ) :
    (s.rtCompletionDone caller).outcome = s.outcome := by
  simp only [CompletionState.rtCompletionDone, rtIpcListResume, alone]
  rfl

/-- The suspended waiter is going to return `RT_EOK`. -/
theorem outcome_done_waiter (listed : s.completion.suspendedList = [t])
    (waits : s.waiter = some (t, .scheduled)) (suspends : (s.threads t).stat = .suspend)
    (clean : (s.threads t).error = .eok) (caller : κ) : (s.rtCompletionDone caller).outcome = some .eok := by
  simp [CompletionState.rtCompletionDone, rtIpcListResume_cons suspends, listed, outcome, waits, clean,
    Thread.rtThreadResume]

/-- A signal reaches the waiter that is still suspended, or stays for the next wait. -/
theorem Inv.rtCompletionDone (inv : Inv s) (inTime : ¬ s.TimedOut) (caller : κ) :
    Inv (s.rtCompletionDone caller) := by
  obtain ⟨balance, -⟩ := inv.accounted
  have counted : (s.rtCompletionDone caller).signalled = s.succeeded + 1 := by
    change (if s.completion.flag = .completed then s.signalled else s.signalled + 1) = s.succeeded + 1
    split_ifs with already
    · rwa [if_pos already] at balance
    · rw [if_neg already] at balance
      omega
  rcases suspended_cases s with alone | ⟨t, single, waits, suspends⟩
  · have listed : s.completion.suspendedList = [] := inv.listed.trans alone
    have same := outcome_done_alone listed caller
    have unchanged : (rtIpcListResume s.completion.suspendedList s.threads) = ([], s.threads) := by
      rw [listed]
      rfl
    refine ⟨⟨counted, fun late => ?_⟩, ?_, ?_, ?_, fun _ => rfl⟩
    · exact absurd (same.symm.trans late) inTime
    · simp only [CompletionState.rtCompletionDone, unchanged]
      exact alone.symm
    · intro t waits suspends
      simp only [CompletionState.rtCompletionDone, unchanged] at waits suspends
      rw [suspended, waits] at alone
      simp [suspends] at alone
    · rw [same]
      exact inv.outcomes
  · have listed : s.completion.suspendedList = [t] := inv.listed.trans single
    obtain ⟨clean, -⟩ := inv.waiting t waits suspends
    have ended := outcome_done_waiter listed waits suspends clean caller
    refine ⟨⟨counted, fun late => ?_⟩, ?_, ?_, ?_, fun _ => rfl⟩
    · rw [TimedOut, ended] at late
      cases late
    · simp [CompletionState.rtCompletionDone, rtIpcListResume_cons suspends, listed, suspended, waits,
        Thread.rtThreadResume]
    · intro other waiter still
      obtain rfl : t = other := by simpa [CompletionState.rtCompletionDone, waits] using waiter
      simp [CompletionState.rtCompletionDone, rtIpcListResume_cons suspends, listed,
        Thread.rtThreadResume] at still
    · intro result some
      rw [ended] at some
      exact .inl (Option.some.inj some).symm

theorem Inv.step (inv : Inv s) (event : CompletionEvent τ κ) (inTime : s.NotLate event) : Inv (s.step event) := by
  cases event with
  | wait t timeout =>
    simp only [CompletionState.step]
    split_ifs with can
    · exact inv.rtCompletionWait can.1 can.2 timeout
    · exact inv
  | timeout t =>
    simp only [CompletionState.step]
    split_ifs with can
    · exact inv.timeout can
    · exact inv
  | wake t =>
    simp only [CompletionState.step]
    split_ifs with can
    · exact inv.wake can.1 can.2
    · exact inv
  | clear t =>
    simp only [CompletionState.step]
    split
    · split_ifs
      · exact inv.finishWait (by assumption)
      · exact inv
    · exact inv
  | test caller =>
    simp only [CompletionState.step]
    split_ifs
    · exact inv
    · exact inv.congr rfl rfl ⟨rfl, rfl⟩ fun _ _ => rfl
  | set caller =>
    simp only [CompletionState.step]
    split_ifs with passed
    · exact inv.rtCompletionDone (inTime passed) caller
    · exact inv

/-- A signal behind the expiry of the timer is one that the wait clears. -/
theorem not_accounted_of_late (inv : Inv s) (event : CompletionEvent τ κ) (late : ¬ s.NotLate event) :
    ¬ (s.step event).Accounted := by
  cases event with
  | set caller =>
    obtain ⟨passed, timedOut⟩ := Classical.not_imp.mp late
    rw [not_not] at timedOut
    intro accounted
    rcases suspended_cases s with alone | ⟨t, -, waits, suspends⟩
    · have step : s.step (.set caller) = s.rtCompletionDone caller := if_pos passed
      rw [step] at accounted
      refine accounted.2 ?_ rfl
      rw [TimedOut, outcome_done_alone (inv.listed.trans alone)]
      exact timedOut
    · simp [TimedOut, outcome, waits, suspends] at timedOut
  | _ => exact absurd trivial late

end

/-- In a run of waits, timers and signals every signal is consumed by exactly one successful wait, and
no wait that reports a timeout clears one, exactly if no signal comes between the expiry of a
waiter's timer and the return of its wait. -/
theorem accounted_iff_notLate (threads : τ → Thread) (run : List (CompletionEvent τ κ)) :
    Run.Always step Accounted (start threads) run ↔ Run.Along step NotLate (start threads) run := by
  have keeps : ∀ (s : CompletionState τ κ) event, Inv s → NotLate s event → Inv (step s event) :=
    fun _ event inv inTime => inv.step event inTime
  have implies : ∀ s : CompletionState τ κ, Inv s → s.Accounted := fun _ inv => inv.accounted
  exact Run.always_iff_along keeps implies (fun _ event inv late => not_accounted_of_late inv event late)
    (inv_start threads) run

/-- A wait of ten ticks times out, the signal comes, and the wait then clears the flag: it returns
`-RT_ETIMEOUT`, and no wait returns `RT_EOK` for the signal. -/
theorem signal_lost :
    let s := Run.exec step (start fun _ => { currentPriority := 0, initPriority := 0 } : CompletionState ℕ ℕ)
      [.wait 0 10, .timeout 0, .test 0, .set 0, .wake 0, .clear 0]
    s.signalled = 1 ∧ s.succeeded = 0 ∧ s.completion.flag = .uncompleted ∧ s.waiter = none ∧
      ¬ s.Accounted := by
  decide

end CompletionState

end RtThread
