import ShdslBridge.Kernel.Thread
import ShdslBridge.Lib.BitSet
import ShdslBridge.Lib.Run

/-! # Event sets: who waits is not served, and waiting changes nothing

`rt_event_recv` tests the set of an event for its caller, and `rt_event_send` tests it for every
thread that waits. Both know the options AND, OR and CLEAR. A run interleaves sends, receptions,
timers that fire and threads that get the processor back. In every state of a run no thread waits
whose condition the set meets, and a thread that has waited ends with the same bits, and leaves the
same set, as one that comes after the sends.
-/

namespace RtThread

variable {τ : Type*} [DecidableEq τ]

/-- `RT_EVENT_FLAG_AND`. -/
def rtEventFlagAnd : BitVec 8 := 0x01

/-- `RT_EVENT_FLAG_OR`. -/
def rtEventFlagOr : BitVec 8 := 0x02

/-- `RT_EVENT_FLAG_CLEAR`. -/
def rtEventFlagClear : BitVec 8 := 0x04

/-- `struct rt_event`. -/
structure RtEvent (τ : Type*) where
  set : BitVec 32
  flag : IpcFlag
  suspendThread : List τ

/-- `rt_event_init`. -/
def rtEventInit (flag : IpcFlag) : RtEvent τ := { set := 0, flag, suspendThread := [] }

/-- One event object, the threads with their fields for it, and how the calls stand. -/
structure EventState (τ : Type*) where
  event : RtEvent τ
  threads : τ → Thread
  /-- `thread->event_set`. -/
  eventSet : τ → BitVec 32
  /-- `thread->event_info`. -/
  eventInfo : τ → BitVec 8
  /-- The thread is inside `rt_event_recv`. -/
  inRecv : τ → Bool
  /-- What `*recved` is for the thread's last call. -/
  recved : τ → BitVec 32
  /-- What the thread's last call has returned. -/
  answer : τ → RtErr

inductive EventEvent (τ : Type*)
  | send (set : BitVec 32)
  | recv (thread : τ) (set : BitVec 32) (option : BitVec 8) (timeout : ℤ)
  | timeout (thread : τ)
  | wake (thread : τ)

/-- The condition of a reception: all the bits that it wants, or one of them. -/
def Satisfied (option : BitVec 8) (want set : BitVec 32) : Prop :=
  if option &&& rtEventFlagAnd ≠ 0 then ∀ i, want.getLsbD i = true → set.getLsbD i = true
  else option &&& rtEventFlagOr ≠ 0 ∧ ∃ i, want.getLsbD i = true ∧ set.getLsbD i = true

theorem Satisfied.mono {option : BitVec 8} {want set more : BitVec 32} (satisfied : Satisfied option want set)
    (subset : ∀ i, set.getLsbD i = true → more.getLsbD i = true) : Satisfied option want more := by
  rcases Decidable.em (option &&& rtEventFlagAnd ≠ 0) with all | any
  · rw [Satisfied, if_pos all] at satisfied ⊢
    exact fun i wanted => subset i (satisfied i wanted)
  · rw [Satisfied, if_neg any] at satisfied ⊢
    obtain ⟨anyOf, i, wanted, there⟩ := satisfied
    exact ⟨anyOf, i, wanted, subset i there⟩

/-- The set after `RT_EVENT_FLAG_CLEAR`, for a reception with this option. -/
def remaining (option : BitVec 8) (want set : BitVec 32) : BitVec 32 :=
  if option &&& rtEventFlagClear ≠ 0 then set &&& ~~~want else set

/-- Clearing the bits that are there clears the same bits as clearing all that are wanted. -/
theorem remaining_and (option : BitVec 8) (want set : BitVec 32) :
    remaining option (want &&& set) set = remaining option want set := by
  unfold remaining
  split
  · apply BitVec.eq_of_getLsbD_eq
    intro i inside
    rw [BitVec.getLsbD_and, BitVec.getLsbD_and, BitVec.getLsbD_not, BitVec.getLsbD_not, BitVec.getLsbD_and]
    cases set.getLsbD i <;> simp
  · rfl

theorem remaining_subset {option : BitVec 8} {want set : BitVec 32} {i : ℕ}
    (left : (remaining option want set).getLsbD i = true) : set.getLsbD i = true := by
  unfold remaining at left
  split at left
  · rw [BitVec.getLsbD_and, Bool.and_eq_true] at left
    exact left.1
  · exact left

namespace EventState

/-- The thread can call: it is ready and not inside a reception. -/
def Running (s : EventState τ) (thread : τ) : Prop :=
  (s.threads thread).stat = .ready ∧ s.inRecv thread = false

instance (s : EventState τ) (thread : τ) : Decidable (s.Running thread) :=
  inferInstanceAs (Decidable (_ ∧ _))

/-- `event->set = set`. -/
def withSet (s : EventState τ) (set : BitVec 32) : EventState τ := { s with event := { s.event with set } }

/-- `rt_thread_resume` of a thread in the list of the event. -/
def rtThreadResume (s : EventState τ) (thread : τ) : EventState τ :=
  if (s.threads thread).stat ≠ .suspend then s
  else
    { s with
      event := { s.event with suspendThread := s.event.suspendThread.erase thread }
      threads := onThread s.threads thread Thread.rtThreadResume }

/-- The end of a pass of the loop of `rt_event_send`, for a thread that has got its bits. -/
def resumeReceiver (s : EventState τ) (thread : τ) : EventState τ :=
  rtThreadResume (s.withSet (remaining (s.eventInfo thread) (s.eventSet thread) s.event.set)) thread

/-- One pass of the loop of `rt_event_send`. -/
def sendTo (s : EventState τ) (thread : τ) : EventState τ :=
  if s.eventInfo thread &&& rtEventFlagAnd ≠ 0 then
    if s.eventSet thread &&& s.event.set = s.eventSet thread then s.resumeReceiver thread else s
  else if s.eventInfo thread &&& rtEventFlagOr ≠ 0 then
    if s.eventSet thread &&& s.event.set ≠ 0 then
      resumeReceiver { s with
        eventSet := Function.update s.eventSet thread (s.eventSet thread &&& s.event.set) } thread
    else s
  else s

/-- `rt_event_send`. The loop moves on before it unlinks a thread, so that it meets every thread
that waits at its start. -/
def rtEventSend (s : EventState τ) (set : BitVec 32) : EventState τ :=
  if set = 0 then s
  else s.event.suspendThread.foldl sendTo (s.withSet (s.event.set ||| set))

/-- The part of `rt_event_recv` for a set that meets the condition. -/
def receiveNow (s : EventState τ) (thread : τ) (set : BitVec 32) (option : BitVec 8) : EventState τ :=
  { s with
    recved := Function.update s.recved thread (s.event.set &&& set)
    event := { s.event with set := remaining option set s.event.set }
    threads := onThread s.threads thread (Thread.setError .eok)
    answer := Function.update s.answer thread .eok }

/-- The part of `rt_event_recv` for a set that does not meet the condition. -/
def receiveLater (s : EventState τ) (thread : τ) (set : BitVec 32) (option : BitVec 8) (timeout : ℤ) :
    EventState τ :=
  if timeout = 0 then
    { s with
      threads := onThread s.threads thread (Thread.setError .etimeout)
      answer := Function.update s.answer thread .etimeout }
  else
    { s with
      eventSet := Function.update s.eventSet thread set
      eventInfo := Function.update s.eventInfo thread option
      event := { s.event with
        suspendThread := rtIpcListInsert s.event.flag s.threads thread s.event.suspendThread }
      threads := onThread s.threads thread (Thread.enterWait timeout)
      inRecv := Function.update s.inRecv thread true }

/-- `rt_event_recv` up to its return or its `rt_schedule`. It asserts that one of the options AND
and OR is set. -/
def rtEventRecv (s : EventState τ) (thread : τ) (set : BitVec 32) (option : BitVec 8) (timeout : ℤ) :
    EventState τ :=
  if set = 0 then { s with answer := Function.update s.answer thread .error }
  else if option &&& rtEventFlagAnd ≠ 0 then
    if s.event.set &&& set = set then s.receiveNow thread set option
    else s.receiveLater thread set option timeout
  else if option &&& rtEventFlagOr ≠ 0 then
    if s.event.set &&& set ≠ 0 then s.receiveNow thread set option
    else s.receiveLater thread set option timeout
  else s

/-- `rt_event_recv` behind its `rt_schedule`. -/
def finishRecv (s : EventState τ) (thread : τ) : EventState τ :=
  let s := { s with
    inRecv := Function.update s.inRecv thread false
    answer := Function.update s.answer thread (s.threads thread).error }
  if (s.threads thread).error ≠ .eok then s
  else { s with recved := Function.update s.recved thread (s.eventSet thread) }

def timeoutRecv (s : EventState τ) (thread : τ) : EventState τ :=
  { s with
    event := { s.event with suspendThread := s.event.suspendThread.erase thread }
    threads := onThread s.threads thread Thread.rtThreadTimeout }

/-- One event. An event that cannot happen in the state changes nothing. -/
def step (s : EventState τ) : EventEvent τ → EventState τ
  | .send set => s.rtEventSend set
  | .recv thread set option timeout => if s.Running thread then s.rtEventRecv thread set option timeout else s
  | .timeout thread => if (s.threads thread).CanTimeout then s.timeoutRecv thread else s
  | .wake thread =>
    if s.inRecv thread = true ∧ (s.threads thread).stat = .ready then s.finishRecv thread else s

/-- The state after `rt_event_init`. -/
def start (flag : IpcFlag) (threads : τ → Thread) : EventState τ where
  event := rtEventInit flag
  threads := threads
  eventSet _ := 0
  eventInfo _ := 0
  inRecv _ := false
  recved _ := 0
  answer _ := .eok

/-! ### What a pass of the loop does -/

def serve (s : EventState τ) (thread : τ) : EventState τ :=
  { s with
    eventSet := Function.update s.eventSet thread (s.eventSet thread &&& s.event.set)
    event := { s.event with
      set := remaining (s.eventInfo thread) (s.eventSet thread) s.event.set
      suspendThread := s.event.suspendThread.erase thread }
    threads := onThread s.threads thread Thread.rtThreadResume }

variable {s : EventState τ} {thread : τ} {ahead : List τ}

theorem resumeReceiver_eq (suspended : (s.threads thread).stat = .suspend) :
    resumeReceiver { s with
      eventSet := Function.update s.eventSet thread (s.eventSet thread &&& s.event.set) } thread =
      s.serve thread := by
  simp only [resumeReceiver, withSet, rtThreadResume, suspended, ne_eq, not_true_eq_false, if_false,
    Function.update_self, remaining_and, serve]

theorem sendTo_of_satisfied (suspended : (s.threads thread).stat = .suspend)
    (satisfied : Satisfied (s.eventInfo thread) (s.eventSet thread) s.event.set) :
    s.sendTo thread = s.serve thread := by
  unfold sendTo
  rcases Decidable.em (s.eventInfo thread &&& rtEventFlagAnd ≠ 0) with all | any
  · rw [Satisfied, if_pos all, ← BitSet.and_eq_left_iff] at satisfied
    rw [if_pos all, if_pos satisfied, ← resumeReceiver_eq suspended, satisfied, Function.update_eq_self]
  · rw [Satisfied, if_neg any, ← BitSet.and_ne_zero_iff] at satisfied
    rw [if_neg any, if_pos satisfied.1, if_pos satisfied.2, resumeReceiver_eq suspended]

theorem sendTo_of_not_satisfied (unmet : ¬ Satisfied (s.eventInfo thread) (s.eventSet thread) s.event.set) :
    s.sendTo thread = s := by
  unfold sendTo
  rcases Decidable.em (s.eventInfo thread &&& rtEventFlagAnd ≠ 0) with all | any
  · rw [Satisfied, if_pos all, ← BitSet.and_eq_left_iff] at unmet
    rw [if_pos all, if_neg unmet]
  · rw [Satisfied, if_neg any, ← BitSet.and_ne_zero_iff] at unmet
    rw [if_neg any]
    split
    · rename_i anyOf
      rw [if_neg fun some => unmet ⟨anyOf, some⟩]
    · rfl

/-- No thread waits for a condition that the set meets. -/
def NoneSatisfied (s : EventState τ) : Prop :=
  ∀ thread ∈ s.event.suspendThread, ¬ Satisfied (s.eventInfo thread) (s.eventSet thread) s.event.set

/-- The threads that wait, while the loop of `rt_event_send` still has some of them ahead: those
behind it wait for good. -/
structure Scanned (s : EventState τ) (ahead : List τ) : Prop where
  distinct : s.event.suspendThread.Nodup
  suspended : ∀ thread ∈ s.event.suspendThread, (s.threads thread).stat = .suspend
  aheadDistinct : ahead.Nodup
  waiting : ∀ thread ∈ ahead, thread ∈ s.event.suspendThread
  unmet : ∀ thread ∈ s.event.suspendThread, thread ∉ ahead →
    ¬ Satisfied (s.eventInfo thread) (s.eventSet thread) s.event.set

omit [DecidableEq τ] in
theorem Scanned.noneSatisfied (scanned : s.Scanned []) : s.NoneSatisfied :=
  fun thread waits => scanned.unmet thread waits List.not_mem_nil

theorem Scanned.serve (scanned : s.Scanned (thread :: ahead)) : (s.serve thread).Scanned ahead := by
  obtain ⟨notLater, later⟩ := List.nodup_cons.mp scanned.aheadDistinct
  constructor
  · exact scanned.distinct.erase thread
  · intro other waits
    obtain ⟨ne, waited⟩ := scanned.distinct.mem_erase_iff.mp waits
    simpa [EventState.serve, ne] using scanned.suspended other waited
  · exact later
  · intro other member
    have ne : other ≠ thread := fun same => notLater (same ▸ member)
    exact scanned.distinct.mem_erase_iff.mpr ⟨ne, scanned.waiting other (List.mem_cons_of_mem thread member)⟩
  · intro other waits behind satisfied
    obtain ⟨ne, waited⟩ := scanned.distinct.mem_erase_iff.mp waits
    simp only [EventState.serve, Function.update_of_ne ne] at satisfied
    have before : other ∉ thread :: ahead := by simp [ne, behind]
    exact scanned.unmet other waited before (satisfied.mono fun i => remaining_subset)

theorem Scanned.sendTo (scanned : s.Scanned (thread :: ahead)) : (s.sendTo thread).Scanned ahead := by
  have suspended := scanned.suspended thread (scanned.waiting thread List.mem_cons_self)
  rcases Classical.em (Satisfied (s.eventInfo thread) (s.eventSet thread) s.event.set) with met | unmet
  · rw [sendTo_of_satisfied suspended met]
    exact scanned.serve
  · rw [sendTo_of_not_satisfied unmet]
    refine { scanned with aheadDistinct := scanned.aheadDistinct.of_cons, waiting := ?_, unmet := ?_ }
    · exact fun other member => scanned.waiting other (List.mem_cons_of_mem thread member)
    · intro other waits behind
      rcases eq_or_ne other thread with rfl | ne
      · exact unmet
      · exact scanned.unmet other waits (by simp [ne, behind])

theorem Scanned.foldl_sendTo (scanned : s.Scanned ahead) : (ahead.foldl EventState.sendTo s).Scanned [] := by
  induction ahead generalizing s with
  | nil => exact scanned
  | cons thread ahead ih => exact ih scanned.sendTo

theorem Scanned.rtEventSend (scanned : s.Scanned []) (set : BitVec 32) : (s.rtEventSend set).Scanned [] := by
  unfold EventState.rtEventSend
  split
  · exact scanned
  · apply foldl_sendTo
    exact ⟨scanned.distinct, scanned.suspended, scanned.distinct, fun _ => id, fun _ waits ahead => absurd waits ahead⟩

/-! ### What a reception does -/

/-- `rt_event_recv` behind its checks. -/
inductive Reception (s : EventState τ) (thread : τ) (set : BitVec 32) (option : BitVec 8) (timeout : ℤ) :
    EventState τ → Prop
  | refused (answer : τ → RtErr) : Reception s thread set option timeout { s with answer }
  | now (satisfied : Satisfied option set s.event.set) :
      Reception s thread set option timeout (s.receiveNow thread set option)
  | later (positive : set ≠ 0) (unmet : ¬ Satisfied option set s.event.set) :
      Reception s thread set option timeout (s.receiveLater thread set option timeout)

theorem rtEventRecv_of_satisfied {set : BitVec 32} {option : BitVec 8} (positive : set ≠ 0)
    (satisfied : Satisfied option set s.event.set) (thread : τ) (timeout : ℤ) :
    s.rtEventRecv thread set option timeout = s.receiveNow thread set option := by
  unfold rtEventRecv
  rw [if_neg positive]
  rcases Decidable.em (option &&& rtEventFlagAnd ≠ 0) with all | any
  · rw [Satisfied, if_pos all, ← BitSet.and_eq_left_iff, BitVec.and_comm set] at satisfied
    rw [if_pos all, if_pos satisfied]
  · rw [Satisfied, if_neg any, ← BitSet.and_ne_zero_iff, BitVec.and_comm set] at satisfied
    rw [if_neg any, if_pos satisfied.1, if_pos satisfied.2]

theorem rtEventRecv_reception (s : EventState τ) (thread : τ) (set : BitVec 32) (option : BitVec 8)
    (timeout : ℤ) : s.Reception thread set option timeout (s.rtEventRecv thread set option timeout) := by
  rcases eq_or_ne set 0 with zero | positive
  · rw [rtEventRecv, if_pos zero]
    exact .refused _
  · rcases Classical.em (Satisfied option set s.event.set) with met | unmet
    · rw [rtEventRecv_of_satisfied positive met]
      exact .now met
    · have later := @Reception.later _ _ s thread set option timeout positive unmet
      unfold rtEventRecv
      rw [if_neg positive]
      rcases Decidable.em (option &&& rtEventFlagAnd ≠ 0) with all | any
      · rw [Satisfied, if_pos all, ← BitSet.and_eq_left_iff, BitVec.and_comm set] at unmet
        rwa [if_pos all, if_neg unmet]
      · rw [Satisfied, if_neg any, ← BitSet.and_ne_zero_iff, BitVec.and_comm set] at unmet
        rw [if_neg any]
        split
        · rename_i anyOf
          rwa [if_neg fun some => unmet ⟨anyOf, some⟩]
        · exact .refused s.answer

theorem Scanned.rtEventRecv (scanned : s.Scanned []) (running : s.Running thread) (set : BitVec 32) (option : BitVec 8)
    (timeout : ℤ) : (s.rtEventRecv thread set option timeout).Scanned [] := by
  have reported (code : RtErr) (other : τ) (waits : other ∈ s.event.suspendThread) :
      (onThread s.threads thread (Thread.setError code) other).stat = .suspend :=
    (onThread_keeps Thread.stat rfl other).trans (scanned.suspended other waits)
  have reception := s.rtEventRecv_reception thread set option timeout
  generalize s.rtEventRecv thread set option timeout = after at reception ⊢
  cases reception with
  | refused answer => exact { scanned with }
  | now satisfied =>
    refine { scanned with suspended := reported .eok, unmet := ?_ }
    intro other waits behind met
    exact scanned.unmet other waits behind (met.mono fun i => remaining_subset)
  | later positive unmet =>
    unfold receiveLater
    split
    · exact { scanned with suspended := reported .etimeout }
    · have outside : thread ∉ s.event.suspendThread := fun waits => by
        simpa [running.1] using scanned.suspended thread waits
      constructor
      · exact rtIpcListInsert_nodup.mpr ⟨outside, scanned.distinct⟩
      · intro other waits
        rcases eq_or_ne other thread with rfl | ne
        · simp [Thread.enterWait_of_ready running.1]
        · simpa [ne] using scanned.suspended other (by simpa [ne] using waits)
      · exact List.nodup_nil
      · simp
      · intro other waits _
        rcases eq_or_ne other thread with rfl | ne
        · simpa using unmet
        · simpa [ne] using scanned.unmet other (by simpa [ne] using waits) List.not_mem_nil

theorem Scanned.timeoutRecv (scanned : s.Scanned []) (thread : τ) : (s.timeoutRecv thread).Scanned [] := by
  refine { scanned with distinct := scanned.distinct.erase thread, suspended := ?_, waiting := by simp, unmet := ?_ }
  · intro other waits
    obtain ⟨ne, waited⟩ := scanned.distinct.mem_erase_iff.mp waits
    simpa [EventState.timeoutRecv, ne] using scanned.suspended other waited
  · intro other waits behind
    exact scanned.unmet other (List.mem_of_mem_erase waits) behind

theorem Scanned.finishRecv (scanned : s.Scanned []) (thread : τ) : (s.finishRecv thread).Scanned [] := by
  simp only [EventState.finishRecv]
  split
  · exact { scanned with }
  · exact { scanned with }

theorem Scanned.step (scanned : s.Scanned []) (event : EventEvent τ) : (s.step event).Scanned [] := by
  cases event with
  | send set => exact scanned.rtEventSend set
  | recv thread set option timeout =>
    rcases Decidable.em (s.Running thread) with running | blocked
    · rw [EventState.step, if_pos running]
      exact scanned.rtEventRecv running set option timeout
    · rw [EventState.step, if_neg blocked]
      exact scanned
  | timeout thread =>
    rcases Decidable.em (s.threads thread).CanTimeout with fires | quiet
    · rw [EventState.step, if_pos fires]
      exact scanned.timeoutRecv thread
    · rw [EventState.step, if_neg quiet]
      exact scanned
  | wake thread =>
    rcases Decidable.em (s.inRecv thread = true ∧ (s.threads thread).stat = .ready) with back | away
    · rw [EventState.step, if_pos back]
      exact scanned.finishRecv thread
    · rw [EventState.step, if_neg away]
      exact scanned

/-! ### A reception that blocks and one that does not -/

def unionSet (set : BitVec 32) (sends : List (BitVec 32)) : BitVec 32 := sends.foldl (· ||| ·) set

theorem exec_send_empty (empty : s.event.suspendThread = []) (sends : List (BitVec 32)) :
    Run.exec step s (sends.map .send) = s.withSet (unionSet s.event.set sends) := by
  induction sends generalizing s with
  | nil => rfl
  | cons set sends ih =>
    have sent : s.step (.send set) = s.withSet (s.event.set ||| set) := by
      simp only [step, rtEventSend, empty, List.foldl_nil]
      split
      · rename_i zero
        simp [zero, withSet]
      · rfl
    have unheard : (s.withSet (s.event.set ||| set)).event.suspendThread = [] := empty
    rw [List.map_cons, Run.exec_cons, sent, ih unheard]
    rfl

/-- One thread waits, for a condition that the set does not meet. -/
structure Waits (s : EventState τ) (thread : τ) (want : BitVec 32) (option : BitVec 8) : Prop where
  alone : s.event.suspendThread = [thread]
  suspended : (s.threads thread).stat = .suspend
  error : (s.threads thread).error = .eok
  inside : s.inRecv thread = true
  eventSet : s.eventSet thread = want
  eventInfo : s.eventInfo thread = option
  unmet : ¬ Satisfied option want s.event.set

section Waits

variable {s : EventState τ} {thread : τ} {want : BitVec 32} {option : BitVec 8}

theorem Waits.send_unmet (waits : s.Waits thread want option) {set : BitVec 32}
    (unmet : ¬ Satisfied option want (s.event.set ||| set)) :
    s.step (.send set) = s.withSet (s.event.set ||| set) := by
  simp only [step, rtEventSend, waits.alone, List.foldl_cons, List.foldl_nil]
  split
  · rename_i zero
    simp [zero, withSet]
  · apply sendTo_of_not_satisfied
    simpa only [withSet, waits.eventSet, waits.eventInfo] using unmet

theorem Waits.send_met (waits : s.Waits thread want option) {set : BitVec 32}
    (met : Satisfied option want (s.event.set ||| set)) :
    s.step (.send set) = (s.withSet (s.event.set ||| set)).serve thread := by
  have positive : set ≠ 0 := by
    rintro rfl
    rw [BitVec.ofNat_eq_ofNat, BitVec.or_zero] at met
    exact waits.unmet met
  simp only [step, rtEventSend, waits.alone, List.foldl_cons, List.foldl_nil, if_neg positive]
  have suspended : ((s.withSet (s.event.set ||| set)).threads thread).stat = .suspend := waits.suspended
  apply sendTo_of_satisfied suspended
  simpa only [withSet, waits.eventSet, waits.eventInfo] using met

theorem Waits.pass (waits : s.Waits thread want option) {earlier : List (BitVec 32)}
    (still : thread ∈ (Run.exec step s (earlier.map .send)).event.suspendThread) :
    (Run.exec step s (earlier.map .send)).Waits thread want option ∧
      (Run.exec step s (earlier.map .send)).event.set = unionSet s.event.set earlier := by
  induction earlier generalizing s with
  | nil => exact ⟨waits, rfl⟩
  | cons set earlier ih =>
    rw [List.map_cons, Run.exec_cons] at still ⊢
    rcases Classical.em (Satisfied option want (s.event.set ||| set)) with met | unmet
    · have empty : (s.step (.send set)).event.suspendThread = [] := by
        simp [waits.send_met met, serve, withSet, waits.alone]
      rw [exec_send_empty empty] at still
      simp [withSet, empty] at still
    · rw [waits.send_unmet unmet] at still ⊢
      have longer : (s.withSet (s.event.set ||| set)).Waits thread want option := { waits with unmet := unmet }
      exact ih longer still

end Waits

/-- A reception after which its caller waits, where nobody waited before. -/
theorem recv_waits {s : EventState τ} {thread : τ} {want : BitVec 32} {option : BitVec 8} {timeout : ℤ}
    (empty : s.event.suspendThread = []) (running : s.Running thread) :
    (s.step (.recv thread want option timeout)).event.suspendThread = [] ∨
      want ≠ 0 ∧ (s.step (.recv thread want option timeout)).Waits thread want option ∧
        (s.step (.recv thread want option timeout)).event.set = s.event.set := by
  rw [step, if_pos running]
  have reception := s.rtEventRecv_reception thread want option timeout
  generalize s.rtEventRecv thread want option timeout = after at reception ⊢
  cases reception with
  | refused answer => exact .inl empty
  | now satisfied => exact .inl empty
  | later positive unmet =>
    unfold receiveLater
    split
    · exact .inl empty
    · refine .inr ⟨positive, ?_, rfl⟩
      constructor
      · cases flag : s.event.flag <;> simp [rtIpcListInsert, empty]
      · simp [Thread.enterWait_of_ready running.1]
      · simp
      · simp
      · simp
      · simp
      · exact unmet

/-- A call of `rt_event_recv` has returned `RT_EOK` with these bits. -/
def Received (s : EventState τ) (thread : τ) (bits : BitVec 32) : Prop :=
  s.inRecv thread = false ∧ s.answer thread = .eok ∧ s.recved thread = bits

theorem finishRecv_received {s : EventState τ} {thread : τ} (clean : (s.threads thread).error = .eok) :
    (s.finishRecv thread).Received thread (s.eventSet thread) := by
  simp [finishRecv, clean, Received]

@[simp] theorem finishRecv_event (s : EventState τ) (thread : τ) : (s.finishRecv thread).event = s.event := by
  simp only [finishRecv]
  split <;> rfl

/-- Where nobody waits, a reception that blocks, sees some sends pass and is woken by the next one
ends with the same bits and the same set as behind these sends. -/
def BlockingAgrees (s : EventState τ) : Prop :=
  ∀ thread set option timeout earlier last, s.event.suspendThread = [] → s.Running thread →
    let passed := Run.exec step (s.step (.recv thread set option timeout)) (earlier.map .send)
    let woken := passed.step (.send last)
    thread ∈ passed.event.suspendThread → thread ∉ woken.event.suspendThread →
    let blocked := woken.step (.wake thread)
    let direct := (Run.exec step s ((earlier ++ [last]).map .send)).step (.recv thread set option timeout)
    ∃ bits, blocked.Received thread bits ∧ direct.Received thread bits ∧
      blocked.event.set = direct.event.set

theorem blockingAgrees (s : EventState τ) : s.BlockingAgrees := by
  intro thread want option timeout earlier last empty running passed woken waited served blocked direct
  rcases s.recv_waits empty running with returned | ⟨positive, waits, same⟩
  · have nobody : passed.event.suspendThread = [] := by
      rw [show passed = _ from exec_send_empty returned earlier]
      exact returned
    rw [nobody] at waited
    exact absurd waited List.not_mem_nil
  · obtain ⟨waitsOn, collected⟩ := waits.pass waited
    have met : Satisfied option want (passed.event.set ||| last) := by
      by_contra late
      rw [show woken = _ from waitsOn.send_unmet late] at served
      exact served waited
    have wokenEq : woken = (passed.withSet (passed.event.set ||| last)).serve thread := waitsOn.send_met met
    have whole : passed.event.set ||| last = unionSet s.event.set (earlier ++ [last]) := by
      rw [show passed.event.set = _ from collected, same, unionSet, unionSet, List.foldl_append]
      rfl
    have directEq : direct = (s.withSet (passed.event.set ||| last)).receiveNow thread want option := by
      have ready : (s.withSet (passed.event.set ||| last)).Running thread := running
      simp only [direct]
      rw [exec_send_empty empty, ← whole, step, if_pos ready]
      exact rtEventRecv_of_satisfied positive met thread timeout
    have back : woken.inRecv thread = true ∧ (woken.threads thread).stat = .ready := by
      rw [wokenEq]
      exact ⟨waitsOn.inside, by simp [serve, withSet, Thread.rtThreadResume]⟩
    have clean : (woken.threads thread).error = .eok := by
      rw [wokenEq]
      simpa [serve, withSet, Thread.rtThreadResume] using waitsOn.error
    have blockedEq : blocked = woken.finishRecv thread := if_pos back
    have got : woken.eventSet thread = want &&& (passed.event.set ||| last) := by
      simp [wokenEq, serve, withSet, passed, waitsOn.eventSet]
    refine ⟨want &&& (passed.event.set ||| last), ?_, ?_, ?_⟩
    · rw [blockedEq, ← got]
      exact finishRecv_received clean
    · rw [directEq, BitVec.and_comm]
      exact ⟨running.2, by simp [receiveNow], by simp [receiveNow, withSet]⟩
    · simp [blockedEq, wokenEq, directEq, serve, withSet, receiveNow, passed, waitsOn.eventSet, waitsOn.eventInfo]

omit [DecidableEq τ] in
theorem scanned_start (flag : IpcFlag) (threads : τ → Thread) : (start flag threads).Scanned [] := by
  constructor <;> simp [start, rtEventInit]

/-- In every state of a run no thread waits for what the set has, and blocking in a reception
agrees with coming after the sends. -/
theorem noneSatisfied_and_blockingAgrees (flag : IpcFlag) (threads : τ → Thread)
    (events : List (EventEvent τ)) :
    Run.Always step (fun s => s.NoneSatisfied ∧ s.BlockingAgrees) (start flag threads) events := by
  have keeps : ∀ (s : EventState τ) event, s.Scanned [] → (s.step event).Scanned [] :=
    fun s event scanned => scanned.step event
  apply Run.always_of_invariant keeps _ (scanned_start flag threads)
  intro s scanned
  exact ⟨scanned.noneSatisfied, s.blockingAgrees⟩

end EventState

end RtThread
