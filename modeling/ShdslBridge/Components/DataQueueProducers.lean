import ShdslBridge.Components.DataQueue

/-! # Producers that a data queue forgets

A push that finds the queue full sets `waiting_lwm` and suspends its thread. The pop that reaches
the low-water mark clears `waiting_lwm` and resumes the first suspended producer only. While the mark
is clear no pop resumes another one, so the rest of the list depends on what the last resumed thread
does. The states in which it leaves them behind are known exactly, for queues of any size.
-/

namespace RtThread

open RtDataQueue

variable {τ : Type*} [DecidableEq τ] {α : Type*}

namespace DqState

def Resumed (s : DqState τ α) (thread : τ) : Prop :=
  (s.call thread).isSome = true ∧ (s.threads thread).stat = .ready

instance (s : DqState τ α) (thread : τ) : Decidable (s.Resumed thread) :=
  inferInstanceAs (Decidable (_ ∧ _))

/-- Once every resumed thread has run, a suspended producer has `waiting_lwm` set for it. -/
def ProducersCovered (s : DqState τ α) : Prop :=
  (∀ thread, ¬ s.Resumed thread) → s.dq.suspendedPushList ≠ [] → s.dq.waitingLwm = true

/-- The last resumed thread, if it runs while a producer is suspended and `waiting_lwm` is clear, is
a producer that sets the mark again or resumes a consumer. -/
def KeepsProducers (s : DqState τ α) : DqEvent τ α → Prop
  | .wake thread =>
    s.Resumed thread → (∀ other ≠ thread, ¬ s.Resumed other) → s.dq.suspendedPushList ≠ [] →
      s.dq.waitingLwm = false →
        (s.threads thread).error = .eok ∧
          (∃ item timeout, s.call thread = some { op := .push item, timeout }) ∧
          (s.dq.Full ∨ s.dq.suspendedPopList ≠ [])
  | _ => True

structure Lists (s : DqState τ α) : Prop where
  push : ∀ thread ∈ s.dq.suspendedPushList,
    (∃ item timeout, s.call thread = some { op := .push item, timeout }) ∧ (s.threads thread).stat = .suspend
  pop : ∀ thread ∈ s.dq.suspendedPopList,
    (∃ timeout, s.call thread = some { op := .pop, timeout }) ∧ (s.threads thread).stat = .suspend
  pushDistinct : s.dq.suspendedPushList.Nodup
  popDistinct : s.dq.suspendedPopList.Nodup

section

variable {s : DqState τ α}

variable {s' : DqState τ α} {thread : τ} {caller : Option τ}

omit [DecidableEq τ] in
theorem Lists.frame (lists : s.Lists) (pushList : s'.dq.suspendedPushList = s.dq.suspendedPushList)
    (popList : s'.dq.suspendedPopList = s.dq.suspendedPopList) (threads : s'.threads = s.threads)
    (call : s'.call = s.call) : s'.Lists := by
  constructor
  · rw [pushList, threads, call]
    exact lists.push
  · rw [popList, threads, call]
    exact lists.pop
  · rw [pushList]
    exact lists.pushDistinct
  · rw [popList]
    exact lists.popDistinct

omit [DecidableEq τ] in
theorem Lists.outside (lists : s.Lists) (ready : (s.threads thread).stat = .ready) :
    thread ∉ s.dq.suspendedPushList ∧ thread ∉ s.dq.suspendedPopList := by
  constructor
  · intro member
    have suspended := (lists.push thread member).2
    rw [ready] at suspended
    cases suspended
  · intro member
    have suspended := (lists.pop thread member).2
    rw [ready] at suspended
    cases suspended

omit [DecidableEq τ] in
theorem Lists.disjoint (lists : s.Lists) (push : thread ∈ s.dq.suspendedPushList) : thread ∉ s.dq.suspendedPopList := by
  intro pop
  obtain ⟨⟨item, timeout, pushes⟩, -⟩ := lists.push thread push
  obtain ⟨⟨timeout', pops⟩, -⟩ := lists.pop thread pop
  rw [pushes] at pops
  cases pops

omit [DecidableEq τ] in
theorem Lists.change (lists : s.Lists) (push : thread ∉ s.dq.suspendedPushList) (pop : thread ∉ s.dq.suspendedPopList)
    (pushList : s'.dq.suspendedPushList = s.dq.suspendedPushList)
    (popList : s'.dq.suspendedPopList = s.dq.suspendedPopList)
    (threads : ∀ other ≠ thread, s'.threads other = s.threads other)
    (call : ∀ other ≠ thread, s'.call other = s.call other) : s'.Lists := by
  constructor
  · intro other member
    rw [pushList] at member
    have ne : other ≠ thread := fun same => push (same ▸ member)
    rw [threads other ne, call other ne]
    exact lists.push other member
  · intro other member
    rw [popList] at member
    have ne : other ≠ thread := fun same => pop (same ▸ member)
    rw [threads other ne, call other ne]
    exact lists.pop other member
  · rw [pushList]
    exact lists.pushDistinct
  · rw [popList]
    exact lists.popDistinct

theorem Lists.ret (lists : s.Lists) (ready : ∀ thread ∈ caller, (s.threads thread).stat = .ready) (code : RtErr)
    (acted : Bool) : (s.ret caller code acted).Lists := by
  cases caller with
  | none => exact lists.frame rfl rfl rfl rfl
  | some thread =>
    obtain ⟨push, pop⟩ := lists.outside (ready thread rfl)
    exact lists.change push pop rfl rfl (fun _ _ => rfl) fun other ne => Function.update_of_ne ne _ _

theorem Lists.wait (lists : s.Lists) (ready : ∀ thread ∈ caller, (s.threads thread).stat = .ready) (call : DqCall α) :
    (s.wait caller call).Lists := by
  cases caller with
  | none => exact lists
  | some thread =>
    have isReady := ready thread rfl
    obtain ⟨push, pop⟩ := lists.outside isReady
    have inside : Lists { s with
        threads := onThread s.threads thread (Thread.enterWait call.timeout)
        call := Function.update s.call thread (some call) } :=
      lists.change push pop rfl rfl (fun other ne => onThread_other s.threads ne _)
        fun other ne => Function.update_of_ne ne _ _
    have suspended : (onThread s.threads thread (Thread.enterWait call.timeout) thread).stat = .suspend := by
      simp [Thread.enterWait_of_ready isReady]
    have entered : Function.update s.call thread (some call) thread = some call := Function.update_self ..
    rcases call with ⟨op, timeout⟩
    cases op with
    | push item =>
      refine ⟨?_, inside.pop, ?_, inside.popDistinct⟩
      · intro other member
        rcases List.mem_append.mp member with before | new
        · exact inside.push other before
        · obtain rfl := List.mem_singleton.mp new
          exact ⟨⟨item, timeout, entered⟩, suspended⟩
      · exact (List.perm_append_singleton thread _).nodup_iff.mpr (List.nodup_cons.mpr ⟨push, lists.pushDistinct⟩)
    | pop =>
      refine ⟨inside.push, ?_, inside.pushDistinct, ?_⟩
      · intro other member
        rcases List.mem_append.mp member with before | new
        · exact inside.pop other before
        · obtain rfl := List.mem_singleton.mp new
          exact ⟨⟨timeout, entered⟩, suspended⟩
      · exact (List.perm_append_singleton thread _).nodup_iff.mpr (List.nodup_cons.mpr ⟨pop, lists.popDistinct⟩)

theorem Lists.resumePush (lists : s.Lists) : s.resumePush.Lists := by
  have suspended : ∀ thread ∈ s.dq.suspendedPushList, (s.threads thread).stat = .suspend :=
    fun thread member => (lists.push thread member).2
  have shorter := rtIpcListResume_fst suspended
  have tail : s.resumePush.dq.suspendedPushList = s.dq.suspendedPushList.tail := shorter
  constructor
  · intro thread member
    rw [tail] at member
    have before := List.mem_of_mem_tail member
    exact ⟨(lists.push thread before).1, (rtIpcListResume_listed suspended lists.pushDistinct before).mpr member⟩
  · intro thread member
    have outside : thread ∉ s.dq.suspendedPushList := fun push => lists.disjoint push member
    refine ⟨(lists.pop thread member).1, ?_⟩
    change ((rtIpcListResume s.dq.suspendedPushList s.threads).2 thread).stat = .suspend
    rw [rtIpcListResume_outside outside]
    exact (lists.pop thread member).2
  · rw [tail]
    exact (List.tail_sublist _).nodup lists.pushDistinct
  · exact lists.popDistinct

theorem Lists.resumePop (lists : s.Lists) : s.resumePop.Lists := by
  have suspended : ∀ thread ∈ s.dq.suspendedPopList, (s.threads thread).stat = .suspend :=
    fun thread member => (lists.pop thread member).2
  have shorter := rtIpcListResume_fst suspended
  have tail : s.resumePop.dq.suspendedPopList = s.dq.suspendedPopList.tail := shorter
  constructor
  · intro thread member
    have outside : thread ∉ s.dq.suspendedPopList := lists.disjoint member
    refine ⟨(lists.push thread member).1, ?_⟩
    change ((rtIpcListResume s.dq.suspendedPopList s.threads).2 thread).stat = .suspend
    rw [rtIpcListResume_outside outside]
    exact (lists.push thread member).2
  · intro thread member
    rw [tail] at member
    have before := List.mem_of_mem_tail member
    exact ⟨(lists.pop thread before).1, (rtIpcListResume_listed suspended lists.popDistinct before).mpr member⟩
  · exact lists.pushDistinct
  · rw [tail]
    exact (List.tail_sublist _).nodup lists.popDistinct

theorem Lists.pushPass (lists : s.Lists) (ready : ∀ thread ∈ caller, (s.threads thread).stat = .ready) (item : α)
    (timeout : ℤ) : (s.pushPass caller item timeout).Lists := by
  unfold DqState.pushPass
  split
  · have marked : Lists { s with dq := { s.dq with waitingLwm := true } } := lists.frame rfl rfl rfl rfl
    simp only
    split
    · exact marked.ret ready _ _
    · exact marked.wait ready _
  · have stored : Lists { s with dq := s.dq.put item, pushed := s.pushed ++ [item] } := lists.frame rfl rfl rfl rfl
    refine stored.resumePop.ret ?_ _ _
    intro thread member
    have outside := (lists.outside (ready thread member)).2
    change ((rtIpcListResume s.dq.suspendedPopList s.threads).2 thread).stat = .ready
    rw [rtIpcListResume_outside outside, ready thread member]

theorem Lists.popPass (lists : s.Lists) (ready : ∀ thread ∈ caller, (s.threads thread).stat = .ready) (timeout : ℤ) :
    (s.popPass caller timeout).Lists := by
  unfold DqState.popPass
  split
  · split
    · exact lists.ret ready _ _
    · exact lists.wait ready _
  · have taken : Lists { s with dq := s.dq.advance, popped := s.popped ++ [s.dq.first] } :=
      lists.frame rfl rfl rfl rfl
    unfold reachLwm
    split
    · have unmarked : Lists { s with
          dq := { s.dq.advance with waitingLwm := false }, popped := s.popped ++ [s.dq.first] } :=
        lists.frame rfl rfl rfl rfl
      refine unmarked.resumePush.ret ?_ _ _
      intro thread member
      have outside := (lists.outside (ready thread member)).1
      change ((rtIpcListResume s.dq.suspendedPushList s.threads).2 thread).stat = .ready
      rw [rtIpcListResume_outside outside, ready thread member]
    · exact taken.ret ready _ _

theorem Lists.timeoutCall (lists : s.Lists) (thread : τ) : (s.timeoutCall thread).Lists := by
  constructor
  · intro other member
    obtain ⟨ne, before⟩ := lists.pushDistinct.mem_erase_iff.mp member
    simpa [DqState.timeoutCall, ne] using lists.push other before
  · intro other member
    obtain ⟨ne, before⟩ := lists.popDistinct.mem_erase_iff.mp member
    simpa [DqState.timeoutCall, ne] using lists.pop other before
  · exact lists.pushDistinct.erase thread
  · exact lists.popDistinct.erase thread

theorem Lists.step (lists : s.Lists) (event : DqEvent τ α) : (s.step event).Lists := by
  cases event with
  | push caller item timeout =>
    rw [DqState.step]
    split_ifs with can
    · exact lists.pushPass (fun thread member => (can thread member).1) item timeout
    · exact lists
  | pop caller timeout =>
    rw [DqState.step]
    split_ifs with can
    · exact lists.popPass (fun thread member => (can thread member).1) timeout
    · exact lists
  | peak => exact lists
  | timeout thread =>
    rw [DqState.step]
    split_ifs
    · exact lists.timeoutCall thread
    · exact lists
  | wake thread =>
    rw [DqState.step]
    split
    · exact lists
    · rename_i call inCall
      split_ifs with isReady
      · have ready : ∀ other ∈ some thread, (s.threads other).stat = .ready := by simpa using isReady
        unfold DqState.resumeCall
        split_ifs
        · exact lists.ret ready _ _
        · split
          · exact lists.pushPass ready _ _
          · exact lists.popPass ready _
      · exact lists

/-- The caller has stopped, and nothing else has changed for the producers. -/
structure Neutral (s s' : DqState τ α) (caller : Option τ) : Prop where
  pushList : s'.dq.suspendedPushList = s.dq.suspendedPushList
  mark : s'.dq.waitingLwm = s.dq.waitingLwm
  resumed : ∀ other, s'.Resumed other ↔ s.Resumed other ∧ other ∉ caller

theorem neutral_ret (s : DqState τ α) (caller : Option τ) (code : RtErr) (acted : Bool) :
    Neutral s (s.ret caller code acted) caller := by
  refine ⟨rfl, rfl, ?_⟩
  intro other
  cases caller with
  | none => simp [DqState.ret, Resumed]
  | some thread =>
    rcases eq_or_ne other thread with rfl | ne
    · simp [DqState.ret, Resumed]
    · simp [DqState.ret, Resumed, ne, ne.symm]

theorem neutral_wait (ready : ∀ thread ∈ caller, (s.threads thread).stat = .ready) (timeout : ℤ) :
    Neutral s (s.wait caller { op := .pop, timeout }) caller := by
  cases caller with
  | none => exact ⟨rfl, rfl, by simp [DqState.wait]⟩
  | some thread =>
    refine ⟨rfl, rfl, ?_⟩
    intro other
    rcases eq_or_ne other thread with rfl | ne
    · simp [DqState.wait, Resumed, Thread.enterWait_of_ready (ready other rfl)]
    · simp [DqState.wait, Resumed, ne, ne.symm]

omit [DecidableEq τ] in
theorem covered_of_resumed (resumed : s.Resumed thread) : s.ProducersCovered :=
  fun quiet => absurd resumed (quiet thread)

theorem resumed_first (thread : τ) (rest : List τ) (ready : ∀ thread ∈ caller, (s.threads thread).stat = .ready)
    (inCall : (s.call thread).isSome = true) (suspended : (s.threads thread).stat = .suspend) (code : RtErr)
    (acted : Bool) (call : s'.call = s.call) (threads : s'.threads = (rtIpcListResume (thread :: rest) s.threads).2) :
    (s'.ret caller code acted).Resumed thread := by
  have resumed : (s'.threads thread).stat = .ready := by
    rw [threads, rtIpcListResume_cons suspended]
    simp [Thread.rtThreadResume]
  refine ⟨?_, resumed⟩
  cases caller with
  | none => exact call ▸ inCall
  | some other =>
    have ne : thread ≠ other := by
      rintro rfl
      have isReady := ready thread rfl
      rw [suspended] at isReady
      cases isReady
    simpa [DqState.ret, call, ne] using inCall

/-- A push either leaves the producers as they are, or sets the mark or resumes a consumer. -/
theorem Lists.pushPass_cases (lists : s.Lists) (ready : ∀ thread ∈ caller, (s.threads thread).stat = .ready) (item : α)
    (timeout : ℤ) :
    (¬ (s.dq.Full ∨ s.dq.suspendedPopList ≠ []) ∧ Neutral s (s.pushPass caller item timeout) caller) ∨
      ((s.dq.Full ∨ s.dq.suspendedPopList ≠ []) ∧ (s.pushPass caller item timeout).ProducersCovered) := by
  rcases Decidable.em s.dq.Full with full | room
  · refine .inr ⟨.inl full, fun _ _ => ?_⟩
    rw [DqState.pushPass, if_pos full]
    simp only
    split
    · rfl
    · cases caller <;> rfl
  · rcases popList : s.dq.suspendedPopList with _ | ⟨thread, rest⟩
    · refine .inl ⟨by simp [room], ?_⟩
      rw [DqState.pushPass, if_neg room]
      have nobody : DqState.resumePop { s with dq := s.dq.put item, pushed := s.pushed ++ [item] } =
          { s with dq := s.dq.put item, pushed := s.pushed ++ [item] } := by
        simp only [DqState.resumePop, put, popList, rtIpcListResume]
      rw [nobody]
      have neutral := neutral_ret { s with dq := s.dq.put item, pushed := s.pushed ++ [item] } caller .eok true
      exact ⟨neutral.pushList, neutral.mark, neutral.resumed⟩
    · refine .inr ⟨.inr (by simp), ?_⟩
      obtain ⟨⟨time, inCall⟩, suspended⟩ := lists.pop thread (by simp [popList])
      rw [DqState.pushPass, if_neg room]
      refine covered_of_resumed (resumed_first thread rest ready (by rw [inCall]; rfl) suspended .eok true rfl ?_)
      simp only [DqState.resumePop, put, popList]

/-- A pop leaves the producers as they are, or it finds the mark set and leaves no producer behind
without a resumed one. -/
theorem Lists.popPass_cases (lists : s.Lists) (ready : ∀ thread ∈ caller, (s.threads thread).stat = .ready)
    (timeout : ℤ) :
    Neutral s (s.popPass caller timeout) caller ∨
      (s.dq.waitingLwm = true ∧ (s.popPass caller timeout).ProducersCovered) := by
  rcases Decidable.em s.dq.Empty with empty | items
  · rw [DqState.popPass, if_pos empty]
    split
    · exact .inl (neutral_ret s caller _ _)
    · exact .inl (neutral_wait ready timeout)
  · rw [DqState.popPass, if_neg items, reachLwm]
    split
    · rename_i low
      refine .inr ⟨low.1, ?_⟩
      rcases pushList : s.dq.suspendedPushList with _ | ⟨thread, rest⟩
      · intro _ waiting
        refine absurd ?_ waiting
        simp only [DqState.ret, DqState.resumePush, advance, pushList, rtIpcListResume]
      · obtain ⟨⟨item, time, inCall⟩, suspended⟩ := lists.push thread (by simp [pushList])
        refine covered_of_resumed (resumed_first thread rest ready (by rw [inCall]; rfl) suspended .eok true rfl ?_)
        simp only [DqState.resumePush, advance, pushList]
    · have neutral := neutral_ret
        { s with dq := s.dq.advance, popped := s.popped ++ [s.dq.first] } caller .eok true
      exact .inl ⟨neutral.pushList, neutral.mark, neutral.resumed⟩

/-- The timer of a thread inside a call resumes it, and other timers do not concern the queue. -/
theorem Lists.timeoutCall_cases (lists : s.Lists) (thread : τ) :
    Neutral s (s.timeoutCall thread) none ∨ (s.timeoutCall thread).ProducersCovered := by
  cases inCall : s.call thread with
  | some call =>
    have resumed : (s.timeoutCall thread).Resumed thread :=
      ⟨by simp [DqState.timeoutCall, inCall], by simp [DqState.timeoutCall, Thread.rtThreadTimeout]⟩
    exact .inr (covered_of_resumed resumed)
  | none =>
    have outside : thread ∉ s.dq.suspendedPushList := by
      intro member
      obtain ⟨⟨item, timeout, pushes⟩, -⟩ := lists.push thread member
      rw [inCall] at pushes
      cases pushes
    refine .inl ⟨List.erase_of_not_mem outside, rfl, ?_⟩
    intro other
    rcases eq_or_ne other thread with rfl | ne
    · simp [DqState.timeoutCall, Resumed, inCall]
    · simp [DqState.timeoutCall, Resumed, ne]

omit [DecidableEq τ] in
/-- A caller that changes nothing for the producers may be the last resumed thread only if the mark
is set. -/
theorem ProducersCovered.neutral (covered : s.ProducersCovered) (neutral : Neutral s s' caller)
    (last : ∀ thread ∈ caller, s.Resumed thread → (∀ other ≠ thread, ¬ s.Resumed other) → s.dq.suspendedPushList ≠ [] → s.dq.waitingLwm = true) :
    s'.ProducersCovered := by
  intro quiet waiting
  rw [neutral.pushList] at waiting
  rw [neutral.mark]
  have onlyCaller : ∀ other, s.Resumed other → other ∈ caller := by
    intro other resumed
    by_contra outside
    exact quiet other ((neutral.resumed other).mpr ⟨resumed, outside⟩)
  by_cases anyone : ∃ thread, s.Resumed thread
  · obtain ⟨thread, resumed⟩ := anyone
    refine last thread (onlyCaller thread resumed) resumed ?_ waiting
    intro other ne others
    exact ne (Option.some_inj.mp ((onlyCaller other others).symm.trans (onlyCaller thread resumed)))
  · exact covered (not_exists.mp anyone) waiting

omit [DecidableEq τ] in
/-- The last resumed thread stops, and the mark is clear: the producers are left behind. -/
theorem Neutral.forgets (neutral : Neutral s s' (some thread)) (others : ∀ other ≠ thread, ¬ s.Resumed other)
    (waiting : s.dq.suspendedPushList ≠ []) (clear : s.dq.waitingLwm = false) : ¬ s'.ProducersCovered := by
  intro covered
  have quiet : ∀ other, ¬ s'.Resumed other := by
    intro other resumed
    obtain ⟨before, outside⟩ := (neutral.resumed other).mp resumed
    exact others other (fun same => outside (same ▸ rfl)) before
  have marked := covered quiet (neutral.pushList ▸ waiting)
  rw [neutral.mark, clear] at marked
  cases marked

omit [DecidableEq τ] in
theorem CanCall.not_resumed (can : s.CanCall caller) (member : thread ∈ caller) : ¬ s.Resumed thread := by
  intro resumed
  have idle := (can thread member).2
  rw [Option.isNone_iff_eq_none] at idle
  simp [Resumed, idle] at resumed

/-- What a call behind its `rt_schedule` can do to the producers: nothing, or it is an exception of
`KeepsProducers` or a pop that finds the mark set. -/
theorem Lists.resumeCall_cases (lists : s.Lists) (ready : (s.threads thread).stat = .ready) {call : DqCall α}
    (inCall : s.call thread = some call) :
    (¬ ((s.threads thread).error = .eok ∧
        (∃ item timeout, s.call thread = some { op := .push item, timeout }) ∧
        (s.dq.Full ∨ s.dq.suspendedPopList ≠ [])) ∧ Neutral s (s.resumeCall thread call) (some thread)) ∨
      (((s.threads thread).error = .eok ∧
        (∃ item timeout, s.call thread = some { op := .push item, timeout }) ∧
        (s.dq.Full ∨ s.dq.suspendedPopList ≠ []) ∨ s.dq.waitingLwm = true) ∧
        (s.resumeCall thread call).ProducersCovered) := by
  have isReady : ∀ other ∈ some thread, (s.threads other).stat = .ready := by simpa using ready
  rw [DqState.resumeCall]
  split_ifs with error
  · exact .inl ⟨fun exception => error exception.1, neutral_ret s _ _ _⟩
  · rcases call with ⟨op, timeout⟩
    cases op with
    | push item =>
      rcases lists.pushPass_cases isReady item timeout with ⟨neither, neutral⟩ | ⟨either, covered⟩
      · exact .inl ⟨fun exception => neither exception.2.2, neutral⟩
      · exact .inr ⟨.inl ⟨not_not.mp error, ⟨item, timeout, inCall⟩, either⟩, covered⟩
    | pop =>
      rcases lists.popPass_cases isReady timeout with neutral | ⟨marked, covered⟩
      · refine .inl ⟨?_, neutral⟩
        rintro ⟨-, ⟨item, time, pushes⟩, -⟩
        rw [inCall] at pushes
        cases pushes
      · exact .inr ⟨.inr marked, covered⟩

theorem Lists.covered_step (lists : s.Lists) (covered : s.ProducersCovered) {event : DqEvent τ α}
    (keeps : s.KeepsProducers event) : (s.step event).ProducersCovered := by
  cases event with
  | push caller item timeout =>
    rw [DqState.step]
    split_ifs with can
    · rcases lists.pushPass_cases (fun thread member => (can thread member).1) item timeout with
        ⟨-, neutral⟩ | ⟨-, done⟩
      · exact covered.neutral neutral fun thread member resumed => absurd resumed (CanCall.not_resumed can member)
      · exact done
    · exact covered
  | pop caller timeout =>
    rw [DqState.step]
    split_ifs with can
    · rcases lists.popPass_cases (fun thread member => (can thread member).1) timeout with neutral | ⟨-, done⟩
      · exact covered.neutral neutral fun thread member resumed => absurd resumed (CanCall.not_resumed can member)
      · exact done
    · exact covered
  | peak => exact covered
  | timeout thread =>
    rw [DqState.step]
    split_ifs
    · rcases lists.timeoutCall_cases thread with neutral | done
      · exact covered.neutral neutral (by simp)
      · exact done
    · exact covered
  | wake thread =>
    rw [DqState.step]
    cases inCall : s.call thread with
    | none => exact covered
    | some call =>
      simp only
      split_ifs with ready
      · rcases lists.resumeCall_cases ready inCall with ⟨noException, neutral⟩ | ⟨-, done⟩
        · refine covered.neutral neutral ?_
          intro other member resumed others waiting
          obtain rfl := Option.some_inj.mp member
          by_contra unmarked
          exact noException (keeps resumed others waiting (Bool.eq_false_iff.mpr unmarked))
        · exact done
      · exact covered

/-- An event that the condition excludes leaves the producers behind. -/
theorem Lists.forgets (lists : s.Lists) {event : DqEvent τ α} (breaks : ¬ s.KeepsProducers event) :
    ¬ (s.step event).ProducersCovered := by
  cases event with
  | wake thread =>
    unfold KeepsProducers at breaks
    obtain ⟨resumed, breaks⟩ := Classical.not_imp.mp breaks
    obtain ⟨others, breaks⟩ := Classical.not_imp.mp breaks
    obtain ⟨waiting, breaks⟩ := Classical.not_imp.mp breaks
    obtain ⟨clear, noException⟩ := Classical.not_imp.mp breaks
    obtain ⟨call, inCall⟩ := Option.isSome_iff_exists.mp resumed.1
    rw [DqState.step, inCall]
    simp only [if_pos resumed.2]
    rcases lists.resumeCall_cases resumed.2 inCall with ⟨-, neutral⟩ | ⟨exception | marked, -⟩
    · exact neutral.forgets others waiting clear
    · exact absurd exception noException
    · rw [clear] at marked
      cases marked
  | _ => exact absurd trivial breaks

end

/-- The lists are consistent, and no producer is left behind. -/
structure CoveredInv (s : DqState τ α) : Prop where
  lists : s.Lists
  covered : s.ProducersCovered

omit [DecidableEq τ] in
theorem coveredInv_start (size lwm : BitVec 16) (queue : ℕ → α) (threads : τ → Thread) :
    (start size lwm queue threads).CoveredInv where
  lists := ⟨by simp [start, rtDataQueueInit], by simp [start, rtDataQueueInit], List.nodup_nil, List.nodup_nil⟩
  covered := fun _ waiting => absurd rfl waiting

/-- The producers are covered in every state of exactly the runs in which the last resumed thread
never leaves them behind. -/
theorem producersCovered_iff (size lwm : BitVec 16) (queue : ℕ → α) (threads : τ → Thread)
    (events : List (DqEvent τ α)) :
    Run.Always step ProducersCovered (start size lwm queue threads) events ↔
      Run.Along step KeepsProducers (start size lwm queue threads) events := by
  have keeps : ∀ (s : DqState τ α) (event : DqEvent τ α), s.CoveredInv → s.KeepsProducers event →
      (s.step event).CoveredInv :=
    fun _ _ inv kept => ⟨inv.lists.step _, inv.lists.covered_step inv.covered kept⟩
  exact Run.always_iff_along keeps (fun _ inv => inv.covered) (fun _ _ inv breaks => inv.lists.forgets breaks)
    (coveredInv_start size lwm queue threads) events

def twoItems : DqState Bool ℕ := start 2 1 (fun _ => 0) fun _ => { currentPriority := 10, initPriority := 10 }

/-- Two threads wait for room, and a pop reaches the low-water mark. The first thread stores its item
and returns. -/
def twoProducers : List (DqEvent Bool ℕ) :=
  [.push none 1 0, .push none 2 0, .push (some false) 3 (-1), .push (some true) 4 (-1), .pop none 0, .wake false]

/-- The second thread is still suspended, and `waiting_lwm` is clear. -/
theorem twoProducers_not_covered : ¬ Run.Always step ProducersCovered twoItems twoProducers := by
  intro always
  have quiet : ∀ thread, ¬ (Run.exec step twoItems twoProducers).Resumed thread := by decide
  have waiting : (Run.exec step twoItems twoProducers).dq.suspendedPushList ≠ [] := by decide
  have marked := always.last quiet waiting
  revert marked
  decide

end DqState
end RtThread
