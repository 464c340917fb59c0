import ShdslBridge.Components.DataQueue

/-! # Interrupts around a data queue

The calls of a data queue mask the interrupts for each pass of their loop and set them back before they
wait, return or call `evt_notify`. A pass is one of `pushPass` and `popPass`. Here it comes with what it
does to the interrupts, on every path and with any callback. Between two passes of a call other threads
and interrupt handlers run, so a call is given the states that its passes find, and they can be any.

A pop that reaches the low-water mark sets the interrupts back only when it resumes a producer.
-/

namespace RtThread

open RtDataQueue

variable {τ : Type*} [DecidableEq τ] {α ι : Type*}

/-- The interrupt state of the processor, and the states in which a call has reached `evt_notify`. -/
structure Interrupts (ι : Type*) where
  level : ι
  notified : List ι
  deriving DecidableEq

namespace Interrupts

/-- `rt_hw_interrupt_disable`: the state so far, and the processor with masked interrupts. -/
def rtHwInterruptDisable (masked : ι) (cpu : Interrupts ι) : ι × Interrupts ι :=
  (cpu.level, { cpu with level := masked })

/-- `rt_hw_interrupt_enable`. -/
def rtHwInterruptEnable (cpu : Interrupts ι) (level : ι) : Interrupts ι := { cpu with level }

/-- A function of the kernel that masks the interrupts and sets them back: `rt_thread_suspend`,
`rt_thread_resume`, `rt_timer_control`, `rt_timer_start`, `rt_schedule` and the pair around a critical
section. -/
def kernelCall (masked : ι) (cpu : Interrupts ι) : Interrupts ι :=
  let (level, cpu) := cpu.rtHwInterruptDisable masked
  cpu.rtHwInterruptEnable level

/-- The call of `evt_notify`, if there is a callback; it can change the interrupt state. -/
def evtNotify (callback : Option (ι → ι)) (cpu : Interrupts ι) : Interrupts ι :=
  match callback with
  | none => cpu
  | some change => { level := change cpu.level, notified := cpu.notified ++ [cpu.level] }

/-- The label `__exit` of a push and of a pop. -/
def exit (callback : Option (ι → ι)) (cpu : Interrupts ι) (level : ι) (result : RtErr) : Interrupts ι :=
  let cpu := cpu.rtHwInterruptEnable level
  if result = .eok then cpu.evtNotify callback else cpu

/-- The interrupt state of the call is back: nothing has changed it, or it was back when the callback was
called, and the callback has changed it. -/
def Restored (callback : Option (ι → ι)) (level : ι) (cpu : Interrupts ι) : Prop :=
  cpu = ⟨level, []⟩ ∨ ∃ change ∈ callback, cpu = ⟨change level, [level]⟩

@[simp] theorem kernelCall_eq (masked : ι) (cpu : Interrupts ι) : cpu.kernelCall masked = cpu := rfl

theorem restored_evtNotify (callback : Option (ι → ι)) (level : ι) :
    Restored callback level (evtNotify callback ⟨level, []⟩) := by
  cases callback with
  | none => exact .inl rfl
  | some change => exact .inr ⟨change, rfl, rfl⟩

/-- A call that has not notified anyone leaves by `__exit`. -/
theorem restored_exit (callback : Option (ι → ι)) (before level : ι) (result : RtErr) :
    Restored callback level (exit callback ⟨before, []⟩ level result) := by
  rw [exit]
  split
  · exact restored_evtNotify callback level
  · exact .inl rfl

theorem restored_evtNotify_iff (callback : Option (ι → ι)) (masked level : ι) :
    Restored callback level (evtNotify callback ⟨masked, []⟩) ↔ level = masked := by
  constructor
  · intro restored
    cases callback with
    | none =>
      rcases restored with same | ⟨change, none_, -⟩
      · exact (congrArg Interrupts.level same).symm
      · cases none_
    | some change =>
      rcases restored with same | ⟨change', -, same⟩
      · cases congrArg Interrupts.notified same
      · have notified : [masked] = [level] := congrArg Interrupts.notified same
        exact (List.singleton_inj.mp notified).symm
  · rintro rfl
    exact restored_evtNotify callback level

end Interrupts

/-- How a pass ends: the call returns, its thread is back from `rt_schedule`, or an interrupt handler
stops at the check of its context. -/
inductive PassEnd (τ α ι : Type*)
  | returned (cpu : Interrupts ι) (s : DqState τ α)
  | waited (thread : τ) (cpu : Interrupts ι)
  | stopped

namespace DqState

open Interrupts

variable (masked : ι) (callback : Option (ι → ι))

def waitEnd (caller : Option τ) (cpu : Interrupts ι) (level : ι) : PassEnd τ α ι :=
  match caller with
  | none => .stopped
  | some thread => .waited thread (((cpu.kernelCall masked).rtHwInterruptEnable level).kernelCall masked)

/-- `pushPass` with the interrupts. -/
def pushInterrupts (caller : Option τ) (item : α) (timeout : ℤ) (cpu : Interrupts ι) (level : ι)
    (s : DqState τ α) : PassEnd τ α ι :=
  if s.dq.Full then
    if timeout = 0 then .returned (cpu.exit callback level .etimeout) (s.pushPass caller item timeout)
    else waitEnd masked caller cpu level
  else if s.dq.suspendedPopList ≠ [] then
    .returned (((cpu.kernelCall masked).rtHwInterruptEnable level).kernelCall masked)
      (s.pushPass caller item timeout)
  else .returned (cpu.exit callback level .eok) (s.pushPass caller item timeout)

/-- `popPass` with the interrupts. -/
def popInterrupts (caller : Option τ) (timeout : ℤ) (cpu : Interrupts ι) (level : ι) (s : DqState τ α) :
    PassEnd τ α ι :=
  if s.dq.Empty then
    if timeout = 0 then .returned (cpu.exit callback level .etimeout) (s.popPass caller timeout)
    else waitEnd masked caller cpu level
  else if s.dq.waitingLwm = true ∧ s.dq.advance.Low then
    let cpu :=
      if s.dq.suspendedPushList ≠ [] then ((cpu.kernelCall masked).rtHwInterruptEnable level).kernelCall masked
      else cpu
    .returned (cpu.evtNotify callback) (s.popPass caller timeout)
  else .returned (cpu.exit callback level .eok) (s.popPass caller timeout)

/-- A call from a pass on, with the states found behind each `rt_schedule`. A call that does not get the
processor again, or stops, is `none`. -/
def callFrom (pass : Interrupts ι → ι → DqState τ α → PassEnd τ α ι) (cpu : Interrupts ι) (level : ι)
    (s : DqState τ α) : List (DqState τ α) → Option (Interrupts ι × DqState τ α)
  | [] =>
    match pass cpu level s with
    | .returned cpu s => some (cpu, s)
    | _ => none
  | found :: later =>
    match pass cpu level s with
    | .returned cpu s => some (cpu, s)
    | .stopped => none
    | .waited thread cpu =>
      let result := (found.threads thread).error
      let (level, cpu) := cpu.rtHwInterruptDisable masked
      if result ≠ .eok then some (cpu.exit callback level result, found.ret (some thread) result false)
      else callFrom pass cpu level found later

/-- `rt_data_queue_peak` with the interrupts. -/
def peakInterrupts (cpu : Interrupts ι) (s : DqState τ α) : Option α × Interrupts ι :=
  let (level, cpu) := cpu.rtHwInterruptDisable masked
  (s.dq.rtDataQueuePeak, cpu.rtHwInterruptEnable level)

/-- One of the loops of `rt_data_queue_reset`, with the states that its tests find, and the states left
over. -/
def resetLoop (suspended : RtDataQueue τ α → List τ) (cpu : Interrupts ι) :
    List (DqState τ α) → Option (Interrupts ι × List (DqState τ α))
  | [] => none
  | s :: later =>
    match suspended s.dq with
    | [] => some (cpu, later)
    | _ :: _ =>
      let (temp, cpu) := cpu.rtHwInterruptDisable masked
      resetLoop suspended ((cpu.kernelCall masked).rtHwInterruptEnable temp) later

/-- `rt_data_queue_reset` with the interrupts. -/
def resetInterrupts (cpu : Interrupts ι) (found : List (DqState τ α)) : Option (Interrupts ι) :=
  let cpu := cpu.kernelCall masked
  match resetLoop masked suspendedPopList cpu found with
  | none => none
  | some (cpu, later) =>
    match resetLoop masked suspendedPushList cpu later with
    | none => none
    | some (cpu, _) => some ((cpu.kernelCall masked).kernelCall masked)

end DqState

/-- The four calls. -/
inductive DqRequest (τ α : Type*)
  | push (caller : Option τ) (item : α) (timeout : ℤ)
  | pop (caller : Option τ) (timeout : ℤ)
  | peak
  | reset

namespace DqState

open Interrupts

section

variable (masked : ι) (callback : Option (ι → ι))

def interruptsAfter (request : DqRequest τ α) (level : ι) (s : DqState τ α) (found : List (DqState τ α)) :
    Option (Interrupts ι) :=
  match request with
  | .push caller item timeout =>
    let (level, cpu) := rtHwInterruptDisable masked ⟨level, []⟩
    (callFrom masked callback (pushInterrupts masked callback caller item timeout) cpu level s found).map Prod.fst
  | .pop caller timeout =>
    let (level, cpu) := rtHwInterruptDisable masked ⟨level, []⟩
    (callFrom masked callback (popInterrupts masked callback caller timeout) cpu level s found).map Prod.fst
  | .peak => some (peakInterrupts masked ⟨level, []⟩ s).2
  | .reset => resetInterrupts masked ⟨level, []⟩ (s :: found)

end

/-- The pop takes an item without reaching the low-water mark while no producer waits. -/
def ResumesAtLwm (dq : RtDataQueue τ α) : Prop := dq.waitingLwm = true → dq.advance.Low → dq.suspendedPushList ≠ []

/-- The state in which a pop takes its item, if it takes one, is `good`. -/
def TakesFrom (good : RtDataQueue τ α → Prop) (caller : Option τ) (timeout : ℤ) (s : DqState τ α) :
    List (DqState τ α) → Prop
  | [] => s.dq.Empty ∨ good s.dq
  | found :: later =>
    if s.dq.Empty then
      timeout ≠ 0 → ∀ thread ∈ caller, (found.threads thread).error = .eok →
        TakesFrom good caller timeout found later
    else good s.dq

/-- No pop reaches the low-water mark without a producer to resume, unless the interrupts were masked
already. -/
def SetsBack (masked level : ι) (s : DqState τ α) (found : List (DqState τ α)) : DqRequest τ α → Prop
  | .pop caller timeout => TakesFrom (fun dq => ResumesAtLwm dq ∨ level = masked) caller timeout s found
  | _ => True

variable {masked level : ι} {callback : Option (ι → ι)}

variable {caller : Option τ} {cpu : Interrupts ι} {s : DqState τ α} {found : List (DqState τ α)}

omit [DecidableEq τ] in
theorem waitEnd_waited {before : ι} {thread : τ}
    (waited : waitEnd (α := α) masked caller ⟨before, []⟩ level = .waited thread cpu) :
    thread ∈ caller ∧ cpu = ⟨level, []⟩ := by
  cases caller with
  | none => cases waited
  | some other =>
    cases waited
    exact ⟨rfl, rfl⟩

omit [DecidableEq τ] in
theorem waitEnd_not_returned {before : ι} : waitEnd masked caller ⟨before, []⟩ level ≠ .returned cpu s := by
  cases caller <;> exact nofun

theorem pushInterrupts_spec (masked : ι) (callback : Option (ι → ι)) (level : ι) (caller : Option τ) (item : α)
    (timeout : ℤ) (s : DqState τ α) :
    (∀ cpu s', pushInterrupts masked callback caller item timeout ⟨masked, []⟩ level s = .returned cpu s' →
      cpu.Restored callback level) ∧
    ∀ thread cpu, pushInterrupts masked callback caller item timeout ⟨masked, []⟩ level s = .waited thread cpu →
      cpu = ⟨level, []⟩ := by
  rw [pushInterrupts]
  split
  · split
    · refine ⟨?_, nofun⟩
      rintro cpu s' ⟨⟩
      exact restored_exit callback masked level _
    · exact ⟨fun _ _ returned => absurd returned waitEnd_not_returned, fun _ _ waited => (waitEnd_waited waited).2⟩
  · split
    · refine ⟨?_, nofun⟩
      rintro cpu s' ⟨⟩
      exact .inl rfl
    · refine ⟨?_, nofun⟩
      rintro cpu s' ⟨⟩
      exact restored_exit callback masked level _

theorem popInterrupts_empty (masked : ι) (callback : Option (ι → ι)) (level : ι) (empty : s.dq.Empty)
    (caller : Option τ) (timeout : ℤ) :
    (∀ cpu s', popInterrupts masked callback caller timeout ⟨masked, []⟩ level s = .returned cpu s' →
      timeout = 0 ∧ cpu.Restored callback level) ∧
    ∀ thread cpu, popInterrupts masked callback caller timeout ⟨masked, []⟩ level s = .waited thread cpu →
      timeout ≠ 0 ∧ thread ∈ caller ∧ cpu = ⟨level, []⟩ := by
  rw [popInterrupts, if_pos empty]
  split
  · rename_i zero
    refine ⟨?_, nofun⟩
    rintro cpu s' ⟨⟩
    exact ⟨zero, restored_exit callback masked level _⟩
  · rename_i waits
    refine ⟨fun _ _ returned => absurd returned waitEnd_not_returned, fun _ _ waited => ⟨waits, ?_⟩⟩
    exact waitEnd_waited waited

theorem popInterrupts_takes (masked : ι) (callback : Option (ι → ι)) (level : ι) (notEmpty : ¬ s.dq.Empty)
    (caller : Option τ) (timeout : ℤ) :
    ∃ cpu, popInterrupts masked callback caller timeout ⟨masked, []⟩ level s =
        .returned cpu (s.popPass caller timeout) ∧
      (cpu.Restored callback level ↔ ResumesAtLwm s.dq ∨ level = masked) := by
  rw [popInterrupts, if_neg notEmpty]
  split
  · rename_i low
    by_cases none_ : s.dq.suspendedPushList = []
    · refine ⟨_, rfl, ?_⟩
      simp only [none_, ne_eq, not_true_eq_false, if_false]
      rw [restored_evtNotify_iff]
      constructor
      · exact Or.inr
      · rintro (resumes | same)
        · exact absurd none_ (resumes low.1 low.2)
        · exact same
    · refine ⟨_, rfl, iff_of_true ?_ (.inl fun _ _ => none_)⟩
      simp only [ne_eq, none_, not_false_eq_true, if_true]
      exact restored_evtNotify callback level
  · rename_i high
    refine ⟨_, rfl, iff_of_true (restored_exit callback masked level _) (.inl ?_)⟩
    exact fun waiting low => absurd ⟨waiting, low⟩ high

theorem callFrom_push {item : α} {timeout : ℤ} {s s' : DqState τ α}
    (returned : callFrom masked callback (pushInterrupts masked callback caller item timeout) ⟨masked, []⟩ level s found = some (cpu, s')) :
    cpu.Restored callback level := by
  induction found generalizing s with
  | nil =>
    obtain ⟨returns, -⟩ := pushInterrupts_spec masked callback level caller item timeout s
    rw [callFrom] at returned
    split at returned
    · rename_i pass
      cases returned
      exact returns _ _ pass
    · cases returned
  | cons next later ih =>
    obtain ⟨returns, waits⟩ := pushInterrupts_spec masked callback level caller
      item timeout s
    rw [callFrom] at returned
    split at returned
    · rename_i pass
      cases returned
      exact returns _ _ pass
    · cases returned
    · rename_i thread behind pass
      obtain rfl := waits _ _ pass
      dsimp only [rtHwInterruptDisable] at returned
      split at returned
      · cases returned
        exact restored_exit callback masked level _
      · exact ih returned

/-- A pop sets the interrupts back exactly if it is not the one that reaches the low-water mark with no
producer to resume. -/
theorem callFrom_pop {timeout : ℤ} {s s' : DqState τ α}
    (returned : callFrom masked callback (popInterrupts masked callback caller timeout) ⟨masked, []⟩ level s found = some (cpu, s'))
    :
    cpu.Restored callback level ↔
      TakesFrom (fun dq => ResumesAtLwm dq ∨ level = masked) caller timeout s found := by
  induction found generalizing s with
  | nil =>
    rw [callFrom] at returned
    rw [TakesFrom]
    by_cases empty : s.dq.Empty
    · obtain ⟨returns, -⟩ := popInterrupts_empty masked callback level empty caller timeout
      split at returned
      · rename_i pass
        cases returned
        exact iff_of_true (returns _ _ pass).2 (.inl empty)
      · cases returned
    · obtain ⟨behind, pass, restored⟩ := popInterrupts_takes masked callback level empty caller timeout
      rw [pass] at returned
      cases returned
      rw [restored, or_iff_right empty]
  | cons next later ih =>
    rw [callFrom] at returned
    rw [TakesFrom]
    by_cases empty : s.dq.Empty
    · obtain ⟨returns, waits⟩ := popInterrupts_empty masked callback level empty
        caller timeout
      rw [if_pos empty]
      split at returned
      · rename_i pass
        cases returned
        obtain ⟨zero, restored⟩ := returns _ _ pass
        exact iff_of_true restored fun waits => absurd zero waits
      · cases returned
      · rename_i thread behind pass
        obtain ⟨waiting, member, rfl⟩ := waits _ _ pass
        dsimp only [rtHwInterruptDisable] at returned
        split at returned
        · rename_i failed
          cases returned
          refine iff_of_true (restored_exit callback masked level _) ?_
          intro _ other isCaller noError
          rw [Option.mem_unique isCaller member] at noError
          exact absurd noError failed
        · rename_i fine
          rw [ih returned]
          constructor
          · exact fun takes _ _ _ _ => takes
          · exact fun takes => takes waiting thread member (not_not.mp fine)
    · obtain ⟨behind, pass, restored⟩ := popInterrupts_takes masked callback level empty caller timeout
      rw [pass] at returned
      cases returned
      rw [restored, if_neg empty]

omit [DecidableEq τ] in
theorem resetLoop_eq {suspended : RtDataQueue τ α → List τ} {cpu cpu' : Interrupts ι}
    {found later : List (DqState τ α)} (ended : resetLoop masked suspended cpu found = some (cpu', later)) :
    cpu' = cpu := by
  induction found with
  | nil => cases ended
  | cons s rest ih =>
    rw [resetLoop] at ended
    split at ended
    · cases ended
      rfl
    · exact ih ended

omit [DecidableEq τ] in
theorem resetInterrupts_eq {cpu cpu' : Interrupts ι} (ended : resetInterrupts masked cpu found = some cpu') :
    cpu' = cpu := by
  rw [resetInterrupts] at ended
  split at ended
  · cases ended
  · rename_i first
    split at ended
    · cases ended
    · rename_i second
      cases ended
      exact (resetLoop_eq second).trans (resetLoop_eq first)

/-- Every return of the four calls leaves the interrupts as they were, and calls `evt_notify` in this
state, exactly when no pop reaches the low-water mark without a producer to resume, or when the
interrupts were masked at the call. -/
theorem interruptsAfter_restored_iff (request : DqRequest τ α) (s : DqState τ α) (found : List (DqState τ α))
    {cpu : Interrupts ι} (returned : interruptsAfter masked callback request level s found = some cpu) :
    cpu.Restored callback level ↔ SetsBack masked level s found request := by
  cases request with
  | push caller item timeout =>
    obtain ⟨⟨behind, s'⟩, call, rfl⟩ := Option.map_eq_some_iff.mp returned
    exact iff_of_true (callFrom_push call) trivial
  | pop caller timeout =>
    obtain ⟨⟨behind, s'⟩, call, rfl⟩ := Option.map_eq_some_iff.mp returned
    exact callFrom_pop call
  | peak =>
    cases returned
    exact iff_of_true (.inl rfl) trivial
  | reset => exact iff_of_true (.inl (resetInterrupts_eq returned)) trivial

def marked : DqState Unit ℕ := Run.exec step oneItem [.push none 7 0, .push none 8 0]

theorem interruptsAfter_restored_iff_marked :
    Restored (some id) false ⟨true, [true]⟩ ↔ SetsBack true false marked [] (.pop none 0) :=
  interruptsAfter_restored_iff (.pop none 0) marked [] (by decide)

/-- The pop of this item notifies with masked interrupts and leaves them masked. -/
theorem marked_not_restored :
    interruptsAfter true (some id) (.pop none 0) false marked [] = some ⟨true, [true]⟩ ∧
      ¬ Restored (some id) false ⟨true, [true]⟩ := by
  refine ⟨by decide, ?_⟩
  rintro (same | ⟨change, -, same⟩)
  · cases congrArg Interrupts.notified same
  · cases congrArg Interrupts.notified same

end DqState

end RtThread
