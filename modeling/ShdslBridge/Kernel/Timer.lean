import ShdslBridge.Kernel.Thread
import ShdslBridge.Lib.Run

/-! # Timers: what is linked is activated

A started timer is linked in the timer list, ordered by its timeout, and has the flag
`RT_TIMER_FLAG_ACTIVATED`. The check of a tick unlinks every timer that has expired, calls its
timeout function and then edits the flag. A run interleaves calls and the steps of the check; what
happens between the call of a timeout function and its return is what the function does.

The list and the flags agree in every state of a run exactly as long as no one-shot timer is linked
when its own timeout function returns: the check takes the flag of such a timer away, and
`rt_timer_stop` then refuses to stop it.
-/

namespace RtThread

variable {τ : Type*} [DecidableEq τ]

/-- `RT_TICK_MAX / 2`. -/
def rtTickHalf : BitVec 32 := 0x7fffffff

/-- `struct rt_timer`, with two of the bits of `parent.flag`. -/
structure RtTimer where
  initTick : BitVec 32
  timeoutTick : BitVec 32 := 0
  periodic : Bool
  activated : Bool := false
  deriving DecidableEq, Repr

/-- Where `rt_timer_check` stands: not running, at the head of its loop, or in a timeout function. -/
inductive CheckPhase (τ : Type*)
  | outside
  | checking
  | calling (timer : τ)
  deriving DecidableEq

/-- The commands of `rt_timer_control` that change a timer. -/
inductive TimerControl
  | setTime (tick : BitVec 32)
  | setOneshot
  | setPeriodic

/-- `rt_timer_control`. -/
def rtTimerControl (cmd : TimerControl) (timer : RtTimer) : RtTimer :=
  match cmd with
  | .setTime tick => { timer with initTick := tick }
  | .setOneshot => { timer with periodic := false }
  | .setPeriodic => { timer with periodic := true }

structure TimerState (τ : Type*) where
  rtTick : BitVec 32
  timers : τ → RtTimer
  rtTimerList : List τ
  phase : CheckPhase τ

inductive TimerEvent (τ : Type*)
  | start (timer : τ)
  | stop (timer : τ)
  | control (timer : τ) (cmd : TimerControl)
  | tick
  | check
  | pass
  | ret

/-- Where `rt_timer_start` links a timer: in front of the first one with a later timeout. -/
def insertTimer (timers : τ → RtTimer) (timer : τ) : List τ → List τ
  | [] => [timer]
  | t :: rest =>
    if (timers t).timeoutTick - (timers timer).timeoutTick = 0 then t :: insertTimer timers timer rest
    else if (timers t).timeoutTick - (timers timer).timeoutTick < rtTickHalf then timer :: t :: rest
    else t :: insertTimer timers timer rest

omit [DecidableEq τ] in
@[simp] theorem mem_insertTimer {timers : τ → RtTimer} {timer other : τ} {list : List τ} :
    other ∈ insertTimer timers timer list ↔ other = timer ∨ other ∈ list := by
  induction list with
  | nil => simp [insertTimer]
  | cons t rest ih =>
    simp only [insertTimer]
    split_ifs <;> simp [ih, or_left_comm]

omit [DecidableEq τ] in
theorem nodup_insertTimer {timers : τ → RtTimer} {timer : τ} {list : List τ} (outside : timer ∉ list)
    (distinct : list.Nodup) : (insertTimer timers timer list).Nodup := by
  induction list with
  | nil => simp [insertTimer]
  | cons t rest ih =>
    obtain ⟨notLater, restDistinct⟩ := List.nodup_cons.mp distinct
    have later : timer ∉ rest := fun member => outside (List.mem_cons_of_mem t member)
    have ne : t ≠ timer := fun same => outside (same ▸ List.mem_cons_self)
    have behind : (t :: insertTimer timers timer rest).Nodup :=
      List.nodup_cons.mpr ⟨by simp [ne, notLater], ih later restDistinct⟩
    simp only [insertTimer]
    split_ifs
    · exact behind
    · exact List.nodup_cons.mpr ⟨outside, distinct⟩
    · exact behind

namespace TimerState

def onTimer (s : TimerState τ) (timer : τ) (change : RtTimer → RtTimer) : TimerState τ :=
  { s with timers := Function.update s.timers timer (change (s.timers timer)) }

/-- `_rt_timer_remove`. -/
def rtTimerRemove (s : TimerState τ) (timer : τ) : TimerState τ :=
  { s with rtTimerList := s.rtTimerList.erase timer }

/-- The assertion of `rt_timer_start`. -/
def CanStart (s : TimerState τ) (timer : τ) : Prop := (s.timers timer).initTick < rtTickHalf

instance (s : TimerState τ) (timer : τ) : Decidable (s.CanStart timer) :=
  inferInstanceAs (Decidable (_ < _))

/-- `rt_timer_start`. -/
def rtTimerStart (s : TimerState τ) (timer : τ) : TimerState τ :=
  let s := (s.rtTimerRemove timer).onTimer timer fun t => { t with activated := false }
  let s := s.onTimer timer fun t => { t with timeoutTick := s.rtTick + t.initTick }
  let s := { s with rtTimerList := insertTimer s.timers timer s.rtTimerList }
  s.onTimer timer fun t => { t with activated := true }

/-- `rt_timer_stop`. -/
def rtTimerStop (s : TimerState τ) (timer : τ) : RtErr × TimerState τ :=
  if (s.timers timer).activated = false then (.error, s)
  else (.eok, (s.rtTimerRemove timer).onTimer timer fun t => { t with activated := false })

def Expired (s : TimerState τ) (timer : τ) : Prop := s.rtTick - (s.timers timer).timeoutTick < rtTickHalf

instance (s : TimerState τ) (timer : τ) : Decidable (s.Expired timer) := inferInstanceAs (Decidable (_ < _))

/-- The head of the loop of `rt_timer_check`, up to the call of a timeout function. The tick does
not change while the check runs. -/
def checkPass (s : TimerState τ) : TimerState τ :=
  match s.rtTimerList with
  | [] => { s with phase := .outside }
  | t :: _ =>
    if s.Expired t then { s.rtTimerRemove t with phase := .calling t } else { s with phase := .outside }

/-- The check starts the timer again. -/
def Restarts (s : TimerState τ) (timer : τ) : Prop :=
  (s.timers timer).periodic = true ∧ (s.timers timer).activated = true

instance (s : TimerState τ) (timer : τ) : Decidable (s.Restarts timer) := inferInstanceAs (Decidable (_ ∧ _))

/-- The loop of `rt_timer_check` behind the call of a timeout function. -/
def checkReturn (s : TimerState τ) (timer : τ) : TimerState τ :=
  let stopped := s.onTimer timer fun t => { t with activated := false }
  if s.Restarts timer then { stopped.rtTimerStart timer with phase := .checking }
  else { stopped with phase := .checking }

/-- One event. Nobody but a timeout function calls while the check runs, since it runs with
interrupts disabled. An event that cannot happen in the state changes nothing. -/
def step (s : TimerState τ) : TimerEvent τ → TimerState τ
  | .start timer => if s.phase ≠ .checking ∧ s.CanStart timer then s.rtTimerStart timer else s
  | .stop timer => if s.phase ≠ .checking then (s.rtTimerStop timer).2 else s
  | .control timer cmd => if s.phase ≠ .checking then s.onTimer timer (rtTimerControl cmd) else s
  | .tick => if s.phase = .outside then { s with rtTick := s.rtTick + 1, phase := .checking } else s
  | .check => if s.phase = .outside then { s with phase := .checking } else s
  | .pass => if s.phase = .checking then s.checkPass else s
  | .ret =>
    match s.phase with
    | .calling timer => if s.Restarts timer → s.CanStart timer then s.checkReturn timer else s
    | _ => s

/-- Timers that `rt_timer_init` has set up. -/
def boot (rtTick : BitVec 32) (timers : τ → RtTimer) : TimerState τ where
  rtTick := rtTick
  timers timer := { timers timer with timeoutTick := 0, activated := false }
  rtTimerList := []
  phase := .outside

/-- Outside its own timeout function a timer is linked exactly when it is activated, so that the
timers that would still fire can be stopped. -/
def FlagsAgree (s : TimerState τ) : Prop :=
  ∀ timer, s.phase ≠ .calling timer →
    (timer ∈ s.rtTimerList ↔ (s.timers timer).activated = true) ∧
      (timer ∈ s.rtTimerList → (s.rtTimerStop timer).1 = .eok ∧ timer ∉ (s.rtTimerStop timer).2.rtTimerList)

/-- The event is not the return of the timeout function of a one-shot timer that is linked. -/
def NotLinkedOneshot (s : TimerState τ) : TimerEvent τ → Prop
  | .ret => ∀ timer, s.phase = .calling timer → timer ∈ s.rtTimerList → (s.timers timer).periodic = true
  | _ => True

/-- How the list, the flags and the place of the check belong together. -/
structure Inv (s : TimerState τ) : Prop where
  distinct : s.rtTimerList.Nodup
  linked : ∀ timer, timer ∈ s.rtTimerList → (s.timers timer).activated = true
  activated : ∀ timer, s.phase ≠ .calling timer → (s.timers timer).activated = true → timer ∈ s.rtTimerList

section Lemmas

variable {s : TimerState τ}

@[simp] theorem onTimer_self (s : TimerState τ) (timer : τ) (change : RtTimer → RtTimer) :
    (s.onTimer timer change).timers timer = change (s.timers timer) := by
  simp [onTimer]

@[simp] theorem onTimer_other (s : TimerState τ) {timer other : τ} (ne : other ≠ timer) (change : RtTimer → RtTimer) :
    (s.onTimer timer change).timers other = s.timers other := by
  simp [onTimer, ne]

/-- `rt_timer_start` in one step: the timer is linked anew by its new timeout. -/
theorem rtTimerStart_eq (s : TimerState τ) (timer : τ) :
    s.rtTimerStart timer =
      { s with
        timers := Function.update s.timers timer { s.timers timer with
          timeoutTick := s.rtTick + (s.timers timer).initTick, activated := true }
        rtTimerList := insertTimer
          (Function.update s.timers timer { s.timers timer with
            timeoutTick := s.rtTick + (s.timers timer).initTick, activated := false })
          timer (s.rtTimerList.erase timer) } := by
  simp [rtTimerStart, rtTimerRemove, onTimer]

@[simp] theorem rtTimerStart_phase (s : TimerState τ) (timer : τ) : (s.rtTimerStart timer).phase = s.phase := rfl

@[simp] theorem rtTimerStart_self (s : TimerState τ) (timer : τ) :
    (s.rtTimerStart timer).timers timer =
      { s.timers timer with timeoutTick := s.rtTick + (s.timers timer).initTick, activated := true } := by
  simp [rtTimerStart_eq]

@[simp] theorem rtTimerStart_other (s : TimerState τ) {timer other : τ} (ne : other ≠ timer) :
    (s.rtTimerStart timer).timers other = s.timers other := by
  simp [rtTimerStart_eq, ne]

theorem Inv.mem_rtTimerStart (inv : s.Inv) {timer other : τ} :
    other ∈ (s.rtTimerStart timer).rtTimerList ↔ other = timer ∨ other ∈ s.rtTimerList := by
  rw [rtTimerStart_eq, mem_insertTimer, inv.distinct.mem_erase_iff]
  rcases eq_or_ne other timer with rfl | ne
  · simp
  · simp [ne]

theorem Inv.start (inv : s.Inv) (timer : τ) : (s.rtTimerStart timer).Inv := by
  constructor
  · rw [rtTimerStart_eq]
    exact nodup_insertTimer (fun member => (inv.distinct.mem_erase_iff.mp member).1 rfl) (inv.distinct.erase timer)
  · intro other member
    rcases eq_or_ne other timer with rfl | ne
    · simp
    · rw [rtTimerStart_other s ne]
      exact inv.linked other ((inv.mem_rtTimerStart.mp member).resolve_left ne)
  · intro other elsewhere active
    rw [inv.mem_rtTimerStart]
    rcases eq_or_ne other timer with rfl | ne
    · exact .inl rfl
    · rw [rtTimerStart_other s ne] at active
      exact .inr (inv.activated other elsewhere active)

theorem rtTimerStop_of_activated {timer : τ} (active : (s.timers timer).activated = true) :
    s.rtTimerStop timer = (.eok, (s.rtTimerRemove timer).onTimer timer fun t => { t with activated := false }) := by
  simp [rtTimerStop, active]

theorem Inv.retire (inv : s.Inv) (timer : τ) :
    ((s.rtTimerRemove timer).onTimer timer fun t => { t with activated := false }).Inv := by
  constructor
  · exact inv.distinct.erase timer
  · intro other member
    obtain ⟨ne, linked⟩ := inv.distinct.mem_erase_iff.mp member
    simpa [rtTimerRemove, ne] using inv.linked other linked
  · intro other elsewhere active
    rcases eq_or_ne other timer with rfl | ne
    · simp at active
    · rw [onTimer_other _ ne] at active
      exact inv.distinct.mem_erase_iff.mpr ⟨ne, inv.activated other elsewhere active⟩

theorem Inv.stop (inv : s.Inv) (timer : τ) : (s.rtTimerStop timer).2.Inv := by
  rcases active : (s.timers timer).activated with _ | _
  · simpa [rtTimerStop, active] using inv
  · rw [rtTimerStop_of_activated active]
    exact inv.retire timer

theorem Inv.control (inv : s.Inv) (timer : τ) (cmd : TimerControl) : (s.onTimer timer (rtTimerControl cmd)).Inv := by
  have same (other : τ) : ((s.onTimer timer (rtTimerControl cmd)).timers other).activated =
      (s.timers other).activated := by
    rcases eq_or_ne other timer with rfl | ne
    · cases cmd <;> simp [rtTimerControl]
    · simp [ne]
  refine { distinct := inv.distinct, linked := ?_, activated := ?_ }
  · intro other member
    rw [same]
    exact inv.linked other member
  · intro other elsewhere active
    rw [same] at active
    exact inv.activated other elsewhere active

/-- The head of the loop ends the check, or takes the first timer off the list. -/
theorem checkPass_cases (s : TimerState τ) :
    ((∀ t rest, s.rtTimerList = t :: rest → ¬ s.Expired t) ∧ s.checkPass = { s with phase := .outside }) ∨
      ∃ t rest, s.rtTimerList = t :: rest ∧ s.Expired t ∧
        s.checkPass = { s with rtTimerList := rest, phase := .calling t } := by
  unfold TimerState.checkPass
  split
  · rename_i empty
    exact .inl ⟨by simp [empty], rfl⟩
  · rename_i t rest list
    split
    · rename_i expired
      exact .inr ⟨t, rest, list, expired, by simp [rtTimerRemove, list]⟩
    · rename_i waits
      refine .inl ⟨?_, rfl⟩
      intro first later same
      rwa [← (List.cons.inj (list.symm.trans same)).1]

theorem Inv.checkPass (inv : s.Inv) (atHead : s.phase = .checking) : s.checkPass.Inv := by
  have elsewhere (timer : τ) : s.phase ≠ .calling timer := by simp [atHead]
  obtain ⟨-, settled⟩ | ⟨t, rest, list, -, fires⟩ := s.checkPass_cases
  · rw [settled]
    exact { inv with activated := fun timer _ => inv.activated timer (elsewhere timer) }
  · rw [fires]
    constructor
    · exact (list ▸ inv.distinct).of_cons
    · intro other member
      exact inv.linked other (list ▸ List.mem_cons_of_mem t member)
    · intro other away active
      have ne : other ≠ t := fun same => away (same ▸ rfl)
      have member := inv.activated other (elsewhere other) active
      rw [list] at member
      exact (List.mem_cons.mp member).resolve_left ne

/-- `rt_timer_start` itself begins by clearing the flag. -/
theorem rtTimerStart_of_cleared (s : TimerState τ) (timer : τ) :
    (s.onTimer timer fun t => { t with activated := false }).rtTimerStart timer = s.rtTimerStart timer := by
  simp [rtTimerStart_eq, onTimer]

theorem Inv.checkReturn (inv : s.Inv) {timer : τ} (inside : s.phase = .calling timer)
    (fine : timer ∈ s.rtTimerList → (s.timers timer).periodic = true) : (s.checkReturn timer).Inv := by
  have elsewhere (other : τ) (ne : other ≠ timer) : s.phase ≠ .calling other := by
    rw [inside]
    exact fun same => ne (CheckPhase.calling.inj same).symm
  simp only [TimerState.checkReturn, rtTimerStart_of_cleared]
  split
  · have started := inv.start timer
    refine { started with activated := ?_ }
    intro other _ active
    rcases eq_or_ne other timer with rfl | ne
    · exact inv.mem_rtTimerStart.mpr (.inl rfl)
    · exact started.activated other (elsewhere other ne) active
  · rename_i settled
    have unlinked : timer ∉ s.rtTimerList := fun member => settled ⟨fine member, inv.linked timer member⟩
    constructor
    · exact inv.distinct
    · intro other member
      have ne : other ≠ timer := fun same => unlinked (same ▸ member)
      simpa [ne] using inv.linked other member
    · intro other _ active
      rcases eq_or_ne other timer with rfl | ne
      · simp at active
      · rw [onTimer_other _ ne] at active
        exact inv.activated other (elsewhere other ne) active

theorem Inv.step (inv : s.Inv) {event : TimerEvent τ} (fine : s.NotLinkedOneshot event) : (s.step event).Inv := by
  cases event with
  | start timer =>
    rw [TimerState.step]
    split
    · exact inv.start timer
    · exact inv
  | stop timer =>
    rw [TimerState.step]
    split
    · exact inv.stop timer
    · exact inv
  | control timer cmd =>
    rw [TimerState.step]
    split
    · exact inv.control timer cmd
    · exact inv
  | tick =>
    rw [TimerState.step]
    split
    · rename_i idle
      exact { inv with activated := fun timer _ => inv.activated timer (by simp [idle]) }
    · exact inv
  | check =>
    rw [TimerState.step]
    split
    · rename_i idle
      exact { inv with activated := fun timer _ => inv.activated timer (by simp [idle]) }
    · exact inv
  | pass =>
    rw [TimerState.step]
    split
    · exact inv.checkPass ‹_›
    · exact inv
  | ret =>
    rw [TimerState.step]
    split
    · rename_i timer inside
      split
      · exact inv.checkReturn inside (fine timer inside)
      · exact inv
    · exact inv

theorem Inv.flagsAgree (inv : s.Inv) : s.FlagsAgree := by
  intro timer elsewhere
  refine ⟨⟨inv.linked timer, inv.activated timer elsewhere⟩, fun member => ?_⟩
  rw [rtTimerStop_of_activated (inv.linked timer member)]
  exact ⟨rfl, fun still => (inv.distinct.mem_erase_iff.mp still).1 rfl⟩

/-- The check takes the flag of a one-shot timer that its own timeout function has started. -/
theorem not_flagsAgree_step {event : TimerEvent τ} (oneshot : ¬ s.NotLinkedOneshot event) :
    ¬ (s.step event).FlagsAgree := by
  cases event with
  | ret =>
    obtain ⟨timer, inside, member, once⟩ : ∃ timer, s.phase = .calling timer ∧ timer ∈ s.rtTimerList ∧
        ¬ (s.timers timer).periodic = true := by
      simpa [NotLinkedOneshot] using oneshot
    have settled : ¬ s.Restarts timer := fun restarts => once restarts.1
    intro agree
    have returned : s.step .ret = s.checkReturn timer := by
      simp only [TimerState.step, inside]
      exact if_pos fun restarts => absurd restarts settled
    rw [returned, TimerState.checkReturn, if_neg settled] at agree
    have flag := (agree timer (by simp)).1.mp member
    simp at flag
  | start | stop | control | tick | check | pass => exact absurd trivial oneshot

end Lemmas

omit [DecidableEq τ] in
theorem inv_boot (rtTick : BitVec 32) (timers : τ → RtTimer) : (boot rtTick timers).Inv := by
  constructor <;> simp [boot]

/-- The list and the flags agree in every state of a run exactly as long as no timeout function of
a one-shot timer returns with its timer linked. -/
theorem flagsAgree_iff (rtTick : BitVec 32) (timers : τ → RtTimer) (events : List (TimerEvent τ)) :
    Run.Always step FlagsAgree (boot rtTick timers) events ↔
      Run.Along step NotLinkedOneshot (boot rtTick timers) events := by
  apply Run.always_iff_along _ _ _ (inv_boot rtTick timers)
  · intro s event inv fine
    exact inv.step fine
  · intro s inv
    exact inv.flagsAgree
  · intro s event _ oneshot
    exact not_flagsAgree_step oneshot

/-- A one-shot timer whose timeout function starts it again: it fires, it is linked for the next
tick, and `rt_timer_stop` refuses to stop it. -/
def selfStarting : List (TimerEvent Unit) := [.start (), .tick, .pass, .start (), .ret, .pass]

theorem selfStarting_not_flagsAgree :
    ¬ Run.Always step FlagsAgree (boot 0 fun _ : Unit => { initTick := 1, periodic := false }) selfStarting := by
  intro always
  have linked : () ∈ (Run.exec step (boot 0 fun _ : Unit => { initTick := 1, periodic := false })
      selfStarting).rtTimerList := by decide
  have flag := (always.last () (by decide)).1.mp linked
  revert flag
  decide

/-- The timer that could not be stopped fires at the next tick. -/
example : (Run.exec step (boot 0 fun _ : Unit => { initTick := 1, periodic := false })
    (selfStarting ++ [.stop (), .tick, .pass])).phase = .calling () := by decide

end TimerState

end RtThread
