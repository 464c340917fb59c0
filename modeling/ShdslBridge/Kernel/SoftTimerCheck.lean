import ShdslBridge.Kernel.TimerCheck

/-! # The check of the soft timers

`rt_soft_timer_check` walks over the list of the soft timers and keeps the node behind the current one in
a variable while the timeout function runs. The function can start and stop timers, and so can other
threads, since the scheduler is not locked then. A node that `rt_timer_stop` has taken off the list points
to itself.

If the node in the variable is stopped, the loop goes on with it: it calls the function of a timer that is
not in the list, and finds the same node behind it. Two periodic timers that the loop starts again and that
expire before it has reached them again, because their period is zero or because the functions take so long,
are linked behind each other again and again. In every run in which neither happens, the functions that are
called are those of listed timers, and each check ends.
-/

namespace RtThread

variable {τ : Type*} [DecidableEq τ]

/-- The node behind a timer of a list; `none` is the head of the list. -/
def nodeBehind (timer : τ) : List τ → Option τ
  | [] => none
  | t :: rest => if t = timer then rest.head? else nodeBehind timer rest

/-- `next` of the node of a timer. -/
def nodeNext (list : List τ) (timer : τ) : Option τ :=
  if timer ∈ list then nodeBehind timer list else some timer

theorem nodeBehind_mem {list : List τ} (distinct : list.Nodup) {timer next : τ}
    (behind : nodeBehind timer list = some next) : next ∈ list ∧ next ≠ timer := by
  induction list with
  | nil => cases behind
  | cons t rest ih =>
    obtain ⟨outside, later⟩ := List.nodup_cons.mp distinct
    rw [nodeBehind] at behind
    split at behind
    · rename_i same
      have member : next ∈ rest := List.mem_of_mem_head? behind
      refine ⟨List.mem_cons_of_mem t member, ?_⟩
      rintro rfl
      exact outside (same ▸ member)
    · obtain ⟨member, ne⟩ := ih later behind
      exact ⟨List.mem_cons_of_mem t member, ne⟩

omit [DecidableEq τ] in
theorem insertTimer_perm (timers : τ → RtTimer) (timer : τ) (list : List τ) :
    (insertTimer timers timer list).Perm (timer :: list) := by
  induction list with
  | nil => exact List.Perm.refl _
  | cons t rest ih =>
    have behind : (t :: insertTimer timers timer rest).Perm (timer :: t :: rest) :=
      (ih.cons t).trans (List.Perm.swap timer t rest)
    rw [insertTimer]
    split_ifs
    · exact behind
    · exact List.Perm.refl _
    · exact behind

/-- The soft timers, with `rt_soft_timer_list` as their list, the variables of `rt_soft_timer_check`, and a
record of its last call. -/
structure SoftTimers (τ : Type*) where
  base : TimerState τ
  /-- The node to go on with; `none` is the head of the list. -/
  n : Option τ
  currentTick : BitVec 32
  /-- The timers that the check has started again, and that nobody has started since. -/
  restarted : List τ
  /-- The last of them that it has called. -/
  again : Option τ

inductive SoftEvent (τ : Type*)
  | start (timer : τ)
  | stop (timer : τ)
  | tick
  | check
  | pass
  | ret

namespace SoftTimers

/-- The loop takes the timer for expired. -/
def Due (s : SoftTimers τ) (timer : τ) : Prop := s.currentTick - (s.base.timers timer).timeoutTick < rtTickHalf

instance (s : SoftTimers τ) (timer : τ) : Decidable (s.Due timer) := inferInstanceAs (Decidable (_ < _))

/-- The beginning of `rt_soft_timer_check`. -/
def enter (s : SoftTimers τ) : SoftTimers τ :=
  { base := { s.base with phase := .checking }, n := s.base.rtTimerList.head?, currentTick := s.base.rtTick
    restarted := [], again := none }

/-- The head of the loop, up to the call of a timeout function. -/
def checkPass (s : SoftTimers τ) : SoftTimers τ :=
  match s.n with
  | none => { s with base := { s.base with phase := .outside } }
  | some t =>
    if s.Due t then
      { s with
        base := { s.base.rtTimerRemove t with phase := .calling t }
        n := nodeNext s.base.rtTimerList t
        again := if t ∈ s.restarted then some t else s.again }
    else { s with base := { s.base with phase := .outside } }

/-- The loop behind the call of a timeout function. -/
def checkReturn (s : SoftTimers τ) (timer : τ) : SoftTimers τ :=
  { s with
    base := s.base.checkReturn timer
    currentTick := s.base.rtTick
    restarted := if s.base.Restarts timer then timer :: s.restarted else s.restarted }

/-- One event. While the loop has the scheduler locked, nobody starts or stops timers. The assertion of
`rt_timer_start` stops the caller. An event that cannot happen in the state changes nothing. -/
def step (s : SoftTimers τ) : SoftEvent τ → SoftTimers τ
  | .start timer =>
    if s.base.phase ≠ .checking ∧ s.base.CanStart timer then
      { s with base := s.base.rtTimerStart timer, restarted := s.restarted.filter (· ≠ timer) }
    else s
  | .stop timer => if s.base.phase ≠ .checking then { s with base := (s.base.rtTimerStop timer).2 } else s
  | .tick => { s with base := { s.base with rtTick := s.base.rtTick + 1 } }
  | .check => if s.base.phase = .outside then s.enter else s
  | .pass => if s.base.phase = .checking then s.checkPass else s
  | .ret =>
    match s.base.phase with
    | .calling timer => if s.base.Restarts timer → s.base.CanStart timer then s.checkReturn timer else s
    | _ => s

/-- Soft timers that `rt_timer_init` has set up. -/
def boot (rtTick : BitVec 32) (timers : τ → RtTimer) : SoftTimers τ :=
  { base := .boot rtTick timers, n := none, currentTick := rtTick, restarted := [], again := none }

/-- A function that is called is one of a listed timer. -/
def CallsListed (s : SoftTimers τ) : SoftEvent τ → Prop
  | .pass => s.base.phase = .checking → ∀ timer ∈ s.n, s.Due timer → timer ∈ s.base.rtTimerList
  | _ => True

/-- A function returns with the next node in the list, or with a timer there that has not expired. -/
def Untouched (s : SoftTimers τ) : SoftEvent τ → Prop
  | .ret => ∀ timer, s.base.phase = .calling timer → ∀ next ∈ s.n, next ∈ s.base.rtTimerList ∨ ¬ s.base.Expired next
  | _ => True

instance [Fintype τ] (s : SoftTimers τ) : (event : SoftEvent τ) → Decidable (s.Untouched event)
  | .ret => inferInstanceAs (Decidable (∀ timer, s.base.phase = .calling timer →
      ∀ next ∈ s.n, next ∈ s.base.rtTimerList ∨ ¬ s.base.Expired next))
  | .start _ | .stop _ | .tick | .check | .pass => isTrue trivial

/-- Nobody starts a timer, and if the loop finds one that it has started again expired, it is the one that
it has found so before. -/
def Settled (s : SoftTimers τ) : SoftEvent τ → Prop
  | .start _ => False
  | .pass => s.base.phase = .checking → ∀ timer ∈ s.n, s.Due timer → timer ∈ s.restarted → ∀ last ∈ s.again, last = timer
  | _ => True

/-- In each check there is a step from which on the steps are settled, as long as the check lasts. -/
def SettlesInChecks (states : ℕ → SoftTimers τ) (events : ℕ → SoftEvent τ) : Prop :=
  ∀ k, ∃ m ≥ k, ∀ j ≥ m, (∀ i ≥ m, i ≤ j → (states i).base.phase ≠ .outside) → (states j).Settled (events j)

/-- The loop gets its turns, and the functions return. -/
def Fair (events : ℕ → SoftEvent τ) : Prop := ∀ k, (∃ j ≥ k, events j = .pass) ∧ ∃ j ≥ k, events j = .ret

/-- What the calls and the loop keep. -/
structure Inv (s : SoftTimers τ) : Prop where
  distinct : s.base.rtTimerList.Nodup
  canStart : ∀ timer, (s.base.timers timer).activated = true → s.base.CanStart timer
  cursor : s.base.phase = .checking → ∀ next ∈ s.n, next ∈ s.base.rtTimerList ∨ ¬ s.Due next

section Steps

variable {s : SoftTimers τ}

theorem Inv.start (inv : s.Inv) {timer : τ} (elsewhere : s.base.phase ≠ .checking)
    (canStart : s.base.CanStart timer) (restarted : List τ) :
    Inv { s with base := s.base.rtTimerStart timer, restarted } := by
  refine ⟨?_, ?_, fun inside => absurd inside elsewhere⟩
  · rw [TimerState.rtTimerStart_eq]
    exact nodup_insertTimer (fun still => (inv.distinct.mem_erase_iff.mp still).1 rfl) (inv.distinct.erase timer)
  · intro other active
    rw [TimerState.CanStart]
    rcases eq_or_ne other timer with rfl | ne
    · rw [TimerState.rtTimerStart_self]
      exact canStart
    · rw [TimerState.rtTimerStart_other s.base ne] at active ⊢
      exact inv.canStart other active

theorem Inv.stop (inv : s.Inv) (timer : τ) (elsewhere : s.base.phase ≠ .checking) :
    Inv { s with base := (s.base.rtTimerStop timer).2 } := by
  rw [TimerState.rtTimerStop]
  split
  · exact inv
  · refine ⟨inv.distinct.erase timer, ?_, fun inside => absurd inside elsewhere⟩
    intro other active
    rw [TimerState.CanStart]
    rcases eq_or_ne other timer with rfl | ne
    · simp at active
    · rw [TimerState.onTimer_other _ ne] at active ⊢
      exact inv.canStart other active

omit [DecidableEq τ] in
theorem Inv.enter (inv : s.Inv) : s.enter.Inv :=
  ⟨inv.distinct, inv.canStart, fun _ _ head => .inl (List.mem_of_mem_head? head)⟩

theorem Inv.checkPass (inv : s.Inv) : s.checkPass.Inv := by
  rw [SoftTimers.checkPass]
  split
  · exact ⟨inv.distinct, inv.canStart, nofun⟩
  · split
    · exact ⟨inv.distinct.erase _, inv.canStart, nofun⟩
    · exact ⟨inv.distinct, inv.canStart, nofun⟩

theorem mem_checkReturn (distinct : s.base.rtTimerList.Nodup) (timer : τ) {other : τ} :
    other ∈ (s.checkReturn timer).base.rtTimerList ↔
      s.base.Restarts timer ∧ other = timer ∨ other ∈ s.base.rtTimerList := by
  rw [checkReturn]
  by_cases restarts : s.base.Restarts timer
  · rw [TimerState.checkReturn_restarts restarts]
    change other ∈ insertTimer _ timer (s.base.rtTimerList.erase timer) ↔ _
    rw [mem_insertTimer, distinct.mem_erase_iff]
    rcases eq_or_ne other timer with rfl | ne
    · simp [restarts]
    · simp [restarts, ne]
  · rw [TimerState.checkReturn_settles restarts]
    simp [restarts, TimerState.onTimer]

theorem checkReturn_other (s : SoftTimers τ) {timer other : τ} (ne : other ≠ timer) :
    (s.checkReturn timer).base.timers other = s.base.timers other := by
  rw [checkReturn]
  by_cases restarts : s.base.Restarts timer
  · rw [TimerState.checkReturn_restarts restarts]
    exact Function.update_of_ne ne _ _
  · rw [TimerState.checkReturn_settles restarts]
    exact Function.update_of_ne ne _ _

theorem checkReturn_self (s : SoftTimers τ) (timer : τ) :
    ((s.checkReturn timer).base.timers timer).initTick = (s.base.timers timer).initTick ∧
      (((s.checkReturn timer).base.timers timer).activated = true → s.base.Restarts timer) := by
  rw [checkReturn]
  by_cases restarts : s.base.Restarts timer
  · rw [TimerState.checkReturn_restarts restarts]
    simp [restarts]
  · rw [TimerState.checkReturn_settles restarts]
    simp

theorem checkReturn_phase (s : SoftTimers τ) (timer : τ) : (s.checkReturn timer).base.phase = .checking := by
  rw [checkReturn, TimerState.checkReturn]
  split <;> rfl

theorem checkReturn_distinct (distinct : s.base.rtTimerList.Nodup) (timer : τ) :
    (s.checkReturn timer).base.rtTimerList.Nodup := by
  rw [checkReturn]
  by_cases restarts : s.base.Restarts timer
  · rw [TimerState.checkReturn_restarts restarts]
    exact nodup_insertTimer (fun still => (distinct.mem_erase_iff.mp still).1 rfl) (distinct.erase timer)
  · rw [TimerState.checkReturn_settles restarts]
    exact distinct

/-- A timer that has not expired at the return is listed or not due behind it. -/
theorem checkReturn_due (distinct : s.base.rtTimerList.Nodup) (timer : τ) {next : τ}
    (fine : next ∈ s.base.rtTimerList ∨ ¬ s.base.Expired next) :
    next ∈ (s.checkReturn timer).base.rtTimerList ∨ ¬ (s.checkReturn timer).Due next := by
  rw [mem_checkReturn distinct]
  rcases fine with member | waits
  · exact .inl (.inr member)
  · by_cases restarts : s.base.Restarts timer ∧ next = timer
    · exact .inl (.inl restarts)
    · right
      have same : ((s.checkReturn timer).base.timers next).timeoutTick = (s.base.timers next).timeoutTick := by
        rcases eq_or_ne next timer with rfl | ne
        · rw [checkReturn, TimerState.checkReturn_settles fun again => restarts ⟨again, rfl⟩]
          simp
        · rw [checkReturn_other s ne]
      rw [Due, same]
      exact waits

theorem Inv.checkReturn (inv : s.Inv) {timer : τ} (inside : s.base.phase = .calling timer)
    (untouched : s.Untouched .ret) : (s.checkReturn timer).Inv := by
  refine ⟨checkReturn_distinct inv.distinct timer, ?_, ?_⟩
  · intro other active
    rw [TimerState.CanStart]
    rcases eq_or_ne other timer with rfl | ne
    · obtain ⟨same, again⟩ := checkReturn_self s other
      rw [same]
      exact inv.canStart other (again active).2
    · rw [checkReturn_other s ne] at active ⊢
      exact inv.canStart other active
  · intro _ next here
    exact checkReturn_due inv.distinct timer (untouched timer inside next here)

theorem Inv.step (inv : s.Inv) {event : SoftEvent τ} (untouched : s.Untouched event) : (s.step event).Inv := by
  cases event with
  | start timer =>
    rw [SoftTimers.step]
    split
    · rename_i call
      exact inv.start call.1 call.2 _
    · exact inv
  | stop timer =>
    rw [SoftTimers.step]
    split
    · exact inv.stop timer ‹_›
    · exact inv
  | tick => exact ⟨inv.distinct, inv.canStart, inv.cursor⟩
  | check =>
    rw [SoftTimers.step]
    split
    · exact inv.enter
    · exact inv
  | pass =>
    rw [SoftTimers.step]
    split
    · exact inv.checkPass
    · exact inv
  | ret =>
    rw [SoftTimers.step]
    split
    · split
      · exact inv.checkReturn ‹_› untouched
      · exact inv
    · exact inv

omit [DecidableEq τ] in
theorem Inv.callsListed (inv : s.Inv) (event : SoftEvent τ) : s.CallsListed event := by
  cases event with
  | pass => exact fun inLoop timer here due => (inv.cursor inLoop timer here).resolve_right (not_not.mpr due)
  | start | stop | tick | check | ret => trivial

/-- A function returns into the loop. -/
theorem Inv.step_ret (inv : s.Inv) {timer : τ} (inside : s.base.phase = .calling timer) :
    s.step .ret = s.checkReturn timer := by
  have canStart : s.base.Restarts timer → s.base.CanStart timer := fun restarts => inv.canStart timer restarts.2
  simp only [SoftTimers.step, inside]
  exact if_pos canStart

end Steps

section Ends

variable {s : SoftTimers τ}

/-- The listed timers that the check has not started again, twice, and one for a pass that may call one that
it has started again. -/
def weight (s : SoftTimers τ) : ℕ :=
  2 * s.base.rtTimerList.countP (fun timer => decide (timer ∉ s.restarted)) +
    if s.again = none ∨ s.again = s.n then 1 else 0

/-- A pass that calls a function lowers the weight: its timer had not been started again by the check, or it
is the one that has come up again before and is not the next one. -/
theorem weight_checkPass (inv : s.Inv) (inLoop : s.base.phase = .checking) (settled : s.Settled .pass)
    (calls : s.checkPass.base.phase ≠ .outside) : s.checkPass.weight < s.weight := by
  obtain ⟨timer, here, due⟩ : ∃ timer ∈ s.n, s.Due timer := by
    by_contra none
    refine calls ?_
    rw [checkPass]
    cases next : s.n with
    | none => rfl
    | some timer => simp only [if_neg fun due => none ⟨timer, next, due⟩]
  have member := (inv.cursor inLoop timer here).resolve_right (not_not.mpr due)
  have behind : nodeNext s.base.rtTimerList timer ≠ some timer := by
    rw [nodeNext, if_pos member]
    exact fun same => (nodeBehind_mem inv.distinct same).2 rfl
  have count := (List.perm_cons_erase member).countP_eq fun timer => decide (timer ∉ s.restarted)
  rw [List.countP_cons] at count
  have pass : s.checkPass.weight = 2 * (s.base.rtTimerList.erase timer).countP (fun t => decide (t ∉ s.restarted)) +
      if (if timer ∈ s.restarted then some timer else s.again) = none ∨
        (if timer ∈ s.restarted then some timer else s.again) = nodeNext s.base.rtTimerList timer then 1 else 0 := by
    rw [checkPass, here]
    simp only [if_pos due]
    rfl
  rw [pass, weight, count]
  by_cases again : timer ∈ s.restarted
  · have last : s.again = none ∨ s.again = s.n := by
      cases called : s.again with
      | none => exact .inl rfl
      | some last => exact .inr (by rw [here, settled inLoop timer here due again last called])
    rw [if_pos again, if_pos last, if_neg (not_or.mpr ⟨nofun, behind.symm⟩)]
    omega
  · rw [if_neg again, decide_eq_true again, if_pos rfl]
    split <;> split <;> omega

theorem weight_checkReturn (s : SoftTimers τ) (timer : τ) : (s.checkReturn timer).weight ≤ s.weight := by
  rw [weight, weight, checkReturn]
  by_cases restarts : s.base.Restarts timer
  · rw [TimerState.checkReturn_restarts restarts, if_pos restarts]
    refine Nat.add_le_add_right (Nat.mul_le_mul_left 2 ?_) _
    dsimp only
    rw [(insertTimer_perm _ timer _).countP_eq, List.countP_cons_of_neg (by simp)]
    refine (List.countP_mono_left fun other _ outside => ?_).trans
      List.erase_sublist.countP_le
    rw [decide_eq_true_eq] at outside ⊢
    exact fun earlier => outside (List.mem_cons_of_mem timer earlier)
  · rw [TimerState.checkReturn_settles restarts, if_neg restarts]
    exact le_rfl

/-- As long as the check lasts and nobody starts a timer, the weight does not grow. -/
theorem weight_step (inv : s.Inv) {event : SoftEvent τ} (inside : s.base.phase ≠ .outside)
    (stays : (s.step event).base.phase ≠ .outside) (settled : s.Settled event) : (s.step event).weight ≤ s.weight := by
  cases event with
  | start => exact settled.elim
  | stop timer =>
    rw [SoftTimers.step, TimerState.rtTimerStop]
    split_ifs
    · exact le_rfl
    · exact Nat.add_le_add_right (Nat.mul_le_mul_left 2 List.erase_sublist.countP_le) _
    · exact le_rfl
  | tick => exact le_rfl
  | check => rw [SoftTimers.step, if_neg inside]
  | pass =>
    rw [SoftTimers.step] at stays ⊢
    split_ifs at stays ⊢ with inLoop
    · exact (weight_checkPass inv inLoop settled stays).le
    · exact le_rfl
  | ret =>
    cases phase : s.base.phase with
    | calling timer =>
      rw [inv.step_ret phase]
      exact weight_checkReturn s timer
    | checking | outside => simp only [SoftTimers.step, phase, le_rfl]

/-- Only a pass leaves the head of the loop. -/
theorem step_checking (inLoop : s.base.phase = .checking) {event : SoftEvent τ} (other : event ≠ .pass) :
    (s.step event).base.phase = .checking := by
  cases event with
  | pass => exact absurd rfl other
  | start | stop | tick | check | ret => simp [SoftTimers.step, inLoop]

section Fairness

variable {states : ℕ → SoftTimers τ} {events : ℕ → SoftEvent τ}
  (steps : ∀ k, states (k + 1) = (states k).step (events k))

include steps

theorem exists_pass {k ahead : ℕ} (inLoop : (states k).base.phase = .checking) (pass : events (k + ahead) = .pass) :
    ∃ j ≥ k, events j = .pass ∧ (states j).base.phase = .checking := by
  induction ahead generalizing k with
  | zero => exact ⟨k, le_rfl, pass, inLoop⟩
  | succ ahead ih =>
    by_cases now : events k = .pass
    · exact ⟨k, le_rfl, now, inLoop⟩
    · have next : (states (k + 1)).base.phase = .checking := steps k ▸ step_checking inLoop now
      obtain ⟨j, later, both⟩ := ih next (by rwa [Nat.add_assoc, Nat.add_comm 1])
      exact ⟨j, (Nat.le_succ k).trans later, both⟩

/-- While a check lasts, the loop gets to its head and goes on from there. -/
theorem exists_call (fair : Fair events) (inv : ∀ k, (states k).Inv) {start : ℕ}
    (inside : ∀ k ≥ start, (states k).base.phase ≠ .outside) :
    ∃ k ≥ start, events k = .pass ∧ (states k).base.phase = .checking := by
  obtain ⟨r, later, returns⟩ := (fair start).2
  have head : (states (r + 1)).base.phase = .checking := by
    rw [steps, returns]
    cases phase : (states r).base.phase with
    | calling timer =>
      rw [(inv r).step_ret phase]
      exact checkReturn_phase _ timer
    | checking => exact step_checking phase nofun
    | outside => exact absurd phase (inside r later)
  obtain ⟨p, behind, passes⟩ := (fair (r + 1)).1
  obtain ⟨j, after, both⟩ := exists_pass steps head (Nat.add_sub_of_le behind ▸ passes)
  exact ⟨j, later.trans ((Nat.le_succ r).trans after), both⟩

end Fairness

end Ends

omit [DecidableEq τ] in
theorem inv_boot (rtTick : BitVec 32) (timers : τ → RtTimer) : (boot rtTick timers).Inv :=
  ⟨List.nodup_nil, nofun, nofun⟩

/-- In every run in which no timeout function returns with the next timer stopped and expired, only functions of
listed timers are called, and if each check settles, each check ends. -/
theorem sound_along (rtTick : BitVec 32) (timers : τ → RtTimer) :
    (∀ events, Run.Along step Untouched (boot rtTick timers) events →
      Run.Along step CallsListed (boot rtTick timers) events) ∧
    ∀ events, Fair events → (∀ k, (Run.reached step (boot rtTick timers) events k).Untouched (events k)) →
      SettlesInChecks (Run.reached step (boot rtTick timers) events) events →
      ∀ k, ∃ j ≥ k, (Run.reached step (boot rtTick timers) events j).base.phase = .outside := by
  refine ⟨fun events untouched => untouched.along (fun _ _ inv => inv.step) (fun _ event inv _ => inv.callsListed event)
    (inv_boot rtTick timers), ?_⟩
  intro events fair untouched settles k
  have inv := Run.reached_invariant (fun _ _ inv => inv.step) (inv_boot rtTick timers) untouched
  generalize reached : Run.reached step (boot rtTick timers) events = states at *
  have steps : ∀ k, states (k + 1) = (states k).step (events k) := by
    rw [← reached]
    exact fun _ => rfl
  by_contra lasts
  obtain ⟨m, later, settled⟩ := settles k
  have inside : ∀ j ≥ m, (states j).base.phase ≠ .outside := fun j behind ends => lasts ⟨j, later.trans behind, ends⟩
  have settled : ∀ j ≥ m, (states j).Settled (events j) := fun j behind => settled j behind fun i behind _ => inside i behind
  obtain ⟨last, behind, same⟩ := Run.weight_settles (fun j => (states j).weight) fun j (behind : j ≥ m) => by
    have stays := inside (j + 1) (behind.trans (Nat.le_succ j))
    rw [steps] at stays ⊢
    exact weight_step (inv j) (inside j behind) stays (settled j behind)
  obtain ⟨j, after, pass, inLoop⟩ := exists_call steps fair inv fun j after => inside j (behind.trans after)
  have next : states (j + 1) = (states j).checkPass := by rw [steps, pass, SoftTimers.step, if_pos inLoop]
  have less := weight_checkPass (inv j) inLoop (pass ▸ settled j (behind.trans after))
    (next ▸ inside (j + 1) (behind.trans (after.trans (Nat.le_succ j))))
  rw [← next] at less
  exact absurd ((same (j + 1) (after.trans (Nat.le_succ j))).trans (same j after).symm) less.ne

/-- A periodic timer and one that fires once expire together, and a tick passes in each function: the periodic
one has expired again when the loop gets to it for the second time. -/
def firesTwice : List (SoftEvent Bool) :=
  [.start false, .start true, .tick, .check, .pass, .tick, .ret, .pass, .tick, .ret, .pass, .ret, .pass]

theorem sound_along_firesTwice :
    let boot := boot 0 fun timer => { initTick := 1, periodic := !timer }
    let events := fun k => firesTwice.getD k (if k % 2 = 0 then .pass else .ret)
    Run.Along step CallsListed boot firesTwice ∧ ∀ k, ∃ j ≥ k, (Run.reached step boot events j).base.phase = .outside := by
  intro boot events
  have later : ∀ k, events (k + 13) = if (k + 13) % 2 = 0 then .pass else .ret := by
    intro k
    change (firesTwice[k + 13]?).getD _ = _
    rw [List.getElem?_eq_none (Nat.le_add_left 13 k), Option.getD_none]
  have outside : ∀ k, (Run.reached step boot events (k + 13)).base.phase = .outside := by
    intro k
    induction k with
    | zero => decide
    | succ k ih =>
      change (step (Run.reached step boot events (k + 13)) (events (k + 13))).base.phase = .outside
      rw [later]
      split <;> simp only [step, ih, reduceCtorEq, if_false]
  refine ⟨(sound_along 0 _).1 firesTwice (by decide), (sound_along 0 _).2 events ?_ ?_ ?_⟩
  · intro k
    have pass : events (2 * k + 1 + 13) = .pass := (later _).trans (if_pos (by omega))
    have ret : events (2 * k + 13) = .ret := (later _).trans (if_neg (by omega))
    exact ⟨⟨_, by omega, pass⟩, _, by omega, ret⟩
  · intro k
    rcases Nat.lt_or_ge k 13 with early | late
    · revert k
      decide
    · obtain ⟨k, rfl⟩ := Nat.exists_eq_add_of_le' late
      rw [later]
      split
      · trivial
      · intro timer inside
        rw [outside k] at inside
        cases inside
  · intro k
    exact ⟨k + 13, by omega, fun j behind lasts => absurd (outside k) (lasts _ le_rfl behind)⟩

/-- Two timers that expire together; the function of the first one stops the second one. -/
def stopsNext : List (SoftEvent Bool) := [.start false, .start true, .tick, .check, .pass, .stop true, .ret, .pass]

/-- The function of the stopped timer is called. -/
theorem stopsNext_not_sound :
    ¬ Run.Along step CallsListed (boot 0 fun _ : Bool => { initTick := 1, periodic := false }) stopsNext := by
  rintro ⟨-, -, -, -, -, -, -, calls, -⟩
  exact absurd (calls (by decide) true (by decide) (by decide)) (by decide)

end SoftTimers

end RtThread
