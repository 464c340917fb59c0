import ShdslBridge.Kernel.TimerSchedule
import Mathlib.Data.List.TakeWhile

/-! # When the check of the timers ends

The loop of `rt_timer_check` takes the first timer off the list as long as it has expired, and links a
periodic timer anew before the next pass. Here the timeout functions do not touch timers, so the loop is
a function of the state. The timers that it can reach are the expired ones in front of the first timer
that has not expired. A timer that is started again with a period is linked behind them, and they become
fewer with every pass.

`rt_timer_start` accepts a period of zero. Such a timer has expired when it is linked, so the loop finds
it again and does not end.
-/

namespace RtThread

variable {τ : Type*}

theorem insertTimer_append {timers : τ → RtTimer} {timer : τ} {front : List τ} (back : List τ)
    (passes : ∀ t ∈ front, (timers t).timeoutTick - (timers timer).timeoutTick = 0 ∨
      ¬ (timers t).timeoutTick - (timers timer).timeoutTick < rtTickHalf) :
    insertTimer timers timer (front ++ back) = front ++ insertTimer timers timer back := by
  induction front with
  | nil => rfl
  | cons t rest ih =>
    have later := ih fun other member => passes other (List.mem_cons_of_mem t member)
    rw [List.cons_append, insertTimer, later]
    split_ifs with equal less
    · rfl
    · exact absurd less ((passes t List.mem_cons_self).resolve_left equal)
    · rfl

/-- One more timer without a property does not make the front with this property longer. -/
theorem takeWhile_insertTimer {timers : τ → RtTimer} {timer : τ} {p : τ → Bool} (outside : p timer = false)
    (list : List τ) : (insertTimer timers timer list).takeWhile p <+: list.takeWhile p := by
  induction list with
  | nil => simp [insertTimer, outside]
  | cons t rest ih =>
    have behind : (t :: insertTimer timers timer rest).takeWhile p <+: (t :: rest).takeWhile p := by
      rw [List.takeWhile_cons, List.takeWhile_cons]
      split
      · exact (List.prefix_cons_inj t).mpr ih
      · exact List.prefix_rfl
    simp only [insertTimer]
    split_ifs
    · exact behind
    · rw [List.takeWhile_cons_of_neg (by simp [outside])]
      exact List.nil_prefix
    · exact behind

theorem takeWhile_congr {p q : τ → Bool} {list : List τ} (same : ∀ t ∈ list, p t = q t) :
    list.takeWhile p = list.takeWhile q := by
  induction list with
  | nil => rfl
  | cons t rest ih =>
    rw [List.takeWhile_cons, List.takeWhile_cons, same t List.mem_cons_self,
      ih fun other member => same other (List.mem_cons_of_mem t member)]

variable [DecidableEq τ]

namespace TimerState

/-- `rt_timer_check` with timeout functions that do not touch timers: the timers whose functions have
been called, or `none` if the loop does not end in so many passes. -/
def silentCheck : ℕ → TimerState τ → Option (List τ)
  | 0, _ => none
  | passes + 1, s =>
    match s.checkPass.phase with
    | .calling timer => (silentCheck passes (s.checkPass.checkReturn timer)).map (timer :: ·)
    | _ => some []

def expiredFront (s : TimerState τ) : List τ := s.rtTimerList.takeWhile fun t => decide (s.Expired t)

def NoZeroPeriod (s : TimerState τ) : Prop :=
  ∀ timer ∈ s.expiredFront, s.Restarts timer → (s.timers timer).initTick ≠ 0

instance (s : TimerState τ) : Decidable s.NoZeroPeriod := inferInstanceAs (Decidable (∀ _ ∈ _, _))

/-- A list that the check gets in time: its timers have expired or will within half of the ticks, and
the delay of one and the period of another are less than half of the ticks together. -/
structure Timely (s : TimerState τ) : Prop where
  near : ∀ timer ∈ s.rtTimerList, s.Expired timer ∨ (s.timers timer).timeoutTick - s.rtTick < rtTickHalf
  delay : ∀ timer ∈ s.rtTimerList, s.Expired timer → ∀ other ∈ s.rtTimerList,
    (s.rtTick - (s.timers timer).timeoutTick).toNat + (s.timers other).initTick.toNat < 2 ^ 31

section Pass

variable {s : TimerState τ} {timer : τ} {rest : List τ}

theorem checkReturn_restarts (restarts : s.Restarts timer) :
    s.checkReturn timer =
      { s with
        timers := Function.update s.timers timer { s.timers timer with
          timeoutTick := s.rtTick + (s.timers timer).initTick, activated := true }
        rtTimerList := insertTimer
          (Function.update s.timers timer { s.timers timer with
            timeoutTick := s.rtTick + (s.timers timer).initTick, activated := false })
          timer (s.rtTimerList.erase timer)
        phase := .checking } := by
  rw [checkReturn, if_pos restarts, rtTimerStart_of_cleared, rtTimerStart_eq]

theorem checkReturn_settles (settled : ¬ s.Restarts timer) :
    s.checkReturn timer =
      { s.onTimer timer (fun t => { t with activated := false }) with phase := .checking } := by
  rw [checkReturn, if_neg settled]

/-- The state behind a pass that calls the timeout function of the first timer. -/
def served (s : TimerState τ) (timer : τ) (rest : List τ) : TimerState τ :=
  { s with rtTimerList := rest, phase := .calling timer }.checkReturn timer

theorem served_rtTick (s : TimerState τ) (timer : τ) (rest : List τ) :
    (s.served timer rest).rtTick = s.rtTick := by
  rw [served, checkReturn]
  split <;> rfl

theorem served_other (s : TimerState τ) {other : τ} (ne : other ≠ timer) (rest : List τ) :
    (s.served timer rest).timers other = s.timers other := by
  by_cases restarts : { s with rtTimerList := rest, phase := .calling timer }.Restarts timer
  · rw [served, checkReturn_restarts restarts]
    exact Function.update_of_ne ne _ _
  · rw [served, checkReturn_settles restarts]
    exact Function.update_of_ne ne _ _

theorem served_initTick (s : TimerState τ) (timer : τ) (rest : List τ) (other : τ) :
    ((s.served timer rest).timers other).initTick = (s.timers other).initTick := by
  rcases eq_or_ne other timer with rfl | ne
  · by_cases restarts : { s with rtTimerList := rest, phase := .calling other }.Restarts other
    · rw [served, checkReturn_restarts restarts]
      simp
    · rw [served, checkReturn_settles restarts]
      simp
  · rw [served_other s ne]

theorem served_expired (s : TimerState τ) {other : τ} (ne : other ≠ timer) (rest : List τ) :
    (s.served timer rest).Expired other ↔ s.Expired other := by
  rw [Expired, served_rtTick, served_other s ne, Expired]

theorem served_list_settled (settled : ¬ s.Restarts timer) (rest : List τ) :
    (s.served timer rest).rtTimerList = rest := by
  have same : ¬ { s with rtTimerList := rest, phase := .calling timer }.Restarts timer := settled
  rw [served, checkReturn_settles same]
  rfl

theorem served_restarts (restarts : s.Restarts timer) (outside : timer ∉ rest) :
    (s.served timer rest).timers timer =
        { s.timers timer with timeoutTick := s.rtTick + (s.timers timer).initTick, activated := true } ∧
      (s.served timer rest).rtTimerList =
        insertTimer (Function.update s.timers timer { s.timers timer with
            timeoutTick := s.rtTick + (s.timers timer).initTick, activated := false }) timer rest := by
  have same : { s with rtTimerList := rest, phase := .calling timer }.Restarts timer := restarts
  rw [served, checkReturn_restarts same]
  refine ⟨Function.update_self .., ?_⟩
  change insertTimer _ _ (rest.erase timer) = _
  rw [List.erase_of_not_mem outside]

/-- A timer that is started again has expired only with a period of zero. -/
theorem served_expired_self (restarts : s.Restarts timer) (outside : timer ∉ rest) (canStart : s.CanStart timer) :
    (s.served timer rest).Expired timer ↔ (s.timers timer).initTick = 0 := by
  rw [Expired, served_rtTick, (served_restarts restarts outside).1]
  simp only [CanStart, rtTickHalf] at canStart ⊢
  bv_omega

theorem mem_served {other : τ} (outside : timer ∉ rest) :
    other ∈ (s.served timer rest).rtTimerList ↔ (s.Restarts timer ∧ other = timer) ∨ other ∈ rest := by
  by_cases restarts : s.Restarts timer
  · rw [(served_restarts restarts outside).2, mem_insertTimer]
    simp [restarts]
  · rw [served_list_settled restarts]
    simp [restarts]

theorem nodup_served (distinct : (timer :: rest).Nodup) : (s.served timer rest).rtTimerList.Nodup := by
  obtain ⟨outside, later⟩ := List.nodup_cons.mp distinct
  by_cases restarts : s.Restarts timer
  · rw [(served_restarts restarts outside).2]
    exact nodup_insertTimer outside later
  · rw [served_list_settled restarts]
    exact later

theorem silentCheck_succ (s : TimerState τ) (passes : ℕ) :
    ((∀ t rest, s.rtTimerList = t :: rest → ¬ s.Expired t) ∧ s.silentCheck (passes + 1) = some []) ∨
      ∃ t rest, s.rtTimerList = t :: rest ∧ s.Expired t ∧
        s.silentCheck (passes + 1) = ((s.served t rest).silentCheck passes).map (t :: ·) := by
  obtain ⟨waits, ends⟩ | ⟨t, rest, list, expired, fires⟩ := s.checkPass_cases
  · refine .inl ⟨waits, ?_⟩
    rw [silentCheck, ends]
  · refine .inr ⟨t, rest, list, expired, ?_⟩
    rw [silentCheck, fires]
    rfl

omit [DecidableEq τ] in
theorem expiredFront_cons (list : s.rtTimerList = timer :: rest) (expired : s.Expired timer) :
    s.expiredFront = timer :: rest.takeWhile fun t => decide (s.Expired t) := by
  rw [expiredFront, list, List.takeWhile_cons_of_pos (by simpa using expired)]

/-- Unless its period is zero, the timer is linked behind the expired ones. -/
theorem expiredFront_served (outside : timer ∉ rest) (canStart : s.CanStart timer)
    (period : s.Restarts timer → (s.timers timer).initTick ≠ 0) :
    (s.served timer rest).expiredFront <+: rest.takeWhile fun t => decide (s.Expired t) := by
  have others : rest.takeWhile (fun t => decide ((s.served timer rest).Expired t)) =
      rest.takeWhile fun t => decide (s.Expired t) := by
    refine takeWhile_congr fun t member => ?_
    have ne : t ≠ timer := fun same => outside (same ▸ member)
    simp [served_expired s ne]
  rw [← others, expiredFront]
  by_cases restarts : s.Restarts timer
  · rw [(served_restarts restarts outside).2]
    refine takeWhile_insertTimer ?_ rest
    have waits := mt (served_expired_self restarts outside canStart).mp (period restarts)
    exact decide_eq_false waits
  · rw [served_list_settled restarts]

end Pass

/-- Without a period of zero the check ends, and calls each timeout function at most once. -/
theorem silentCheck_ends {s : TimerState τ} {bound : ℕ} (distinct : s.rtTimerList.Nodup)
    (canStart : ∀ timer ∈ s.rtTimerList, s.CanStart timer) (period : s.NoZeroPeriod)
    (short : s.expiredFront.length ≤ bound) :
    ∃ calls, s.silentCheck (bound + 1) = some calls ∧ calls.Nodup ∧ ∀ timer ∈ calls, timer ∈ s.expiredFront := by
  induction bound generalizing s with
  | zero =>
    obtain ⟨-, ends⟩ | ⟨t, rest, list, expired, -⟩ := s.silentCheck_succ 0
    · exact ⟨[], ends, List.nodup_nil, nofun⟩
    · rw [expiredFront_cons list expired] at short
      cases short
  | succ bound ih =>
    obtain ⟨-, ends⟩ | ⟨t, rest, list, expired, serves⟩ := s.silentCheck_succ (bound + 1)
    · exact ⟨[], ends, List.nodup_nil, nofun⟩
    · have front := expiredFront_cons list expired
      rw [list] at distinct canStart
      obtain ⟨outside, -⟩ := List.nodup_cons.mp distinct
      have shorter := expiredFront_served outside (canStart t List.mem_cons_self)
        (period t (front ▸ List.mem_cons_self))
      have inRest : ∀ timer ∈ (s.served t rest).expiredFront, timer ∈ rest := fun timer member =>
        (List.takeWhile_prefix _).subset (shorter.subset member)
      obtain ⟨calls, ends, once, reached⟩ : ∃ calls, (s.served t rest).silentCheck (bound + 1) = some calls ∧
          calls.Nodup ∧ ∀ timer ∈ calls, timer ∈ (s.served t rest).expiredFront := by
        apply ih (nodup_served distinct)
        · intro timer member
          rw [CanStart, served_initTick]
          rcases (mem_served outside).mp member with ⟨-, rfl⟩ | behind
          · exact canStart timer List.mem_cons_self
          · exact canStart timer (List.mem_cons_of_mem t behind)
        · intro timer member restarts
          have ne : timer ≠ t := fun same => outside (same ▸ inRest timer member)
          rw [Restarts, served_other s ne] at restarts
          rw [served_initTick]
          exact period timer (front ▸ List.mem_cons_of_mem t (shorter.subset member)) restarts
        · have longer := shorter.length_le
          rw [front, List.length_cons] at short
          omega
      refine ⟨t :: calls, by rw [serves, ends]; rfl, ?_, ?_⟩
      · exact List.nodup_cons.mpr ⟨fun member => outside (inRest t (reached t member)), once⟩
      · intro timer member
        rw [front]
        rcases List.mem_cons.mp member with rfl | behind
        · exact List.mem_cons_self
        · exact List.mem_cons_of_mem t (shorter.subset (reached timer behind))

/-- A state in which the check does not end. -/
structure Endless (s : TimerState τ) : Prop where
  distinct : s.rtTimerList.Nodup
  canStart : ∀ timer ∈ s.rtTimerList, s.CanStart timer
  timely : s.Timely
  zero : ∃ timer ∈ s.expiredFront, s.Restarts timer ∧ (s.timers timer).initTick = 0

section Endless

variable {s : TimerState τ} {timer : τ} {rest : List τ}

theorem Timely.passes (timely : s.Timely) (list : s.rtTimerList = timer :: rest) (outside : timer ∉ rest) {t : τ}
    (member : t ∈ rest) (expired : s.Expired t) :
    let timers := Function.update s.timers timer { s.timers timer with
      timeoutTick := s.rtTick + (s.timers timer).initTick, activated := false }
    (timers t).timeoutTick - (timers timer).timeoutTick = 0 ∨
      ¬ (timers t).timeoutTick - (timers timer).timeoutTick < rtTickHalf := by
  intro timers
  have ne : t ≠ timer := fun same => outside (same ▸ member)
  have delay := timely.delay t (list ▸ List.mem_cons_of_mem timer member) expired timer
    (list ▸ List.mem_cons_self)
  simp only [timers, Function.update_self, Function.update_of_ne ne, Expired, rtTickHalf] at expired ⊢
  bv_omega

theorem Timely.first (timely : s.Timely) (list : s.rtTimerList = timer :: rest) (outside : timer ∉ rest)
    (zero : (s.timers timer).initTick = 0) :
    let timers := Function.update s.timers timer { s.timers timer with
      timeoutTick := s.rtTick + (s.timers timer).initTick, activated := false }
    insertTimer timers timer (rest.dropWhile fun t => decide (s.Expired t)) =
      timer :: rest.dropWhile fun t => decide (s.Expired t) := by
  intro timers
  rcases back : rest.dropWhile (fun t => decide (s.Expired t)) with _ | ⟨t, later⟩
  · rfl
  · have notExpired : ¬ s.Expired t := by
      have head := List.head?_dropWhile_not (fun t => decide (s.Expired t)) rest
      rw [back] at head
      simpa using head
    have member : t ∈ rest := (List.dropWhile_suffix _).subset (back ▸ List.mem_cons_self)
    have ne : t ≠ timer := fun same => outside (same ▸ member)
    have pending := (timely.near t (list ▸ List.mem_cons_of_mem timer member)).resolve_left notExpired
    have later_ : (timers t).timeoutTick - (timers timer).timeoutTick = (s.timers t).timeoutTick - s.rtTick := by
      simp only [timers, Function.update_self, Function.update_of_ne ne, zero]
      bv_omega
    rw [insertTimer, later_, if_neg, if_pos pending]
    intro same
    refine notExpired ?_
    simp only [Expired, rtTickHalf]
    bv_omega

/-- The timers of the front stay in it, and so does a timer with a period of zero. -/
theorem Timely.expiredFront_served (timely : s.Timely) (list : s.rtTimerList = timer :: rest)
    (outside : timer ∉ rest) (canStart : s.CanStart timer) :
    (∀ t ∈ rest.takeWhile fun t => decide (s.Expired t), t ∈ (s.served timer rest).expiredFront) ∧
      (s.Restarts timer → (s.timers timer).initTick = 0 → timer ∈ (s.served timer rest).expiredFront) := by
  have cut := List.takeWhile_append_dropWhile (p := fun t => decide (s.Expired t)) (l := rest)
  have others : ∀ t ∈ rest.takeWhile (fun t => decide (s.Expired t)),
      decide ((s.served timer rest).Expired t) = true := by
    intro t member
    have ne : t ≠ timer := fun same => outside (same ▸ (List.takeWhile_prefix _).subset member)
    have expired := List.mem_takeWhile_imp member
    simpa [served_expired s ne] using expired
  by_cases restarts : s.Restarts timer
  · have behind : (s.served timer rest).rtTimerList = _ := (served_restarts restarts outside).2
    rw [← cut, insertTimer_append] at behind
    · rw [cut] at behind
      rw [expiredFront, behind, List.takeWhile_append_of_pos others]
      refine ⟨fun t member => List.mem_append_left _ member, fun _ zero => List.mem_append_right _ ?_⟩
      rw [timely.first list outside zero, List.takeWhile_cons_of_pos]
      · exact List.mem_cons_self
      · simpa using (served_expired_self restarts outside canStart).mpr zero
    · intro t member
      exact timely.passes list outside ((List.takeWhile_prefix _).subset member)
        (by simpa using List.mem_takeWhile_imp member)
  · rw [expiredFront, served_list_settled restarts]
    refine ⟨fun t member => ?_, fun again => absurd again restarts⟩
    have longer : ∀ back, t ∈ ((rest.takeWhile fun t => decide (s.Expired t)) ++ back).takeWhile
        fun t => decide ((s.served timer rest).Expired t) := by
      intro back
      rw [List.takeWhile_append_of_pos others]
      exact List.mem_append_left _ member
    have whole := longer (rest.dropWhile fun t => decide (s.Expired t))
    rwa [cut] at whole

theorem Timely.served (timely : s.Timely) (list : s.rtTimerList = timer :: rest) (outside : timer ∉ rest)
    (canStart : ∀ t ∈ s.rtTimerList, s.CanStart t) : (s.served timer rest).Timely := by
  have listed {t : τ} (member : t ∈ (s.served timer rest).rtTimerList) : t ∈ s.rtTimerList := by
    rw [list]
    rcases (mem_served outside).mp member with ⟨-, rfl⟩ | behind
    · exact List.mem_cons_self
    · exact List.mem_cons_of_mem timer behind
  have again {t : τ} (member : t ∈ (s.served timer rest).rtTimerList) :
      t ≠ timer ∨ ((s.served timer rest).timers t).timeoutTick = s.rtTick + (s.timers t).initTick := by
    rcases (mem_served outside).mp member with ⟨restarts, rfl⟩ | behind
    · exact .inr (by rw [(served_restarts restarts outside).1])
    · exact .inl fun same => outside (same ▸ behind)
  constructor
  · intro t member
    have small : (s.timers t).initTick < rtTickHalf := canStart t (listed member)
    rcases again member with ne | stamp
    · rw [served_expired s ne, served_rtTick, served_other s ne]
      exact timely.near t (listed member)
    · right
      rw [stamp, served_rtTick]
      simp only [rtTickHalf] at small ⊢
      bv_omega
  · intro t member expired other otherMember
    rw [served_rtTick, served_initTick]
    have small : (s.timers other).initTick < rtTickHalf := canStart other (listed otherMember)
    rcases again member with ne | stamp
    · rw [served_other s ne]
      exact timely.delay t (listed member) ((served_expired s ne rest).mp expired) other (listed otherMember)
    · have own : (s.timers t).initTick < rtTickHalf := canStart t (listed member)
      rw [Expired, served_rtTick, stamp] at expired
      rw [stamp]
      simp only [rtTickHalf] at small own expired
      bv_omega

theorem Endless.served (endless : s.Endless) (list : s.rtTimerList = timer :: rest) (expired : s.Expired timer) :
    (s.served timer rest).Endless := by
  have distinct := endless.distinct
  rw [list] at distinct
  obtain ⟨outside, -⟩ := List.nodup_cons.mp distinct
  obtain ⟨stays, again⟩ := endless.timely.expiredFront_served list outside
    (endless.canStart timer (list ▸ List.mem_cons_self))
  refine ⟨nodup_served distinct, ?_, endless.timely.served list outside endless.canStart, ?_⟩
  · intro t member
    rw [CanStart, served_initTick]
    refine endless.canStart t ?_
    rw [list]
    rcases (mem_served outside).mp member with ⟨-, rfl⟩ | behind
    · exact List.mem_cons_self
    · exact List.mem_cons_of_mem timer behind
  · obtain ⟨zero, member, restarts, none_⟩ := endless.zero
    rw [expiredFront_cons list expired] at member
    rcases List.mem_cons.mp member with rfl | behind
    · refine ⟨zero, again restarts none_, ?_, by rw [served_initTick, none_]⟩
      rw [Restarts, (served_restarts restarts outside).1]
      exact ⟨restarts.1, rfl⟩
    · have ne : zero ≠ timer := fun same => outside (same ▸ (List.takeWhile_prefix _).subset behind)
      refine ⟨zero, stays zero behind, ?_, by rw [served_initTick, none_]⟩
      rw [Restarts, served_other s ne]
      exact restarts

theorem Endless.silentCheck (endless : s.Endless) (passes : ℕ) : s.silentCheck passes = none := by
  induction passes generalizing s with
  | zero => rfl
  | succ passes ih =>
    obtain ⟨waits, -⟩ | ⟨t, rest, list, expired, serves⟩ := s.silentCheck_succ passes
    · obtain ⟨timer, member, -, -⟩ := endless.zero
      rcases list : s.rtTimerList with _ | ⟨t, rest⟩
      · simp [expiredFront, list] at member
      · rw [expiredFront, list, List.takeWhile_cons_of_neg (by simpa using waits t rest list)] at member
        cases member
    · rw [serves, ih (endless.served list expired)]
      rfl

end Endless

/-- The check ends, with each timeout function called at most once, if no expired timer of its list is
started again with a period of zero. In a list that it gets in time it ends only then. -/
theorem check_ends {s : TimerState τ} (distinct : s.rtTimerList.Nodup)
    (canStart : ∀ timer ∈ s.rtTimerList, s.CanStart timer) :
    (s.NoZeroPeriod → ∃ passes calls, s.silentCheck passes = some calls ∧ calls.Nodup) ∧
      (s.Timely → (∃ passes calls, s.silentCheck passes = some calls) → s.NoZeroPeriod) := by
  constructor
  · intro period
    obtain ⟨calls, ends, once, -⟩ := silentCheck_ends distinct canStart period le_rfl
    exact ⟨_, calls, ends, once⟩
  · rintro timely ⟨passes, calls, ends⟩ timer member restarts zero
    have endless : s.Endless := ⟨distinct, canStart, timely, timer, member, restarts, zero⟩
    rw [endless.silentCheck passes] at ends
    cases ends

def ticking (period : BitVec 32) : TimerState Unit :=
  Run.exec step (boot 0 fun _ => { initTick := period, periodic := true }) [.start (), .tick]

theorem check_ends_ticking :
    ((ticking 1).NoZeroPeriod → ∃ passes calls, (ticking 1).silentCheck passes = some calls ∧ calls.Nodup) ∧
      ((ticking 1).Timely → (∃ passes calls, (ticking 1).silentCheck passes = some calls) →
        (ticking 1).NoZeroPeriod) :=
  check_ends (by decide) (by decide)

/-- `rt_timer_start` accepts the period of zero, and the check at the next tick does not end. -/
theorem ticking_zero_endless :
    (ticking 0).CanStart () ∧ ¬ ∃ passes calls, (ticking 0).silentCheck passes = some calls := by
  have timely : (ticking 0).Timely := ⟨by decide, by decide⟩
  have endless : (ticking 0).Endless := ⟨by decide, by decide, timely, (), by decide⟩
  refine ⟨by decide, ?_⟩
  rintro ⟨passes, calls, ends⟩
  rw [endless.silentCheck passes] at ends
  cases ends

/-! ## The lists of a run are timely -/

def ahead (s : TimerState τ) (timer : τ) : ℕ := ((s.timers timer).timeoutTick - s.rtTick + 1).toNat

/-- The list is in order, and the check is at most one tick late. -/
structure InTime (s : TimerState τ) : Prop where
  distinct : s.rtTimerList.Nodup
  window : ∀ timer ∈ s.rtTimerList, s.ahead timer ≤ rtTickHalf.toNat
  sorted : s.rtTimerList.Pairwise fun a b => s.ahead a ≤ s.ahead b
  checked : s.phase = .outside → ∀ timer ∈ s.rtTimerList, 1 ≤ s.ahead timer

omit [DecidableEq τ] in
theorem sorted_insert {timers : τ → RtTimer} {timer : τ} {list : List τ} {rank : τ → ℕ}
    (compared : ∀ t ∈ list, ((timers t).timeoutTick - (timers timer).timeoutTick = 0 ↔ rank t = rank timer) ∧
      ((timers t).timeoutTick - (timers timer).timeoutTick < rtTickHalf ↔ rank timer ≤ rank t))
    (sorted : list.Pairwise fun a b => rank a ≤ rank b) :
    (insertTimer timers timer list).Pairwise fun a b => rank a ≤ rank b := by
  induction list with
  | nil => simp [insertTimer]
  | cons t rest ih =>
    obtain ⟨first, later⟩ := List.pairwise_cons.mp sorted
    obtain ⟨same, behind⟩ := compared t List.mem_cons_self
    have inserted := ih (fun other member => compared other (List.mem_cons_of_mem t member)) later
    have goesOn (le : rank t ≤ rank timer) :
        (t :: insertTimer timers timer rest).Pairwise fun a b => rank a ≤ rank b := by
      refine List.pairwise_cons.mpr ⟨fun other member => ?_, inserted⟩
      rcases mem_insertTimer.mp member with rfl | member
      · exact le
      · exact first other member
    simp only [insertTimer]
    split_ifs with equal less
    · exact goesOn (same.mp equal).le
    · refine List.pairwise_cons.mpr ⟨fun other member => ?_, sorted⟩
      rcases List.mem_cons.mp member with rfl | member
      · exact behind.mp less
      · exact (behind.mp less).trans (first other member)
    · exact goesOn (not_le.mp fun le => less (behind.mpr le)).le

section Runs

variable {s : TimerState τ}

omit [DecidableEq τ] in
theorem InTime.edit (inTime : s.InTime) {s' : TimerState τ} (tick : s'.rtTick = s.rtTick)
    (sublist : s'.rtTimerList.Sublist s.rtTimerList)
    (stamps : ∀ timer, (s'.timers timer).timeoutTick = (s.timers timer).timeoutTick)
    (checked : s'.phase = .outside → s.phase = .outside) : s'.InTime := by
  have same (timer : τ) : s'.ahead timer = s.ahead timer := by rw [ahead, ahead, tick, stamps]
  constructor
  · exact sublist.nodup inTime.distinct
  · intro timer member
    rw [same]
    exact inTime.window timer (sublist.subset member)
  · simp only [same]
    exact inTime.sorted.sublist sublist
  · intro outside timer member
    rw [same]
    exact inTime.checked (checked outside) timer (sublist.subset member)

theorem InTime.start (inTime : s.InTime) {timer : τ} (canStart : s.CanStart timer) :
    (s.rtTimerStart timer).InTime := by
  have here : (s.rtTimerStart timer).ahead timer = (s.timers timer).initTick.toNat + 1 := by
    rw [ahead, rtTimerStart_self, rtTimerStart_eq]
    simp only [CanStart, rtTickHalf] at canStart ⊢
    bv_omega
  have other_ {other : τ} (ne : other ≠ timer) : (s.rtTimerStart timer).ahead other = s.ahead other := by
    rw [ahead, rtTimerStart_other s ne, rtTimerStart_eq, ahead]
  have members {other : τ} (member : other ∈ s.rtTimerList.erase timer) : other ≠ timer ∧ other ∈ s.rtTimerList :=
    inTime.distinct.mem_erase_iff.mp member
  have small : (s.timers timer).initTick.toNat < rtTickHalf.toNat := canStart
  have listed {other : τ} (member : other ∈ (s.rtTimerStart timer).rtTimerList) :
      other = timer ∨ other ≠ timer ∧ other ∈ s.rtTimerList := by
    rw [rtTimerStart_eq, mem_insertTimer] at member
    exact member.imp_right members
  constructor
  · rw [rtTimerStart_eq]
    exact nodup_insertTimer (fun member => (members member).1 rfl) (inTime.distinct.erase timer)
  · intro other member
    rcases listed member with rfl | ⟨ne, before⟩
    · omega
    · rw [other_ ne]
      exact inTime.window other before
  · have sorted : (s.rtTimerList.erase timer).Pairwise fun a b =>
        (s.rtTimerStart timer).ahead a ≤ (s.rtTimerStart timer).ahead b := by
      refine (inTime.sorted.sublist List.erase_sublist).imp_of_mem fun {a b} left right le => ?_
      rwa [other_ (members left).1, other_ (members right).1]
    have behind : (s.rtTimerStart timer).rtTimerList = insertTimer
        (Function.update s.timers timer { s.timers timer with
          timeoutTick := s.rtTick + (s.timers timer).initTick, activated := false })
        timer (s.rtTimerList.erase timer) := by rw [rtTimerStart_eq]
    rw [behind]
    refine sorted_insert (fun other member => ?_) sorted
    obtain ⟨ne, before⟩ := members member
    have window := inTime.window other before
    rw [Function.update_self, Function.update_of_ne ne, here, other_ ne]
    simp only [CanStart, ahead, rtTickHalf] at canStart window ⊢
    bv_omega
  · intro outside other member
    rcases listed member with rfl | ⟨ne, before⟩
    · omega
    · rw [other_ ne]
      exact inTime.checked outside other before

omit [DecidableEq τ] in
/-- A timer that has expired is due now or was due in the last tick. -/
theorem InTime.expired_iff (inTime : s.InTime) {timer : τ} (member : timer ∈ s.rtTimerList) :
    s.Expired timer ↔ s.ahead timer ≤ 1 := by
  have window := inTime.window timer member
  simp only [Expired, ahead, rtTickHalf] at window ⊢
  bv_omega

theorem InTime.checkPass (inTime : s.InTime) : s.checkPass.InTime := by
  obtain ⟨waits, ends⟩ | ⟨t, rest, list, -, fires⟩ := s.checkPass_cases
  · rw [ends]
    refine { inTime with checked := fun _ timer member => ?_ }
    have sorted := inTime.sorted
    rcases list : s.rtTimerList with _ | ⟨t, rest⟩
    · change timer ∈ s.rtTimerList at member
      simp [list] at member
    · have late := mt (inTime.expired_iff (list ▸ List.mem_cons_self)).mpr (waits t rest list)
      change timer ∈ s.rtTimerList at member
      change 1 ≤ s.ahead timer
      rw [list] at member sorted
      rcases List.mem_cons.mp member with rfl | behind
      · omega
      · have le := (List.pairwise_cons.mp sorted).1 timer behind
        omega
  · rw [fires]
    exact inTime.edit rfl (list ▸ List.sublist_cons_self t rest) (fun _ => rfl) nofun

theorem InTime.checkReturn (inTime : s.InTime) {timer : τ} (canStart : s.Restarts timer → s.CanStart timer) :
    (s.checkReturn timer).InTime := by
  rw [TimerState.checkReturn]
  split
  · rename_i restarts
    rw [rtTimerStart_of_cleared]
    exact (inTime.start (canStart restarts)).edit rfl (List.Sublist.refl _) (fun _ => rfl) (by rintro ⟨⟩)
  · refine inTime.edit rfl (List.Sublist.refl _) (fun other => ?_) (by rintro ⟨⟩)
    rcases eq_or_ne other timer with rfl | ne
    · simp
    · simp [ne]

theorem InTime.step (inTime : s.InTime) (event : TimerEvent τ) : (s.step event).InTime := by
  cases event with
  | start timer =>
    rw [TimerState.step]
    split
    · rename_i call
      exact inTime.start call.2
    · exact inTime
  | stop timer =>
    rw [TimerState.step]
    split
    · rw [rtTimerStop]
      split
      · exact inTime
      · refine inTime.edit rfl List.erase_sublist (fun other => ?_) id
        rcases eq_or_ne other timer with rfl | ne
        · simp [rtTimerRemove]
        · simp [rtTimerRemove, ne]
    · exact inTime
  | control timer cmd =>
    rw [TimerState.step]
    split
    · refine inTime.edit rfl (List.Sublist.refl _) (fun other => ?_) id
      rcases eq_or_ne other timer with rfl | ne
      · cases cmd <;> simp [rtTimerControl]
      · simp [ne]
    · exact inTime
  | tick =>
    rw [TimerState.step]
    split
    · rename_i idle
      have before {timer : τ} (member : timer ∈ s.rtTimerList) :
          ahead { s with rtTick := s.rtTick + 1, phase := .checking } timer + 1 = s.ahead timer := by
        have positive := inTime.checked idle timer member
        simp only [ahead] at positive ⊢
        bv_omega
      refine ⟨inTime.distinct, fun timer member => ?_, ?_, by rintro ⟨⟩⟩
      · have window := inTime.window timer member
        have less := before member
        omega
      · refine inTime.sorted.imp_of_mem fun {a b} left right le => ?_
        have first := before left
        have second := before right
        omega
    · exact inTime
  | check =>
    rw [TimerState.step]
    split
    · exact inTime.edit rfl (List.Sublist.refl _) (fun _ => rfl) (by rintro ⟨⟩)
    · exact inTime
  | pass =>
    rw [TimerState.step]
    split
    · exact inTime.checkPass
    · exact inTime
  | ret =>
    rw [TimerState.step]
    split
    · split
      · rename_i canStart
        exact inTime.checkReturn canStart
      · exact inTime
    · exact inTime

omit [DecidableEq τ] in
theorem InTime.timely (inTime : s.InTime) (canStart : ∀ timer ∈ s.rtTimerList, s.CanStart timer) : s.Timely := by
  constructor
  · intro timer member
    have window := inTime.window timer member
    simp only [Expired, ahead, rtTickHalf] at window ⊢
    bv_omega
  · intro timer member expired other otherMember
    have late := (inTime.expired_iff member).mp expired
    have small : (s.timers other).initTick.toNat < rtTickHalf.toNat := canStart other otherMember
    simp only [Expired, ahead, rtTickHalf] at expired late small
    bv_omega

end Runs

/-- Whatever the calls and the timeout functions do, the list is in order in every state, and the check gets it in
time. -/
theorem always_inTime (rtTick : BitVec 32) (timers : τ → RtTimer) (events : List (TimerEvent τ)) :
    Run.Always step (fun s => s.InTime ∧ ((∀ timer ∈ s.rtTimerList, s.CanStart timer) → s.Timely)) (boot rtTick timers)
      events := by
  have start : (boot rtTick timers).InTime := ⟨List.nodup_nil, nofun, List.Pairwise.nil, fun _ => nofun⟩
  have keeps (s : TimerState τ) (event : TimerEvent τ) (inTime : s.InTime) : (s.step event).InTime := inTime.step event
  apply Run.always_of_invariant keeps
  · exact fun s inTime => ⟨inTime, inTime.timely⟩
  · exact start

end TimerState

end RtThread
