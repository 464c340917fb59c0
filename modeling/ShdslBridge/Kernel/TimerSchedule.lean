import ShdslBridge.Kernel.Timer
import ShdslBridge.Lib.SerialNumber

/-! # Timers fire on time

Beside the timers stands the schedule that they are meant to follow. It counts ticks without end,
and holds for every timer that was started, and that has neither fired nor been stopped since, the
tick in which it is to fire and the number of its start. The code knows only the low 32 bits of the
ticks. In every state of a run the timer list is the schedule in order, and every timer has fired in
its tick, as long as timers are set to at least one and less than half of the ticks that the counter
tells apart, and no timeout function starts its own timer.
-/

namespace RtThread

variable {τ : Type*} [DecidableEq τ]

/-- When a timer is to fire, and which start has set this. -/
structure Deadline where
  tick : ℕ
  order : ℕ

/-- The order in which timers are to fire: by tick, and by start within a tick. -/
def Sooner : Option Deadline → Option Deadline → Prop
  | some a, some b => a.tick < b.tick ∨ a.tick = b.tick ∧ a.order < b.order
  | _, _ => False

theorem Sooner.trans {a b c : Option Deadline} (left : Sooner a b) (right : Sooner b c) : Sooner a c := by
  rcases a with _ | a
  · exact left.elim
  · rcases b with _ | b
    · exact left.elim
    · rcases c with _ | c
      · exact right.elim
      · simp only [Sooner] at left right ⊢
        omega

theorem rtTickHalf_toNat : rtTickHalf.toNat = 2147483647 := rfl

omit [DecidableEq τ] in
/-- A list in the order of the schedule, with one more timer whose start is the latest. -/
theorem sorted_insertTimer {timers : τ → RtTimer} {timer : τ} {list : List τ} {pending : τ → Option Deadline}
    {new : Deadline} (here : pending timer = some new)
    (others : ∀ t ∈ list, ∃ deadline, pending t = some deadline ∧ deadline.order < new.order ∧
      ((timers t).timeoutTick - (timers timer).timeoutTick = 0 ↔ deadline.tick = new.tick) ∧
      ((timers t).timeoutTick - (timers timer).timeoutTick < rtTickHalf ↔ new.tick ≤ deadline.tick))
    (sorted : list.Pairwise fun a b => Sooner (pending a) (pending b)) :
    (insertTimer timers timer list).Pairwise fun a b => Sooner (pending a) (pending b) := by
  induction list with
  | nil => simp [insertTimer]
  | cons t rest ih =>
    obtain ⟨first, later⟩ := List.pairwise_cons.mp sorted
    obtain ⟨deadline, known, earlier, same, behind⟩ := others t List.mem_cons_self
    have inserted := ih (fun other member => others other (List.mem_cons_of_mem t member)) later
    -- the timer goes behind this one
    have goesOn (sooner : deadline.tick ≤ new.tick) :
        (t :: insertTimer timers timer rest).Pairwise fun a b => Sooner (pending a) (pending b) := by
      refine List.pairwise_cons.mpr ⟨fun other member => ?_, inserted⟩
      rcases mem_insertTimer.mp member with rfl | member
      · rw [known, here, Sooner]
        omega
      · exact first other member
    simp only [insertTimer]
    split_ifs with equal less
    · exact goesOn (same.mp equal).le
    · have next : Sooner (pending timer) (pending t) := by
        rw [known, here]
        exact .inl (lt_of_le_of_ne (behind.mp less) fun tie => equal (same.mpr tie.symm))
      refine List.pairwise_cons.mpr ⟨fun other member => ?_, sorted⟩
      rcases List.mem_cons.mp member with rfl | member
      · exact next
      · exact next.trans (first other member)
    · exact goesOn (not_le.mp fun le => less (behind.mpr le)).le

/-- A call of a timeout function: what the schedule says of the timer, and the tick. -/
structure Fire (τ : Type*) where
  timer : τ
  due : Option Deadline
  tick : ℕ

structure TimerRun (τ : Type*) where
  state : TimerState τ
  /-- The ticks since the start. -/
  now : ℕ := 0
  /-- The starts of timers so far. -/
  started : ℕ := 0
  /-- The deadlines of the timers that were started and have neither fired nor been stopped. -/
  pending : τ → Option Deadline := fun _ => none
  fired : List (Fire τ) := []

namespace TimerRun

/-- The timer is to fire `init_tick` ticks from now. -/
def schedule (r : TimerRun τ) (timer : τ) : TimerRun τ :=
  { r with
    pending := Function.update r.pending timer
      (some ⟨r.now + (r.state.timers timer).initTick.toNat, r.started⟩)
    started := r.started + 1 }

def fire (r : TimerRun τ) (timer : τ) : TimerRun τ :=
  { r with
    pending := Function.update r.pending timer none
    fired := r.fired ++ [⟨timer, r.pending timer, r.now⟩] }

def follow (r : TimerRun τ) : TimerEvent τ → TimerRun τ
  | .start timer => if r.state.phase ≠ .checking ∧ r.state.CanStart timer then r.schedule timer else r
  | .stop timer =>
    if r.state.phase ≠ .checking then { r with pending := Function.update r.pending timer none } else r
  | .control _ _ => r
  | .tick => if r.state.phase = .outside then { r with now := r.now + 1 } else r
  | .check => r
  | .pass =>
    if r.state.phase = .checking then
      match r.state.checkPass.phase with
      | .calling timer => r.fire timer
      | _ => r
    else r
  | .ret =>
    match r.state.phase with
    | .calling timer => if r.state.Restarts timer ∧ r.state.CanStart timer then r.schedule timer else r
    | _ => r

def step (r : TimerRun τ) (event : TimerEvent τ) : TimerRun τ :=
  { r.follow event with state := r.state.step event }

/-- Timers that `rt_timer_init` has set up, and an empty schedule. -/
def boot (rtTick : BitVec 32) (timers : τ → RtTimer) : TimerRun τ := { state := .boot rtTick timers }

/-- The list is the schedule in order, and every timer fires in its tick. -/
structure OnSchedule (r : TimerRun τ) : Prop where
  linked : ∀ timer, timer ∈ r.state.rtTimerList ↔ (r.pending timer).isSome
  sorted : r.state.rtTimerList.Pairwise fun a b => Sooner (r.pending a) (r.pending b)
  remaining : ∀ timer deadline, r.pending timer = some deadline → r.now ≤ deadline.tick ∧
    ((r.state.timers timer).timeoutTick - r.state.rtTick).toNat = deadline.tick - r.now
  onTime : ∀ fire ∈ r.fired, ∃ order, fire.due = some ⟨fire.tick, order⟩
  inOrder : (r.fired.map Fire.due).Pairwise Sooner
  noneMissed : r.state.phase = .outside → ∀ timer deadline, r.pending timer = some deadline →
    r.now < deadline.tick

/-- A time that a timer can be set to. -/
def InRange (tick : BitVec 32) : Prop := 1 ≤ tick ∧ tick < rtTickHalf

instance (tick : BitVec 32) : Decidable (InRange tick) := inferInstanceAs (Decidable (_ ∧ _))

/-- The timer is set to a time in the range, or it is not its own timeout function that starts it. -/
def Regular (r : TimerRun τ) : TimerEvent τ → Prop
  | .start timer => r.state.phase ≠ .calling timer
  | .control _ (.setTime tick) => InRange tick
  | _ => True

/-- What the code knows of the schedule. -/
structure Inv (rtTick : BitVec 32) (r : TimerRun τ) : Prop where
  flags : r.state.Inv
  alone : ∀ timer, r.state.phase = .calling timer → timer ∉ r.state.rtTimerList
  clock : r.state.rtTick = BitVec.ofNat 32 (rtTick.toNat + r.now)
  ranged : ∀ timer, InRange (r.state.timers timer).initTick
  linked : ∀ timer, timer ∈ r.state.rtTimerList ↔ (r.pending timer).isSome
  stamped : ∀ timer deadline, r.pending timer = some deadline →
    (r.state.timers timer).timeoutTick = BitVec.ofNat 32 (rtTick.toNat + deadline.tick)
  ahead : ∀ timer deadline, r.pending timer = some deadline → deadline.tick < r.now + rtTickHalf.toNat
  numbered : ∀ timer deadline, r.pending timer = some deadline → deadline.order < r.started
  due : ∀ timer deadline, r.pending timer = some deadline → r.now ≤ deadline.tick
  noneMissed : r.state.phase = .outside → ∀ timer deadline, r.pending timer = some deadline →
    r.now < deadline.tick
  sorted : r.state.rtTimerList.Pairwise fun a b => Sooner (r.pending a) (r.pending b)
  onTime : ∀ fire ∈ r.fired, ∃ order, fire.due = some ⟨fire.tick, order⟩
  past : ∀ fire ∈ r.fired, fire.tick ≤ r.now
  inOrder : (r.fired.map Fire.due).Pairwise Sooner
  first : ∀ fire ∈ r.fired, ∀ timer ∈ r.state.rtTimerList, Sooner fire.due (r.pending timer)

section Steps

variable {rtTick : BitVec 32} {r : TimerRun τ}

variable {timer : τ} {deadline : Deadline}

omit [DecidableEq τ] in
theorem Inv.pending_of_mem (inv : r.Inv rtTick) (member : timer ∈ r.state.rtTimerList) :
    ∃ deadline, r.pending timer = some deadline :=
  Option.isSome_iff_exists.mp ((inv.linked timer).mp member)

omit [DecidableEq τ] in
theorem Inv.edit (inv : r.Inv rtTick) {state : TimerState τ} {pending : τ → Option Deadline} (flags : state.Inv)
    (alone : ∀ timer, state.phase = .calling timer → timer ∉ state.rtTimerList)
    (clock : state.rtTick = r.state.rtTick) (ranged : ∀ timer, InRange (state.timers timer).initTick)
    (stamps : ∀ timer, (state.timers timer).timeoutTick = (r.state.timers timer).timeoutTick)
    (sublist : state.rtTimerList.Sublist r.state.rtTimerList)
    (linked : ∀ timer, timer ∈ state.rtTimerList ↔ (pending timer).isSome)
    (kept : ∀ timer deadline, pending timer = some deadline → r.pending timer = some deadline)
    (missed : state.phase = .outside → ∀ timer deadline, pending timer = some deadline → r.now < deadline.tick) :
    Inv rtTick { r with state, pending } := by
  have same (timer : τ) (member : timer ∈ state.rtTimerList) : pending timer = r.pending timer := by
    obtain ⟨deadline, known⟩ := Option.isSome_iff_exists.mp ((linked timer).mp member)
    rw [known, kept timer deadline known]
  constructor
  · exact flags
  · exact alone
  · exact clock.trans inv.clock
  · exact ranged
  · exact linked
  · exact fun timer deadline known => (stamps timer).trans (inv.stamped timer deadline (kept timer deadline known))
  · exact fun timer deadline known => inv.ahead timer deadline (kept timer deadline known)
  · exact fun timer deadline known => inv.numbered timer deadline (kept timer deadline known)
  · exact fun timer deadline known => inv.due timer deadline (kept timer deadline known)
  · exact missed
  · refine (inv.sorted.sublist sublist).imp_of_mem fun {a b} left right sooner => ?_
    simpa only [same a left, same b right] using sooner
  · exact inv.onTime
  · exact inv.past
  · exact inv.inOrder
  · intro fire member timer linkedHere
    simpa only [same timer linkedHere] using inv.first fire member timer (sublist.subset linkedHere)

omit [DecidableEq τ] in
theorem Inv.expired_iff (inv : r.Inv rtTick) (known : r.pending timer = some deadline) :
    r.state.Expired timer ↔ deadline.tick = r.now := by
  have later := inv.due timer deadline known
  have near := inv.ahead timer deadline known
  rw [rtTickHalf_toNat] at near
  unfold TimerState.Expired
  rw [inv.clock, inv.stamped timer deadline known,
    SerialNumber.sub_lt_iff (by rw [rtTickHalf_toNat]; omega) (by rw [rtTickHalf_toNat]; omega)]
  omega

omit [DecidableEq τ] in
theorem Inv.stamp (inv : r.Inv rtTick) (timer : τ) :
    r.state.rtTick + (r.state.timers timer).initTick =
      BitVec.ofNat 32 (rtTick.toNat + (r.now + (r.state.timers timer).initTick.toNat)) := by
  rw [inv.clock, ← Nat.add_assoc, BitVec.ofNat_add _ (BitVec.toNat _), BitVec.ofNat_toNat, BitVec.setWidth_eq]

omit [DecidableEq τ] in
/-- What the code compares when it links a timer, in ticks of the schedule. -/
theorem Inv.compared (inv : r.Inv rtTick) (timer : τ) {other : τ} (known : r.pending other = some deadline) :
    let stamp := r.state.rtTick + (r.state.timers timer).initTick
    let tick := r.now + (r.state.timers timer).initTick.toNat
    ((r.state.timers other).timeoutTick - stamp = 0 ↔ deadline.tick = tick) ∧
      ((r.state.timers other).timeoutTick - stamp < rtTickHalf ↔ tick ≤ deadline.tick) := by
  intro stamp tick
  have later := inv.due other deadline known
  have near := inv.ahead other deadline known
  have range : (r.state.timers timer).initTick.toNat < rtTickHalf.toNat := (inv.ranged timer).2
  have stampEq : stamp = BitVec.ofNat 32 (rtTick.toNat + tick) := inv.stamp timer
  have tickEq : tick = r.now + (r.state.timers timer).initTick.toNat := rfl
  rw [rtTickHalf_toNat] at near range
  constructor
  · rw [stampEq, inv.stamped other deadline known, SerialNumber.sub_eq_zero_iff (by omega) (by omega)]
    omega
  · rw [stampEq, inv.stamped other deadline known,
      SerialNumber.sub_lt_iff (by rw [rtTickHalf_toNat]; omega) (by rw [rtTickHalf_toNat]; omega)]
    omega

/-- The timer list behind `rt_timer_start` is in the order of the schedule. -/
theorem Inv.sorted_start (inv : r.Inv rtTick) (timer : τ) :
    (r.state.rtTimerStart timer).rtTimerList.Pairwise fun a b =>
      Sooner ((r.schedule timer).pending a) ((r.schedule timer).pending b) := by
  have others (other : τ) (member : other ∈ r.state.rtTimerList.erase timer) :
      other ≠ timer ∧ other ∈ r.state.rtTimerList := inv.flags.distinct.mem_erase_iff.mp member
  have sorted : (r.state.rtTimerList.erase timer).Pairwise fun a b =>
      Sooner ((r.schedule timer).pending a) ((r.schedule timer).pending b) := by
    refine (inv.sorted.sublist List.erase_sublist).imp_of_mem fun {a b} left right sooner => ?_
    simpa [schedule, (others a left).1, (others b right).1] using sooner
  rw [TimerState.rtTimerStart_eq]
  apply sorted_insertTimer (Function.update_self ..) _ sorted
  intro other member
  obtain ⟨ne, linked⟩ := others other member
  obtain ⟨deadline, known⟩ := inv.pending_of_mem linked
  refine ⟨deadline, by simp [ne, known], inv.numbered other deadline known, ?_⟩
  simpa [ne] using inv.compared timer known

/-- `rt_timer_start` follows the schedule, from a call or from the check. -/
theorem Inv.start (inv : r.Inv rtTick) {phase : CheckPhase τ} (away : phase ≠ .calling timer)
    (origin : phase = r.state.phase ∨ phase = .checking)
    (flags : TimerState.Inv { r.state.rtTimerStart timer with phase }) :
    Inv rtTick { r.schedule timer with state := { r.state.rtTimerStart timer with phase } } := by
  have positive : 1 ≤ (r.state.timers timer).initTick.toNat := (inv.ranged timer).1
  have range : (r.state.timers timer).initTick.toNat < rtTickHalf.toNat := (inv.ranged timer).2
  have members (other : τ) := @TimerState.Inv.mem_rtTimerStart _ _ _ inv.flags timer other
  have cases_ (other : τ) (deadline : Deadline) (known : (r.schedule timer).pending other = some deadline) :
      other = timer ∧ deadline = ⟨r.now + (r.state.timers timer).initTick.toNat, r.started⟩ ∨
        other ≠ timer ∧ r.pending other = some deadline := by
    rcases eq_or_ne other timer with rfl | ne
    · left
      simpa [schedule, eq_comm] using known
    · right
      simpa [schedule, ne] using known
  constructor
  · exact flags
  · intro other inside
    rcases origin with same | head
    · have ne : other ≠ timer := fun equal => away (equal ▸ inside)
      rw [members]
      exact fun member => inv.alone other (same ▸ inside) (member.resolve_left ne)
    · exact absurd (head.symm.trans inside) (by simp)
  · exact inv.clock
  · intro other
    rcases eq_or_ne other timer with rfl | ne
    · simpa using inv.ranged other
    · simpa [ne] using inv.ranged other
  · intro other
    rw [members]
    rcases eq_or_ne other timer with rfl | ne
    · simp [schedule]
    · simp [schedule, ne, inv.linked]
  · intro other deadline known
    obtain ⟨rfl, rfl⟩ | ⟨ne, known⟩ := cases_ other deadline known
    · simpa using inv.stamp other
    · simpa [ne] using inv.stamped other deadline known
  · intro other deadline known
    obtain ⟨rfl, rfl⟩ | ⟨-, known⟩ := cases_ other deadline known
    · exact Nat.add_lt_add_left range _
    · exact inv.ahead other deadline known
  · intro other deadline known
    obtain ⟨rfl, rfl⟩ | ⟨-, known⟩ := cases_ other deadline known
    · exact Nat.lt_succ_self _
    · exact Nat.lt_succ_of_lt (inv.numbered other deadline known)
  · intro other deadline known
    obtain ⟨rfl, rfl⟩ | ⟨-, known⟩ := cases_ other deadline known
    · exact Nat.le_add_right _ _
    · exact inv.due other deadline known
  · intro outside other deadline known
    obtain ⟨rfl, rfl⟩ | ⟨-, known⟩ := cases_ other deadline known
    · exact Nat.lt_add_of_pos_right positive
    · refine inv.noneMissed ?_ other deadline known
      rcases origin with same | head
      · exact same.symm.trans outside
      · exact absurd (head.symm.trans outside) (by simp)
  · exact inv.sorted_start timer
  · exact inv.onTime
  · exact inv.past
  · exact inv.inOrder
  · intro fire member other linked
    obtain ⟨order, due⟩ := inv.onTime fire member
    rcases eq_or_ne other timer with rfl | ne
    · have past := inv.past fire member
      simp only [schedule, Function.update_self, due, Sooner]
      omega
    · have before := inv.first fire member other (((members other).mp linked).resolve_left ne)
      simpa [schedule, ne] using before

theorem Inv.linked_erase (inv : r.Inv rtTick) (timer other : τ) :
    other ∈ r.state.rtTimerList.erase timer ↔ (Function.update r.pending timer none other).isSome := by
  rw [inv.flags.distinct.mem_erase_iff]
  rcases eq_or_ne other timer with rfl | ne
  · simp
  · simp [ne, inv.linked]

theorem pending_of_update {pending : τ → Option Deadline} {timer other : τ}
    (known : Function.update pending timer none other = some deadline) : pending other = some deadline := by
  rcases eq_or_ne other timer with rfl | ne
  · simp at known
  · simpa [ne] using known

theorem Inv.stop (inv : r.Inv rtTick) (timer : τ) :
    Inv rtTick { r with state := (r.state.rtTimerStop timer).2, pending := Function.update r.pending timer none } := by
  rcases active : (r.state.timers timer).activated with _ | _
  · have unlinked : timer ∉ r.state.rtTimerList := fun member => by simp [inv.flags.linked timer member] at active
    have none : r.pending timer = none := by
      rwa [inv.linked, Option.not_isSome_iff_eq_none] at unlinked
    rw [← none, Function.update_eq_self]
    simpa only [TimerState.rtTimerStop, active, if_true] using inv
  · have flags := inv.flags.stop timer
    rw [TimerState.rtTimerStop_of_activated active] at flags ⊢
    apply inv.edit flags
    · exact fun other inside member => inv.alone other inside (List.mem_of_mem_erase member)
    · rfl
    · intro other
      rcases eq_or_ne other timer with rfl | ne
      · simpa [TimerState.rtTimerRemove] using inv.ranged other
      · simpa [TimerState.rtTimerRemove, ne] using inv.ranged other
    · intro other
      rcases eq_or_ne other timer with rfl | ne
      · simp [TimerState.rtTimerRemove]
      · simp [TimerState.rtTimerRemove, ne]
    · exact List.erase_sublist
    · exact inv.linked_erase timer
    · exact fun other deadline known => pending_of_update known
    · exact fun outside other deadline known => inv.noneMissed outside other deadline (pending_of_update known)

theorem Inv.control (inv : r.Inv rtTick) (timer : τ) {cmd : TimerControl} (regular : r.Regular (.control timer cmd)) :
    Inv rtTick { r with state := r.state.onTimer timer (rtTimerControl cmd) } := by
  apply inv.edit (inv.flags.control timer cmd) inv.alone rfl
  · intro other
    rcases eq_or_ne other timer with rfl | ne
    · cases cmd with
      | setTime tick => simpa [rtTimerControl] using (show InRange tick from regular)
      | setOneshot => simpa [rtTimerControl] using inv.ranged other
      | setPeriodic => simpa [rtTimerControl] using inv.ranged other
    · simpa [ne] using inv.ranged other
  · intro other
    rcases eq_or_ne other timer with rfl | ne
    · cases cmd <;> simp [rtTimerControl]
    · simp [ne]
  · exact List.Sublist.refl _
  · exact inv.linked
  · exact fun other deadline known => known
  · exact inv.noneMissed

omit [DecidableEq τ] in
theorem Inv.turn (inv : r.Inv rtTick) {phase : CheckPhase τ} (flags : TimerState.Inv { r.state with phase })
    (alone : ∀ timer, phase = .calling timer → timer ∉ r.state.rtTimerList)
    (missed : phase = .outside → ∀ timer deadline, r.pending timer = some deadline → r.now < deadline.tick) :
    Inv rtTick { r with state := { r.state with phase } } :=
  inv.edit flags alone rfl inv.ranged (fun _ => rfl) (List.Sublist.refl _) inv.linked (fun _ _ known => known) missed

omit [DecidableEq τ] in
theorem Inv.tick (inv : r.Inv rtTick) (idle : r.state.phase = .outside) :
    Inv rtTick { r with
      state := { r.state with rtTick := r.state.rtTick + 1, phase := .checking }, now := r.now + 1 } := by
  refine { inv with flags := ?_, alone := ?_, clock := ?_, ahead := ?_, due := ?_, noneMissed := ?_, past := ?_ }
  · exact { inv.flags with activated := fun timer _ => inv.flags.activated timer (by simp [idle]) }
  · simp
  · rw [← Nat.add_assoc, BitVec.ofNat_add, ← inv.clock]
    rfl
  · exact fun timer deadline known => Nat.lt_of_lt_of_le (inv.ahead timer deadline known) (by simp only; omega)
  · exact inv.noneMissed idle
  · simp
  · exact fun fire member => Nat.le_succ_of_le (inv.past fire member)

omit [DecidableEq τ] in
/-- The check ends: the first timer of the list is still to come, and so are all others. -/
theorem Inv.noneExpired (inv : r.Inv rtTick) (waits : ∀ t rest, r.state.rtTimerList = t :: rest → ¬ r.state.Expired t)
    (known : r.pending timer = some deadline) : r.now < deadline.tick := by
  have member : timer ∈ r.state.rtTimerList := (inv.linked timer).mpr (by simp [known])
  have sorted := inv.sorted
  rcases list : r.state.rtTimerList with _ | ⟨t, rest⟩
  · simp [list] at member
  · rw [list] at member sorted
    obtain ⟨head, headKnown⟩ := inv.pending_of_mem (list ▸ List.mem_cons_self : t ∈ r.state.rtTimerList)
    have later := inv.due t head headKnown
    have notNow : head.tick ≠ r.now := fun now => waits t rest list ((inv.expired_iff headKnown).mpr now)
    rcases List.mem_cons.mp member with rfl | behind
    · have same : deadline = head := Option.some.inj (known.symm.trans headKnown)
      rw [same]
      omega
    · have before := (List.pairwise_cons.mp sorted).1 timer behind
      rw [known, headKnown, Sooner] at before
      omega

/-- The check calls the timeout function of the first timer, which is due now. -/
theorem Inv.fire (inv : r.Inv rtTick) {t : τ} {rest : List τ} (list : r.state.rtTimerList = t :: rest)
    (expired : r.state.Expired t)
    (flags : TimerState.Inv { r.state with rtTimerList := rest, phase := .calling t }) :
    Inv rtTick { r.fire t with state := { r.state with rtTimerList := rest, phase := .calling t } } := by
  have erased : r.state.rtTimerList.erase t = rest := by simp [list]
  obtain ⟨head, known⟩ := inv.pending_of_mem (list ▸ List.mem_cons_self : t ∈ r.state.rtTimerList)
  have now := (inv.expired_iff known).mp expired
  obtain ⟨before, -⟩ := List.pairwise_cons.mp (list ▸ inv.sorted)
  obtain ⟨notBehind, -⟩ := List.nodup_cons.mp (list ▸ inv.flags.distinct)
  have waits : Inv rtTick { r with
      state := { r.state with rtTimerList := rest, phase := .calling t }
      pending := Function.update r.pending t none } := by
    apply inv.edit flags
    · rintro other inside
      rwa [← CheckPhase.calling.inj inside]
    · rfl
    · exact inv.ranged
    · exact fun _ => rfl
    · exact list ▸ List.sublist_cons_self t rest
    · exact fun other => erased ▸ inv.linked_erase t other
    · exact fun other deadline known => pending_of_update known
    · simp
  have fires (fire : Fire τ) : fire ∈ r.fired ++ [⟨t, r.pending t, r.now⟩] ↔
      fire ∈ r.fired ∨ fire = ⟨t, r.pending t, r.now⟩ := by
    rw [List.mem_append, List.mem_singleton]
  refine { waits with onTime := ?_, past := ?_, inOrder := ?_, first := ?_ }
  · intro fire member
    rcases (fires fire).mp member with old | rfl
    · exact inv.onTime fire old
    · exact ⟨head.order, by rw [known, ← now]⟩
  · intro fire member
    rcases (fires fire).mp member with old | rfl
    · exact inv.past fire old
    · exact le_rfl
  · have extended : (r.fired.map Fire.due ++ [r.pending t]).Pairwise Sooner := by
      refine List.pairwise_append.mpr ⟨inv.inOrder, List.pairwise_singleton _ _, ?_⟩
      intro due member next nextMember
      obtain ⟨fire, old, rfl⟩ := List.mem_map.mp member
      rw [List.mem_singleton.mp nextMember]
      exact inv.first fire old t (list ▸ List.mem_cons_self)
    simpa [TimerRun.fire] using extended
  · intro fire member other linked
    have ne : other ≠ t := fun same => notBehind (same ▸ linked)
    rcases (fires fire).mp member with old | rfl
    · exact waits.first fire old other linked
    · simpa [TimerRun.fire, ne] using before other linked

theorem Inv.pass (inv : r.Inv rtTick) (atHead : r.state.phase = .checking) : Inv rtTick (r.step .pass) := by
  have flags := inv.flags.checkPass atHead
  obtain ⟨waits, settled⟩ | ⟨t, rest, list, expired, fires⟩ := r.state.checkPass_cases
  · rw [settled] at flags
    have follows : r.step .pass = { r with state := { r.state with phase := .outside } } := by
      simp [step, follow, TimerState.step, atHead, settled]
    rw [follows]
    exact inv.turn flags (by simp) fun _ timer deadline known => inv.noneExpired waits known
  · rw [fires] at flags
    have follows : r.step .pass =
        { r.fire t with state := { r.state with rtTimerList := rest, phase := .calling t } } := by
      simp [step, follow, TimerState.step, atHead, fires]
    rw [follows]
    exact inv.fire list expired flags

theorem Inv.ret (inv : r.Inv rtTick) (inside : r.state.phase = .calling timer) : Inv rtTick (r.step .ret) := by
  have unlinked := inv.alone timer inside
  have flags := inv.flags.checkReturn inside fun member => absurd member unlinked
  rcases Decidable.em (r.state.Restarts timer) with restarts | settled
  · have canStart : r.state.CanStart timer := (inv.ranged timer).2
    have returns : r.state.checkReturn timer = { r.state.rtTimerStart timer with phase := .checking } := by
      rw [TimerState.checkReturn, if_pos restarts, TimerState.rtTimerStart_of_cleared]
    have follows : r.step .ret =
        { r.schedule timer with state := { r.state.rtTimerStart timer with phase := .checking } } := by
      simp [step, follow, TimerState.step, inside, restarts, canStart, returns]
    rw [follows]
    exact inv.start (by simp) (.inr rfl) (returns ▸ flags)
  · have follows : r.step .ret = { r with state := r.state.checkReturn timer } := by
      simp [step, follow, TimerState.step, inside, settled]
    rw [follows]
    have returns : r.state.checkReturn timer =
        { r.state.onTimer timer (fun t => { t with activated := false }) with phase := .checking } := by
      rw [TimerState.checkReturn, if_neg settled]
    rw [returns] at flags ⊢
    apply inv.edit flags
    · simp
    · rfl
    · intro other
      rcases eq_or_ne other timer with rfl | ne
      · simpa using inv.ranged other
      · simpa [ne] using inv.ranged other
    · intro other
      rcases eq_or_ne other timer with rfl | ne
      · simp
      · simp [ne]
    · exact List.Sublist.refl _
    · exact inv.linked
    · exact fun _ _ known => known
    · simp

theorem Inv.step (inv : r.Inv rtTick) {event : TimerEvent τ} (regular : r.Regular event) :
    Inv rtTick (r.step event) := by
  cases event with
  | start timer =>
    simp only [TimerRun.step, follow, TimerState.step]
    split
    · exact inv.start regular (.inl rfl) (inv.flags.start timer)
    · exact inv
  | stop timer =>
    simp only [TimerRun.step, follow, TimerState.step]
    split
    · exact inv.stop timer
    · exact inv
  | control timer cmd =>
    simp only [TimerRun.step, follow, TimerState.step]
    split
    · exact inv.control timer regular
    · exact inv
  | tick =>
    simp only [TimerRun.step, follow, TimerState.step]
    split
    · exact inv.tick ‹_›
    · exact inv
  | check =>
    simp only [TimerRun.step, follow, TimerState.step]
    split
    · rename_i idle
      refine inv.turn ?_ (by simp) (by simp)
      exact { inv.flags with activated := fun timer _ => inv.flags.activated timer (by simp [idle]) }
    · exact inv
  | pass =>
    rcases Decidable.em (r.state.phase = .checking) with atHead | elsewhere
    · exact inv.pass atHead
    · simpa [TimerRun.step, follow, TimerState.step, elsewhere] using inv
  | ret =>
    cases inside : r.state.phase with
    | calling timer => exact inv.ret inside
    | outside => simpa [TimerRun.step, follow, TimerState.step, inside] using inv
    | checking => simpa [TimerRun.step, follow, TimerState.step, inside] using inv

omit [DecidableEq τ] in
theorem Inv.scheduled (inv : r.Inv rtTick) : r.OnSchedule where
  linked := inv.linked
  sorted := inv.sorted
  remaining := by
    intro timer deadline known
    have later := inv.due timer deadline known
    have near := inv.ahead timer deadline known
    rw [rtTickHalf_toNat] at near
    refine ⟨later, ?_⟩
    rw [inv.clock, inv.stamped timer deadline known, SerialNumber.toNat_sub_of_le (by omega) (by omega)]
    omega
  onTime := inv.onTime
  inOrder := inv.inOrder
  noneMissed := inv.noneMissed

end Steps

omit [DecidableEq τ] in
theorem inv_boot {timers : τ → RtTimer} (ranged : ∀ timer, InRange (timers timer).initTick) (rtTick : BitVec 32) :
    (boot rtTick timers).Inv rtTick := by
  have flags := TimerState.inv_boot rtTick timers
  constructor <;> simp [boot, TimerState.boot]
  · exact flags
  · exact ranged

/-- In every state of a run the timer list is the schedule in order, and every timer has fired in
its tick. -/
theorem onSchedule {timers : τ → RtTimer} (ranged : ∀ timer, InRange (timers timer).initTick)
    (rtTick : BitVec 32) {events : List (TimerEvent τ)}
    (regular : Run.Along step Regular (boot rtTick timers) events) :
    Run.Always step OnSchedule (boot rtTick timers) events := by
  apply Run.Along.always _ _ (inv_boot ranged rtTick) regular
  · intro r event inv regular
    exact inv.step regular
  · intro r inv
    exact inv.scheduled

/-- The theorem at a periodic and a one-shot timer, while the tick wraps. -/
theorem onSchedule_twoTimers :
    Run.Always step OnSchedule
      (boot 0xffffffff fun periodic : Bool => { initTick := if periodic then 2 else 1, periodic })
      [.start true, .start false, .tick, .pass, .ret, .pass, .tick, .pass, .stop false, .ret, .pass] := by
  have ranged : ∀ periodic : Bool, InRange (if periodic then 2 else 1) := by decide
  apply onSchedule ranged
  have outside (timer : Bool) : CheckPhase.outside ≠ .calling timer := by simp
  exact ⟨outside true, outside false, trivial, trivial, trivial,
    trivial, trivial, trivial, trivial, trivial, trivial, trivial⟩

end TimerRun

end RtThread
