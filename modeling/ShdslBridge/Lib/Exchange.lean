import Mathlib.Data.List.Basic

/-! # Two sides that wait for each other

A caller of one side takes up to a number of units from the level of its side and adds them to the
level of the other side, as a reader frees the space that writers need. A caller that finds the
level of its side at zero waits in the list of its side. A transfer resumes one caller of the other
side, who tries again later.

The rule can lose a wake-up in one way only, which `Covers` excludes: the last resumed caller leaves
units of its side behind, while another caller of its side waits and none of the other side does.
-/

/-- The two levels, the waiting callers and the calls in progress. The sides are the two booleans. -/
@[ext]
structure Exchange (τ : Type*) where
  level : Bool → ℕ
  waiting : Bool → List τ
  call : τ → Option (Bool × ℕ)

namespace Exchange

variable {τ : Type*} [DecidableEq τ]

/-- The caller has been resumed and has not tried again. -/
def Resumed (s : Exchange τ) (caller : τ) : Prop :=
  ∃ side size, s.call caller = some (side, size) ∧ caller ∉ s.waiting side

/-- Every resumed caller has run until it returned or waits again. -/
def Quiet (s : Exchange τ) : Prop := ∀ caller, ¬ s.Resumed caller

/-- Nobody waits for units that are there. -/
def NoLostWakeup (s : Exchange τ) : Prop := s.Quiet → ∀ side, s.waiting side ≠ [] → s.level side = 0

/-- The levels after a transfer. -/
def moved (s : Exchange τ) (side : Bool) (count : ℕ) (which : Bool) : ℕ :=
  if which = side then s.level which - count else s.level which + count

/-- One try of a caller. -/
def transfer (s : Exchange τ) (caller : τ) (side : Bool) (size : ℕ) : Exchange τ :=
  if s.level side = 0 then
    { s with
      waiting := Function.update s.waiting side (s.waiting side ++ [caller])
      call := Function.update s.call caller (some (side, size)) }
  else
    { level := s.moved side (min size (s.level side))
      waiting := Function.update s.waiting (!side) (s.waiting (!side)).tail
      call := Function.update s.call caller none }

/-- The caller starts this call, or it has been resumed in it. -/
def Active (s : Exchange τ) (caller : τ) (side : Bool) (size : ℕ) : Prop :=
  s.call caller = none ∨ s.call caller = some (side, size) ∧ caller ∉ s.waiting side

/-- The last resumed caller does not leave units behind for which only its own side waits. -/
def Covers (s : Exchange τ) (caller : τ) (side : Bool) (size : ℕ) : Prop :=
  s.call caller ≠ none → (∀ other ≠ caller, ¬ s.Resumed other) → s.waiting side ≠ [] →
    s.waiting (!side) = [] → s.level side ≤ size

/-- The waiting callers are in calls, and a side that has all the units has a resumed caller if it
has a waiting one. -/
structure Inv (s : Exchange τ) : Prop where
  listed : ∀ side, ∀ caller ∈ s.waiting side, ∃ size, s.call caller = some (side, size)
  distinct : ∀ side, (s.waiting side).Nodup
  noLostWakeup : s.NoLostWakeup
  covered : ∀ side, 0 < s.level side → s.level (!side) = 0 → s.waiting side ≠ [] →
    ∃ caller size, s.call caller = some (side, size) ∧ caller ∉ s.waiting side

section

variable {s : Exchange τ} {caller : τ} {side : Bool} {size : ℕ}

omit [DecidableEq τ] in
theorem Inv.outside (inv : Inv s) (active : s.Active caller side size) (which : Bool) :
    caller ∉ s.waiting which := by
  intro member
  obtain ⟨size', inCall⟩ := inv.listed which caller member
  rcases active with none | ⟨resumed, outside⟩
  · rw [none] at inCall
    cases inCall
  · rw [resumed] at inCall
    obtain ⟨rfl, -⟩ := Prod.mk.inj (Option.some.inj inCall)
    exact outside member

omit [DecidableEq τ] in
theorem Active.ne_other_side (active : s.Active caller side size) {other : τ} {size' : ℕ}
    (inCall : s.call other = some (!side, size')) : other ≠ caller := by
  rintro rfl
  rcases active with none | ⟨resumed, -⟩
  · rw [none] at inCall
    cases inCall
  · rw [resumed] at inCall
    have same := (Prod.mk.inj (Option.some.inj inCall)).1
    simp at same

theorem transfer_waits (exhausted : s.level side = 0) :
    s.transfer caller side size =
      { s with
        waiting := Function.update s.waiting side (s.waiting side ++ [caller])
        call := Function.update s.call caller (some (side, size)) } := by
  rw [transfer, if_pos exhausted]

theorem transfer_serves (units : s.level side ≠ 0) :
    s.transfer caller side size =
      { level := s.moved side (min size (s.level side))
        waiting := Function.update s.waiting (!side) (s.waiting (!side)).tail
        call := Function.update s.call caller none } := by
  rw [transfer, if_neg units]

/-- A caller that has to wait leaves the other side covered. -/
theorem Inv.waits (inv : Inv s) (active : s.Active caller side size) (exhausted : s.level side = 0) :
    Inv (s.transfer caller side size) := by
  have ownList : (s.transfer caller side size).waiting side = s.waiting side ++ [caller] := by
    rw [transfer_waits exhausted]
    simp
  have otherList : (s.transfer caller side size).waiting (!side) = s.waiting (!side) := by
    rw [transfer_waits exhausted]
    simp
  have levels : (s.transfer caller side size).level = s.level := by rw [transfer_waits exhausted]
  have ownCall : (s.transfer caller side size).call caller = some (side, size) := by
    rw [transfer_waits exhausted]
    simp
  have otherCall : ∀ other ≠ caller, (s.transfer caller side size).call other = s.call other := by
    intro other ne
    rw [transfer_waits exhausted]
    simp [ne]
  have persists : s.waiting (!side) ≠ [] → 0 < s.level (!side) →
      ∃ other size', (s.transfer caller side size).call other = some (!side, size') ∧
        other ∉ (s.transfer caller side size).waiting (!side) := by
    intro waiting units
    obtain ⟨other, size', inCall, notWaiting⟩ :=
      inv.covered (!side) units (by rwa [Bool.not_not]) waiting
    refine ⟨other, size', ?_, otherList ▸ notWaiting⟩
    rw [otherCall other (active.ne_other_side inCall), inCall]
  constructor
  · intro which other member
    rcases eq_or_ne other caller with rfl | ne
    · rcases eq_or_ne which side with rfl | neSide
      · exact ⟨size, ownCall⟩
      · obtain rfl := Bool.eq_not_of_ne neSide
        rw [otherList] at member
        exact absurd member (inv.outside active _)
    · rw [otherCall other ne]
      apply inv.listed
      rcases eq_or_ne which side with rfl | neSide
      · simpa [ownList, ne] using member
      · obtain rfl := Bool.eq_not_of_ne neSide
        exact otherList ▸ member
  · intro which
    rcases eq_or_ne which side with rfl | neSide
    · rw [ownList]
      exact (List.perm_append_singleton caller _).nodup_iff.mpr
        (List.nodup_cons.mpr ⟨inv.outside active which, inv.distinct which⟩)
    · obtain rfl := Bool.eq_not_of_ne neSide
      rw [otherList]
      exact inv.distinct _
  · intro quiet which waiting
    rw [levels]
    rcases eq_or_ne which side with rfl | neSide
    · exact exhausted
    · obtain rfl := Bool.eq_not_of_ne neSide
      by_contra units
      obtain ⟨other, size', inCall, notWaiting⟩ := persists (otherList ▸ waiting) (Nat.pos_of_ne_zero units)
      exact quiet other ⟨!side, size', inCall, notWaiting⟩
  · intro which units none waiting
    rw [levels] at units none
    rcases eq_or_ne which side with rfl | neSide
    · omega
    · obtain rfl := Bool.eq_not_of_ne neSide
      exact persists (otherList ▸ waiting) units

/-- The first caller of the other side is resumed. -/
theorem Inv.resumes (inv : Inv s) (active : s.Active caller side size) (units : s.level side ≠ 0)
    (waiting : s.waiting (!side) ≠ []) :
    ∃ other size', (s.transfer caller side size).call other = some (!side, size') ∧
      other ∉ (s.transfer caller side size).waiting (!side) := by
  obtain ⟨other, rest, list⟩ := List.exists_cons_of_ne_nil waiting
  obtain ⟨size', inCall⟩ := inv.listed (!side) other (by simp [list])
  obtain ⟨notLater, -⟩ := List.nodup_cons.mp (list ▸ inv.distinct (!side))
  refine ⟨other, size', ?_, ?_⟩
  · rw [transfer_serves units, ← inCall]
    exact Function.update_of_ne (active.ne_other_side inCall) _ _
  · rw [transfer_serves units]
    simpa [list] using notLater

theorem Inv.serves (inv : Inv s) (active : s.Active caller side size) (positive : 0 < size)
    (covers : s.Covers caller side size) (units : s.level side ≠ 0) :
    Inv (s.transfer caller side size) := by
  have list : (s.transfer caller side size).waiting side = s.waiting side := by
    rw [transfer_serves units]
    simp
  have otherList : (s.transfer caller side size).waiting (!side) = (s.waiting (!side)).tail := by
    rw [transfer_serves units]
    simp
  have level : (s.transfer caller side size).level side = s.level side - min size (s.level side) := by
    rw [transfer_serves units]
    simp [moved]
  have otherLevel : (s.transfer caller side size).level (!side) = s.level (!side) + min size (s.level side) := by
    rw [transfer_serves units]
    simp [moved]
  have sublist : ∀ which, ((s.transfer caller side size).waiting which).Sublist (s.waiting which) := by
    intro which
    rcases eq_or_ne which side with rfl | ne
    · rw [list]
    · obtain rfl := Bool.eq_not_of_ne ne
      rw [otherList]
      exact List.tail_sublist _
  constructor
  · intro which other member
    have before := (sublist which).mem member
    have ne : other ≠ caller := fun same => inv.outside active which (same ▸ before)
    rw [transfer_serves units]
    simpa [ne] using inv.listed which other before
  · intro which
    exact (sublist which).nodup (inv.distinct which)
  · intro quiet which waiting
    have nobody : s.waiting (!side) = [] := by
      by_contra waits
      obtain ⟨other, size', inCall, notWaiting⟩ := inv.resumes active units waits
      exact quiet other ⟨!side, size', inCall, notWaiting⟩
    rcases eq_or_ne which side with rfl | ne
    · rw [list] at waiting
      rw [level]
      have others : ∀ other ≠ caller, ¬ s.Resumed other := by
        rintro other neCaller ⟨side', size', inCall, notWaiting⟩
        refine quiet other ⟨side', size', ?_, fun member => notWaiting ((sublist side').mem member)⟩
        rw [transfer_serves units]
        simpa [neCaller] using inCall
      rcases Decidable.em (s.call caller = none) with fresh | resumed
      · have quietBefore : s.Quiet := by
          intro other resumed
          rcases eq_or_ne other caller with rfl | neCaller
          · obtain ⟨side', size', inCall, -⟩ := resumed
            rw [fresh] at inCall
            cases inCall
          · exact others other neCaller resumed
        exact absurd (inv.noLostWakeup quietBefore which waiting) units
      · have drained := covers resumed others waiting nobody
        omega
    · obtain rfl := Bool.eq_not_of_ne ne
      rw [otherList, nobody] at waiting
      exact absurd rfl waiting
  · intro which some none waiting
    rcases eq_or_ne which side with rfl | ne
    · omega
    · obtain rfl := Bool.eq_not_of_ne ne
      refine inv.resumes active units ?_
      intro nobody
      rw [otherList, nobody] at waiting
      exact absurd rfl waiting

/-- One try of a caller that leaves nothing uncovered. -/
theorem Inv.transfer (inv : Inv s) (active : s.Active caller side size) (positive : 0 < size)
    (covers : s.Covers caller side size) : Inv (s.transfer caller side size) := by
  rcases Decidable.em (s.level side = 0) with exhausted | units
  · exact inv.waits active exhausted
  · exact inv.serves active positive covers units

/-- A try that leaves units uncovered leaves a caller waiting for them. -/
theorem transfer_loses (uncovered : ¬ s.Covers caller side size) :
    ¬ (s.transfer caller side size).NoLostWakeup := by
  unfold Covers at uncovered
  push Not at uncovered
  obtain ⟨-, others, waiting, nobody, left⟩ := uncovered
  have units : s.level side ≠ 0 := by omega
  intro noLostWakeup
  have quiet : (s.transfer caller side size).Quiet := by
    rintro other ⟨side', size', inCall, notWaiting⟩
    rw [transfer_serves units] at inCall notWaiting
    rcases eq_or_ne other caller with rfl | ne
    · simp at inCall
    · refine others other ne ⟨side', size', by simpa [ne] using inCall, ?_⟩
      rcases eq_or_ne side' side with rfl | neSide
      · simpa using notWaiting
      · obtain rfl := Bool.eq_not_of_ne neSide
        simp [nobody]
  have empty := noLostWakeup quiet side (by rw [transfer_serves units]; simpa using waiting)
  rw [transfer_serves units] at empty
  simp only [moved, if_true] at empty
  omega

end

omit [DecidableEq τ] in
/-- Two levels with nobody inside. -/
theorem inv_start (level : Bool → ℕ) : Inv { level, waiting := fun _ => [], call := fun _ : τ => none } where
  listed := by simp
  distinct := by simp
  noLostWakeup := by simp [NoLostWakeup]
  covered := by simp

end Exchange
