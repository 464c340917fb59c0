import Mathlib.Data.List.Basic
import Mathlib.Order.MinMax

/-! # Address-ordered free lists of an allocator with coalescing

A free list keeps the runs of units that are not handed out. An allocation takes the front of the
first run that is long enough; a release puts a run back and merges it with the runs it touches.

`cells` counts the runs that hold an address. The count is additive: an allocation takes exactly the
addresses of the run that it returns out of it, a release adds exactly those of the run given back,
whatever the list looks like. That the runs stay in the order of their addresses, and so apart, is
`Ordered`.
-/

namespace FreeList

/-- A run of `size` units from `addr` on. -/
structure Extent where
  addr : ℕ
  size : ℕ
  deriving DecidableEq, Repr

/-- One when the address lies in the half-open interval. -/
def inside (start stop address : ℕ) : ℕ := if start ≤ address ∧ address < stop then 1 else 0

/-- An interval is counted as its two parts are. -/
theorem inside_add {start middle stop : ℕ} (left : start ≤ middle) (right : middle ≤ stop) (address : ℕ) :
    inside start middle address + inside middle stop address = inside start stop address := by
  simp only [inside]
  split_ifs <;> omega

theorem inside_le_one (start stop address : ℕ) : inside start stop address ≤ 1 := by
  rw [inside]
  split_ifs <;> omega

theorem inside_pos {start stop address : ℕ} : 0 < inside start stop address ↔ start ≤ address ∧ address < stop := by
  rw [inside]
  split_ifs with holds
  · exact iff_of_true Nat.one_pos holds
  · exact iff_of_false (Nat.lt_irrefl 0) holds

section

variable (unit : ℕ)

/-- The first address behind a run. -/
def Extent.stop (extent : Extent) : ℕ := extent.addr + extent.size * unit

/-- How many of the runs hold the address. -/
def cells : List Extent → ℕ → ℕ
  | [], _ => 0
  | extent :: rest, address => inside extent.addr (extent.stop unit) address + cells rest address

/-- The runs stand in the order of their addresses, and apart. -/
def Ordered (list : List Extent) : Prop :=
  list.Pairwise fun before behind => before.stop unit ≤ behind.addr

/-- The runs stand in the order of their addresses, with room between them. -/
def Separate (list : List Extent) : Prop :=
  list.Pairwise fun before behind => before.stop unit < behind.addr

/-- The run keeps clear of every run of the list. -/
def Apart (extent : Extent) (list : List Extent) : Prop :=
  ∀ other ∈ list, other.stop unit ≤ extent.addr ∨ extent.stop unit ≤ other.addr

/-- Takes `count` units from the front of the first run that has them. -/
def firstFit (count : ℕ) : List Extent → Option (ℕ × List Extent)
  | [] => none
  | extent :: rest =>
    if count < extent.size then
      some (extent.addr, ⟨extent.addr + count * unit, extent.size - count⟩ :: rest)
    else if extent.size = count then some (extent.addr, rest)
    else (firstFit count rest).map fun taken => (taken.1, extent :: taken.2)

/-- Merges a run with the one that follows it in the list, if the two touch. -/
def joinNext (extent : Extent) : List Extent → List Extent
  | [] => [extent]
  | behind :: rest =>
    if extent.stop unit = behind.addr then ⟨extent.addr, extent.size + behind.size⟩ :: rest
    else extent :: behind :: rest

/-- Puts a run back and merges it with the runs it touches. -/
def release (extent : Extent) : List Extent → List Extent
  | [] => [extent]
  | other :: rest =>
    if other.stop unit = extent.addr then joinNext unit ⟨other.addr, other.size + extent.size⟩ rest
    else if other.addr = extent.stop unit then ⟨extent.addr, other.size + extent.size⟩ :: rest
    else if extent.stop unit < other.addr then extent :: other :: rest
    else other :: release extent rest

/-- Puts a run in front of the first run that starts behind it, without merging. -/
def link (extent : Extent) : List Extent → List Extent
  | [] => [extent]
  | other :: rest => if extent.stop unit < other.addr then extent :: other :: rest else other :: link extent rest

end

variable {unit : ℕ}

/-! ## Runs that are split and joined -/

variable {extent : Extent} {count : ℕ} {list : List Extent} {addr : ℕ}

/-- A run is as long as its front and the rest. -/
theorem stop_split (fits : count ≤ extent.size) :
    (⟨extent.addr + count * unit, extent.size - count⟩ : Extent).stop unit = extent.stop unit := by
  change extent.addr + count * unit + (extent.size - count) * unit = extent.addr + extent.size * unit
  rw [Nat.add_assoc, ← Nat.add_mul, Nat.add_sub_cancel' fits]

/-- Two runs that touch are one. -/
theorem stop_join {left right : Extent} (touch : left.stop unit = right.addr) :
    (⟨left.addr, left.size + right.size⟩ : Extent).stop unit = right.stop unit := by
  change left.addr + (left.size + right.size) * unit = right.addr + right.size * unit
  rw [← touch, Extent.stop, Nat.add_mul, Nat.add_assoc]

theorem addr_le_stop (extent : Extent) : extent.addr ≤ extent.stop unit := Nat.le_add_right _ _

theorem addr_lt_stop (nonzero : 0 < extent.size) (unitPositive : 0 < unit) :
    extent.addr < extent.stop unit :=
  Nat.lt_add_of_pos_right (Nat.mul_pos nonzero unitPositive)

/-! ## Counting -/

@[simp] theorem cells_nil (address : ℕ) : cells unit [] address = 0 := rfl

@[simp] theorem cells_cons (extent : Extent) (rest : List Extent) (address : ℕ) :
    cells unit (extent :: rest) address = inside extent.addr (extent.stop unit) address + cells unit rest address :=
  rfl

@[simp] theorem cells_append (left right : List Extent) (address : ℕ) :
    cells unit (left ++ right) address = cells unit left address + cells unit right address := by
  induction left with
  | nil => simp
  | cons extent rest ih => simp [ih, Nat.add_assoc]

theorem cells_pos {address : ℕ} :
    0 < cells unit list address ↔ ∃ extent ∈ list, extent.addr ≤ address ∧ address < extent.stop unit := by
  induction list with
  | nil => simp
  | cons extent rest ih =>
    rw [cells_cons, Nat.add_pos_iff_pos_or_pos, inside_pos, ih]
    simp

theorem cells_eq_of_perm {left right : List Extent} (perm : left.Perm right) (address : ℕ) :
    cells unit left address = cells unit right address := by
  induction perm with
  | nil => rfl
  | cons extent _ ih => rw [cells_cons, cells_cons, ih]
  | swap first second rest =>
    simp only [cells_cons]
    omega
  | trans _ _ first second => exact first.trans second

/-- Two lists of runs with the same ends are counted alike, in whatever units. -/
theorem cells_map_congr {α : Type*} {other : ℕ} {list : List α} {f g : α → Extent}
    (same : ∀ a ∈ list, (f a).addr = (g a).addr ∧ (f a).stop unit = (g a).stop other) (address : ℕ) :
    cells unit (list.map f) address = cells other (list.map g) address := by
  induction list with
  | nil => rfl
  | cons a rest ih =>
    obtain ⟨⟨start, stop⟩, later⟩ := List.forall_mem_cons.mp same
    rw [List.map_cons, List.map_cons, cells_cons, cells_cons, start, stop, ih later]

/-- A list is counted as its two parts are. -/
theorem cells_filter (part : Extent → Bool) (list : List Extent) (address : ℕ) :
    cells unit list address =
      cells unit (list.filter part) address + cells unit (list.filter fun extent => !part extent) address := by
  rw [← cells_append]
  exact (cells_eq_of_perm (List.filter_append_perm part list) address).symm

/-- Two runs that touch are counted as one. -/
theorem inside_join {left right : Extent} (touch : left.stop unit = right.addr) (address : ℕ) :
    inside left.addr ((⟨left.addr, left.size + right.size⟩ : Extent).stop unit) address =
      inside left.addr (left.stop unit) address + inside right.addr (right.stop unit) address := by
  rw [stop_join touch, ← touch]
  exact (inside_add (addr_le_stop left) (touch.symm ▸ addr_le_stop right) address).symm

/-- Runs that share no address with a run of positive length keep clear of it. -/
theorem apart_of_cells (positive : ∀ other ∈ list, other.addr < other.stop unit) (own : extent.addr < extent.stop unit)
    (clear : ∀ address, extent.addr ≤ address → address < extent.stop unit → cells unit list address = 0) :
    Apart unit extent list := by
  intro other member
  by_contra touching
  obtain ⟨left, right⟩ := not_or.mp touching
  have longer := positive other member
  have shared := clear (max extent.addr other.addr) (le_max_left _ _) (by omega)
  have held : 0 < cells unit list (max extent.addr other.addr) :=
    cells_pos.mpr ⟨other, member, le_max_right _ _, by omega⟩
  omega

/-! ## Taking the first fit -/

/-- An allocation takes the addresses of the run it returns, and no other. -/
theorem firstFit_cells {list rest : List Extent} (taken : firstFit unit count list = some (addr, rest)) (address : ℕ) :
    cells unit list address = inside addr (addr + count * unit) address + cells unit rest address := by
  induction list generalizing rest addr with
  | nil => exact absurd taken nofun
  | cons extent more ih =>
    rw [firstFit] at taken
    split_ifs at taken with longer equal
    · obtain ⟨rfl, rfl⟩ := Prod.mk.inj (Option.some.inj taken)
      have stop : extent.addr + count * unit ≤ extent.stop unit := by
        rw [← stop_split longer.le]
        exact addr_le_stop (⟨extent.addr + count * unit, extent.size - count⟩ : Extent)
      rw [cells_cons, cells_cons, stop_split longer.le, ← Nat.add_assoc, inside_add (Nat.le_add_right _ _) stop]
    · obtain ⟨rfl, rfl⟩ := Prod.mk.inj (Option.some.inj taken)
      rw [cells_cons, ← equal]
      rfl
    · obtain ⟨⟨found, left⟩, fit, pair⟩ := Option.map_eq_some_iff.mp taken
      obtain ⟨rfl, rfl⟩ := Prod.mk.inj pair
      rw [cells_cons, cells_cons, ih fit]
      exact Nat.add_left_comm _ _ _

/-- What is taken is the front of a run of the list. -/
theorem firstFit_front {list rest : List Extent} (taken : firstFit unit count list = some (addr, rest)) :
    ∃ extent ∈ list, extent.addr = addr ∧ count ≤ extent.size := by
  induction list generalizing rest addr with
  | nil => exact absurd taken nofun
  | cons extent more ih =>
    rw [firstFit] at taken
    split_ifs at taken with longer equal
    · exact ⟨extent, List.mem_cons_self, (Prod.mk.inj (Option.some.inj taken)).1, longer.le⟩
    · exact ⟨extent, List.mem_cons_self, (Prod.mk.inj (Option.some.inj taken)).1, equal.ge⟩
    · obtain ⟨⟨found, left⟩, fit, pair⟩ := Option.map_eq_some_iff.mp taken
      obtain ⟨rfl, -⟩ := Prod.mk.inj pair
      obtain ⟨front, member, facts⟩ := ih fit
      exact ⟨front, List.mem_cons_of_mem _ member, facts⟩

/-- What stays is a run of the list, or the back of one. -/
theorem firstFit_origin {list rest : List Extent} (taken : firstFit unit count list = some (addr, rest))
    (member : extent ∈ rest) :
    ∃ origin ∈ list, origin.stop unit = extent.stop unit ∧
      (extent = origin ∨ count < origin.size ∧
        extent = ⟨origin.addr + count * unit, origin.size - count⟩) := by
  induction list generalizing rest addr with
  | nil => exact absurd taken nofun
  | cons front more ih =>
    rw [firstFit] at taken
    split_ifs at taken with longer equal
    · obtain ⟨-, rfl⟩ := Prod.mk.inj (Option.some.inj taken)
      rcases List.mem_cons.mp member with rfl | behind
      · exact ⟨front, List.mem_cons_self, (stop_split longer.le).symm, Or.inr ⟨longer, rfl⟩⟩
      · exact ⟨extent, List.mem_cons_of_mem _ behind, rfl, Or.inl rfl⟩
    · obtain ⟨-, rfl⟩ := Prod.mk.inj (Option.some.inj taken)
      exact ⟨extent, List.mem_cons_of_mem _ member, rfl, Or.inl rfl⟩
    · obtain ⟨⟨found, left⟩, fit, pair⟩ := Option.map_eq_some_iff.mp taken
      obtain ⟨-, rfl⟩ := Prod.mk.inj pair
      rcases List.mem_cons.mp member with rfl | behind
      · exact ⟨extent, List.mem_cons_self, rfl, Or.inl rfl⟩
      · obtain ⟨origin, inList, facts⟩ := ih fit behind
        exact ⟨origin, List.mem_cons_of_mem _ inList, facts⟩

/-- What stays is not empty. -/
theorem firstFit_positive {list rest : List Extent} (taken : firstFit unit count list = some (addr, rest))
    (positive : ∀ extent ∈ list, 0 < extent.size) : ∀ extent ∈ rest, 0 < extent.size := by
  intro extent member
  obtain ⟨origin, inList, -, rfl | ⟨longer, rfl⟩⟩ := firstFit_origin taken member
  · exact positive extent inList
  · exact Nat.sub_pos_of_lt longer

/-- What stays of a run starts no earlier than the run. -/
theorem firstFit_addr_le {list rest : List Extent} (taken : firstFit unit count list = some (addr, rest))
    (member : extent ∈ rest) : ∃ origin ∈ list, origin.addr ≤ extent.addr ∧ origin.stop unit = extent.stop unit := by
  obtain ⟨origin, inList, stop, rfl | ⟨-, rfl⟩⟩ := firstFit_origin taken member
  · exact ⟨extent, inList, le_rfl, rfl⟩
  · exact ⟨origin, inList, Nat.le_add_right _ _, stop⟩

/-- An allocation keeps what holds between where a run stops and where the later ones start. -/
theorem firstFit_pairwise (r : ℕ → ℕ → Prop)
    (up : ∀ {stop start start'}, r stop start → start ≤ start' → r stop start')
    {list rest : List Extent} (taken : firstFit unit count list = some (addr, rest))
    (pairwise : list.Pairwise fun before behind => r (before.stop unit) behind.addr) :
    rest.Pairwise fun before behind => r (before.stop unit) behind.addr := by
  induction list generalizing rest addr with
  | nil => exact absurd taken nofun
  | cons front more ih =>
    obtain ⟨before, later⟩ := List.pairwise_cons.mp pairwise
    rw [firstFit] at taken
    split_ifs at taken with longer equal
    · obtain ⟨-, rfl⟩ := Prod.mk.inj (Option.some.inj taken)
      refine List.pairwise_cons.mpr ⟨fun behind member => ?_, later⟩
      rw [stop_split longer.le]
      exact before behind member
    · obtain ⟨-, rfl⟩ := Prod.mk.inj (Option.some.inj taken)
      exact later
    · obtain ⟨⟨found, left⟩, fit, pair⟩ := Option.map_eq_some_iff.mp taken
      obtain ⟨-, rfl⟩ := Prod.mk.inj pair
      refine List.pairwise_cons.mpr ⟨fun behind member => ?_, ih fit later⟩
      obtain ⟨origin, inList, starts, -⟩ := firstFit_addr_le fit member
      exact up (before origin inList) starts

/-- An allocation keeps the order. -/
theorem firstFit_ordered {list rest : List Extent} (taken : firstFit unit count list = some (addr, rest))
    (ordered : Ordered unit list) : Ordered unit rest :=
  firstFit_pairwise (· ≤ ·) le_trans taken ordered

/-- Nothing fits when every run is too short. -/
theorem firstFit_eq_none : firstFit unit count list = none ↔ ∀ extent ∈ list, extent.size < count := by
  induction list with
  | nil => simp [firstFit]
  | cons extent more ih =>
    rw [firstFit, List.forall_mem_cons]
    split_ifs with longer equal
    · exact iff_of_false nofun fun all => absurd all.1 (by omega)
    · exact iff_of_false nofun fun all => absurd all.1 (by omega)
    · rw [Option.map_eq_none_iff, ih]
      exact (and_iff_right (by omega)).symm

/-! ## Giving back -/

theorem joinNext_cells (extent : Extent) (list : List Extent) (address : ℕ) :
    cells unit (joinNext unit extent list) address =
      inside extent.addr (extent.stop unit) address + cells unit list address := by
  cases list with
  | nil => rfl
  | cons behind rest =>
    rw [joinNext]
    split_ifs with touch
    · rw [cells_cons, cells_cons, inside_join touch, Nat.add_assoc]
    · rfl

/-- A release adds the addresses of the run, and no other. -/
theorem release_cells (extent : Extent) (list : List Extent) (address : ℕ) :
    cells unit (release unit extent list) address =
      inside extent.addr (extent.stop unit) address + cells unit list address := by
  induction list with
  | nil => rfl
  | cons other rest ih =>
    rw [release]
    split_ifs with left right behind
    · rw [joinNext_cells, inside_join left, cells_cons]
      omega
    · rw [cells_cons, cells_cons, Nat.add_comm other.size, inside_join right.symm, Nat.add_assoc]
    · rfl
    · rw [cells_cons, cells_cons, ih]
      omega

/-- A merged run starts and stops where one of its parts does. -/
theorem joinNext_origin {extent joined : Extent} (member : joined ∈ joinNext unit extent list) :
    joined ∈ list ∨ joined.addr = extent.addr ∧ extent.size ≤ joined.size := by
  cases list with
  | nil =>
    obtain rfl := List.mem_singleton.mp member
    exact Or.inr ⟨rfl, le_rfl⟩
  | cons behind rest =>
    rw [joinNext] at member
    split_ifs at member with touch
    · rcases List.mem_cons.mp member with rfl | inRest
      · exact Or.inr ⟨rfl, Nat.le_add_right _ _⟩
      · exact Or.inl (List.mem_cons_of_mem _ inRest)
    · rcases List.mem_cons.mp member with rfl | inList
      · exact Or.inr ⟨rfl, le_rfl⟩
      · exact Or.inl inList

/-- A run of the list behind a release starts where a run of the list or the one given back does, and
is at least as long. -/
theorem release_origin {extent merged : Extent} (member : merged ∈ release unit extent list) :
    ∃ origin ∈ extent :: list, merged.addr = origin.addr ∧ origin.size ≤ merged.size := by
  induction list with
  | nil => exact ⟨merged, member, rfl, le_rfl⟩
  | cons other rest ih =>
    rw [release] at member
    split_ifs at member with left right behind
    · rcases joinNext_origin member with inRest | ⟨addr, size⟩
      · exact ⟨merged, by simp [inRest], rfl, le_rfl⟩
      · exact ⟨other, by simp, addr, (Nat.le_add_right _ _).trans size⟩
    · rcases List.mem_cons.mp member with rfl | inRest
      · exact ⟨extent, by simp, rfl, Nat.le_add_left _ _⟩
      · exact ⟨merged, by simp [inRest], rfl, le_rfl⟩
    · exact ⟨merged, member, rfl, le_rfl⟩
    · rcases List.mem_cons.mp member with rfl | inRest
      · exact ⟨merged, by simp, rfl, le_rfl⟩
      · obtain ⟨origin, inList, facts⟩ := ih inRest
        exact ⟨origin, by rcases List.mem_cons.mp inList with rfl | deep <;> simp [*], facts⟩

theorem joinNext_ordered (ordered : Ordered unit (extent :: list)) : Ordered unit (joinNext unit extent list) := by
  cases list with
  | nil => exact ordered
  | cons behind rest =>
    rw [joinNext]
    split_ifs with touch
    · obtain ⟨-, later⟩ := List.pairwise_cons.mp ordered
      obtain ⟨before, deep⟩ := List.pairwise_cons.mp later
      refine List.pairwise_cons.mpr ⟨fun other member => ?_, deep⟩
      rw [stop_join touch]
      exact before other member
    · exact ordered

/-- A release of a run that keeps clear of the list keeps the order. -/
theorem release_ordered (ordered : Ordered unit list) (positive : ∀ other ∈ list, other.addr < other.stop unit)
    (apart : Apart unit extent list) : Ordered unit (release unit extent list) := by
  induction list with
  | nil => exact List.pairwise_singleton _ _
  | cons other rest ih =>
    obtain ⟨before, later⟩ := List.pairwise_cons.mp ordered
    obtain ⟨clear, clearRest⟩ := List.forall_mem_cons.mp apart
    obtain ⟨-, longRest⟩ := List.forall_mem_cons.mp positive
    rw [release]
    split_ifs with left right behind
    · refine joinNext_ordered (List.pairwise_cons.mpr ⟨fun further member => ?_, later⟩)
      rw [stop_join left]
      have := before further member
      have := clearRest further member
      have := longRest further member
      omega
    · refine List.pairwise_cons.mpr ⟨fun further member => ?_, later⟩
      rw [Nat.add_comm, stop_join right.symm]
      exact before further member
    · refine List.pairwise_cons.mpr ⟨fun further member => ?_, ordered⟩
      rcases List.mem_cons.mp member with rfl | inRest
      · exact behind.le
      · exact (behind.le.trans (addr_le_stop other)).trans (before further inRest)
    · refine List.pairwise_cons.mpr ⟨fun further member => ?_, ih later longRest clearRest⟩
      obtain ⟨origin, inList, addr, -⟩ := release_origin member
      rw [addr]
      rcases List.mem_cons.mp inList with rfl | inRest
      · omega
      · exact before origin inRest

/-! ## Runs that do not touch -/

/-- An allocation leaves room between the runs. -/
theorem firstFit_separate {list rest : List Extent} (taken : firstFit unit count list = some (addr, rest))
    (separate : Separate unit list) : Separate unit rest :=
  firstFit_pairwise (· < ·) lt_of_lt_of_le taken separate

/-- A run in front of the list is merged with the one that it touches. -/
theorem joinNext_separate (separate : Separate unit list) (positive : ∀ other ∈ list, other.addr < other.stop unit)
    (before : ∀ other ∈ list, extent.stop unit ≤ other.addr) : Separate unit (joinNext unit extent list) := by
  cases list with
  | nil => exact List.pairwise_singleton _ _
  | cons behind rest =>
    obtain ⟨first, later⟩ := List.pairwise_cons.mp separate
    rw [joinNext]
    split_ifs with touch
    · refine List.pairwise_cons.mpr ⟨fun other member => ?_, later⟩
      rw [stop_join touch]
      exact first other member
    · have off : extent.stop unit < behind.addr := lt_of_le_of_ne (before behind List.mem_cons_self) touch
      refine List.pairwise_cons.mpr ⟨fun other member => ?_, separate⟩
      rcases List.mem_cons.mp member with rfl | inRest
      · exact off
      · have long := positive behind List.mem_cons_self
        have further := first other inRest
        omega

/-- A release of a run that keeps clear of the list leaves room between the runs. -/
theorem release_separate (separate : Separate unit list) (positive : ∀ other ∈ list, other.addr < other.stop unit)
    (apart : Apart unit extent list) : Separate unit (release unit extent list) := by
  induction list with
  | nil => exact List.pairwise_singleton _ _
  | cons other rest ih =>
    obtain ⟨before, later⟩ := List.pairwise_cons.mp separate
    obtain ⟨clear, clearRest⟩ := List.forall_mem_cons.mp apart
    obtain ⟨long, longRest⟩ := List.forall_mem_cons.mp positive
    rw [release]
    split_ifs with left right behind
    · refine joinNext_separate later longRest fun further member => ?_
      rw [stop_join left]
      have first := before further member
      have own := longRest further member
      have apart := clearRest further member
      omega
    · refine List.pairwise_cons.mpr ⟨fun further member => ?_, later⟩
      rw [Nat.add_comm, stop_join right.symm]
      exact before further member
    · refine List.pairwise_cons.mpr ⟨fun further member => ?_, separate⟩
      rcases List.mem_cons.mp member with rfl | inRest
      · exact behind
      · have first := before further inRest
        omega
    · refine List.pairwise_cons.mpr ⟨fun further member => ?_, ih later longRest clearRest⟩
      obtain ⟨origin, inList, addr, -⟩ := release_origin member
      rw [addr]
      rcases List.mem_cons.mp inList with rfl | inRest
      · omega
      · exact before origin inRest

/-! ## Linking without merging -/

/-- The list gains the run. -/
theorem link_perm (extent : Extent) (list : List Extent) : (link unit extent list).Perm (extent :: list) := by
  induction list with
  | nil => exact List.Perm.refl _
  | cons other rest ih =>
    rw [link]
    split_ifs with behind
    · exact List.Perm.refl _
    · exact (List.Perm.cons _ ih).trans (List.Perm.swap _ _ _)

theorem link_cells (extent : Extent) (list : List Extent) (address : ℕ) :
    cells unit (link unit extent list) address =
      inside extent.addr (extent.stop unit) address + cells unit list address :=
  cells_eq_of_perm (link_perm extent list) address

/-- A run that keeps clear of the list, and behind which none starts at once, is linked in order. -/
theorem link_ordered (ordered : Ordered unit list) (apart : Apart unit extent list)
    (gap : ∀ other ∈ list, other.addr ≠ extent.stop unit) : Ordered unit (link unit extent list) := by
  induction list with
  | nil => exact List.pairwise_singleton _ _
  | cons other rest ih =>
    obtain ⟨before, later⟩ := List.pairwise_cons.mp ordered
    obtain ⟨clear, clearRest⟩ := List.forall_mem_cons.mp apart
    obtain ⟨off, offRest⟩ := List.forall_mem_cons.mp gap
    rw [link]
    split_ifs with behind
    · refine List.pairwise_cons.mpr ⟨fun further member => ?_, ordered⟩
      rcases List.mem_cons.mp member with rfl | inRest
      · exact behind.le
      · exact (behind.le.trans (addr_le_stop other)).trans (before further inRest)
    · refine List.pairwise_cons.mpr ⟨fun further member => ?_, ih later clearRest offRest⟩
      rcases List.mem_cons.mp ((link_perm extent rest).subset member) with rfl | inRest
      · omega
      · exact before further inRest

/-- Where nothing fits, the run linked is the one that an allocation finds. -/
theorem firstFit_link (full : firstFit unit count list = none) (fits : count ≤ extent.size) :
    ∃ rest, firstFit unit count (link unit extent list) = some (extent.addr, rest) := by
  have found (rest : List Extent) : ∃ left, firstFit unit count (extent :: rest) = some (extent.addr, left) := by
    rw [firstFit]
    split_ifs with longer equal
    · exact ⟨_, rfl⟩
    · exact ⟨_, rfl⟩
    · omega
  induction list with
  | nil => exact found []
  | cons other rest ih =>
    have short := firstFit_eq_none.mp full
    obtain ⟨first, later⟩ := List.forall_mem_cons.mp short
    rw [link]
    split_ifs with behind
    · exact found _
    · obtain ⟨left, fit⟩ := ih (firstFit_eq_none.mpr later)
      rw [firstFit, if_neg (by omega), if_neg (by omega), fit]
      exact ⟨_, rfl⟩

end FreeList
