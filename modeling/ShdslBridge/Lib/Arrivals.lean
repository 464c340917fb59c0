import Mathlib.Data.List.Perm.Subperm
import Mathlib.Data.List.Nodup
import Mathlib.Data.List.Range

/-! # A queue with urgent arrivals, and what has become of every arrival

The arrivals are numbered. An ordinary one waits behind all that wait, an urgent one in front of
them; the first one that waits is taken, or all that wait are dropped. The ledger remembers for
each arrival which numbers waited at its arrival, so that the order in which arrivals have to be
taken can be stated about the finished log: ordinary ones behind those that waited, urgent ones
ahead of them.
-/

namespace Arrivals

/-- An arrival, with the numbers that waited when it came. -/
structure Arrival (α : Type*) where
  urgent : Bool
  value : α
  queued : List ℕ
  deriving DecidableEq

/-- The arrivals, the numbers that wait, first one first, and those that were taken or dropped. -/
structure Ledger (α : Type*) where
  arrivals : List (Arrival α) := []
  waiting : List ℕ := []
  taken : List ℕ := []
  dropped : List ℕ := []
  deriving DecidableEq

namespace Ledger

variable {α : Type*}

/-- The next number arrives. -/
def arrive (l : Ledger α) (urgent : Bool) (value : α) : Ledger α :=
  { l with
    arrivals := l.arrivals ++ [{ urgent, value, queued := l.waiting }]
    waiting := if urgent then l.arrivals.length :: l.waiting else l.waiting ++ [l.arrivals.length] }

/-- The first number that waits is taken. -/
def take (l : Ledger α) : Ledger α :=
  match l.waiting with
  | [] => l
  | first :: rest => { l with waiting := rest, taken := l.taken ++ [first] }

/-- All numbers that wait are dropped. -/
def dropAll (l : Ledger α) : Ledger α :=
  { l with waiting := [], dropped := l.dropped ++ l.waiting }

/-- Every arrival waits, was taken or was dropped, once and in one way only. -/
def Accounted (l : Ledger α) : Prop :=
  (l.waiting ++ l.taken ++ l.dropped).Perm (List.range l.arrivals.length)

/-- What has been taken was taken in order: an ordinary arrival behind everything that waited when
it came, an urgent one ahead of it. -/
def InOrder (l : Ledger α) : Prop :=
  ∀ number arrival, l.arrivals[number]? = some arrival → ∀ other ∈ arrival.queued,
    if arrival.urgent then other ∈ l.taken → [number, other].Sublist l.taken
    else number ∈ l.taken → [other, number].Sublist l.taken

/-- The first number has to be taken ahead of the second. -/
def Ahead (l : Ledger α) (first second : ℕ) : Prop :=
  ∃ number arrival other, l.arrivals[number]? = some arrival ∧ other ∈ arrival.queued ∧
    if arrival.urgent then first = number ∧ second = other else first = other ∧ second = number

/-- The invariant: what is ahead has been taken or waits in front. -/
structure Valid (l : Ledger α) : Prop where
  accounted : l.Accounted
  known : ∀ first second, l.Ahead first second → first < l.arrivals.length ∧ second < l.arrivals.length
  waits : ∀ first second, l.Ahead first second → second ∈ l.waiting →
    first ∈ l.taken ∨ [first, second].Sublist l.waiting
  took : ∀ first second, l.Ahead first second → second ∈ l.taken → [first, second].Sublist l.taken

theorem valid_empty : Valid ({} : Ledger α) where
  accounted := List.Perm.refl _
  known := by simp [Ahead]
  waits := by simp
  took := by simp

variable {l : Ledger α}

theorem Valid.inOrder (valid : l.Valid) : l.InOrder := by
  intro number arrival found other queued
  rcases urgent : arrival.urgent with _ | _
  · rw [if_neg (by simp)]
    exact valid.took other number ⟨number, arrival, other, found, queued, by simp [urgent]⟩
  · rw [if_pos rfl]
    exact valid.took number other ⟨number, arrival, other, found, queued, by simp [urgent]⟩

theorem Accounted.lt (accounted : l.Accounted) {number : ℕ} (member : number ∈ l.waiting ++ l.taken ++ l.dropped) :
    number < l.arrivals.length :=
  List.mem_range.mp (accounted.mem_iff.mp member)

theorem Accounted.nodup (accounted : l.Accounted) :
    (l.waiting ++ l.taken ++ l.dropped).Nodup :=
  accounted.nodup_iff.mpr List.nodup_range

/-- The pairs in order after an arrival: the old ones and the new number with all that waited. -/
theorem ahead_arrive {urgent : Bool} {value : α} {first second : ℕ} :
    (l.arrive urgent value).Ahead first second ↔ l.Ahead first second ∨
      (if urgent then first = l.arrivals.length ∧ second ∈ l.waiting
        else first ∈ l.waiting ∧ second = l.arrivals.length) := by
  constructor
  · rintro ⟨number, arrival, other, found, queued, pair⟩
    rcases Nat.lt_or_ge number l.arrivals.length with old | new
    · rw [arrive, List.getElem?_append_left old] at found
      exact .inl ⟨number, arrival, other, found, queued, pair⟩
    · right
      obtain rfl : number = l.arrivals.length := by
        have bound := (List.getElem?_eq_some_iff.mp found).1
        simp only [arrive, List.length_append, List.length_singleton] at bound
        omega
      rw [arrive, List.getElem?_concat_length, Option.some.injEq] at found
      obtain rfl := found
      cases urgent with
      | true =>
        obtain ⟨rfl, rfl⟩ : first = l.arrivals.length ∧ second = other := by simpa using pair
        exact (if_pos rfl).mpr ⟨rfl, queued⟩
      | false =>
        obtain ⟨rfl, rfl⟩ : first = other ∧ second = l.arrivals.length := by simpa using pair
        simpa using queued
  · rintro (⟨number, arrival, other, found, queued, pair⟩ | new)
    · have old := (List.getElem?_eq_some_iff.mp found).1
      exact ⟨number, arrival, other, by rw [arrive, List.getElem?_append_left old, found], queued, pair⟩
    · cases urgent with
      | true =>
        obtain ⟨rfl, queued⟩ : first = l.arrivals.length ∧ second ∈ l.waiting := by simpa using new
        exact ⟨_, _, second, List.getElem?_concat_length, queued, by simp⟩
      | false =>
        obtain ⟨queued, rfl⟩ : first ∈ l.waiting ∧ second = l.arrivals.length := by simpa using new
        exact ⟨_, _, first, List.getElem?_concat_length, queued, by simp⟩

theorem Accounted.arrive (accounted : l.Accounted) (urgent : Bool) (value : α) : (l.arrive urgent value).Accounted := by
  have added : (l.arrive urgent value).waiting.Perm (l.arrivals.length :: l.waiting) := by
    cases urgent with
    | true => exact List.Perm.refl _
    | false => exact List.perm_append_singleton ..
  have grown : (List.range (l.arrive urgent value).arrivals.length).Perm
      (l.arrivals.length :: List.range l.arrivals.length) := by
    simp only [Ledger.arrive, List.length_append, List.length_singleton, List.range_succ]
    exact List.perm_append_singleton ..
  refine List.Perm.trans ?_ ((accounted.cons _).trans grown.symm)
  exact (added.append_right _).append_right _

/-- An arrival keeps the ledger valid. -/
theorem Valid.arrive (valid : l.Valid) (urgent : Bool) (value : α) : (l.arrive urgent value).Valid := by
  have longer : (l.arrive urgent value).arrivals.length = l.arrivals.length + 1 := by
    simp [Ledger.arrive]
  have waiting : ∀ number ∈ l.waiting, number < l.arrivals.length := fun number member =>
    valid.accounted.lt (by simp [member])
  have keeps : l.waiting.Sublist (l.arrive urgent value).waiting := by
    cases urgent with
    | true => exact List.sublist_cons_self ..
    | false => exact List.sublist_append_left ..
  constructor
  · exact valid.accounted.arrive urgent value
  · intro first second ahead
    rw [longer]
    rcases ahead_arrive.mp ahead with old | new
    · have bounds := valid.known first second old
      omega
    · cases urgent with
      | true =>
        obtain ⟨rfl, queued⟩ : first = l.arrivals.length ∧ second ∈ l.waiting := by simpa using new
        have bound := waiting second queued
        omega
      | false =>
        obtain ⟨queued, rfl⟩ : first ∈ l.waiting ∧ second = l.arrivals.length := by simpa using new
        have bound := waiting first queued
        omega
  · intro first second ahead waits
    rcases ahead_arrive.mp ahead with old | new
    · have bounds := valid.known first second old
      have before : second ∈ l.waiting := by
        have ne : second ≠ l.arrivals.length := by omega
        cases urgent with
        | true => simpa [Ledger.arrive, ne] using waits
        | false => simpa [Ledger.arrive, ne] using waits
      rcases valid.waits first second old before with took | inFront
      · exact .inl took
      · exact .inr (inFront.trans keeps)
    · right
      cases urgent with
      | true =>
        obtain ⟨rfl, queued⟩ : first = l.arrivals.length ∧ second ∈ l.waiting := by simpa using new
        exact (List.singleton_sublist.mpr queued).cons_cons _
      | false =>
        obtain ⟨queued, rfl⟩ : first ∈ l.waiting ∧ second = l.arrivals.length := by simpa using new
        exact (List.singleton_sublist.mpr queued).append (List.Sublist.refl [l.arrivals.length])
  · intro first second ahead took
    rcases ahead_arrive.mp ahead with old | new
    · exact valid.took first second old took
    · -- the new pair has the new number or one that waits, and neither has been taken
      exfalso
      have member : second ∈ l.waiting ++ l.taken ++ l.dropped := by
        simp [show second ∈ l.taken from took]
      have bound := valid.accounted.lt member
      cases urgent with
      | true =>
        obtain ⟨-, queued⟩ : first = l.arrivals.length ∧ second ∈ l.waiting := by simpa using new
        have distinct := valid.accounted.nodup
        rw [List.append_assoc, List.nodup_append'] at distinct
        exact distinct.2.2 queued (List.mem_append_left _ took)
      | false =>
        obtain ⟨-, rfl⟩ : first ∈ l.waiting ∧ second = l.arrivals.length := by simpa using new
        omega

/-- Taking the first number that waits keeps the ledger valid. -/
theorem Valid.take (valid : l.Valid) : l.take.Valid := by
  rcases queue : l.waiting with _ | ⟨head, rest⟩
  · rw [Ledger.take, queue]
    exact valid
  · have taking : l.take = { l with waiting := rest, taken := l.taken ++ [head] } := by
      rw [Ledger.take, queue]
    have distinct := valid.accounted.nodup
    rw [queue, List.append_assoc, List.cons_append, List.nodup_cons] at distinct
    have notLater : head ∉ rest := fun member => distinct.1 (by simp [member])
    rw [taking]
    constructor
    · have moved : (rest ++ (l.taken ++ [head]) ++ l.dropped).Perm
          (head :: (rest ++ l.taken ++ l.dropped)) := by
        simpa only [List.append_assoc, List.singleton_append] using
          (List.perm_middle : ((rest ++ l.taken) ++ head :: l.dropped).Perm
            (head :: ((rest ++ l.taken) ++ l.dropped)))
      refine moved.trans (List.Perm.trans ?_ valid.accounted)
      rw [queue]
      exact List.Perm.refl _
    · exact valid.known
    · intro first second ahead waits
      rcases valid.waits first second ahead (by simp [queue, show second ∈ rest from waits]) with took | inFront
      · exact .inl (List.mem_append_left _ took)
      · rw [queue] at inFront
        cases inFront with
        | cons _ later => exact .inr later
        | cons_cons _ _ => exact .inl (by simp)
    · intro first second ahead took
      rcases List.mem_append.mp took with before | last
      · exact (valid.took first second ahead before).trans (List.sublist_append_left ..)
      · obtain rfl := List.mem_singleton.mp last
        rcases valid.waits first second ahead (by simp [queue]) with took | inFront
        · exact (List.singleton_sublist.mpr took).append (List.Sublist.refl [second])
        · exfalso
          rw [queue] at inFront
          cases inFront with
          | cons _ later => exact notLater (later.subset (by simp))
          | cons_cons _ later => exact notLater (later.subset (by simp))

/-- Dropping all that wait keeps the ledger valid. -/
theorem Valid.dropAll (valid : l.Valid) : l.dropAll.Valid where
  accounted := by
    refine List.Perm.trans ?_ valid.accounted
    change ([] ++ l.taken ++ (l.dropped ++ l.waiting)).Perm _
    rw [List.nil_append, ← List.append_assoc, List.append_assoc l.waiting]
    exact List.perm_append_comm
  known := valid.known
  waits _ _ _ := by simp [Ledger.dropAll]
  took := valid.took

end Ledger

end Arrivals
