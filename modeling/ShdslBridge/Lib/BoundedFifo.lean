import Mathlib.Data.List.DropRight

/-! # Bounded queues that account for what passes through them

The content of a queue, all that it has accepted, and all that has left it, oldest first. What left
was either read or forgotten to make room. The structure carries its own balance: what left and the
content are together what was accepted.
-/

/-- A queue of at most `capacity` items. -/
structure BoundedFifo (α : Type*) (capacity : ℕ) where
  content : List α
  accepted : List α
  /-- The items that have left, each with whether it was read. -/
  departed : List (α × Bool)
  bounded : content.length ≤ capacity
  balanced : departed.map Prod.fst ++ content = accepted

namespace BoundedFifo

variable {α : Type*} {capacity : ℕ}

/-- The new queue. -/
def empty : BoundedFifo α capacity where
  content := []
  accepted := []
  departed := []
  bounded := Nat.zero_le _
  balanced := rfl

/-- The room that is left. -/
def space (fifo : BoundedFifo α capacity) : ℕ := capacity - fifo.content.length

/-- The items that were read, in the order of the reads. -/
def returned (fifo : BoundedFifo α capacity) : List α :=
  (fifo.departed.filter Prod.snd).map Prod.fst

/-- Accepts as many of the new items as there is room for. -/
def push (fifo : BoundedFifo α capacity) (cells : List α) : BoundedFifo α capacity where
  content := fifo.content ++ cells.take fifo.space
  accepted := fifo.accepted ++ cells.take fifo.space
  departed := fifo.departed
  bounded := by
    have bounded := fifo.bounded
    simp only [List.length_append, List.length_take, space]
    omega
  balanced := by rw [← List.append_assoc, fifo.balanced]

/-- The oldest items leave, at most `count` of them. -/
def depart (fifo : BoundedFifo α capacity) (count : ℕ) (read : Bool) : BoundedFifo α capacity where
  content := fifo.content.drop count
  accepted := fifo.accepted
  departed := fifo.departed ++ (fifo.content.take count).map fun cell => (cell, read)
  bounded := by
    have bounded := fifo.bounded
    simp only [List.length_drop]
    omega
  balanced := by
    simp only [List.map_append, List.map_map, Function.comp_def, List.map_id']
    rw [List.append_assoc, List.take_append_drop, fifo.balanced]

/-- Accepts one item, and forgets the oldest one if there is no room. -/
def pushForce (fifo : BoundedFifo α capacity) (cell : α) : BoundedFifo α capacity :=
  if fifo.content.length = capacity then (fifo.depart 1 false).push [cell] else fifo.push [cell]

@[simp] theorem empty_content : (empty : BoundedFifo α capacity).content = [] := rfl

@[simp] theorem empty_returned : (empty : BoundedFifo α capacity).returned = [] := rfl

@[simp] theorem push_content (fifo : BoundedFifo α capacity) (cells : List α) :
    (fifo.push cells).content = fifo.content ++ cells.take fifo.space := rfl

@[simp] theorem depart_content (fifo : BoundedFifo α capacity) (count : ℕ) (read : Bool) :
    (fifo.depart count read).content = fifo.content.drop count := rfl

@[simp] theorem push_returned (fifo : BoundedFifo α capacity) (cells : List α) :
    (fifo.push cells).returned = fifo.returned := rfl

@[simp] theorem returned_read (fifo : BoundedFifo α capacity) (count : ℕ) :
    (fifo.depart count true).returned = fifo.returned ++ fifo.content.take count := by
  rw [returned, depart, List.filter_append, List.map_append, returned]
  congr 1
  induction fifo.content.take count with
  | nil => rfl
  | cons cell rest ih => simpa using ih

@[simp] theorem returned_forget (fifo : BoundedFifo α capacity) (count : ℕ) :
    (fifo.depart count false).returned = fifo.returned := by
  rw [returned, depart, List.filter_append, List.map_append, returned]
  induction fifo.content.take count with
  | nil => simp
  | cons cell rest ih => exact ih

@[simp] theorem pushForce_returned (fifo : BoundedFifo α capacity) (cell : α) :
    (fifo.pushForce cell).returned = fifo.returned := by
  unfold pushForce
  split_ifs
  · rw [push_returned, returned_forget]
  · rw [push_returned]

@[simp] theorem pushForce_content (fifo : BoundedFifo α capacity) (room : 0 < capacity) (cell : α) :
    (fifo.pushForce cell).content =
      if fifo.content.length = capacity then (fifo.content ++ [cell]).tail else fifo.content ++ [cell] := by
  have bounded := fifo.bounded
  unfold pushForce
  split_ifs with full
  · have some : fifo.content ≠ [] := List.ne_nil_of_length_pos (by omega)
    rw [push_content, space, depart_content, List.length_drop, List.take_of_length_le (by simp; omega),
      List.drop_one, List.tail_append_of_ne_nil some]
  · rw [push_content, space, List.take_of_length_le (by simp; omega)]

@[simp] theorem pushForce_accepted (fifo : BoundedFifo α capacity) (room : 0 < capacity) (cell : α) :
    (fifo.pushForce cell).accepted = fifo.accepted ++ [cell] := by
  have bounded := fifo.bounded
  unfold pushForce
  split_ifs with full
  · change fifo.accepted ++ [cell].take (fifo.depart 1 false).space = _
    rw [space, depart_content, List.length_drop, List.take_of_length_le (by simp; omega)]
  · change fifo.accepted ++ [cell].take fifo.space = _
    rw [space, List.take_of_length_le (by simp; omega)]

/-! ## What has not been read

A queue that forgets its oldest item for a new one stays full until the next read, so it holds the
newest of the items accepted after the last one that was read. -/

/-- The items that have left since the last read. -/
def skipped (fifo : BoundedFifo α capacity) : List (α × Bool) := fifo.departed.rtakeWhile fun item => !item.2

/-- The items accepted after the last one that was read, forgotten ones included. -/
def unread (fifo : BoundedFifo α capacity) : List α := fifo.skipped.map Prod.fst ++ fifo.content

/-- The queue is full if it has forgotten an item since the last read. -/
def Tight (fifo : BoundedFifo α capacity) : Prop := fifo.skipped ≠ [] → fifo.content.length = capacity

theorem empty_tight : (empty : BoundedFifo α capacity).Tight := fun some => absurd rfl some

variable {fifo : BoundedFifo α capacity}

theorem pushForce_tight (tight : fifo.Tight) (cell : α) : (fifo.pushForce cell).Tight := by
  have bounded := fifo.bounded
  unfold pushForce
  split_ifs with full
  · intro
    simp only [push_content, depart_content, space, List.length_append, List.length_take, List.length_drop,
      List.length_singleton]
    omega
  · intro some
    exact absurd (tight some) full

theorem read_tight (tight : fifo.Tight) : (fifo.depart 1 true).Tight := by
  cases content : fifo.content with
  | nil =>
    intro some
    have kept : (fifo.depart 1 true).skipped = fifo.skipped := by simp [skipped, depart, content]
    rw [depart_content, content]
    rw [kept] at some
    simpa [content] using tight some
  | cons first rest =>
    intro some
    refine absurd ?_ some
    simp [skipped, depart, content]

/-- The queue holds the newest of the unread items, as many as there is room for. -/
theorem content_eq_rtake (tight : fifo.Tight) : fifo.content = fifo.unread.rtake (min fifo.unread.length capacity) := by
  have bounded := fifo.bounded
  have total : fifo.unread.length = fifo.skipped.length + fifo.content.length := by simp [unread]
  have newest : fifo.unread.length - min fifo.unread.length capacity = fifo.skipped.length := by
    by_cases none : fifo.skipped = []
    · rw [total, none, List.length_nil]
      omega
    · have full := tight none
      omega
  rw [List.rtake, newest, unread]
  exact (List.drop_left' (List.length_map _)).symm

/-- The items that were read are some of the accepted ones, in their order and each once; those in
the queue come after them. -/
theorem returned_append_content_sublist (fifo : BoundedFifo α capacity) :
    (fifo.returned ++ fifo.content).Sublist fifo.accepted := by
  rw [← fifo.balanced]
  exact ((List.filter_sublist).map Prod.fst).append_right _

end BoundedFifo
