import Mathlib.Data.List.Chain
import Mathlib.Data.List.Nodup

/-! # Circular doubly linked lists

Two tables give every node the node behind it and the node before it. `Path` says that consecutive nodes
of a list point at each other, `Ring` that the last node and the first one do as well. A ring may be read
from any of its nodes on. Putting a node behind another one, or taking a node out, changes two links of the
old nodes and leaves all others alone.
-/

namespace DoublyLinked

variable {ν : Type*} {next prev next' prev' : ν → ν} {node other : ν} {nodes left right : List ν}

/-- Consecutive nodes point at each other. -/
def Path (next prev : ν → ν) (nodes : List ν) : Prop := nodes.IsChain fun a b => next a = b ∧ prev b = a

/-- The nodes of a circular list, from any of them on. -/
structure Ring (next prev : ν → ν) (nodes : List ν) : Prop where
  path : Path next prev (nodes ++ nodes.head?.toList)
  nodup : nodes.Nodup

/-! ## Paths -/

/-- A path splits at each of its nodes. -/
theorem path_split : Path next prev (left ++ node :: right) ↔
    Path next prev (left ++ [node]) ∧ Path next prev (node :: right) := List.isChain_split

theorem path_cons_cons : Path next prev (node :: other :: right) ↔
    (next node = other ∧ prev other = node) ∧ Path next prev (other :: right) := List.isChain_cons_cons

/-- Only the links inside a path matter: forward from all nodes but the last, back from all but the first. -/
theorem Path.frame (path : Path next prev nodes) (forward : ∀ a ∈ nodes.dropLast, next' a = next a)
    (back : ∀ a ∈ nodes.tail, prev' a = prev a) : Path next' prev' nodes := by
  induction nodes with
  | nil => exact .nil
  | cons first rest ih =>
    cases rest with
    | nil => exact .singleton first
    | cons second rest =>
      obtain ⟨⟨ahead, behind⟩, later⟩ := path_cons_cons.mp path
      rw [List.dropLast_cons_cons] at forward
      obtain ⟨atFirst, forward⟩ := List.forall_mem_cons.mp forward
      obtain ⟨atSecond, back⟩ := List.forall_mem_cons.mp back
      exact path_cons_cons.mpr ⟨⟨atFirst.trans ahead, atSecond.trans behind⟩, ih later forward back⟩

namespace Ring

/-- A ring is closed by the path from its last node to its first one. -/
theorem path_cons (ring : Ring next prev (node :: right)) : Path next prev (node :: (right ++ [node])) := ring.path

theorem of_path (path : Path next prev (node :: (right ++ [node]))) (nodup : (node :: right).Nodup) :
    Ring next prev (node :: right) := ⟨path, nodup⟩

/-- The ring from another node on. -/
theorem rotate (ring : Ring next prev (left ++ right)) : Ring next prev (right ++ left) := by
  cases left with
  | nil =>
    rw [List.append_nil]
    exact ring
  | cons first left =>
    cases right with
    | nil =>
      rw [List.append_nil] at ring
      exact ring
    | cons second right =>
      have nodup : (second :: right ++ first :: left).Nodup := List.nodup_append_comm.mp ring.nodup
      have path : Path next prev ((first :: left) ++ second :: (right ++ [first])) := by
        have := ring.path
        rw [List.cons_append, List.head?_cons, Option.toList_some, List.cons_append, List.append_assoc] at this
        exact this
      obtain ⟨front, back⟩ := path_split.mp path
      refine ⟨?_, nodup⟩
      change Path next prev ((second :: right ++ first :: left) ++ [second])
      rw [List.append_assoc]
      exact path_split.mpr ⟨back, front⟩

/-- Two nodes one after the other. -/
theorem linked (ring : Ring next prev (left ++ node :: other :: right)) : next node = other ∧ prev other = node :=
  (path_cons_cons.mp ring.rotate.path_cons).1

/-- The last node and the first one. -/
theorem closed (ring : Ring next prev (node :: (right ++ [other]))) : next other = node ∧ prev node = other := by
  have whole : Ring next prev (node :: right ++ [other]) := ring
  have turned : Ring next prev ([other] ++ node :: right) := whole.rotate
  exact linked (show Ring next prev ([] ++ other :: node :: right) from turned)

/-- A node that is alone. -/
theorem alone (ring : Ring next prev [node]) : next node = node ∧ prev node = node :=
  (path_cons_cons.mp ring.path_cons).1

/-- The node behind a node of the ring is one, and points back. -/
theorem next_mem (ring : Ring next prev nodes) (member : node ∈ nodes) :
    next node ∈ nodes ∧ prev (next node) = node := by
  obtain ⟨left, right, rfl⟩ := List.append_of_mem member
  cases right with
  | cons behind right =>
    obtain ⟨forward, back⟩ := ring.linked
    rw [forward]
    exact ⟨by simp, back⟩
  | nil =>
    cases left with
    | nil =>
      obtain ⟨forward, back⟩ := ring.alone
      rw [forward]
      exact ⟨member, back⟩
    | cons first left =>
      obtain ⟨forward, back⟩ := ring.closed
      rw [forward]
      exact ⟨by simp, back⟩

theorem prev_mem (ring : Ring next prev nodes) (member : node ∈ nodes) :
    prev node ∈ nodes ∧ next (prev node) = node := by
  obtain ⟨left, right, rfl⟩ := List.append_of_mem member
  rcases List.eq_nil_or_concat left with rfl | ⟨left, before, rfl⟩
  · rcases List.eq_nil_or_concat right with rfl | ⟨right, last, rfl⟩
    · obtain ⟨forward, back⟩ := ring.alone
      rw [back]
      exact ⟨member, forward⟩
    · rw [List.nil_append, List.concat_eq_append] at ring
      obtain ⟨forward, back⟩ := ring.closed
      rw [back]
      exact ⟨by simp, forward⟩
  · rw [List.concat_eq_append, List.append_assoc] at ring
    obtain ⟨forward, back⟩ := ring.linked
    rw [back]
    exact ⟨by simp, forward⟩

theorem frame (ring : Ring next prev nodes) (forward : ∀ a ∈ nodes, next' a = next a)
    (back : ∀ a ∈ nodes, prev' a = prev a) : Ring next' prev' nodes := by
  cases nodes with
  | nil => exact ⟨.nil, ring.nodup⟩
  | cons first rest =>
    refine ⟨ring.path.frame (fun a member => forward a ?_) fun a member => back a ?_, ring.nodup⟩
    · rw [List.head?_cons, Option.toList_some, List.dropLast_concat] at member
      exact member
    · have inBack : a ∈ rest ++ [first] := member
      rcases List.mem_append.mp inBack with inRest | last
      · exact List.mem_cons_of_mem first inRest
      · exact List.mem_singleton.mp last ▸ List.mem_cons_self

/-- A node is put behind another one. -/
theorem insert (ring : Ring next prev (left ++ node :: right)) (fresh : other ∉ left ++ node :: right)
    (nextOld : next' node = other) (nextNew : next' other = next node) (prevNew : prev' other = node)
    (prevOld : prev' (next node) = other) (nextSame : ∀ a ∈ left ++ node :: right, a ≠ node → next' a = next a)
    (prevSame : ∀ a ∈ left ++ node :: right, a ≠ next node → prev' a = prev a) :
    Ring next' prev' (left ++ node :: other :: right) := by
  suffices turned : Ring next' prev' (node :: other :: right ++ left) from turned.rotate
  have old : Ring next prev (node :: (right ++ left)) := ring.rotate
  have same (a : ν) : a ∈ right ++ left → a ∈ left ++ node :: right := by
    simp only [List.mem_append, List.mem_cons]
    tauto
  obtain ⟨outside, nodup⟩ := List.nodup_cons.mp old.nodup
  have fresh' : other ∉ node :: (right ++ left) := fun member => fresh (by
    simp only [List.mem_append, List.mem_cons] at member ⊢
    tauto)
  have nodup' : (node :: other :: (right ++ left)).Nodup := by
    refine List.nodup_cons.mpr ⟨fun member => ?_, List.nodup_cons.mpr ⟨fun member => ?_, nodup⟩⟩
    · rcases List.mem_cons.mp member with rfl | later
      · exact fresh' List.mem_cons_self
      · exact outside later
    · exact fresh' (List.mem_cons_of_mem node member)
  refine of_path ?_ nodup'
  have path := old.path_cons
  -- `behind` is the node that the new one comes in front of; it is `node` itself when that is alone
  obtain ⟨behind, later, split⟩ : ∃ behind later, right ++ left ++ [node] = behind :: later := by
    cases right ++ left with
    | nil => exact ⟨node, [], rfl⟩
    | cons first rest => exact ⟨first, rest ++ [node], rfl⟩
  have once : (behind :: later).Nodup := by
    rw [← split]
    exact List.nodup_append_comm.mp old.nodup
  have inside (a : ν) (member : a ∈ behind :: later) : a ∈ left ++ node :: right := by
    rw [← split] at member
    simp only [List.mem_append, List.mem_cons, List.not_mem_nil, or_false] at member ⊢
    tauto
  rw [split] at path
  obtain ⟨⟨forward, -⟩, kept⟩ := path_cons_cons.mp path
  change Path next' prev' (node :: other :: (right ++ left ++ [node]))
  rw [split]
  refine path_cons_cons.mpr ⟨⟨nextOld, prevNew⟩, path_cons_cons.mpr ⟨⟨nextNew.trans forward, ?_⟩, ?_⟩⟩
  · rw [← forward, prevOld]
  refine kept.frame (fun a member => ?_) fun a member => ?_
  · rw [← split, List.dropLast_concat] at member
    exact nextSame a (same a member) fun here => outside (here ▸ member)
  · have notFirst : a ≠ behind := fun here => (List.nodup_cons.mp once).1 (here ▸ member)
    exact prevSame a (inside a (List.mem_cons_of_mem behind member)) (forward ▸ notFirst)

/-- A node is taken out. -/
theorem remove (ring : Ring next prev (left ++ node :: right)) (forward : next' (prev node) = next node)
    (back : prev' (next node) = prev node) (nextSame : ∀ a ∈ left ++ right, a ≠ prev node → next' a = next a)
    (prevSame : ∀ a ∈ left ++ right, a ≠ next node → prev' a = prev a) : Ring next' prev' (left ++ right) := by
  suffices turned : Ring next' prev' (right ++ left) from turned.rotate
  have old : Ring next prev (node :: (right ++ left)) := ring.rotate
  have same (a : ν) (member : a ∈ right ++ left) : a ∈ left ++ right := by
    simp only [List.mem_append] at member ⊢
    exact member.symm
  obtain ⟨-, nodup⟩ := List.nodup_cons.mp old.nodup
  revert old nodup same
  generalize right ++ left = rest
  intro old same nodup
  rcases List.eq_nil_or_concat rest with rfl | ⟨init, last, rfl⟩
  · exact ⟨.nil, .nil⟩
  rw [List.concat_eq_append] at old nodup same ⊢
  obtain ⟨-, before⟩ := old.closed
  obtain ⟨ahead, later, split⟩ : ∃ ahead later, init ++ [last] = ahead :: later := by
    cases init with
    | nil => exact ⟨last, [], rfl⟩
    | cons first rest => exact ⟨first, rest ++ [last], rfl⟩
  have path := old.path_cons
  rw [split, List.cons_append] at path
  obtain ⟨⟨first, -⟩, rest⟩ := path_cons_cons.mp path
  have kept : Path next prev (init ++ [last]) := by
    rw [split]
    exact List.IsChain.left_of_append (show Path next prev (ahead :: later ++ [node]) from rest)
  have once : (ahead :: later).Nodup := split ▸ nodup
  refine ⟨?_, nodup⟩
  rw [split, List.head?_cons, Option.toList_some, ← split, List.append_assoc]
  refine path_split.mpr ⟨kept.frame (fun a member => ?_) fun a member => ?_,
    path_cons_cons.mpr ⟨⟨?_, ?_⟩, .singleton _⟩⟩
  · rw [List.dropLast_concat] at member
    refine nextSame a (same a (List.mem_append_left _ member)) fun here => ?_
    rw [here, before] at member
    exact (List.nodup_append.mp nodup).2.2 last member last List.mem_cons_self rfl
  · rw [split] at member
    refine prevSame a (same a (split ▸ List.mem_cons_of_mem ahead member)) fun here => ?_
    rw [here, first] at member
    exact (List.nodup_cons.mp once).1 member
  · rw [← before, forward, first]
  · rw [← first, back, before]

end Ring

end DoublyLinked
