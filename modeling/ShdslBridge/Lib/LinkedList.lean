import Mathlib.Data.List.Basic

/-! # Singly linked lists in a table of links

A table gives every node the node behind it, or none at the end of a list. `Linked` says that the
nodes met from a start on are those of a given list. The start and the table determine the list, a
list depends only on the links of its own nodes, and the ways of changing a list, that is at its
head, at its tail, behind a node and by taking its head, change one or two links each.
-/

namespace LinkedList

variable {ν : Type*}

/-- The nodes met from `start` on, up to the end of the list. -/
def Linked (next : ν → Option ν) : Option ν → List ν → Prop
  | start, [] => start = none
  | start, node :: rest => start = some node ∧ Linked next (next node) rest

variable {next : ν → Option ν} {start : Option ν} {node : ν} {nodes : List ν}

@[simp] theorem linked_nil : Linked next start [] ↔ start = none :=
  Iff.rfl

@[simp] theorem linked_cons {rest : List ν} :
    Linked next start (node :: rest) ↔ start = some node ∧ Linked next (next node) rest := Iff.rfl

theorem linked_none : Linked next none nodes ↔ nodes = [] := by
  cases nodes with
  | nil => simp
  | cons node rest => simp

/-- A start that is a node is the head of its list. -/
theorem Linked.cases_some (linked : Linked next (some node) nodes) :
    ∃ rest, nodes = node :: rest ∧ Linked next (next node) rest := by
  cases nodes with
  | nil => simp at linked
  | cons head rest =>
    obtain ⟨same, linked⟩ := linked
    obtain rfl := Option.some.inj same
    exact ⟨rest, rfl, linked⟩

/-- Links of other nodes do not matter. -/
theorem Linked.frame {next next' : ν → Option ν} (linked : Linked next start nodes)
    (same : ∀ node ∈ nodes, next' node = next node) : Linked next' start nodes := by
  induction nodes generalizing start with
  | nil => exact linked
  | cons node rest ih =>
    obtain ⟨rfl, linked⟩ := linked
    refine ⟨rfl, ?_⟩
    rw [same node List.mem_cons_self]
    exact ih linked fun other member => same other (List.mem_cons_of_mem node member)

/-- The list behind a node. -/
theorem Linked.tail {front back : List ν} (linked : Linked next start (front ++ node :: back)) :
    Linked next (next node) back := by
  induction front generalizing start with
  | nil => exact linked.2
  | cons head rest ih => exact ih linked.2

/-- The list behind a node is replaced by another one. -/
theorem Linked.replace_tail {next next' : ν → Option ν} {front back back' : List ν}
    (linked : Linked next start (front ++ node :: back)) (same : ∀ other ∈ front, next' other = next other)
    (tail : Linked next' (next' node) back') : Linked next' start (front ++ node :: back') := by
  induction front generalizing start with
  | nil => exact ⟨linked.1, tail⟩
  | cons head rest ih =>
    obtain ⟨atHead, later⟩ := List.forall_mem_cons.mp same
    refine ⟨linked.1, ?_⟩
    rw [atHead]
    exact ih linked.2 later

/-- What is behind a node that is not the last one. -/
theorem Linked.next_mem {front back : List ν} (linked : Linked next start (front ++ node :: back)) {other : ν}
    (member : other ∈ front) : ∃ behind ∈ front ++ [node], next other = some behind := by
  induction front generalizing start with
  | nil => cases member
  | cons head rest ih =>
    rcases List.mem_cons.mp member with rfl | later
    · cases rest with
      | nil => exact ⟨node, by simp, linked.2.1⟩
      | cons second rest => exact ⟨second, by simp, linked.2.1⟩
    · obtain ⟨behind, inside, link⟩ := ih linked.2 later
      exact ⟨behind, List.mem_cons_of_mem head inside, link⟩

/-- Nodes that are numbered, each linked to the next one up to the last. -/
theorem linked_range' (node : ℕ → ν) {first count : ℕ}
    (links : ∀ i, first ≤ i → i < first + count → next (node i) = some (node (i + 1)))
    (last : next (node (first + count)) = none) :
    Linked next (some (node first)) ((List.range' first (count + 1)).map node) := by
  induction count generalizing first with
  | zero => exact ⟨rfl, last⟩
  | succ count ih =>
    refine ⟨rfl, ?_⟩
    rw [links first (Nat.le_refl _) (by omega)]
    apply ih
    · intro i above below
      exact links i (by omega) (by omega)
    · rw [Nat.add_right_comm]
      exact last

variable [DecidableEq ν]

/-- A link of a node outside the list. -/
theorem Linked.update_outside (linked : Linked next start nodes) (outside : node ∉ nodes) (link : Option ν) :
    Linked (Function.update next node link) start nodes := by
  apply linked.frame
  intro other member
  apply Function.update_of_ne
  rintro rfl
  exact outside member

/-- A node in front of the list. -/
theorem Linked.push (linked : Linked next start nodes) (outside : node ∉ nodes) :
    Linked (Function.update next node start) (some node) (node :: nodes) := by
  refine ⟨rfl, ?_⟩
  rw [Function.update_self]
  exact linked.update_outside outside start

/-- A node with no link behind the last node of the list. -/
theorem Linked.append {last node : ν} (linked : Linked next start (nodes ++ [last]))
    (distinct : (nodes ++ [last]).Nodup) (outside : node ∉ nodes ++ [last]) (unlinked : next node = none) :
    Linked (Function.update next last (some node)) start (nodes ++ [last, node]) := by
  have ne : node ≠ last := by
    rintro rfl
    exact outside (by simp)
  induction nodes generalizing start with
  | nil =>
    obtain ⟨rfl, -⟩ := linked
    simp [ne, unlinked]
  | cons head rest ih =>
    obtain ⟨rfl, linked⟩ := linked
    obtain ⟨notLater, distinct⟩ := List.nodup_cons.mp distinct
    have neHead : head ≠ last := by
      rintro rfl
      exact notLater (by simp)
    refine ⟨rfl, ?_⟩
    rw [Function.update_of_ne neHead]
    exact ih linked distinct fun member => outside (List.mem_cons_of_mem head member)

end LinkedList
