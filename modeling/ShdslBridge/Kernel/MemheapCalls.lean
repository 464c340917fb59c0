import ShdslBridge.Kernel.MemheapStages
import Mathlib.Algebra.Order.BigOperators.Group.List
import Mathlib.Data.List.Find

/-! # The calls of a memheap

A heap is `Sound` when all unused items are on the free list, no two of them are neighbours, and the byte
counter is the sum of their data areas. The value of a heap is what `contentOf` tells of each used item: the
bytes of its data area. Every call takes a sound heap to a sound heap and changes this value at its own item
only; `Outcome` says so.
-/

namespace RtThread

open DoublyLinked Memory

namespace Memheaps

def dataSize (s : Memheaps) (item : ℕ) : ℕ := s.get .next item - (item + 24)

def contentOf (s : Memheaps) (heap : ℕ) (blocks free : List ℕ) (item : ℕ) : Option (List (BitVec 8)) :=
  if item ∈ blocks ∧ item ∉ free ∧ item ≠ tailer (s.heap heap) then
    some (readAt s.bytes (item + 24) (s.dataSize item))
  else none

/-- Between calls. -/
structure Sound (s : Memheaps) (heap : ℕ) (blocks free : List ℕ) : Prop where
  parts : Parts s heap blocks free free
  coalesced : blocks.IsChain fun a b => a ∈ free → b ∉ free
  counted : (s.heap heap).availableSize = (free.map s.dataSize).sum
  roomy : blocks.length = 2 ∨ ∀ a ∈ blocks, a ≠ tailer (s.heap heap) → 12 ≤ s.dataSize a

/-- What a call does to a heap: it ends with other items, and with another content of one of them. -/
structure Outcome (s s' : Memheaps) (heap : ℕ) (blocks free blocks' free' : List ℕ) (item : ℕ)
    (content : Option (List (BitVec 8))) : Prop where
  sound : Sound s' heap blocks' free'
  content : ∀ a, contentOf s' heap blocks' free' a = if a = item then content else contentOf s heap blocks free a
  outside : ∀ i, (i < (s.heap heap).startAddr ∨ (s.heap heap).startAddr + (s.heap heap).poolSize ≤ i) →
    (i < freeHeader heap ∨ freeHeader heap + 24 ≤ i) → s'.bytes i = s.bytes i
  others : ∀ other, other ≠ heap → s'.heap other = s.heap other
  start : (s'.heap heap).startAddr = (s.heap heap).startAddr
  size : (s'.heap heap).poolSize = (s.heap heap).poolSize
  objects : s'.objectList = s.objectList

/-! ## Neighbours -/

section

variable {free free' left right : List ℕ} {item : ℕ}

theorem coalesced_mono {blocks : List ℕ} (chain : blocks.IsChain fun a b => a ∈ free → b ∉ free)
    (sub : ∀ a ∈ blocks, a ∈ free' → a ∈ free) : blocks.IsChain fun a b => a ∈ free' → b ∉ free' := by
  refine chain.imp_of_mem_imp fun a b inA inB apart isFree other => ?_
  exact apart (sub a inA isFree) (sub b inB other)

theorem coalesced_used (used : item ∉ free) :
    ((left ++ item :: right).IsChain fun a b => a ∈ free → b ∉ free) ↔
      (left.IsChain fun a b => a ∈ free → b ∉ free) ∧ right.IsChain fun a b => a ∈ free → b ∉ free := by
  rw [List.isChain_append, List.isChain_cons]
  constructor
  · rintro ⟨front, ⟨-, back⟩, -⟩
    exact ⟨front, back⟩
  · rintro ⟨front, back⟩
    refine ⟨front, ⟨fun b _ isFree => absurd isFree used, back⟩, fun a _ b here _ => ?_⟩
    rw [List.head?_cons] at here
    exact Option.some.inj here ▸ used

theorem coalesced_free (isFree : item ∈ free) :
    ((left ++ item :: right).IsChain fun a b => a ∈ free → b ∉ free) ↔
      ((left.IsChain fun a b => a ∈ free → b ∉ free) ∧ right.IsChain fun a b => a ∈ free → b ∉ free) ∧
        (∀ a ∈ left.getLast?, a ∉ free) ∧ ∀ b ∈ right.head?, b ∉ free := by
  rw [List.isChain_append, List.isChain_cons]
  constructor
  · rintro ⟨front, ⟨ahead, back⟩, across⟩
    exact ⟨⟨front, back⟩, fun a last inFree => across a last item rfl inFree isFree,
      fun b first => ahead b first isFree⟩
  · rintro ⟨⟨front, back⟩, before, ahead⟩
    refine ⟨front, ⟨fun b first _ => ahead b first, back⟩, fun a last b _ inFree => ?_⟩
    exact absurd inFree (before a last)

end

/-! ## Sums -/

theorem sum_map_le_of_subset {items blocks : List ℕ} (nodup : items.Nodup) (sub : items ⊆ blocks) (f : ℕ → ℕ) :
    (items.map f).sum ≤ (blocks.map f).sum := by
  obtain ⟨same, perm, sublist⟩ := List.subperm_of_subset nodup sub
  rw [← (perm.map f).sum_eq]
  exact (sublist.map f).sum_le_sum fun _ _ => Nat.zero_le _

theorem sum_spans {next prev : ℕ → ℕ} {blocks : List ℕ} {first last : ℕ} (path : Path next prev blocks)
    (ordered : blocks.Pairwise fun a b => a + 24 ≤ b) (head : blocks.head? = some first)
    (end_ : blocks.getLast? = some last) : (blocks.dropLast.map fun a => next a - a).sum + first = last := by
  induction blocks generalizing first with
  | nil => cases head
  | cons a rest ih =>
    obtain rfl := Option.some.inj head
    cases rest with
    | nil =>
      obtain rfl := Option.some.inj end_
      exact Nat.zero_add a
    | cons b rest =>
      obtain ⟨⟨forward, -⟩, later⟩ := path_cons_cons.mp path
      obtain ⟨before, ordered⟩ := List.pairwise_cons.mp ordered
      have low := before b List.mem_cons_self
      rw [List.getLast?_cons_cons] at end_
      have := ih later ordered rfl end_
      rw [List.dropLast_cons_cons, List.map_cons, List.sum_cons, forward]
      omega

namespace Parts

variable {s : Memheaps} {heap item : ℕ} {blocks unused free : List ℕ}

theorem split (parts : Parts s heap blocks unused free) (here : item ∈ blocks)
    (notLast : item ≠ tailer (s.heap heap)) :
    ∃ left behind right, blocks = left ++ item :: behind :: right ∧
      s.get .next item = behind ∧ item + 24 ≤ behind := by
  obtain ⟨left, right, rfl⟩ := List.append_of_mem here
  cases right with
  | nil =>
    have last := parts.last
    rw [List.getLast?_concat] at last
    exact absurd (Option.some.inj last) notLast
  | cons behind right =>
    have ordered := (List.pairwise_append.mp parts.ordered).2.1
    have low := (List.pairwise_cons.mp ordered).1 behind List.mem_cons_self
    exact ⟨left, behind, right, rfl, parts.ring.linked.1, low⟩

theorem dataSize_eq (parts : Parts s heap blocks unused free) (here : item ∈ blocks)
    (notLast : item ≠ tailer (s.heap heap)) :
    item + 24 + s.dataSize item = s.get .next item ∧
      s.get .next item + 24 ≤ (s.heap heap).startAddr + (s.heap heap).poolSize := by
  obtain ⟨left, behind, right, rfl, forward, low⟩ := parts.split here notLast
  have bounds := parts.bounds (show behind ∈ left ++ item :: behind :: right by simp)
  rw [dataSize, forward]
  omega

theorem apart_data (parts : Parts s heap blocks unused free) (here : item ∈ blocks)
    (notLast : item ≠ tailer (s.heap heap)) {a : ℕ} (member : a ∈ freeHeader heap :: blocks) :
    a + 24 ≤ item + 24 ∨ s.get .next item ≤ a := by
  obtain ⟨left, behind, right, rfl, forward, -⟩ := parts.split here notLast
  have start := parts.bounds here
  have stop := parts.bounds (show behind ∈ left ++ item :: behind :: right by simp)
  have place := parts.pool.apart
  obtain ⟨-, ordered, across⟩ := List.pairwise_append.mp parts.ordered
  obtain ⟨-, ordered⟩ := List.pairwise_cons.mp ordered
  rcases List.mem_cons.mp member with rfl | member
  · omega
  rcases List.mem_append.mp member with inLeft | member
  · have := across a inLeft item List.mem_cons_self
    omega
  rcases List.mem_cons.mp member with rfl | member
  · omega
  rcases List.mem_cons.mp member with rfl | later
  · omega
  · have := (List.pairwise_cons.mp ordered).1 a later
    omega

theorem apart (parts : Parts s heap blocks unused free) (here : item ∈ blocks)
    (notLast : item ≠ tailer (s.heap heap)) {i : ℕ} (above : item + 24 ≤ i) (below : i < s.get .next item) {a : ℕ}
    (member : a ∈ freeHeader heap :: blocks) : i < a ∨ a + 24 ≤ i := by
  have := parts.apart_data here notLast member
  omega

/-- Items that are not the last one fit in the pool with their headers. -/
theorem room (parts : Parts s heap blocks unused free) {items : List ℕ} (nodup : items.Nodup)
    (sub : ∀ a ∈ items, a ∈ blocks ∧ a ≠ tailer (s.heap heap)) :
    (items.map fun a => s.dataSize a + 24).sum + 24 ≤ (s.heap heap).poolSize := by
  have inFront (a : ℕ) (member : a ∈ items) : a ∈ blocks.dropLast ∧ s.dataSize a + 24 = s.get .next a - a := by
    obtain ⟨here, notLast⟩ := sub a member
    obtain ⟨left, behind, right, rfl, forward, low⟩ := parts.split here notLast
    refine ⟨by simp, ?_⟩
    rw [dataSize, forward]
    omega
  have spans := sum_spans (List.IsChain.left_of_append parts.ring.path) parts.ordered parts.first parts.last
  have le := sum_map_le_of_subset nodup (fun a member => (inFront a member).1) fun a => s.get .next a - a
  have same : items.map (fun a => s.dataSize a + 24) = items.map fun a => s.get .next a - a :=
    List.map_congr_left fun a member => (inFront a member).2
  have := parts.pool.room
  rw [tailer] at spans
  rw [same]
  omega

end Parts

theorem contentOf_used {s : Memheaps} {heap item : ℕ} {blocks free : List ℕ} (here : item ∈ blocks)
    (used : item ∉ free) (notLast : item ≠ tailer (s.heap heap)) :
    contentOf s heap blocks free item = some (readAt s.bytes (item + 24) (s.dataSize item)) :=
  if_pos ⟨here, used, notLast⟩

theorem Stage.outcome {s s' : Memheaps} {heap item available : ℕ} {nodes blocks free blocks' free' : List ℕ}
    {next : ℕ → ℕ} {content : Option (List (BitVec 8))} (before : Sound s heap blocks free)
    (stage : Stage s heap nodes s' blocks' free' free' next available)
    (coalesced : blocks'.IsChain fun a b => a ∈ free' → b ∉ free')
    (counted : available = (free'.map fun a => next a - (a + 24)).sum)
    (roomy : blocks'.length = 2 ∨ ∀ a ∈ blocks', a ≠ tailer (s.heap heap) → 12 ≤ next a - (a + 24))
    (written : ∀ a ∈ nodes, a ∈ freeHeader heap :: blocks ∨ a ∈ blocks')
    (others : ∀ a, a ≠ item → (a ∈ blocks' ∧ a ∉ free' ↔ a ∈ blocks ∧ a ∉ free))
    (same : ∀ a ∈ blocks, a ∉ free → a ≠ item → next a = s.get .next a)
    (content_eq : contentOf s' heap blocks' free' item = content) :
    Outcome s s' heap blocks free blocks' free' item content := by
  have parts := stage.parts
  have tail : tailer (s'.heap heap) = tailer (s.heap heap) := by rw [tailer, tailer, stage.start, stage.size]
  have sizes (a : ℕ) (member : a ∈ blocks') : s'.dataSize a = next a - (a + 24) := by
    rw [dataSize, stage.next_eq a member]
  refine ⟨⟨parts, coalesced, ?_, ?_⟩, fun a => ?_, fun i outPool outHeader => ?_, stage.others, stage.start,
    stage.size, stage.objects⟩
  · rw [stage.available_eq, counted, List.map_congr_left fun a member => (sizes a (parts.inside a member)).symm]
  · refine roomy.imp_right fun all a member notLast => ?_
    rw [sizes a member]
    exact all a member (tail ▸ notLast)
  · split
    · rename_i here
      rw [here, content_eq]
    rename_i away
    rw [contentOf, contentOf, tail]
    have iff : a ∈ blocks' ∧ a ∉ free' ∧ a ≠ tailer (s.heap heap) ↔
        a ∈ blocks ∧ a ∉ free ∧ a ≠ tailer (s.heap heap) := by
      rw [← and_assoc, ← and_assoc, others a away]
    by_cases used : a ∈ blocks ∧ a ∉ free ∧ a ≠ tailer (s.heap heap)
    · rw [if_pos used, if_pos (iff.mpr used)]
      obtain ⟨here, isUsed, notLast⟩ := used
      have here' : a ∈ blocks' := (iff.mpr ⟨here, isUsed, notLast⟩).1
      have ends : s'.get .next a = s.get .next a := (stage.next_eq a here').trans (same a here isUsed away)
      have long : s'.dataSize a = s.dataSize a := by rw [dataSize, dataSize, ends]
      rw [long]
      refine congrArg some (readAt_congr fun i inside => ?_)
      rw [dataSize] at inside
      refine stage.frame _ fun b member => ?_
      rcases written b member with old | new
      · exact before.parts.apart here notLast (by omega) (by omega) old
      · refine parts.apart here' (tail ▸ notLast) (by omega) ?_ (List.mem_cons_of_mem _ new)
        rw [ends]
        omega
    · rw [if_neg used, if_neg fun used' => used (iff.mp used')]
  · refine stage.frame i fun a member => ?_
    rcases written a member with old | new
    · rcases List.mem_cons.mp old with rfl | old
      · exact outHeader
      · have := before.parts.bounds old
        omega
    · have := parts.bounds new
      rw [stage.start, stage.size] at this
      omega

/-! ## The search -/

/-- The loop of `rt_memheap_alloc` finds the first item of the free list that is long enough. -/
theorem search_path {s : Memheaps} {node freeList size fuel : ℕ} {items : List ℕ}
    (path : Path (s.get .nextFree) (s.get .prevFree) (node :: (items ++ [freeList]))) (away : freeList ∉ items)
    (enough : items.length < fuel) :
    s.search freeList size fuel (s.get .nextFree node) = some (items.find? fun a => size ≤ s.memitemSize a) := by
  induction items generalizing node fuel with
  | nil =>
    obtain ⟨fuel, rfl⟩ := Nat.exists_eq_succ_of_ne_zero enough.ne'
    obtain ⟨⟨forward, -⟩, -⟩ := path_cons_cons.mp path
    rw [search, if_pos forward]
    rfl
  | cons first rest ih =>
    obtain ⟨fuel, rfl⟩ := Nat.exists_eq_succ_of_ne_zero (Nat.ne_of_gt (Nat.zero_lt_of_lt enough))
    obtain ⟨⟨forward, -⟩, later⟩ := path_cons_cons.mp path
    rw [List.mem_cons, not_or] at away
    rw [search, forward, if_neg fun same => away.1 same.symm, List.find?_cons]
    split
    · rename_i short
      rw [decide_eq_false (Nat.not_le.mpr short)]
      exact ih later away.2 (Nat.lt_of_succ_lt_succ enough)
    · rename_i long
      rw [decide_eq_true (Nat.le_of_not_lt long)]

theorem length_le_sum (items : List ℕ) (f : ℕ → ℕ) : items.length ≤ (items.map fun a => f a + 24).sum := by
  induction items with
  | nil => exact Nat.zero_le _
  | cons a rest ih =>
    rw [List.length_cons, List.map_cons, List.sum_cons]
    omega

theorem Parts.length_le {s : Memheaps} {heap : ℕ} {blocks unused free : List ℕ}
    (parts : Parts s heap blocks unused free) : free.length < (s.heap heap).poolSize := by
  have nodup := (List.nodup_cons.mp parts.freeRing.nodup).2
  have room := parts.room nodup fun a member =>
    ⟨parts.inside a (parts.listed a member), fun same => parts.tailUsed (same ▸ parts.listed a member)⟩
  have := length_le_sum free s.dataSize
  omega

theorem Parts.blocks_length {s : Memheaps} {heap : ℕ} {blocks unused free : List ℕ}
    (parts : Parts s heap blocks unused free) : blocks.length ≤ (s.heap heap).poolSize := by
  obtain ⟨front, rfl⟩ := List.getLast?_eq_some_iff.mp parts.last
  obtain ⟨nodup, -, apart⟩ := List.nodup_append.mp parts.ring.nodup
  have room := parts.room nodup fun a member =>
    ⟨List.mem_append_left _ member, apart a member _ List.mem_cons_self⟩
  have := length_le_sum front s.dataSize
  rw [List.length_append, List.length_singleton]
  omega

theorem Parts.memitemSize_eq {s : Memheaps} {heap item : ℕ} {blocks unused free : List ℕ}
    (parts : Parts s heap blocks unused free) (here : item ∈ blocks) (notLast : item ≠ tailer (s.heap heap)) :
    s.memitemSize item = s.dataSize item := by
  obtain ⟨left, behind, right, rfl, -, -⟩ := parts.split here notLast
  exact (parts.stage fun _ member => member).memitemSize_eq

theorem sum_map_middle (front back : List ℕ) (item : ℕ) (f : ℕ → ℕ) :
    ((front ++ item :: back).map f).sum = f item + ((front ++ back).map f).sum := by
  simp only [List.map_append, List.map_cons, List.sum_append, List.sum_cons]
  omega

namespace Sound

variable {s : Memheaps} {heap item size : ℕ} {blocks free : List ℕ}

theorem available_le (sound : Sound s heap blocks free) :
    (s.heap heap).availableSize + 24 ≤ (s.heap heap).poolSize ∧
      ∀ a ∈ blocks, a ∉ free → a ≠ tailer (s.heap heap) →
        (s.heap heap).availableSize + s.dataSize a + 48 ≤ (s.heap heap).poolSize := by
  have nodup := (List.nodup_cons.mp sound.parts.freeRing.nodup).2
  have inside (a : ℕ) (member : a ∈ free) : a ∈ blocks ∧ a ≠ tailer (s.heap heap) :=
    ⟨sound.parts.inside a member, fun same => sound.parts.tailUsed (same ▸ member)⟩
  have le : (s.heap heap).availableSize ≤ (free.map fun a => s.dataSize a + 24).sum := by
    rw [sound.counted]
    exact List.sum_le_sum fun a _ => Nat.le_add_right _ 24
  constructor
  · have := sound.parts.room nodup inside
    omega
  · intro a here used notLast
    have := sound.parts.room (List.nodup_cons.mpr ⟨used, nodup⟩) fun b member => by
      rcases List.mem_cons.mp member with rfl | later
      · exact ⟨here, notLast⟩
      · exact inside b later
    rw [List.map_cons, List.sum_cons] at this
    omega

theorem roomy_other (sound : Sound s heap blocks free) (here : item ∈ blocks) (notLast : item ≠ tailer (s.heap heap))
    {a : ℕ} (member : a ∈ blocks) (notLast' : a ≠ tailer (s.heap heap)) (ne : a ≠ item) : 12 ≤ s.dataSize a := by
  rcases sound.roomy with two | all
  · obtain ⟨left, behind, right, rfl, -, -⟩ := sound.parts.split here notLast
    have last := sound.parts.last
    obtain ⟨rfl, rfl⟩ : left = [] ∧ right = [] := by
      rw [List.length_append, List.length_cons, List.length_cons] at two
      exact ⟨List.length_eq_zero_iff.mp (by omega), List.length_eq_zero_iff.mp (by omega)⟩
    have inPair : a = item ∨ a = behind := by simpa using member
    have isLast : behind = tailer (s.heap heap) := by simpa using last
    rcases inPair with same | same
    · exact absurd same ne
    · exact absurd (same.trans isLast) notLast'
  · exact all a member notLast'

theorem free_mem (sound : Sound s heap blocks free) (member : item ∈ free) :
    item ∈ blocks ∧ item ≠ tailer (s.heap heap) :=
  ⟨sound.parts.inside item member, fun same => sound.parts.tailUsed (same ▸ member)⟩

theorem search_eq (sound : Sound s heap blocks free) (size : ℕ) :
    s.search (s.heap heap).freeList size (s.heap heap).poolSize (s.get .nextFree (s.heap heap).freeList) =
      some (free.find? fun a => size ≤ s.dataSize a) := by
  have ring := sound.parts.freeRing
  rw [sound.parts.pool.freeList,
    search_path ring.path_cons (List.nodup_cons.mp ring.nodup).1 sound.parts.length_le]
  refine congrArg some (List.find?_congr fun a member => ?_)
  obtain ⟨here, notLast⟩ := sound.free_mem member
  rw [sound.parts.memitemSize_eq here notLast]

end Sound

end Memheaps

end RtThread
