import ShdslBridge.Kernel.MemheapCalls

/-! # Allocation from a memheap

`rt_memheap_alloc` takes the first item of the free list that is long enough, and cuts it in two where the
rest has room for a header and twelve bytes more.
-/

namespace RtThread

open DoublyLinked Memory

namespace Memheaps

variable {s : Memheaps} {heap item size : ℕ} {blocks free : List ℕ}

theorem Sound.takeItem_split (sound : Sound s heap blocks free) (isFree : item ∈ free) (enough : 12 ≤ size)
    (room : size + 36 ≤ s.dataSize item) :
    ∃ blocks' free' data, Outcome s (s.takeItem heap item size) heap blocks free blocks' free' item (some data) ∧
      data.length = size ∧ ∀ a ∈ blocks', a ∈ blocks ∨ a = item + size + 24 := by
  obtain ⟨here, notLast⟩ := sound.free_mem isFree
  obtain ⟨left, behind, right, rfl, forward, low⟩ := sound.parts.split here notLast
  obtain ⟨front, back, rfl⟩ := List.append_of_mem isFree
  have inMemory := sound.parts.pool.inMemory
  have bounds := sound.parts.bounds (show behind ∈ left ++ item :: behind :: right by simp)
  have sizeEq : s.dataSize item = behind - (item + 24) := by rw [dataSize, forward]
  obtain ⟨new, newEq⟩ : ∃ new, new = item + size + 24 := ⟨_, rfl⟩
  have high : new + 24 ≤ behind := by omega
  obtain ⟨-, fresh⟩ := ordered_insert sound.parts.ordered (show item + 24 ≤ new by omega) high
  have newFree : new ∉ front ++ item :: back := fun member => fresh (sound.parts.inside new member)
  have once := sound.parts.once
  have itemFree : item ∉ front ++ back := (List.nodup_cons.mp (List.nodup_middle.mp once)).1
  have old (a : ℕ) (member : a ∈ left ++ item :: new :: behind :: right) :
      a = new ∨ a ∈ left ++ item :: behind :: right := mem_insert.mp member
  have kept (a : ℕ) (member : a ∈ left ++ item :: behind :: right) :
      a ∈ left ++ item :: new :: behind :: right := mem_insert.mpr (.inr member)
  have covers (a : ℕ) (member : a ∈ freeHeader heap :: (left ++ item :: behind :: right)) :
      a ∈ freeHeader heap :: (left ++ item :: new :: behind :: right) :=
    (List.mem_cons.mp member).elim (fun same => same ▸ List.mem_cons_self)
      fun later => List.mem_cons_of_mem _ (kept a later)
  have newOut : new ∉ front ++ back := fun member => newFree (mem_middle.mpr (.inr member))
  have fewer (a : ℕ) (away : a ≠ new) (member : a ∈ new :: (front ++ back)) : a ∈ front ++ item :: back :=
    mem_middle.mpr (.inr ((List.mem_cons.mp member).resolve_left away))
  -- the statements of the branch
  have cut := (sound.parts.stage covers).splitItem (show item + 24 ≤ new by omega) high (by simp)
  have taken := cut.unlinkFree.clearFree (by simp) itemFree
  have listed := (taken.linkFree List.mem_cons_self newOut).useAvailable
    (sub32 (sub32 (s.heap heap).availableSize size) rtMemheapSize)
  have itemOut : item ∉ new :: (front ++ back) := by
    rw [List.mem_cons, not_or]
    exact ⟨by omega, itemFree⟩
  have listed' : Stage _ _ _ _ _ ((new :: front) ++ item :: back) _ _ _ := listed
  have fits : word32 (size + rtMemheapSize + rtMemheapMinialloc) ≤ s.dataSize item := by
    rw [rtMemheapSize, rtMemheapMinialloc, word32_of_lt (by omega)]
    omega
  have place : word32 (item + size + rtMemheapSize) = new := by
    rw [rtMemheapSize, word32_of_lt (by omega), newEq]
  have marked : Stage s heap (freeHeader heap :: (left ++ item :: new :: behind :: right))
      (s.takeItem heap item size) (left ++ item :: new :: behind :: right) (new :: (front ++ back))
      (new :: (front ++ back)) (Function.update (Function.update (s.get .next) new behind) item new)
      (sub32 (sub32 (s.heap heap).availableSize size) rtMemheapSize) := by
    rw [Memheaps.takeItem, sound.parts.memitemSize_eq here notLast]
    dsimp only
    rw [if_pos fits, place]
    exact listed'.markUsed itemOut
  have tail : tailer ((s.takeItem heap item size).heap heap) = tailer (s.heap heap) := by
    rw [tailer, tailer, marked.start, marked.size]
  have itemIn : item ∈ left ++ item :: new :: behind :: right := by simp
  have long : (s.takeItem heap item size).dataSize item = size := by
    rw [dataSize, marked.next_eq item itemIn, Function.update_self]
    omega
  refine ⟨left ++ item :: new :: behind :: right, new :: (front ++ back),
    readAt (s.takeItem heap item size).bytes (item + 24) ((s.takeItem heap item size).dataSize item), ?_, ?_, ?_⟩
  · refine Stage.outcome sound marked ?_ ?_ ?_ ?_ ?_ ?_
      (contentOf_used itemIn itemOut (by rw [tail]; exact notLast))
    · -- no free neighbours
      obtain ⟨⟨apartLeft, apartRight⟩, -, ahead⟩ := (coalesced_free isFree).mp sound.coalesced
      refine (coalesced_used itemOut).mpr ⟨coalesced_mono apartLeft fun a member => ?_, ?_⟩
      · exact fewer a (fun same => fresh (same ▸ List.mem_append_left _ member))
      · have behindOut : behind ∉ new :: (front ++ back) := fun member =>
          ahead behind rfl (fewer behind (by omega) member)
        refine List.isChain_cons.mpr ⟨fun b first _ => ?_, coalesced_mono apartRight fun a member => ?_⟩
        · exact Option.some.inj first ▸ behindOut
        · refine fewer a fun same => fresh ?_
          rw [← same]
          exact List.mem_append_right left (List.mem_cons_of_mem item member)
    · -- the byte counter
      have available := sound.available_le.1
      have counted := sound.counted
      rw [sum_map_middle, sizeEq] at counted
      have rest : (front ++ back).map
          (fun a => Function.update (Function.update (s.get .next) new behind) item new a - (a + 24)) =
          (front ++ back).map s.dataSize := by
        refine List.map_congr_left fun a member => ?_
        rw [Function.update_of_ne (ne_of_mem_of_not_mem member itemFree),
          Function.update_of_ne (ne_of_mem_of_not_mem member newOut), dataSize]
      have less : size ≤ (s.heap heap).availableSize := by omega
      rw [List.map_cons, List.sum_cons, rest, Function.update_of_ne (by omega), Function.update_self,
        sub32_of_le less (by omega), rtMemheapSize, sub32_of_le (by omega) (by omega)]
      omega
    · refine .inr fun a member notLast' => ?_
      rcases eq_or_ne a item with rfl | ne
      · rw [Function.update_self]
        omega
      rw [Function.update_of_ne ne]
      rcases eq_or_ne a new with rfl | away
      · rw [Function.update_self]
        omega
      rw [Function.update_of_ne away]
      exact sound.roomy_other here notLast ((old a member).resolve_left away) notLast' ne
    · intro a member
      rcases List.mem_cons.mp member with rfl | later
      · exact .inl List.mem_cons_self
      · exact .inr later
    · intro a ne
      rcases eq_or_ne a new with rfl | away
      · exact iff_of_false (fun both => both.2 List.mem_cons_self) fun both => fresh both.1
      · have inBlocks : a ∈ left ++ item :: new :: behind :: right ↔ a ∈ left ++ item :: behind :: right :=
          ⟨fun member => (old a member).resolve_left away, fun member => kept a member⟩
        have inFree : a ∈ new :: (front ++ back) ↔ a ∈ front ++ item :: back := by
          simp [ne, away]
        rw [inBlocks, inFree]
    · intro a member _ ne
      rw [Function.update_of_ne ne, Function.update_of_ne (ne_of_mem_of_not_mem member fresh)]
  · rw [readAt_length, long]
  · intro a member
    rw [← newEq]
    exact (old a member).symm

theorem Sound.takeItem_whole (sound : Sound s heap blocks free) (isFree : item ∈ free)
    (enough : size ≤ s.dataSize item) (small : s.dataSize item < size + 36) :
    ∃ free' data, Outcome s (s.takeItem heap item size) heap blocks free blocks free' item (some data) ∧
      data.length = s.dataSize item := by
  obtain ⟨here, notLast⟩ := sound.free_mem isFree
  obtain ⟨left, behind, right, rfl, forward, low⟩ := sound.parts.split here notLast
  obtain ⟨front, back, rfl⟩ := List.append_of_mem isFree
  have inMemory := sound.parts.pool.inMemory
  have bounds := sound.parts.bounds (show behind ∈ left ++ item :: behind :: right by simp)
  have sizeEq : s.dataSize item = behind - (item + 24) := by rw [dataSize, forward]
  have once := sound.parts.once
  have itemFree : item ∉ front ++ back := (List.nodup_cons.mp (List.nodup_middle.mp once)).1
  have fewer (a : ℕ) (member : a ∈ front ++ back) : a ∈ front ++ item :: back := mem_middle.mpr (.inr member)
  -- the statements of the branch
  have start := sound.parts.stage fun _ member => member
  have used := (start.useAvailable (sub32 (s.heap heap).availableSize (s.dataSize item))).unlinkFree
  have fits : ¬ word32 (size + rtMemheapSize + rtMemheapMinialloc) ≤ s.dataSize item := by
    have startLow := sound.parts.bounds here
    rw [rtMemheapSize, rtMemheapMinialloc, word32_of_lt (by omega)]
    omega
  have marked : Stage s heap (freeHeader heap :: (left ++ item :: behind :: right)) (s.takeItem heap item size)
      (left ++ item :: behind :: right) (front ++ back) (front ++ back) (s.get .next)
      (sub32 (s.heap heap).availableSize (s.dataSize item)) := by
    rw [Memheaps.takeItem, sound.parts.memitemSize_eq here notLast]
    dsimp only
    rw [if_neg fits]
    exact (used.clearFree here itemFree).markUsed itemFree
  have tail : tailer ((s.takeItem heap item size).heap heap) = tailer (s.heap heap) := by
    rw [tailer, tailer, marked.start, marked.size]
  refine ⟨front ++ back, readAt (s.takeItem heap item size).bytes (item + 24)
    ((s.takeItem heap item size).dataSize item), ?_, ?_⟩
  · refine Stage.outcome sound marked (coalesced_mono sound.coalesced fun a _ => fewer a) ?_ sound.roomy
      (fun a => .inl) ?_ (fun _ _ _ _ => rfl) (contentOf_used here itemFree (by rw [tail]; exact notLast))
    · have counted := sound.counted
      have available := sound.available_le.1
      rw [sum_map_middle] at counted
      rw [sub32_of_le (by omega) (by omega), counted, Nat.add_sub_cancel_left]
      rfl
    · intro a ne
      have inFree : a ∈ front ++ item :: back ↔ a ∈ front ++ back := by simp [ne]
      rw [inFree]
  · rw [readAt_length, dataSize, marked.next_eq item here, dataSize]

theorem Sound.takeItem (sound : Sound s heap blocks free) (isFree : item ∈ free) (min : 12 ≤ size)
    (enough : size ≤ s.dataSize item) :
    ∃ blocks' free' data, Outcome s (s.takeItem heap item size) heap blocks free blocks' free' item (some data) ∧
      size ≤ data.length ∧
      ∀ a ∈ blocks', a ∈ blocks ∨ a = item + size + 24 ∧ size + 36 ≤ s.dataSize item := by
  rcases Nat.lt_or_ge (s.dataSize item) (size + 36) with small | room
  · obtain ⟨free', data, outcome, long⟩ := sound.takeItem_whole isFree enough small
    exact ⟨blocks, free', data, outcome, long ▸ enough, fun a => .inl⟩
  · obtain ⟨blocks', free', data, outcome, long, inside⟩ := sound.takeItem_split isFree min room
    refine ⟨blocks', free', data, outcome, long.ge, fun a member => ?_⟩
    exact (inside a member).imp_right fun same => ⟨same, room⟩

/-- Some free item has room for the size, and the byte counter is above it. -/
def Serves (s : Memheaps) (heap : ℕ) (free : List ℕ) (size : ℕ) : Prop :=
  alignedSize size < (s.heap heap).availableSize ∧ ∃ a ∈ free, alignedSize size ≤ s.dataSize a

theorem minialloc_le (size : ℕ) : 12 ≤ alignedSize size := by
  rw [alignedSize]
  split
  · exact Nat.le_refl 12
  · rename_i large
    exact Nat.le_of_not_lt large

/-- `rt_memheap_alloc` returns the null pointer, or a block with the rounded size. -/
theorem Sound.alloc (sound : Sound s heap blocks free) (size : ℕ) :
    (¬ s.Serves heap free size ∧ s.rtMemheapAlloc heap size = some (s, none)) ∨
      s.Serves heap free size ∧ ∃ item ∈ free, alignedSize size ≤ s.dataSize item ∧
        (free.find? fun a => alignedSize size ≤ s.dataSize a) = some item ∧
        s.rtMemheapAlloc heap size = some (s.takeItem heap item (alignedSize size), some (item + 24)) := by
  have found := sound.search_eq (alignedSize size)
  rw [rtMemheapAlloc]
  rcases Nat.lt_or_ge (alignedSize size) (s.heap heap).availableSize with below | above
  · rw [if_pos below, found, Option.bind_eq_bind, Option.bind_some]
    cases first : free.find? fun a => alignedSize size ≤ s.dataSize a with
    | none =>
      refine .inl ⟨fun serves => ?_, rfl⟩
      obtain ⟨a, member, long⟩ := serves.2
      have short := List.find?_eq_none.mp first a member
      exact short (decide_eq_true long)
    | some item =>
      have isFree : item ∈ free := List.mem_of_find?_eq_some first
      have long : alignedSize size ≤ s.dataSize item := by
        have := List.find?_some first
        exact of_decide_eq_true this
      obtain ⟨here, notLast⟩ := sound.free_mem isFree
      have ends := sound.parts.dataSize_eq here notLast
      have inMemory := sound.parts.pool.inMemory
      refine .inr ⟨⟨below, item, isFree, long⟩, item, isFree, long, rfl, ?_⟩
      dsimp only
      rw [rtMemheapSize, word32_of_lt (by omega)]
  · rw [if_neg (Nat.not_lt.mpr above)]
    exact .inl ⟨fun serves => Nat.not_lt.mpr above serves.1, rfl⟩

end Memheaps

end RtThread
