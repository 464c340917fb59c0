import ShdslBridge.Finsh.StringJoins

/-! # The calls of the string heap

A release moves a block from the allocated to the free list and joins it there. An allocation cuts a
block from the front of a free one and moves it to the allocated list. The collector releases the blocks
that no variable points to. Each call keeps the tiling, leaves no two free blocks that touch, and keeps
the bytes of the blocks that stay allocated.
-/

namespace Finsh

open LittleEndian Memory LinkedList

namespace StringHeap

open StringBlock

variable {finshHeap : ℕ} {heap heap' : StringHeap} {free used front back : List StringBlock}

/-- The allocated blocks are these, and the free ones tile the rest without touching. -/
def Sound (finshHeap : ℕ) (heap : StringHeap) (used : List StringBlock) : Prop :=
  ∃ free, Tiled finshHeap heap free used ∧ Merged free

theorem SameData.refl (heap : StringHeap) (nodes : List StringBlock) : SameData heap heap nodes :=
  fun _ _ _ _ _ => rfl

variable {b : StringBlock} {size : ℕ}

/-- `finsh_heap_free` of an allocated block. -/
theorem Sound.heapFree (sound : Sound finshHeap heap (front ++ b :: back)) :
    ∃ heap', heap.heapFree (b.addr + 8) = some heap' ∧ Sound finshHeap heap' (front ++ back) ∧
      SameData heap heap' (front ++ back) := by
  obtain ⟨free, tiled, merged⟩ := sound
  obtain ⟨allocateList, heap₁, freeList, heap₂, before, behind, rfl, removed, inserted, tiled₂, same₂⟩ := tiled.release
  have joint : ∀ x ∈ before ++ b :: behind, ∀ y ∈ before ++ b :: behind, x.stop = y.addr → x = b ∨ y = b := by
    intro x left y right reach
    by_contra neither
    push Not at neither
    exact merged x ((mem_middle.mp left).resolve_left neither.1) y ((mem_middle.mp right).resolve_left neither.2) reach
  obtain ⟨heap', free', merges, tiled', merged', same'⟩ := tiled₂.blockMerge joint
  refine ⟨heap', ?_, ⟨free', tiled', merged'⟩, same₂.trans same'⟩
  rw [StringHeap.heapFree, Nat.add_sub_cancel, removed]
  simp only [Option.bind_eq_bind, Option.bind_some]
  rw [inserted]
  exact merges

def marked (globalVariable : VariableTable) (b : StringBlock) : Bool := globalVariable.contains (some (b.addr + 8))

/-- The loop of `finsh_heap_gc` over the blocks that are still to be looked at. -/
theorem Sound.gcLoop {globalVariable : VariableTable} {kept todo : List StringBlock} {fuel header : ℕ}
    (sound : Sound finshHeap heap (kept ++ todo)) (at_ : pointer header = (todo.map (·.addr)).head?)
    (enough : todo.length < fuel) :
    ∃ heap', StringHeap.gcLoop globalVariable fuel header heap = some heap' ∧
      Sound finshHeap heap' (kept ++ todo.filter (marked globalVariable)) ∧
      SameData heap heap' (kept ++ todo.filter (marked globalVariable)) := by
  induction todo generalizing heap kept fuel header with
  | nil =>
    obtain ⟨fuel, rfl⟩ := Nat.exists_eq_add_one.mpr enough
    exact ⟨heap, by rw [StringHeap.gcLoop, if_pos (pointer_eq_none.mp at_)], sound, .refl _ _⟩
  | cons b rest ih =>
    obtain ⟨fuel, rfl⟩ := Nat.exists_eq_add_one.mpr (Nat.lt_of_le_of_lt (Nat.zero_le _) enough)
    obtain ⟨rfl, notNull⟩ : header = b.addr ∧ b.addr ≠ 0 := pointer_eq_some.mp at_
    have after : pointer (heap.next b.addr) = (rest.map (·.addr)).head? := by
      obtain ⟨free, tiled, -⟩ := sound
      have linked := tiled.usedListed.linked
      simp only [List.map_append, List.map_cons] at linked
      cases rest with
      | nil => exact linked.tail
      | cons y rest => exact linked.tail.1
    have left := Nat.lt_of_succ_lt_succ enough
    rw [StringHeap.gcLoop, if_neg notNull]
    by_cases held : some (b.addr + 8) ∈ globalVariable
    · have whole : kept ++ b :: rest = kept ++ [b] ++ rest := by simp
      rw [whole] at sound
      obtain ⟨heap', runs, sound', same⟩ := ih sound after left
      have marks : marked globalVariable b = true := List.contains_iff_mem.mpr held
      rw [List.append_assoc, List.singleton_append, ← List.filter_cons_of_pos marks] at sound' same
      exact ⟨heap', by rw [if_pos held, runs], sound', same⟩
    · obtain ⟨heap₁, frees, sound₁, same₁⟩ := sound.heapFree
      obtain ⟨heap', runs, sound', same⟩ := ih sound₁ after left
      have marks : ¬ marked globalVariable b = true := by
        rw [marked, List.contains_iff_mem]
        exact held
      rw [List.filter_cons_of_neg marks]
      refine ⟨heap', ?_, sound', (same₁.mono ?_).trans same⟩
      · rw [if_neg held, frees]
        exact runs
      · exact ((List.Sublist.refl kept).append List.filter_sublist).subset

/-- `finsh_heap_gc`. -/
theorem Sound.heapGc (sound : Sound finshHeap heap used) (globalVariable : VariableTable) :
    ∃ heap', heap.heapGc globalVariable = some heap' ∧ Sound finshHeap heap' (used.filter (marked globalVariable)) ∧
      SameData heap heap' (used.filter (marked globalVariable)) := by
  have few : used.length < rounds := by
    obtain ⟨free, tiled, -⟩ := sound
    exact (tiled.tiles.perm List.perm_append_comm).few tiled.usedListed.ordered
  have at_ : pointer heap.allocateList = (used.map (·.addr)).head? := by
    obtain ⟨free, tiled, -⟩ := sound
    cases used with
    | nil => exact tiled.usedListed.linked
    | cons b rest => exact tiled.usedListed.linked.1
  have whole : Sound finshHeap heap ([] ++ used) := sound
  exact whole.gcLoop at_ few

/-! ## Allocation -/

/-- Bytes behind the header of an allocated block are no part of the lists. -/
theorem Tiled.write {cells : List (BitVec 8)} (tiled : Tiled finshHeap heap free (front ++ b :: back))
    (short : cells.length ≤ b.len) :
    Tiled finshHeap { heap with bytes := writeAt heap.bytes (b.addr + 8) cells } free (front ++ b :: back) ∧
      SameData heap { heap with bytes := writeAt heap.bytes (b.addr + 8) cells } (front ++ back) := by
  have member : b ∈ free ++ (front ++ b :: back) := by simp
  have apart (x : StringBlock) (inside : x ∈ free ++ (front ++ b :: back)) (ne : x ≠ b) : x.Apart b :=
    tiled.tiles.apart_of_ne inside member ne
  have header (x : StringBlock) (inside : x ∈ free ++ (front ++ b :: back)) (i : ℕ) (above : x.addr ≤ i)
      (below : i < x.addr + 8) : writeAt heap.bytes (b.addr + 8) cells i = heap.bytes i := by
    apply writeAt_outside
    rcases eq_or_ne x b with rfl | ne
    · exact .inl below
    · have clear := apart x inside ne
      simp only [Apart, stop] at clear
      omega
  have length_ (x : StringBlock) (inside : x ∈ free ++ (front ++ b :: back)) :
      length { heap with bytes := writeAt heap.bytes (b.addr + 8) cells } x.addr = heap.length x.addr :=
    readNat_congr fun i above below => header x inside i above (by omega)
  have next_ (x : StringBlock) (inside : x ∈ free ++ (front ++ b :: back)) :
      next { heap with bytes := writeAt heap.bytes (b.addr + 8) cells } x.addr = heap.next x.addr :=
    readNat_congr fun i above below => header x inside i (by omega) (by omega)
  refine ⟨⟨⟨tiled.tiles.low, tiled.tiles.high, ?_, tiled.tiles.inside, tiled.tiles.apart, tiled.tiles.covered⟩,
    ?_, ?_, tiled.last⟩, ?_⟩
  · exact fun x inside => (length_ x inside).trans (tiled.tiles.stored x inside)
  · exact tiled.freeListed.congr fun x inside => next_ x (List.mem_append_left _ inside)
  · exact tiled.usedListed.congr fun x inside => next_ x (List.mem_append_right _ inside)
  · intro x inside i above below
    apply writeAt_outside
    have regroup : (free ++ (front ++ b :: back)).Perm (b :: (free ++ (front ++ back))) := by
      rw [← List.append_assoc, ← List.append_assoc]
      exact List.perm_middle
    have pairwise := (tiled.tiles.perm regroup).apart
    have clear := (List.pairwise_cons.mp pairwise).1 x (List.mem_append_right _ inside)
    simp only [Apart, stop] at clear below
    omega

/-- `finsh_block_split` of a free block. -/
theorem Tiled.split (tiled : Tiled finshHeap heap (front ++ b :: back) used) (fits : size + 8 ≤ b.len) :
    Tiled finshHeap (heap.blockSplit b.addr size) (front ++ b.lower size :: b.upper size :: back) used ∧
      SameData heap (heap.blockSplit b.addr size) used := by
  have first : (front ++ b :: back ++ used).Perm (b :: (front ++ back ++ used)) := by
    rw [List.append_assoc, List.append_assoc]
    exact List.perm_middle
  have second : (b.lower size :: b.upper size :: (front ++ back ++ used)).Perm
      (front ++ b.lower size :: b.upper size :: back ++ used) := by
    rw [List.append_assoc, List.append_assoc]
    exact (List.perm_middle.trans (.cons _ List.perm_middle)).symm
  have tiles := tiled.tiles.perm first
  have rewrites := tiles.blockSplit_rewrites fits
  obtain ⟨-, nextLower, -, nextUpper⟩ := tiles.blockSplit_headers fits
  have apart (x : StringBlock) (member : x ∈ front ++ back ++ used) : ∀ y ∈ [b.lower size, b.upper size], y.Apart x :=
    apart_of_cut fits ((List.pairwise_cons.mp tiles.apart).1 x member)
  have linked := tiled.freeListed.linked
  simp only [List.map_append, List.map_cons] at linked
  refine ⟨⟨(tiles.split fits).perm second, ⟨?_, ?_⟩, ?_, ?_⟩, ?_⟩
  · simp only [List.map_append, List.map_cons, lower_addr]
    apply linked.replace_tail
    · intro address member
      obtain ⟨x, inside, rfl⟩ := List.mem_map.mp member
      rw [link, link, rewrites.next (apart x (by simp [inside]))]
    · rw [link, nextLower]
      refine ⟨pointer_of_pos (by simp only [StringBlock.upper]; omega), ?_⟩
      rw [link, nextUpper]
      apply linked.tail.frame
      intro address member
      obtain ⟨x, inside, rfl⟩ := List.mem_map.mp member
      rw [link, link, rewrites.next (apart x (by simp [inside]))]
  · have ordered : Ordered (front ++ [b.lower size] ++ back) := by
      rw [List.append_assoc]
      exact ordered_congr (by simp) tiled.freeListed.ordered
    obtain ⟨-, behindB, before⟩ := List.pairwise_append.mp tiled.freeListed.ordered
    have placed := ordered_insert (b := b.upper size) ordered ?_ ?_
    · rwa [List.append_assoc, List.singleton_append] at placed
    · intro x member
      rcases List.mem_append.mp member with inFront | last
      · have low := before x inFront b List.mem_cons_self
        simp only [StringBlock.upper]
        omega
      · rw [List.mem_singleton.mp last, lower_addr]
        simp only [StringBlock.upper]
        omega
    · intro y member
      have above := (List.pairwise_cons.mp behindB).1 y member
      have clear := (List.pairwise_cons.mp tiles.apart).1 y (by simp [member])
      simp only [Apart, stop, StringBlock.upper] at clear ⊢
      omega
  · exact tiled.usedListed.rewrites rewrites fun x member => apart x (by simp [member])
  · obtain ⟨z, member, stops⟩ := tiled.last
    rcases List.mem_append.mp member with inFront | later
    · exact ⟨z, by simp [inFront], stops⟩
    rcases List.mem_cons.mp later with rfl | later
    · exact ⟨z.upper size, by simp, (upper_stop fits).trans stops⟩
    · exact ⟨z, by simp [later], stops⟩
  · intro x member i above below
    apply rewrites
    intro y written
    have clear := apart x (by simp [member]) y written
    simp only [Apart, stop] at clear below
    omega

/-- What is left of a free block touches no other free block either. -/
theorem Tiled.merged_upper (tiled : Tiled finshHeap heap (front ++ b :: back) used)
    (merged : Merged (front ++ b :: back)) (fits : size + 8 ≤ b.len) : Merged (front ++ b.upper size :: back) := by
  have stops := upper_stop fits
  have inside : b.addr < (b.upper size).addr ∧ (b.upper size).addr < b.stop := by
    simp only [StringBlock.upper, stop]
    omega
  have clear (x : StringBlock) (member : x ∈ front ++ back) : x.Apart b := by
    have regroup : (front ++ b :: back ++ used).Perm (b :: (front ++ back ++ used)) := by
      rw [List.append_assoc, List.append_assoc]
      exact List.perm_middle
    exact ((List.pairwise_cons.mp (tiled.tiles.perm regroup).apart).1 x (List.mem_append_left _ member)).symm
  have old {x : StringBlock} (member : x ∈ front ++ back) : x ∈ front ++ b :: back := mem_middle.mpr (.inr member)
  intro x left y right reach
  rcases mem_middle.mp left with rfl | left
  · rw [stops] at reach
    rcases mem_middle.mp right with rfl | right
    · omega
    · exact merged b (by simp) y (old right) reach
  · rcases mem_middle.mp right with rfl | right
    · have apart := clear x left
      simp only [Apart, stop] at apart reach inside
      omega
    · exact merged x (old left) y (old right) reach

/-- The lists behind `finsh_block_remove` and `finsh_block_insert` in `finsh_heap_allocate`. -/
theorem Tiled.acquire (tiled : Tiled finshHeap heap (front ++ b :: back) used)
    (last : ∃ z ∈ front ++ back, z.stop = finshHeap + 128) :
    ∃ freeList heap₁ allocateList heap₂ before behind, used = before ++ behind ∧
      heap.blockRemove heap.freeList b.addr = some (freeList, heap₁) ∧
      (setNext { heap₁ with freeList } b.addr 0).blockInsert heap₁.allocateList b.addr = some (allocateList, heap₂) ∧
      Tiled finshHeap { heap₂ with allocateList } (front ++ back) (before ++ b :: behind) ∧
      SameData heap heap₂ used := by
  obtain ⟨freeList, heap₁, removed, freeListed₁, usedListed₁, relinks₁⟩ :=
    tiled.tiles.remove tiled.freeListed tiled.usedListed
  have moved : (front ++ b :: back ++ used).Perm (b :: used ++ (front ++ back)) := by
    rw [List.append_assoc, List.cons_append]
    refine List.perm_middle.trans (.cons _ ?_)
    rw [← List.append_assoc]
    exact List.perm_append_comm
  have tiles₁ : Tiles finshHeap { heap₁ with freeList } (b :: used ++ (front ++ back)) :=
    ((tiled.tiles.relinks relinks₁ (List.subset_append_left _ _)).perm moved).congr rfl
  -- `header->next = NULL`, before the block goes to the other list.
  obtain ⟨heap', unlinked, next', relinks'⟩ : ∃ heap', setNext { heap₁ with freeList } b.addr 0 = heap' ∧
      heap'.next b.addr = 0 ∧ Relinks { heap₁ with freeList } heap' [b] :=
    ⟨_, rfl, next_setNext _ _ (by decide), relinks_setNext List.mem_cons_self 0⟩
  have tiles' : Tiles finshHeap heap' (b :: used ++ (front ++ back)) := tiles₁.relinks relinks' (by simp)
  have only : Rewrites heap₁ heap' [b] := relinks'.rewrites
  have apart (x : StringBlock) (member : x ∈ used ++ (front ++ back)) : ∀ y ∈ [b], y.Apart x := by
    intro y written
    rw [List.mem_singleton.mp written]
    exact (List.pairwise_cons.mp tiles₁.apart).1 x member
  have usedListed' : heap'.Listed heap₁.allocateList used := by
    rw [relinks₁.allocateList]
    exact usedListed₁.rewrites only fun x member => apart x (List.mem_append_left _ member)
  have freeListed' : heap'.Listed freeList (front ++ back) :=
    freeListed₁.rewrites only fun x member => apart x (List.mem_append_right _ member)
  obtain ⟨allocateList, heap₂, before, behind, rfl, inserted, usedListed₂, freeListed₂, relinks₂⟩ :=
    tiles'.insert usedListed' freeListed' (.inr next')
  have tiles₂ : Tiles finshHeap heap₂ (front ++ back ++ (before ++ b :: behind)) := by
    refine (tiles'.relinks relinks₂ (List.subset_append_left _ _)).perm ?_
    exact (List.perm_middle.symm.append_right _).trans List.perm_append_comm
  have free₂ : heap₂.freeList = freeList := relinks₂.freeList.trans relinks'.freeList
  refine ⟨freeList, heap₁, allocateList, heap₂, before, behind, rfl, removed, unlinked ▸ inserted, ?_, ?_⟩
  · refine ⟨tiles₂.congr rfl, ?_, usedListed₂.congr fun _ _ => rfl, last⟩
    change Listed _ heap₂.freeList _
    rw [free₂]
    exact freeListed₂.congr fun _ _ => rfl
  · have first := tiled.tiles.sameData relinks₁.rewrites (List.subset_append_left _ _)
    have second := tiles₁.sameData relinks'.rewrites (by simp)
    have third := tiles'.sameData relinks₂.rewrites (List.subset_append_left _ _)
    have later : before ++ behind ⊆ b :: (before ++ behind) ++ (front ++ back) := fun x member =>
      List.mem_append_left _ (List.mem_cons_of_mem b member)
    exact (first.mono (List.subset_append_right _ _)).trans ((second.mono later).trans (third.mono later))

/-- The end of `finsh_heap_allocate`, at a free block that is long enough. -/
theorem Tiled.carve (tiled : Tiled finshHeap heap (front ++ b :: back) used) (merged : Merged (front ++ b :: back))
    (fits : size + 8 ≤ b.len) :
    ∃ heap' before behind, used = before ++ behind ∧ heap.carve b.addr size = some (b.addr + 8, heap') ∧
      Sound finshHeap heap' (before ++ b.lower size :: behind) ∧ SameData heap heap' used := by
  obtain ⟨tiled₁, same₁⟩ := tiled.split fits
  have last : ∃ z ∈ front ++ b.upper size :: back, z.stop = finshHeap + 128 := by
    obtain ⟨z, member, stops⟩ := tiled₁.last
    rcases List.mem_append.mp member with inFront | later
    · exact ⟨z, List.mem_append_left _ inFront, stops⟩
    rcases List.mem_cons.mp later with rfl | later
    · have bound := tiled₁.tiles.inside (b.upper size) (by simp)
      simp only [StringBlock.lower, StringBlock.upper, stop] at stops bound
      omega
    · exact ⟨z, List.mem_append_right _ later, stops⟩
  obtain ⟨freeList, heap₁, allocateList, heap₂, before, behind, rfl, removed, inserted, tiled₂, same₂⟩ :=
    tiled₁.acquire last
  rw [lower_addr] at removed inserted
  have zeros : (List.replicate size (0 : BitVec 8)).length ≤ (b.lower size).len := (List.length_replicate ..).le
  obtain ⟨tiled', same'⟩ := tiled₂.write zeros
  refine ⟨_, before, behind, rfl, ?_, ⟨_, tiled', tiled.merged_upper merged fits⟩, same₁.trans (same₂.trans same')⟩
  rw [StringHeap.carve]
  simp only [Option.bind_eq_bind]
  rw [removed]
  simp only [Option.bind_some]
  change Option.bind ((setNext { heap₁ with freeList } b.addr 0).blockInsert heap₁.allocateList b.addr) _ = _
  rw [inserted]
  rfl

theorem Listed.search {list : ℕ} {nodes : List StringBlock} (listed : heap.Listed list nodes)
    (few : nodes.length < rounds) (stop : ℕ → Bool) :
    ((∀ b ∈ nodes, stop b.addr = false) ∧ heap.search stop rounds list = some 0) ∨
      ∃ front b back, nodes = front ++ b :: back ∧ stop b.addr = true ∧ heap.search stop rounds list = some b.addr := by
  have linked := listed.linked
  cases result : nodes.find? fun b => stop b.addr with
  | none =>
    have skip : ∀ b ∈ nodes, stop b.addr = false := fun b member => by
      simpa using List.find?_eq_none.mp result b member
    refine .inl ⟨skip, search_none linked ?_ (by rwa [List.length_map])⟩
    intro address member
    obtain ⟨b, inside, rfl⟩ := List.mem_map.mp member
    exact skip b inside
  | some b =>
    obtain ⟨found, front, back, rfl, skip⟩ := List.find?_eq_some_iff_append.mp result
    refine .inr ⟨front, b, back, rfl, found, ?_⟩
    simp only [List.map_append, List.map_cons] at linked
    apply search_found linked
    · intro address member
      obtain ⟨x, inside, rfl⟩ := List.mem_map.mp member
      simpa using skip x inside
    · exact found
    · rw [List.length_map]
      rw [List.length_append] at few
      omega

/-- What `finsh_heap_allocate` answers: nothing, or a block of the requested length that was not there. -/
inductive Served (finshHeap : ℕ) (heap' : StringHeap) (kept : List StringBlock) (size : ℕ) : ℕ → Prop
  | none : Sound finshHeap heap' kept → Served finshHeap heap' kept size 0
  | block {front back : List StringBlock} {b : StringBlock} : kept = front ++ back → size ≤ b.len →
      Sound finshHeap heap' (front ++ b :: back) → Served finshHeap heap' kept size (b.addr + 8)

theorem le_heapAlignSize (small : size + 12 ≤ 2 ^ 32) :
    size ≤ heapAlignSize size ∧ heapAlignSize size + 8 < 2 ^ 32 := by
  rw [heapAlignSize, Nat.mod_eq_of_lt (by omega)]
  omega

theorem Tiled.served (tiled : Tiled finshHeap heap (front ++ b :: back) used) (merged : Merged (front ++ b :: back))
    (small : size + 12 ≤ 2 ^ 32) (fits : heapAlignSize size + 8 ≤ b.len) :
    ∃ ptr heap', heap.carve b.addr (heapAlignSize size) = some (ptr, heap') ∧ Served finshHeap heap' used size ptr ∧
      SameData heap heap' used := by
  obtain ⟨heap', before, behind, whole, carves, sound, same⟩ := tiled.carve merged fits
  exact ⟨_, heap', carves, .block (b := b.lower (heapAlignSize size)) whole (le_heapAlignSize small).1 sound, same⟩

/-- `finsh_heap_allocate` of a size that does not wrap. The collector has run, or it has not. -/
theorem Sound.heapAllocate (sound : Sound finshHeap heap used) (globalVariable : VariableTable)
    (small : size + 12 ≤ 2 ^ 32) :
    ∃ ptr heap' kept, heap.heapAllocate globalVariable size = some (ptr, heap') ∧
      (kept = used ∨ kept = used.filter (marked globalVariable)) ∧ Served finshHeap heap' kept size ptr ∧
      SameData heap heap' kept := by
  have bound := (le_heapAlignSize small).2
  have few {heap : StringHeap} {free used : List StringBlock} (tiled : Tiled finshHeap heap free used) :
      free.length < rounds := tiled.tiles.few tiled.freeListed.ordered
  obtain ⟨free, tiled, merged⟩ := sound
  rw [StringHeap.heapAllocate, Nat.mod_eq_of_lt bound]
  simp only [Option.bind_eq_bind]
  rcases tiled.freeListed.search (few tiled) fun header => !decide (heap.length header ≤ heapAlignSize size + 8) with
    ⟨-, found⟩ | ⟨front, b, back, rfl, long, found⟩
  · rw [found]
    simp only [Option.bind_some, ne_eq, not_true_eq_false, if_false]
    obtain ⟨heap₁, collects, sound₁, same₁⟩ := Sound.heapGc ⟨free, tiled, merged⟩ globalVariable
    obtain ⟨free₁, tiled₁, merged₁⟩ := sound₁
    rw [collects]
    simp only [Option.bind_some]
    rcases tiled₁.freeListed.search (few tiled₁) fun header => !decide (heap₁.length header < heapAlignSize size + 8)
      with ⟨-, found₁⟩ | ⟨front, b, back, rfl, long, found₁⟩
    · rw [found₁]
      simp only [Option.bind_some, if_true]
      exact ⟨0, heap₁, _, rfl, .inr rfl, .none ⟨free₁, tiled₁, merged₁⟩, same₁⟩
    · have notNull : b.addr ≠ 0 := (tiled₁.tiles.placed.low b (by simp)).ne'
      rw [tiled₁.tiles.stored b (by simp)] at long
      have fits : heapAlignSize size + 8 ≤ b.len := by simpa using long
      obtain ⟨ptr, heap', carves, served, same⟩ := tiled₁.served merged₁ small fits
      rw [found₁]
      simp only [Option.bind_some, if_neg notNull]
      exact ⟨ptr, heap', _, carves, .inr rfl, served, same₁.trans same⟩
  · have notNull : b.addr ≠ 0 := (tiled.tiles.placed.low b (by simp)).ne'
    rw [tiled.tiles.stored b (by simp)] at long
    have fits : heapAlignSize size + 8 ≤ b.len := by
      have more : heapAlignSize size + 8 < b.len := by simpa using long
      exact more.le
    obtain ⟨ptr, heap', carves, served, same⟩ := tiled.served merged small fits
    rw [found]
    simp only [Option.bind_some, ne_eq, notNull, not_false_eq_true, if_true]
    exact ⟨ptr, heap', used, carves, .inl rfl, served, same⟩

end StringHeap

end Finsh
