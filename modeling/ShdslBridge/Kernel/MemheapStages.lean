import ShdslBridge.Kernel.MemheapItems

/-! # A call on a memheap under way

`Stage` relates the heap at the beginning of a call to the heap after some of its statements: the items as
they are now, where each of them ends, and the byte counter. Every group of statements leads from one stage
to the next. At the end of a call all unused items are on the free list, and what remains to be shown is
about lists of addresses.
-/

namespace RtThread

open DoublyLinked

namespace Memheaps

/-- The heap after some statements of a call; `nodes` are the headers that the call may write. -/
structure Stage (s₀ : Memheaps) (heap : ℕ) (nodes : List ℕ) (s : Memheaps) (blocks unused free : List ℕ)
    (next : ℕ → ℕ) (available : ℕ) : Prop where
  parts : Parts s heap blocks unused free
  next_eq : ∀ a ∈ blocks, s.get .next a = next a
  available_eq : (s.heap heap).availableSize = available
  covers : ∀ a ∈ freeHeader heap :: blocks, a ∈ nodes
  frame : Frame nodes s₀ s
  others : ∀ other, other ≠ heap → s.heap other = s₀.heap other
  start : (s.heap heap).startAddr = (s₀.heap heap).startAddr
  size : (s.heap heap).poolSize = (s₀.heap heap).poolSize
  objects : s.objectList = s₀.objectList

theorem Parts.stage {s : Memheaps} {heap : ℕ} {blocks unused free nodes : List ℕ}
    (parts : Parts s heap blocks unused free) (covers : ∀ a ∈ freeHeader heap :: blocks, a ∈ nodes) :
    Stage s heap nodes s blocks unused free (s.get .next) (s.heap heap).availableSize where
  parts := parts
  next_eq := fun _ _ => rfl
  available_eq := rfl
  covers := covers
  frame := Frame.refl nodes s
  others := fun _ _ => rfl
  start := rfl
  size := rfl
  objects := rfl

namespace Stage

variable {s₀ s s' : Memheaps} {heap item behind available : ℕ} {nodes blocks unused free left right : List ℕ}
  {next : ℕ → ℕ}

theorem edit {blocks' unused' free' : List ℕ} {next' : ℕ → ℕ}
    (stage : Stage s₀ heap nodes s blocks unused free next available) (parts : Parts s' heap blocks' unused' free')
    (heaps : s'.heap = s.heap) (objects : s'.objectList = s.objectList) (frame : Frame nodes s₀ s')
    (covers : ∀ a ∈ blocks', a ∈ nodes) (next_eq : ∀ a ∈ blocks', s'.get .next a = next' a) :
    Stage s₀ heap nodes s' blocks' unused' free' next' available where
  parts := parts
  next_eq := next_eq
  available_eq := heaps ▸ stage.available_eq
  covers := fun a member => by
    rcases List.mem_cons.mp member with rfl | later
    · exact stage.covers _ List.mem_cons_self
    · exact covers a later
  frame := frame
  others := heaps ▸ stage.others
  start := heaps ▸ stage.start
  size := heaps ▸ stage.size
  objects := objects.trans stage.objects

theorem inNodes (stage : Stage s₀ heap nodes s blocks unused free next available) {a : ℕ} (member : a ∈ blocks) :
    a ∈ nodes := stage.covers a (List.mem_cons_of_mem _ member)

theorem linked (stage : Stage s₀ heap nodes s (left ++ item :: behind :: right) unused free next available) :
    next item = behind ∧ item + 24 ≤ behind := by
  have ordered := (List.pairwise_append.mp stage.parts.ordered).2.1
  refine ⟨?_, (List.pairwise_cons.mp ordered).1 behind List.mem_cons_self⟩
  rw [← stage.next_eq item (by simp)]
  exact stage.parts.ring.linked.1

/-- `MEMITEM_SIZE`. -/
theorem memitemSize_eq
    (stage : Stage s₀ heap nodes s (left ++ item :: behind :: right) unused free next available) :
    s.memitemSize item = next item - (item + 24) := by
  obtain ⟨forward, low⟩ := stage.linked
  have small : s.get .next item < 2 ^ 32 := get_lt ..
  rw [stage.next_eq item (by simp)] at small
  rw [memitemSize, stage.next_eq item (by simp), sub32_of_le (by omega) small, rtMemheapSize,
    sub32_of_le (by omega) (by omega)]
  omega

theorem isUsed_iff (stage : Stage s₀ heap nodes s blocks unused free next available) (here : item ∈ blocks) :
    s.IsUsed item ↔ item ∉ unused := by
  rw [IsUsed, stage.parts.marked item here]
  split
  · rename_i isUnused
    exact iff_of_false (by decide) (not_not_intro isUnused)
  · rename_i isUsed
    exact iff_of_true (by decide) isUsed

/-! ## Groups of statements -/

theorem unlinkFree (stage : Stage s₀ heap nodes s blocks unused (left ++ item :: right) next available) :
    Stage s₀ heap nodes (s.unlinkFree item) blocks unused (left ++ right) next available := by
  have here : item ∈ left ++ item :: right := by simp
  refine stage.edit stage.parts.unlinkFree rfl rfl
    (stage.frame.trans ((stage.parts.frame_unlinkFree here).mono stage.covers))
    (fun a member => stage.inNodes member) fun a member => ?_
  rw [stage.parts.get_unlinkFree here _ (List.mem_cons_of_mem _ member), if_neg (by simp), if_neg (by simp)]
  exact stage.next_eq a member

theorem linkFree (stage : Stage s₀ heap nodes s blocks unused free next available) (isUnused : item ∈ unused)
    (fresh : item ∉ free) :
    Stage s₀ heap nodes (s.linkFree heap item) blocks unused (item :: free) next available := by
  have here := stage.parts.inside item isUnused
  refine stage.edit (stage.parts.linkFree isUnused fresh) rfl rfl
    (stage.frame.trans ((stage.parts.frame_linkFree here).mono stage.covers))
    (fun a member => stage.inNodes member) fun a member => ?_
  rw [stage.parts.get_linkFree here _ (List.mem_cons_of_mem _ member), if_neg (by simp), if_neg (by simp),
    if_neg (by simp), if_neg (by simp)]
  exact stage.next_eq a member

theorem splitItem {new : ℕ}
    (stage : Stage s₀ heap nodes s (left ++ item :: behind :: right) unused free next available)
    (low : item + 24 ≤ new) (high : new + 24 ≤ behind) (created : new ∈ nodes) :
    Stage s₀ heap nodes (s.splitItem heap item new) (left ++ item :: new :: behind :: right) (new :: unused) free
      (Function.update (Function.update next new behind) item new) available := by
  have fresh := (ordered_insert stage.parts.ordered low high).2
  have old (a : ℕ) (member : a ∈ left ++ item :: new :: behind :: right) :
      a = new ∨ a ∈ left ++ item :: behind :: right := mem_insert.mp member
  have covers (a : ℕ) (member : a ∈ left ++ item :: new :: behind :: right) : a ∈ nodes := by
    rcases old a member with rfl | before
    · exact created
    · exact stage.inNodes before
  have frame := (stage.parts.frame_splitItem low high).mono fun a member => by
    rcases List.mem_cons.mp member with rfl | later
    · exact stage.covers _ List.mem_cons_self
    · exact covers a later
  refine stage.edit (stage.parts.splitItem low high) rfl rfl (stage.frame.trans frame) covers fun a member => ?_
  rw [stage.parts.get_splitItem low high _ (List.mem_cons_of_mem _ member)]
  rcases eq_or_ne a item with rfl | ne
  · rw [if_pos ⟨rfl, rfl⟩, Function.update_self]
  rw [if_neg fun both => ne both.2, if_neg (by simp), Function.update_of_ne ne]
  rcases eq_or_ne a new with rfl | away
  · rw [if_pos ⟨rfl, rfl⟩, Function.update_self]
  · rw [if_neg fun both => away both.2, if_neg (by simp), if_neg (by simp), if_neg (by simp),
      Function.update_of_ne away]
    exact stage.next_eq a ((old a member).resolve_left away)

variable {target : ℕ} {front back : List ℕ}

/-- The links of the item that is taken out. -/
theorem links (stage : Stage s₀ heap nodes s (left ++ item :: behind :: target :: right) unused free next available) :
    s.get .next behind = target ∧ s.get .prev behind = item := by
  have ring : Ring (s.get .next) (s.get .prev) ((left ++ [item]) ++ behind :: target :: right) := by
    rw [List.append_assoc]
    exact stage.parts.ring
  exact ⟨ring.linked.1, stage.parts.ring.linked.2⟩

/-- An item takes over the unused one behind it, in whatever order its links are written. -/
theorem merge
    (stage : Stage s₀ heap nodes s (left ++ item :: behind :: target :: right) (front ++ behind :: back) free next available)
    (heaps : s'.heap = s.heap) (objects : s'.objectList = s.objectList) (frame : Frame nodes s₀ s')
    (notFree : behind ∉ free)
    (gets : ∀ field, ∀ a ∈ freeHeader heap :: (left ++ item :: behind :: target :: right), s'.get field a = if field = .next ∧ a = item then target else if field = .prev ∧ a = target then item else s.get field a)
    :
    Stage s₀ heap nodes s' (left ++ item :: target :: right) (front ++ back) free
      (Function.update next item target) available := by
  have old (a : ℕ) (member : a ∈ left ++ item :: target :: right) :
      a ∈ left ++ item :: behind :: target :: right := mem_insert.mpr (.inr member)
  refine stage.edit (stage.parts.merge (congrFun heaps heap) notFree gets) heaps objects frame
    (fun a member => stage.inNodes (old a member)) fun a member => ?_
  rw [gets _ a (List.mem_cons_of_mem _ (old a member))]
  rcases eq_or_ne a item with rfl | ne
  · rw [if_pos ⟨rfl, rfl⟩, Function.update_self]
  · rw [if_neg fun both => ne both.2, if_neg (by simp), Function.update_of_ne ne]
    exact stage.next_eq a (old a member)

/-- An item takes over the free one behind it, which then leaves the free list. -/
theorem absorb {front back front' back' : List ℕ}
    (stage : Stage s₀ heap nodes s (left ++ item :: behind :: target :: right) (front ++ behind :: back) (front' ++ behind :: back') next available)
    :
    Stage s₀ heap nodes ((s.mergeItem item behind).unlinkFree behind) (left ++ item :: target :: right)
      (front ++ back) (front' ++ back') (Function.update next item target) available := by
  have inFree : behind ∈ front' ++ behind :: back' := by simp
  have parts := stage.parts
  have spread := parts.spread
  have neighbours := parts.neighbours (List.mem_cons_of_mem _ inFree)
  have joined : behind ∈ freeHeader heap :: (left ++ item :: behind :: target :: right) := by simp
  have here : item ∈ freeHeader heap :: (left ++ item :: behind :: target :: right) := by simp
  have forward := stage.links.1
  have ahead : s.get .next behind ∈ freeHeader heap :: (left ++ item :: behind :: target :: right) := by
    rw [forward]
    simp
  have merged (field : ItemField) (a : ℕ)
      (member : a ∈ freeHeader heap :: (left ++ item :: behind :: target :: right)) :=
    spread.get_mergeItem field here joined ahead member
  have nextFree : (s.mergeItem item behind).get .nextFree behind = s.get .nextFree behind := by
    rw [merged _ _ joined, if_neg (by simp), if_neg (by simp)]
  have prevFree : (s.mergeItem item behind).get .prevFree behind = s.get .prevFree behind := by
    rw [merged _ _ joined, if_neg (by simp), if_neg (by simp)]
  have frame : Frame (freeHeader heap :: (left ++ item :: behind :: target :: right)) s
      ((s.mergeItem item behind).unlinkFree behind) :=
    (spread.frame_mergeItem here joined ahead).trans
      (spread.frame_unlinkFree joined (prevFree ▸ neighbours.2) (nextFree ▸ neighbours.1))
  have notFree : behind ∉ front' ++ back' := by
    have nodup := (List.nodup_cons.mp parts.freeRing.nodup).2
    exact (List.nodup_cons.mp (List.nodup_middle.mp nodup)).1
  refine stage.unlinkFree.merge rfl rfl (stage.frame.trans (frame.mono stage.covers)) notFree
    fun field a member => ?_
  rw [spread.get_unlinkFree field joined (prevFree ▸ neighbours.2) (nextFree ▸ neighbours.1) member, nextFree,
    prevFree, parts.get_unlinkFree inFree field member, merged field a member, forward]
  cases field <;> simp

/-- The statements of `rt_memheap_realloc` that take an item out of the block list. -/
theorem unlinkItem
    (stage : Stage s₀ heap nodes s (left ++ item :: behind :: target :: right) (front ++ behind :: back) free next available)
    (notFree : behind ∉ free) (reached : s' = s.set .prev (s.get .next behind) (s.get .prev behind)) :
    Stage s₀ heap nodes (s'.set .next (s'.get .prev behind) (s'.get .next behind))
      (left ++ item :: target :: right) (front ++ back) free (Function.update next item target) available := by
  have parts := stage.parts
  have spread := parts.spread
  have joined : behind ∈ freeHeader heap :: (left ++ item :: behind :: target :: right) := by simp
  have here : item ∈ freeHeader heap :: (left ++ item :: behind :: target :: right) := by simp
  have ahead : target ∈ freeHeader heap :: (left ++ item :: behind :: target :: right) := by simp
  obtain ⟨forward, before⟩ := stage.links
  have low := spread.2 item here
  have kept : s'.get .prev behind = item := by
    rw [reached, forward, before, spread.get_set ahead joined low, before]
    exact ite_self item
  have same : s'.get .next behind = target := by
    rw [reached, forward, before, spread.get_set ahead joined low, if_neg (by simp), forward]
  rw [kept, same, reached, forward, before]
  refine stage.merge rfl rfl ?_ notFree fun field a member => ?_
  · exact (stage.frame.set (stage.covers _ ahead) _ _).set (stage.covers _ here) _ _
  · rw [spread.get_set here member (spread.2 target ahead), spread.get_set ahead member low]

/-- The statements of `rt_memheap_free` that join an item with the one before it. -/
theorem joinPrev
    (stage : Stage s₀ heap nodes s (left ++ item :: behind :: target :: right) (front ++ behind :: back) free next available)
    (notFree : behind ∉ free) (reached : s' = s.set .next (s.get .prev behind) (s.get .next behind)) :
    Stage s₀ heap nodes (s'.set .prev (s'.get .next behind) (s'.get .prev behind))
        (left ++ item :: target :: right) (front ++ back) free (Function.update next item target) available ∧
      (s'.set .prev (s'.get .next behind) (s'.get .prev behind)).get .prev behind = item := by
  have parts := stage.parts
  have spread := parts.spread
  have joined : behind ∈ freeHeader heap :: (left ++ item :: behind :: target :: right) := by simp
  have here : item ∈ freeHeader heap :: (left ++ item :: behind :: target :: right) := by simp
  have ahead : target ∈ freeHeader heap :: (left ++ item :: behind :: target :: right) := by simp
  obtain ⟨forward, before⟩ := stage.links
  have low := spread.2 item here
  have low' := spread.2 target ahead
  have ne : behind ≠ item := by
    have := stage.linked.2
    omega
  have same : s'.get .next behind = target := by
    rw [reached, forward, before, spread.get_set here joined low', if_neg fun both => ne both.2, forward]
  have kept : s'.get .prev behind = item := by
    rw [reached, forward, before, spread.get_set here joined low', if_neg (by simp), before]
  rw [kept, same, reached, forward, before]
  constructor
  · refine stage.merge rfl rfl ?_ notFree fun field a member => ?_
    · exact (stage.frame.set (stage.covers _ here) _ _).set (stage.covers _ ahead) _ _
    · rw [spread.get_set ahead member low, spread.get_set here member low']
      cases field <;> simp
  · rw [spread.get_set ahead joined low, spread.get_set here joined low']
    split
    · rfl
    · rw [if_neg (by simp), before]

theorem markUsed (stage : Stage s₀ heap nodes s blocks (front ++ item :: back) free next available) (away : item ∉ free)
    :
    Stage s₀ heap nodes (s.set .magic item (s.get .magic item ||| rtMemheapUsed)) blocks (front ++ back) free next
      available := by
  have parts := stage.parts
  have here : item ∈ blocks := parts.inside item (by simp)
  have once : (item :: (front ++ back)).Nodup := List.nodup_middle.mp parts.once
  have notIn : item ∉ front ++ back := (List.nodup_cons.mp once).1
  have others (a : ℕ) (ne : a ≠ item) : a ∈ front ++ back ↔ a ∈ front ++ item :: back := by
    rw [mem_middle, or_iff_right ne]
  have listed (a : ℕ) (member : a ∈ free) : a ∈ front ++ back :=
    (others a fun same => away (same ▸ member)).mpr (parts.listed a member)
  have tail : tailer (s.heap heap) ∉ front ++ back := fun member =>
    parts.tailUsed ((others _ fun same => notIn (same ▸ member)).mp member)
  rw [parts.marked item here, if_pos (by simp)]
  have marked := parts.mark here (show rtMemheapMagic ||| rtMemheapUsed < 2 ^ 32 by decide)
    (by rw [if_neg notIn]; decide) others listed (List.nodup_cons.mp once).2 tail
  refine stage.edit marked rfl rfl (stage.frame.set (stage.inNodes here) _ _)
    (fun a member => stage.inNodes member) fun a member => ?_
  rw [parts.spread.get_set (List.mem_cons_of_mem _ here) (List.mem_cons_of_mem _ member) (by decide),
    if_neg (by simp)]
  exact stage.next_eq a member

theorem markFree (stage : Stage s₀ heap nodes s blocks unused free next available) (here : item ∈ blocks)
    (used : item ∉ unused) (notLast : item ≠ tailer (s.heap heap)) :
    Stage s₀ heap nodes (s.set .magic item (s.get .magic item &&& rtMemheapMask)) blocks (item :: unused) free next
      available := by
  have parts := stage.parts
  have others (a : ℕ) (ne : a ≠ item) : a ∈ item :: unused ↔ a ∈ unused := by simp [ne]
  rw [parts.marked item here, if_neg used]
  have marked := parts.mark here (show (rtMemheapMagic + 1) &&& rtMemheapMask < 2 ^ 32 by decide)
    (by rw [if_pos List.mem_cons_self]; decide) others
    (fun a member => List.mem_cons_of_mem _ (parts.listed a member)) (List.nodup_cons.mpr ⟨used, parts.once⟩)
    fun member => (List.mem_cons.mp member).elim (fun same => notLast same.symm) parts.tailUsed
  refine stage.edit marked rfl rfl (stage.frame.set (stage.inNodes here) _ _)
    (fun a member => stage.inNodes member) fun a member => ?_
  rw [parts.spread.get_set (List.mem_cons_of_mem _ here) (List.mem_cons_of_mem _ member) (by decide),
    if_neg (by simp)]
  exact stage.next_eq a member

/-- The free links of an item that has left the free list are cleared. -/
theorem clearFree (stage : Stage s₀ heap nodes s blocks unused free next available) (here : item ∈ blocks)
    (away : item ∉ free) :
    Stage s₀ heap nodes ((s.set .nextFree item 0).set .prevFree item 0) blocks unused free next available := by
  have parts := stage.parts
  have first := parts.clearFree here away (show 0 < 2 ^ 32 by decide) (.inl rfl)
  have second := first.clearFree here away (show 0 < 2 ^ 32 by decide) (.inr rfl)
  refine stage.edit second rfl rfl ((stage.frame.set (stage.inNodes here) _ _).set (stage.inNodes here) _ _)
    (fun a member => stage.inNodes member) fun a member => ?_
  have here' : item ∈ freeHeader heap :: blocks := List.mem_cons_of_mem _ here
  have member' : a ∈ freeHeader heap :: blocks := List.mem_cons_of_mem _ member
  rw [first.spread.get_set here' member' (by decide), if_neg (by simp),
    parts.spread.get_set here' member' (by decide), if_neg (by simp)]
  exact stage.next_eq a member

theorem account {object : Memheap} (stage : Stage s₀ heap nodes s blocks unused free next available)
    (start : object.startAddr = (s.heap heap).startAddr) (size : object.poolSize = (s.heap heap).poolSize)
    (freeList : object.freeList = (s.heap heap).freeList)
    (blockList : object.blockList = (s.heap heap).blockList) :
    Stage s₀ heap nodes { s with heap := Function.update s.heap heap object } blocks unused free next
      object.availableSize := by
  have parts := stage.parts
  have here : Function.update s.heap heap object heap = object := Function.update_self ..
  have tail : tailer object = tailer (s.heap heap) := by rw [tailer, tailer, start, size]
  have pool : Pool object heap :=
    { freeList := freeList.trans parts.pool.freeList
      blockList := (blockList.trans parts.pool.blockList).trans start.symm
      room := size ▸ parts.pool.room
      inMemory := by
        rw [start, size]
        exact parts.pool.inMemory
      apart := by
        rw [start, size]
        exact parts.pool.apart
      header := parts.pool.header }
  exact
    { parts :=
        { pool := by
            dsimp only
            rw [here]
            exact pool
          first := by
            dsimp only
            rw [here, start]
            exact parts.first
          last := by
            dsimp only
            rw [here, tail]
            exact parts.last
          ordered := parts.ordered
          ring := parts.ring
          freeRing := parts.freeRing
          marked := parts.marked
          owned := parts.owned
          listed := parts.listed
          inside := parts.inside
          once := parts.once
          tailUsed := by
            dsimp only
            rw [here, tail]
            exact parts.tailUsed }
      next_eq := stage.next_eq
      available_eq := by
        dsimp only
        rw [here]
      covers := stage.covers
      frame := stage.frame
      others := fun other ne => (Function.update_of_ne ne ..).trans (stage.others other ne)
      start := by
        dsimp only
        rw [here, start]
        exact stage.start
      size := by
        dsimp only
        rw [here, size]
        exact stage.size
      objects := stage.objects }

theorem setAvailable (stage : Stage s₀ heap nodes s blocks unused free next available) (amount : ℕ) :
    Stage s₀ heap nodes (s.setAvailable heap amount) blocks unused free next amount :=
  stage.account rfl rfl rfl rfl

theorem useAvailable (stage : Stage s₀ heap nodes s blocks unused free next available) (amount : ℕ) :
    Stage s₀ heap nodes (s.useAvailable heap amount) blocks unused free next amount :=
  stage.account rfl rfl rfl rfl

end Stage

end Memheaps

end RtThread
