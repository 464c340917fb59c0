import ShdslBridge.Kernel.MemheapHeaps

/-! # The calls on one of several memheaps

What `rt_memheap_alloc`, `rt_memheap_free` and `rt_memheap_realloc` do, in terms of the contents of the heaps.
A block that grows in place may do so only while `newsize + RT_MEMHEAP_MINIALLOC` does not wrap.
-/

namespace RtThread

open Memory

namespace Memheaps

variable {s s' s'' : Memheaps} {heap item newsize size : ℕ} {data data' : List (BitVec 8)}
  {content content' : Option (List (BitVec 8))}

/-- The free item that `rt_memheap_alloc` takes. -/
def firstFit (s : Memheaps) (heap size : ℕ) : Option ℕ :=
  (s.freeItems heap).find? fun item => alignedSize size ≤ s.memitemSize item

/-- The byte counter is above the rounded size, and some free item has room for it. -/
def CanServe (s : Memheaps) (heap size : ℕ) : Prop :=
  alignedSize size < (s.heap heap).availableSize ∧ (s.firstFit heap size).isSome

instance (s : Memheaps) (heap size : ℕ) : Decidable (s.CanServe heap size) := inferInstanceAs (Decidable (_ ∧ _))

/-- The test for growing in place wraps, and the item behind is free. -/
def GrowthWraps (s : Memheaps) (item newsize : ℕ) : Prop :=
  2 ^ 32 ≤ alignedSize newsize + rtMemheapMinialloc ∧ ¬ s.IsUsed (s.get .next item)

instance (s : Memheaps) (item newsize : ℕ) : Decidable (s.GrowthWraps item newsize) :=
  inferInstanceAs (Decidable (_ ∧ _))

/-- The item behind is free and has room for what a block lacks. -/
def GrowsInPlace (s : Memheaps) (item newsize : ℕ) : Prop :=
  ¬ s.IsUsed (s.get .next item) ∧
    alignedSize newsize + rtMemheapMinialloc < s.memitemSize (s.get .next item) + s.memitemSize item

instance (s : Memheaps) (item newsize : ℕ) : Decidable (s.GrowsInPlace item newsize) :=
  inferInstanceAs (Decidable (_ ∧ _))

/-- What `rt_memheap_realloc` may return for a live block with `data` in it. -/
inductive Reallocated (s : Memheaps) (heap item newsize : ℕ) (data : List (BitVec 8)) :
    Option (Memheaps × Option ℕ) → Prop
  | same (enough : alignedSize newsize ≤ data.length) :
      Reallocated s heap item newsize data (some (s, some (item + 24)))
  | resized {s' : Memheaps} {data' : List (BitVec 8)} (change : Change s s' heap item (some data'))
      (room : s.GrowsInPlace item newsize ∨ alignedSize newsize + 36 < data.length)
      (long : data'.length = alignedSize newsize) (kept : data'.take data.length = data.take (alignedSize newsize))
      (items : ∀ a ∈ s'.blockItems heap, a ∈ s.blockItems heap ∨ a = item + alignedSize newsize + 24 ∧
        (16 ≤ alignedSize newsize ∨ alignedSize newsize + 36 < data.length)) :
      Reallocated s heap item newsize data (some (s', some (item + 24)))
  | moved {s₁ s' : Memheaps} {new : ℕ} {data' : List (BitVec 8)} (first : Change s s₁ heap new (some data'))
      (second : Change s₁ s' heap item none) (fresh : s.content heap new = none) (inside : new ∈ s.blockItems heap)
      (short : data.length < alignedSize newsize) (long : alignedSize newsize ≤ data'.length)
      (kept : data'.take data.length = data) (served : s.CanServe heap newsize) (noRoom : ¬ s.GrowsInPlace item newsize)
      (items : ∀ a ∈ s'.blockItems heap, a ∈ s.blockItems heap ∨
        a = new + alignedSize newsize + 24 ∧ 16 ≤ alignedSize newsize) :
      Reallocated s heap item newsize data (some (s', some (new + 24)))
  | failed (short : data.length < alignedSize newsize) (unserved : ¬ s.CanServe heap newsize)
      (noRoom : ¬ s.GrowsInPlace item newsize) : Reallocated s heap item newsize data (some (s, none))

/-! ## Sizes -/

theorem alignedSize_cases (size : ℕ) :
    alignedSize size = 12 ∨ 8 ∣ alignedSize size ∧ 16 ≤ alignedSize size ∧ alignedSize size + 8 ≤ 2 ^ 32 := by
  rw [alignedSize, rtMemheapMinialloc, rtAlign, word32]
  split
  · exact .inl rfl
  · omega

theorem alignedSize_aligned (long : 16 ≤ alignedSize size) : alignedSize (alignedSize size) = alignedSize size := by
  rcases alignedSize_cases size with short | ⟨⟨count, same⟩, -, small⟩
  · omega
  · have rounded : rtAlign (alignedSize size) = alignedSize size := by
      rw [rtAlign, word32_of_lt (by omega)]
      omega
    rw [alignedSize.eq_def (alignedSize size), rounded, if_neg (by rw [rtMemheapMinialloc]; omega)]

theorem le_alignedSize (small : size + 7 < 2 ^ 32) : size ≤ alignedSize size := by
  have rounded : size ≤ rtAlign size := by
    rw [rtAlign, word32_of_lt small]
    omega
  rw [alignedSize]
  split
  · rename_i short
    exact rounded.trans short.le
  · exact rounded

theorem alignedSize_twice (size : ℕ) : alignedSize (alignedSize size) ≠ rtMemheapMinialloc := by
  rcases alignedSize_cases size with least | ⟨-, long, -⟩
  · rw [least]
    decide
  · rw [alignedSize_aligned long, rtMemheapMinialloc]
    omega

/-! ## Contents -/

theorem content_eq_some : s.content heap item = some data ↔
    (item ∈ s.blockItems heap ∧ item ∉ s.freeItems heap ∧ item ≠ tailer (s.heap heap)) ∧
      readAt s.bytes (item + 24) (s.dataSize item) = data := by
  rw [Memheaps.content, contentOf]
  split
  · rename_i used
    rw [Option.some_inj, and_iff_right used]
  · rename_i unused
    exact iff_of_false (by rintro ⟨⟩) fun both => unused both.1

theorem length_of_content (live : s.content heap item = some data) : data.length = s.dataSize item := by
  rw [← (content_eq_some.mp live).2, readAt_length]

/-- `MEMITEM_SIZE` is the length of a live block. -/
theorem Layout.memitemSize_live (layout : s.Layout) (listed : heap ∈ s.objectList)
    (live : s.content heap item = some data) : s.memitemSize item = data.length := by
  obtain ⟨⟨here, -, notLast⟩, -⟩ := content_eq_some.mp live
  rw [(layout.sound heap listed).parts.memitemSize_eq here notLast, length_of_content live]

theorem Layout.sub_header (layout : s.Layout) (listed : heap ∈ s.objectList) (live : s.content heap item = some data) :
    sub32 (item + 24) rtMemheapSize = item := by
  obtain ⟨⟨here, -, notLast⟩, -⟩ := content_eq_some.mp live
  have ends := (layout.sound heap listed).parts.dataSize_eq here notLast
  have inMemory := (layout.sound heap listed).parts.pool.inMemory
  rw [rtMemheapSize, sub32_of_le (by omega) (by omega)]
  omega

theorem Change.overwrite (first : Change s s' heap item content) (second : Change s' s'' heap item content') :
    Change s s'' heap item content' where
  layout := second.layout
  objects := second.objects.trans first.objects
  start := fun other => (second.start other).trans (first.start other)
  content_eq := fun other member a => by
    rw [second.content_eq other (first.objects.symm ▸ member), first.content_eq other member]
    split
    · rfl
    · rfl
  items_eq := fun other member ne =>
    (second.items_eq other (first.objects.symm ▸ member) ne).trans (first.items_eq other member ne)

theorem Change.content_self (change : Change s s' heap item content) (listed : heap ∈ s.objectList) :
    s'.content heap item = content := by
  rw [change.content_eq heap listed, if_pos ⟨rfl, rfl⟩]

theorem Layout.unique {other : ℕ} (layout : s.Layout) (listed : heap ∈ s.objectList) (listed' : other ∈ s.objectList)
    (live : s.content heap item = some data) (live' : s.content other item = some data') : heap = other := by
  by_contra ne
  have bounds := (layout.sound heap listed).parts.bounds (content_eq_some.mp live).1.1
  have bounds' := (layout.sound other listed').parts.bounds (content_eq_some.mp live').1.1
  have apart : (s.heap heap).startAddr + (s.heap heap).poolSize ≤ (s.heap other).startAddr ∨
      (s.heap other).startAddr + (s.heap other).poolSize ≤ (s.heap heap).startAddr :=
    layout.apart heap listed other listed' ne _ List.mem_cons_self _ List.mem_cons_self
  omega

/-! ## Allocation -/

theorem Layout.memitemSize_eq (layout : s.Layout) (listed : heap ∈ s.objectList) (isFree : item ∈ s.freeItems heap) :
    s.memitemSize item = s.dataSize item := by
  have sound := layout.sound heap listed
  obtain ⟨here, notLast⟩ := sound.free_mem isFree
  exact sound.parts.memitemSize_eq here notLast

theorem Layout.firstFit_eq (layout : s.Layout) (listed : heap ∈ s.objectList) :
    s.firstFit heap size = (s.freeItems heap).find? fun a => alignedSize size ≤ s.dataSize a :=
  List.find?_congr fun _ isFree => by rw [layout.memitemSize_eq listed isFree]

theorem Layout.canServe_iff (layout : s.Layout) (listed : heap ∈ s.objectList) :
    s.CanServe heap size ↔ s.Serves heap (s.freeItems heap) size := by
  rw [CanServe, Serves, layout.firstFit_eq listed, List.find?_isSome]
  simp

/-- `rt_memheap_alloc` hands out an item of the first fit, or nothing. -/
theorem Layout.alloc (layout : s.Layout) (listed : heap ∈ s.objectList) (size : ℕ) :
    (¬ s.CanServe heap size ∧ s.rtMemheapAlloc heap size = some (s, none)) ∨
      ∃ item s' data, s.CanServe heap size ∧ s.firstFit heap size = some item ∧
        s.rtMemheapAlloc heap size = some (s', some (item + 24)) ∧ Change s s' heap item (some data) ∧
        s.content heap item = none ∧ alignedSize size ≤ data.length ∧
        ∀ a ∈ s'.blockItems heap, a ∈ s.blockItems heap ∨
          a = item + alignedSize size + 24 ∧ alignedSize size + 36 ≤ s.memitemSize item := by
  have sound := layout.sound heap listed
  rw [layout.canServe_iff listed, layout.firstFit_eq listed]
  refine (sound.alloc size).imp id ?_
  rintro ⟨serves, item, isFree, long, first, call⟩
  obtain ⟨blocks', free', data, outcome, enough, inside⟩ := sound.takeItem isFree (minialloc_le size) long
  refine ⟨item, _, data, serves, first, call, layout.change listed outcome, ?_, enough, fun a member => ?_⟩
  · exact if_neg fun used => used.2.1 isFree
  · rw [outcome.sound.blockItems_eq] at member
    rw [layout.memitemSize_eq listed isFree]
    exact inside a member

/-! ## Release and stores -/

theorem Layout.free (layout : s.Layout) (listed : heap ∈ s.objectList) (live : s.content heap item = some data) :
    ∃ s', s.rtMemheapFree (item + 24) = some s' ∧ Change s s' heap item none ∧
      ∀ a ∈ s'.blockItems heap, a ∈ s.blockItems heap := by
  have sound := layout.sound heap listed
  obtain ⟨⟨here, used, notLast⟩, -⟩ := content_eq_some.mp live
  obtain ⟨blocks', free', outcome, inside⟩ := sound.releaseItem here used notLast
  refine ⟨_, sound.rtMemheapFree_eq here used notLast, layout.change listed outcome, fun a member => ?_⟩
  rw [outcome.sound.blockItems_eq] at member
  exact inside a member

theorem Layout.write {offset : ℕ} {cells : List (BitVec 8)} (layout : s.Layout) (listed : heap ∈ s.objectList)
    (live : s.content heap item = some data) (inside : offset + cells.length ≤ data.length) :
    Change s { s with bytes := writeAt s.bytes (item + 24 + offset) cells } heap item
        (some (data.take offset ++ cells ++ data.drop (offset + cells.length))) ∧
      Memheaps.blockItems { s with bytes := writeAt s.bytes (item + 24 + offset) cells } heap = s.blockItems heap := by
  have sound := layout.sound heap listed
  obtain ⟨⟨here, used, notLast⟩, same⟩ := content_eq_some.mp live
  rw [length_of_content live] at inside
  have outcome := sound.writeData here used notLast (show item + 24 ≤ item + 24 + offset by omega)
    (show item + 24 + offset + cells.length ≤ item + 24 + s.dataSize item by omega)
  rw [readAt_writeAt_within _ _ _ _ inside, same] at outcome
  exact ⟨layout.change listed outcome, outcome.sound.blockItems_eq⟩

/-! ## Resizing -/

theorem Layout.isUsed_iff (layout : s.Layout) (listed : heap ∈ s.objectList) (here : item ∈ s.blockItems heap) :
    s.IsUsed item ↔ item ∉ s.freeItems heap :=
  ((layout.sound heap listed).parts.stage fun _ member => member).isUsed_iff here

theorem Layout.content_iff_used (layout : s.Layout) (listed : heap ∈ s.objectList) :
    (∃ data, s.content heap item = some data) ↔ item ∈ s.blockItems heap ∧ s.IsUsed item ∧
      item ≠ (s.heap heap).startAddr + (s.heap heap).poolSize - rtMemheapSize := by
  constructor
  · rintro ⟨data, live⟩
    obtain ⟨⟨here, used, notLast⟩, -⟩ := content_eq_some.mp live
    exact ⟨here, (layout.isUsed_iff listed here).mpr used, notLast⟩
  · rintro ⟨here, used, notLast⟩
    exact ⟨_, content_eq_some.mpr ⟨⟨here, (layout.isUsed_iff listed here).mp used, notLast⟩, rfl⟩⟩

theorem Layout.long_of_canServe (layout : s.Layout) (listed : heap ∈ s.objectList)
    (live : s.content heap item = some data) (short : data.length < alignedSize newsize)
    (served : s.CanServe heap size) : 16 ≤ alignedSize newsize := by
  rcases alignedSize_cases newsize with least | ⟨-, long, -⟩
  · have sound := layout.sound heap listed
    obtain ⟨⟨here, used, notLast⟩, -⟩ := content_eq_some.mp live
    obtain ⟨-, a, isFree, -⟩ := (layout.canServe_iff listed).mp served
    obtain ⟨inside, notLast'⟩ := sound.free_mem isFree
    have := sound.roomy_other inside notLast' here notLast fun same => used (same ▸ isFree)
    rw [← length_of_content live] at this
    omega
  · exact long

theorem Layout.canServe_aligned (layout : s.Layout) (listed : heap ∈ s.objectList)
    (live : s.content heap item = some data) (short : data.length < alignedSize newsize) :
    s.CanServe heap (alignedSize newsize) ↔ s.CanServe heap newsize := by
  have same (long : 16 ≤ alignedSize newsize) : s.CanServe heap (alignedSize newsize) ↔ s.CanServe heap newsize := by
    rw [CanServe, CanServe, firstFit, firstFit, alignedSize_aligned long]
  exact ⟨fun served => (same (layout.long_of_canServe listed live short served)).mp served,
    fun served => (same (layout.long_of_canServe listed live short served)).mpr served⟩

theorem Layout.growsInPlace_iff (layout : s.Layout) (listed : heap ∈ s.objectList)
    (live : s.content heap item = some data) (safe : ¬ s.GrowthWraps item newsize) :
    (¬ s.IsUsed (s.get .next item) ∧ word32 (alignedSize newsize + rtMemheapMinialloc) <
      word32 (s.memitemSize (s.get .next item) + data.length)) ↔ s.GrowsInPlace item newsize := by
  have sound := layout.sound heap listed
  obtain ⟨⟨here, used, notLast⟩, -⟩ := content_eq_some.mp live
  have length := length_of_content live
  have ends := sound.parts.dataSize_eq here notLast
  have inMemory := sound.parts.pool.inMemory
  have isBlock := layout.memitemSize_live listed live
  have behindHere := (sound.parts.ring.next_mem here).1
  rw [GrowsInPlace, isBlock]
  refine and_congr_right fun unused => ?_
  have isFree : s.get .next item ∈ s.freeItems heap := by
    by_contra isUsed
    exact unused ((layout.isUsed_iff listed behindHere).mpr isUsed)
  obtain ⟨-, behindNotLast⟩ := sound.free_mem isFree
  have ends' := sound.parts.dataSize_eq behindHere behindNotLast
  have behindSize := layout.memitemSize_eq listed isFree
  have noWrap : alignedSize newsize + rtMemheapMinialloc < 2 ^ 32 := by
    by_contra wraps
    exact safe ⟨Nat.le_of_not_lt wraps, unused⟩
  rw [word32_of_lt noWrap, word32_of_lt (by omega)]

theorem Layout.realloc (layout : s.Layout) (listed : heap ∈ s.objectList) (live : s.content heap item = some data)
    (nonzero : newsize ≠ 0) (safe : ¬ s.GrowthWraps item newsize) :
    Reallocated s heap item newsize data (s.rtMemheapRealloc heap (item + 24) newsize) := by
  have sound := layout.sound heap listed
  obtain ⟨⟨here, used, notLast⟩, same⟩ := content_eq_some.mp live
  have length := length_of_content live
  have ends := sound.parts.dataSize_eq here notLast
  have inMemory := sound.parts.pool.inMemory
  have size := sound.size_lt
  have least := minialloc_le newsize
  have isBlock := layout.memitemSize_live listed live
  have back := layout.sub_header listed live
  rw [rtMemheapRealloc, if_neg nonzero]
  dsimp only
  rw [if_neg (by omega), back, isBlock]
  rcases Nat.lt_or_ge data.length (alignedSize newsize) with short | enough
  · rw [if_pos short, if_neg (by omega)]
    have behindHere := (sound.parts.ring.next_mem here).1
    by_cases grows : s.GrowsInPlace item newsize
    · have isFree : s.get .next item ∈ s.freeItems heap := by
        by_contra isUsed
        exact grows.1 ((layout.isUsed_iff listed behindHere).mpr isUsed)
      have fits := grows.2
      rw [isBlock, layout.memitemSize_eq listed isFree, length, rtMemheapMinialloc] at fits
      obtain ⟨blocks', free', data', outcome, long, kept, inside⟩ := sound.growItem here used notLast isFree
        (length ▸ short) fits
      rw [if_pos ((layout.growsInPlace_iff listed live safe).mpr grows), length]
      refine .resized (layout.change listed outcome) (.inl grows) long ?_ fun a member => ?_
      · rw [length, kept, same, List.take_of_length_le (by omega)]
      · have behindNotLast := (sound.free_mem isFree).2
        have least := sound.roomy_other behindHere behindNotLast here notLast fun same =>
            used (by rwa [← same] at isFree)
        rw [outcome.sound.blockItems_eq] at member
        refine (inside a member).imp_right fun same => ⟨same, .inl ?_⟩
        rcases alignedSize_cases newsize with shortest | ⟨-, long, -⟩
        · omega
        · exact long
    · rw [if_neg fun holds => grows ((layout.growsInPlace_iff listed live safe).mp holds)]
      have aligned := layout.canServe_aligned listed live short
      rcases layout.alloc listed (alignedSize newsize) with ⟨unserved, call⟩ | ⟨new, s₁, data₁, served, fit, call, rest⟩
      · rw [call]
        exact .failed short (fun served => unserved (aligned.mpr served)) grows
      obtain ⟨first, fresh, enough, inside⟩ := rest
      have long := layout.long_of_canServe listed live short served
      have newHere : new ∈ s.blockItems heap := (sound.free_mem (List.mem_of_find?_eq_some fit)).1
      rw [alignedSize_aligned long] at enough inside
      have ne : item ≠ new := by
        rintro rfl
        rw [fresh] at live
        cases live
      have live₁ : s₁.content heap item = some data := by
        rw [first.content_eq heap listed, if_neg fun both => ne both.2, live]
      have listed₁ : heap ∈ s₁.objectList := first.objects.symm ▸ listed
      have copied : readAt s₁.bytes (item + 24) data.length = data := by
        rw [length_of_content live₁]
        exact (content_eq_some.mp live₁).2
      have fits : 0 + data.length ≤ data₁.length := by omega
      obtain ⟨second, sameItems⟩ := first.layout.write listed₁ (first.content_self listed) fits
      have listed₂ := second.objects.symm ▸ listed₁
      have live₂ := second.content_eq heap listed₁ item
      rw [if_neg fun both => ne both.2, live₁] at live₂
      obtain ⟨s₃, release, third, fewer⟩ := second.layout.free listed₂ live₂
      have copies : s₁.copy (new + 24) (item + 24)
          (if data.length < alignedSize newsize then data.length else alignedSize newsize) =
          { s₁ with bytes := writeAt s₁.bytes (new + 24 + 0) data } := by
        rw [if_pos short, copy, copied]
      rw [call, Option.bind_eq_bind, Option.bind_some]
      dsimp only
      rw [copies, release]
      refine .moved (first.overwrite second)
        third fresh newHere short ?_ ?_ (aligned.mp served) grows fun a member => ?_
      · simp only [List.length_append, List.length_take, List.length_drop]
        omega
      · rw [List.take_zero, List.nil_append, List.take_left' rfl]
      · have member := fewer a member
        rw [sameItems] at member
        exact (inside a member).imp_right fun both => ⟨both.1, long⟩
  · rw [if_neg (Nat.not_lt.mpr enough)]
    have fits : word32 (alignedSize newsize + rtMemheapSize + rtMemheapMinialloc) = alignedSize newsize + 36 :=
      word32_of_lt (show alignedSize newsize + 24 + 12 < 2 ^ 32 by omega)
    rw [fits]
    rcases Nat.lt_or_ge (alignedSize newsize + 36) data.length with room | small
    · rw [if_neg (Nat.not_le.mpr room)]
      obtain ⟨blocks', free', data', outcome, long, kept, inside⟩ := sound.shrinkItem here used notLast least
        (length ▸ room)
      refine .resized (layout.change listed outcome) (.inr room) long ?_ fun a member => ?_
      · rw [List.take_of_length_le (by omega), kept, ← same, take_readAt, Nat.min_eq_left (by omega)]
      · rw [outcome.sound.blockItems_eq] at member
        exact (inside a member).imp_right fun same => ⟨same, .inr room⟩
    · rw [if_pos small]
      exact .same enough

end Memheaps

end RtThread
