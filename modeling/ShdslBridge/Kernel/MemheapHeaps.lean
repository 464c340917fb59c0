import ShdslBridge.Kernel.MemheapResize

/-! # Several memheaps

The items of a heap and its free list are those that the links reach. `Layout` says that every heap of the
object list is sound and that no two of them overlap. A call on one heap leaves the others as they are, so
`Change` tells a call from the outside: one item of one heap has another content.
-/

namespace RtThread

open DoublyLinked LittleEndian Memory

namespace Memheaps

/-- The items reached from `item` by a link, up to `stop`. -/
def walk (s : Memheaps) (field : ItemField) (stop : ℕ) : ℕ → ℕ → List ℕ
  | 0, _ => []
  | fuel + 1, item => if item = stop then [] else item :: s.walk field stop fuel (s.get field item)

def blockItems (s : Memheaps) (heap : ℕ) : List ℕ :=
  let first := (s.heap heap).blockList
  first :: s.walk .next first (s.heap heap).poolSize (s.get .next first)

def freeItems (s : Memheaps) (heap : ℕ) : List ℕ :=
  let freeList := (s.heap heap).freeList
  s.walk .nextFree freeList (s.heap heap).poolSize (s.get .nextFree freeList)

def content (s : Memheaps) (heap item : ℕ) : Option (List (BitVec 8)) :=
  contentOf s heap (s.blockItems heap) (s.freeItems heap) item

/-- The memory of a heap: its pool and its `free_header`. -/
def regions (s : Memheaps) (heap : ℕ) : List (ℕ × ℕ) :=
  [((s.heap heap).startAddr, (s.heap heap).poolSize), (freeHeader heap, rtMemheapSize)]

/-- No two regions of two lists overlap. -/
def Separate (one other : List (ℕ × ℕ)) : Prop :=
  ∀ a ∈ one, ∀ b ∈ other, a.1 + a.2 ≤ b.1 ∨ b.1 + b.2 ≤ a.1

instance (one other : List (ℕ × ℕ)) : Decidable (Separate one other) :=
  inferInstanceAs (Decidable (∀ a ∈ one, ∀ b ∈ other, _))

theorem Separate.symm {one other : List (ℕ × ℕ)} (separate : Separate one other) : Separate other one :=
  fun a inA b inB => (separate b inB a inA).symm

/-- All heaps are sound, each in its own memory. -/
structure Layout (s : Memheaps) : Prop where
  sound : ∀ heap ∈ s.objectList, Sound s heap (s.blockItems heap) (s.freeItems heap)
  apart : ∀ heap ∈ s.objectList, ∀ other ∈ s.objectList, heap ≠ other → Separate (s.regions heap) (s.regions other)

structure Change (s s' : Memheaps) (heap item : ℕ) (content : Option (List (BitVec 8))) : Prop where
  layout : s'.Layout
  objects : s'.objectList = s.objectList
  start : ∀ other, (s'.heap other).startAddr = (s.heap other).startAddr
  content_eq : ∀ other ∈ s.objectList, ∀ a,
    s'.content other a = if other = heap ∧ a = item then content else s.content other a
  items_eq : ∀ other ∈ s.objectList, other ≠ heap → s'.blockItems other = s.blockItems other

variable {s s' : Memheaps} {heap item : ℕ} {blocks free blocks' free' : List ℕ} {content : Option (List (BitVec 8))}

/-! ## The items reached -/

theorem walk_path {field back : ItemField} {node stop fuel : ℕ} {items : List ℕ}
    (path : Path (s.get field) (s.get back) (node :: (items ++ [stop]))) (away : stop ∉ items)
    (enough : items.length < fuel) : s.walk field stop fuel (s.get field node) = items := by
  induction items generalizing node fuel with
  | nil =>
    obtain ⟨fuel, rfl⟩ := Nat.exists_eq_succ_of_ne_zero enough.ne'
    obtain ⟨⟨forward, -⟩, -⟩ := path_cons_cons.mp path
    rw [walk, if_pos forward]
  | cons first rest ih =>
    obtain ⟨fuel, rfl⟩ := Nat.exists_eq_succ_of_ne_zero (Nat.ne_of_gt (Nat.zero_lt_of_lt enough))
    obtain ⟨⟨forward, -⟩, later⟩ := path_cons_cons.mp path
    rw [List.mem_cons, not_or] at away
    rw [walk, forward, if_neg fun same => away.1 same.symm, ih later away.2 (Nat.lt_of_succ_lt_succ enough)]

theorem Sound.freeItems_eq (sound : Sound s heap blocks free) : s.freeItems heap = free := by
  have ring := sound.parts.freeRing
  rw [freeItems, sound.parts.pool.freeList]
  exact walk_path ring.path_cons (List.nodup_cons.mp ring.nodup).1 sound.parts.length_le

theorem Sound.blockItems_eq (sound : Sound s heap blocks free) : s.blockItems heap = blocks := by
  have ring := sound.parts.ring
  have first := sound.parts.first
  have long := sound.parts.blocks_length
  rw [blockItems, sound.parts.pool.blockList]
  cases blocks with
  | nil => cases first
  | cons start rest =>
    obtain rfl := Option.some.inj first
    exact congrArg _ (walk_path ring.path_cons (List.nodup_cons.mp ring.nodup).1 long)

/-! ## The other heaps -/

theorem get_congr {field : ItemField} {node : ℕ} (agree : ∀ i, node ≤ i → i < node + 24 → s'.bytes i = s.bytes i) :
    s'.get field node = s.get field node := by
  have low : field.offset + 4 ≤ 24 := by cases field <;> decide
  exact readNat_congr fun i above below => agree i (by omega) (by omega)

theorem Sound.congr (sound : Sound s heap blocks free) (object : s'.heap heap = s.heap heap)
    (agree : ∀ region ∈ s.regions heap, ∀ i, region.1 ≤ i → i < region.1 + region.2 → s'.bytes i = s.bytes i) :
    Sound s' heap blocks free ∧ ∀ a, contentOf s' heap blocks free a = contentOf s heap blocks free a := by
  have parts := sound.parts
  have inPool : ∀ i, (s.heap heap).startAddr ≤ i → i < (s.heap heap).startAddr + (s.heap heap).poolSize →
      s'.bytes i = s.bytes i := agree _ List.mem_cons_self
  have inHeader : ∀ i, freeHeader heap ≤ i → i < freeHeader heap + 24 → s'.bytes i = s.bytes i :=
    agree _ (List.mem_cons_of_mem _ List.mem_cons_self)
  have inBlocks (field : ItemField) (a : ℕ) (member : a ∈ blocks) : s'.get field a = s.get field a := by
    have bounds := parts.bounds member
    exact get_congr fun i above below => inPool i (by omega) (by omega)
  have inFree (field : ItemField) (a : ℕ) (member : a ∈ freeHeader heap :: free) : s'.get field a = s.get field a := by
    rcases List.mem_cons.mp member with rfl | later
    · exact get_congr inHeader
    · exact inBlocks field a (parts.inside a later)
  have sizes (a : ℕ) (member : a ∈ blocks) : s'.dataSize a = s.dataSize a := by
    rw [dataSize, dataSize, inBlocks _ a member]
  refine ⟨⟨parts.congr object (fun field _ _ => inBlocks field) inFree, sound.coalesced, ?_, ?_⟩, fun a => ?_⟩
  · rw [object, sound.counted, List.map_congr_left fun a member => (sizes a (parts.inside a member)).symm]
  · refine sound.roomy.imp_right fun all a member notLast => ?_
    rw [sizes a member]
    exact all a member (object ▸ notLast)
  · rw [contentOf, contentOf, object]
    split
    · rename_i used
      have ends := parts.dataSize_eq used.1 used.2.2
      have bounds := parts.bounds used.1
      rw [sizes a used.1]
      exact congrArg some (readAt_congr fun i inside => inPool _ (by omega) (by omega))
    · rfl

theorem Sound.content_eq (sound : Sound s heap blocks free) (a : ℕ) :
    s.content heap a = contentOf s heap blocks free a := by
  rw [Memheaps.content, sound.blockItems_eq, sound.freeItems_eq]

theorem Layout.change (layout : s.Layout) (listed : heap ∈ s.objectList)
    (outcome : Outcome s s' heap (s.blockItems heap) (s.freeItems heap) blocks' free' item content) :
    Change s s' heap item content := by
  have same (other : ℕ) (member : other ∈ s.objectList) (ne : other ≠ heap) :=
    (layout.sound other member).congr (outcome.others other ne) fun region inRegions i above below => by
      have apart := layout.apart other member heap listed ne region inRegions
      have fromPool : region.1 + region.2 ≤ (s.heap heap).startAddr ∨
          (s.heap heap).startAddr + (s.heap heap).poolSize ≤ region.1 := apart _ List.mem_cons_self
      have fromHeader : region.1 + region.2 ≤ freeHeader heap ∨ freeHeader heap + 24 ≤ region.1 :=
        apart _ (List.mem_cons_of_mem _ List.mem_cons_self)
      exact outcome.outside i (by omega) (by omega)
  have start (other : ℕ) : (s'.heap other).startAddr = (s.heap other).startAddr := by
    rcases eq_or_ne other heap with rfl | ne
    · exact outcome.start
    · rw [outcome.others other ne]
  have size (other : ℕ) : (s'.heap other).poolSize = (s.heap other).poolSize := by
    rcases eq_or_ne other heap with rfl | ne
    · exact outcome.size
    · rw [outcome.others other ne]
  refine ⟨⟨fun other member => ?_, fun one inOne other inOther ne => ?_⟩, outcome.objects, start,
    fun other member a => ?_, fun other member ne => ?_⟩
  · rw [outcome.objects] at member
    rcases eq_or_ne other heap with rfl | ne
    · rw [outcome.sound.blockItems_eq, outcome.sound.freeItems_eq]
      exact outcome.sound
    · have sound := (same other member ne).1
      rw [sound.blockItems_eq, sound.freeItems_eq]
      exact sound
  · rw [outcome.objects] at inOne inOther
    rw [regions, regions, start, start, size, size]
    exact layout.apart one inOne other inOther ne
  · rcases eq_or_ne other heap with rfl | ne
    · rw [outcome.sound.content_eq, outcome.content]
      simp only [true_and]
      rfl
    · obtain ⟨sound, contents⟩ := same other member ne
      rw [if_neg fun both => ne both.1, sound.content_eq, contents]
      rfl
  · exact (same other member ne).1.blockItems_eq

/-! ## Stores into a data area -/

theorem Sound.writeData {start : ℕ} {cells : List (BitVec 8)} (sound : Sound s heap blocks free)
    (here : item ∈ blocks) (used : item ∉ free) (notLast : item ≠ tailer (s.heap heap)) (low : item + 24 ≤ start)
    (high : start + cells.length ≤ item + 24 + s.dataSize item) :
    Outcome s { s with bytes := writeAt s.bytes start cells } heap blocks free blocks free item
      (some (readAt (writeAt s.bytes start cells) (item + 24) (s.dataSize item))) := by
  have parts := sound.parts
  have ends := parts.dataSize_eq here notLast
  have gets (field : ItemField) (a : ℕ) (member : a ∈ freeHeader heap :: blocks) :
      Memheaps.get { s with bytes := writeAt s.bytes start cells } field a = s.get field a := by
    refine get_congr fun i above below => writeAt_outside _ _ _ ?_
    have := parts.apart_data here notLast member
    omega
  have inBlocks (field : ItemField) (a : ℕ) (member : a ∈ blocks) := gets field a (List.mem_cons_of_mem _ member)
  have sizes (a : ℕ) (member : a ∈ blocks) :
      Memheaps.dataSize { s with bytes := writeAt s.bytes start cells } a = s.dataSize a := by
    rw [dataSize, dataSize, inBlocks _ a member]
  refine ⟨⟨parts.congr rfl (fun field _ _ => inBlocks field)
    fun field a member => gets field a (parts.mem_blocks member),
    sound.coalesced, ?_, ?_⟩, fun a => ?_, fun i outPool _ => writeAt_outside _ _ _ ?_, fun _ _ => rfl, rfl, rfl, rfl⟩
  · exact sound.counted.trans
      (congrArg List.sum (List.map_congr_left fun a member => (sizes a (parts.inside a member)).symm))
  · exact sound.roomy.imp_right fun all a member notLast' => (sizes a member).symm ▸ all a member notLast'
  · split
    · rename_i same
      rw [same, ← sizes item here]
      exact contentOf_used here used notLast
    · rename_i ne
      rw [contentOf, contentOf]
      split
      · rename_i isUsed
        obtain ⟨inside, -, notLast'⟩ := isUsed
        have behind := parts.apart_data here notLast (List.mem_cons_of_mem _ inside)
        have before := parts.apart_data inside notLast' (List.mem_cons_of_mem _ here)
        have ends' := parts.dataSize_eq inside notLast'
        have apart := ordered_apart parts.ordered inside here ne
        rw [sizes a inside]
        exact congrArg some (readAt_writeAt_outside _ _ _ (by omega))
      · rfl
  · have := parts.bounds here
    omega

/-! ## Initialization -/

theorem Spread.get_writeItem {nodes : List ℕ} {node magic poolPtr next prev nextFree prevFree : ℕ}
    (spread : Spread nodes) (here : item ∈ nodes) (read : node ∈ nodes) (field : ItemField) (hMagic : magic < 2 ^ 32)
    (hPool : poolPtr < 2 ^ 32) (hNext : next < 2 ^ 32) (hPrev : prev < 2 ^ 32) (hNextFree : nextFree < 2 ^ 32)
    (hPrevFree : prevFree < 2 ^ 32) :
    (s.writeItem item magic poolPtr next prev nextFree prevFree).get field node =
      if node = item then
        match field with
        | .magic => magic
        | .poolPtr => poolPtr
        | .next => next
        | .prev => prev
        | .nextFree => nextFree
        | .prevFree => prevFree
      else s.get field node := by
  rw [writeItem, spread.get_set here read hPrevFree, spread.get_set here read hNextFree,
    spread.get_set here read hPrev, spread.get_set here read hNext, spread.get_set here read hPool,
    spread.get_set here read hMagic]
  by_cases same : node = item
  · rw [if_pos same]
    cases field <;> simp [same]
  · rw [if_neg same]
    simp [same]

theorem Frame.writeItem {nodes : List ℕ} (frame : Frame nodes s s') (here : item ∈ nodes)
    (magic poolPtr next prev nextFree prevFree : ℕ) :
    Frame nodes s (s'.writeItem item magic poolPtr next prev nextFree prevFree) :=
  (((((frame.set here _ _).set here _ _).set here _ _).set here _ _).set here _ _).set here _ _

/-- Where `rt_memheap_init` may put a heap: the pool has room for two headers, is in the memory and apart from the
`free_header`. -/
def Placed (memheap startAddr size : ℕ) : Prop :=
  48 ≤ rtAlignDown size ∧ startAddr + rtAlignDown size ≤ 2 ^ 32 ∧ freeHeader memheap + 24 ≤ 2 ^ 32 ∧
    (freeHeader memheap + 24 ≤ startAddr ∨ startAddr + rtAlignDown size ≤ freeHeader memheap)

instance (memheap startAddr size : ℕ) : Decidable (Placed memheap startAddr size) :=
  inferInstanceAs (Decidable (_ ∧ _))

/-- The heap object of `rt_memheap_init`. -/
def initObject (memheap startAddr size : ℕ) : Memheap :=
  { startAddr
    poolSize := rtAlignDown size
    availableSize := rtAlignDown size - 48
    maxUsedSize := sub32 (rtAlignDown size) (rtAlignDown size - 48)
    blockList := startAddr
    freeList := freeHeader memheap }

section

variable {startAddr size tail : ℕ}

theorem Placed.spread (placed : Placed heap startAddr size) (tailEq : startAddr + rtAlignDown size - 24 = tail) :
    Spread [freeHeader heap, startAddr, tail] := by
  obtain ⟨room, inMemory, header, apart⟩ := placed
  constructor
  · intro a inA b inB ne
    simp only [List.mem_cons, List.not_mem_nil, or_false] at inA inB
    omega
  · intro a inA
    simp only [List.mem_cons, List.not_mem_nil, or_false] at inA
    omega

def firstItem (s : Memheaps) (heap startAddr tail : ℕ) : Memheaps :=
  let s := s.writeItem (freeHeader heap) rtMemheapMagic heap 0 0 (freeHeader heap) (freeHeader heap)
  let s := s.writeItem startAddr rtMemheapMagic heap 0 0 startAddr startAddr
  (s.set .next startAddr tail).set .prev startAddr tail

theorem get_firstItem {node : ℕ} (placed : Placed heap startAddr size)
    (tailEq : startAddr + rtAlignDown size - 24 = tail) (read : node ∈ [freeHeader heap, startAddr, tail])
    (field : ItemField) :
    (s.firstItem heap startAddr tail).get field node =
      if node = startAddr then
        match field with
        | .magic => rtMemheapMagic
        | .poolPtr => heap
        | .next => tail
        | .prev => tail
        | .nextFree => startAddr
        | .prevFree => startAddr
      else if node = freeHeader heap then
        match field with
        | .magic => rtMemheapMagic
        | .poolPtr => heap
        | .next => 0
        | .prev => 0
        | .nextFree => freeHeader heap
        | .prevFree => freeHeader heap
      else s.get field node := by
  have spread := placed.spread tailEq
  have inHeader : freeHeader heap ∈ [freeHeader heap, startAddr, tail] := by simp
  have inStart : startAddr ∈ [freeHeader heap, startAddr, tail] := by simp
  have header := spread.2 _ inHeader
  have start := spread.2 _ inStart
  have last := spread.2 tail (by simp)
  have pool : heap < 2 ^ 32 := by
    rw [freeHeader] at header
    omega
  have magic : rtMemheapMagic < 2 ^ 32 := by decide
  rw [firstItem, spread.get_set inStart read last, spread.get_set inStart read last,
    spread.get_writeItem inStart read field magic pool (by decide) (by decide) start start,
    spread.get_writeItem inHeader read field magic pool (by decide) (by decide) header header]
  by_cases same : node = startAddr
  · cases field <;> simp [same]
  · simp [same]

/-- `rt_memheap_init` writes three headers. -/
theorem rtMemheapInit_eq (placed : Placed heap startAddr size) (tailEq : startAddr + rtAlignDown size - 24 = tail)
    (objects : s' = { s with
      objectList := heap :: s.objectList
      heap := Function.update s.heap heap (initObject heap startAddr size) }) :
    s.rtMemheapInit heap startAddr size =
      ((s'.firstItem heap startAddr tail).linkFree heap startAddr).writeItem
        (((s'.firstItem heap startAddr tail).linkFree heap startAddr).get .next startAddr)
        (rtMemheapMagic ||| rtMemheapUsed) heap startAddr startAddr 0 0 := by
  obtain ⟨room, inMemory, header, apart⟩ := placed
  have available : sub32 (rtAlignDown size) (2 * rtMemheapSize) = rtAlignDown size - 48 :=
    sub32_of_le room (by rw [freeHeader] at *; omega)
  have place : word32 (startAddr + (rtAlignDown size - 48) + rtMemheapSize) = tail := by
    rw [rtMemheapSize, word32_of_lt (by omega)]
    omega
  have linked (d : Memheaps) : (d.set .next startAddr tail).set .prev startAddr
      ((d.set .next startAddr tail).get .next startAddr) = (d.set .next startAddr tail).set .prev startAddr tail := by
    rw [get_set_self (show tail < 2 ^ 32 by omega)]
  rw [rtMemheapInit, available, place, objects, firstItem, ← linked]
  rfl

theorem Sound.init (placed : Placed heap startAddr size) (tailEq : startAddr + rtAlignDown size - 24 = tail) :
    Sound (s.rtMemheapInit heap startAddr size) heap [startAddr, tail] [startAddr] ∧
      Frame [freeHeader heap, startAddr, tail] s (s.rtMemheapInit heap startAddr size) ∧
      (s.rtMemheapInit heap startAddr size).heap = Function.update s.heap heap (initObject heap startAddr size) := by
  have spread := placed.spread tailEq
  obtain ⟨s', objects⟩ : ∃ s' : Memheaps, s' = { s with
    objectList := heap :: s.objectList
    heap := Function.update s.heap heap (initObject heap startAddr size) } := ⟨_, rfl⟩
  have initEq := rtMemheapInit_eq placed tailEq objects
  have object : s'.heap heap = initObject heap startAddr size := by
    rw [objects]
    exact Function.update_self ..
  obtain ⟨room, inMemory, above, apart⟩ := placed
  have inHeader : freeHeader heap ∈ [freeHeader heap, startAddr, tail] := by simp
  have inStart : startAddr ∈ [freeHeader heap, startAddr, tail] := by simp
  have inTail : tail ∈ [freeHeader heap, startAddr, tail] := by simp
  have pool : heap < 2 ^ 32 := by
    rw [freeHeader] at above
    omega
  have ne : startAddr ≠ freeHeader heap := by omega
  have ne' : startAddr ≠ tail := by omega
  have ne'' : freeHeader heap ≠ tail := by omega
  have gets (field : ItemField) (node : ℕ) (read : node ∈ [freeHeader heap, startAddr, tail]) :=
    get_firstItem (s := s') ⟨room, inMemory, above, apart⟩ tailEq read field
  have front : (s'.firstItem heap startAddr tail).get .nextFree (freeHeader heap) = freeHeader heap := by
    rw [gets _ _ inHeader, if_neg ne.symm, if_pos rfl]
  have freeList : ((s'.firstItem heap startAddr tail).heap heap).freeList = freeHeader heap := by
    change (s'.heap heap).freeList = _
    rw [object]
    rfl
  have inList : ((s'.firstItem heap startAddr tail).heap heap).freeList ∈ [freeHeader heap, startAddr, tail] :=
    freeList ▸ inHeader
  have neList : startAddr ≠ ((s'.firstItem heap startAddr tail).heap heap).freeList := freeList ▸ ne
  have inFront : (s'.firstItem heap startAddr tail).get .nextFree
      ((s'.firstItem heap startAddr tail).heap heap).freeList ∈ [freeHeader heap, startAddr, tail] := by
    rw [freeList, front]
    exact inHeader
  have linked (field : ItemField) (node : ℕ) (read : node ∈ [freeHeader heap, startAddr, tail]) :=
    spread.get_linkFree field inStart inList neList inFront read
  simp only [freeList, front] at linked
  have forward : ((s'.firstItem heap startAddr tail).linkFree heap startAddr).get .next startAddr = tail := by
    rw [linked _ _ inStart, gets _ _ inStart]
    simp
  rw [forward] at initEq
  have final (field : ItemField) (node : ℕ) (read : node ∈ [freeHeader heap, startAddr, tail]) :=
    spread.get_writeItem (s := (s'.firstItem heap startAddr tail).linkFree heap startAddr) inTail read field
      (show rtMemheapMagic ||| rtMemheapUsed < 2 ^ 32 by decide) pool (spread.2 _ inStart) (spread.2 _ inStart)
      (show 0 < 2 ^ 32 by decide) (show 0 < 2 ^ 32 by decide)
  rw [← initEq] at final
  have heaps : (s.rtMemheapInit heap startAddr size).heap = s'.heap := by
    rw [initEq]
    rfl
  have atStart (field : ItemField) := (final field startAddr inStart).trans (if_neg ne')
  have atHeader (field : ItemField) := (final field _ inHeader).trans (if_neg ne'')
  have atTail (field : ItemField) := (final field _ inTail).trans (if_pos rfl)
  simp only [linked _ _ inStart, gets _ _ inStart] at atStart
  simp only [linked _ _ inHeader, gets _ _ inHeader] at atHeader
  have tailOf : tailer (initObject heap startAddr size) = tail := tailEq
  have next : (s.rtMemheapInit heap startAddr size).get .next startAddr = tail := by simp [atStart]
  refine ⟨⟨?_, ?_, ?_, .inl rfl⟩, ?_, by rw [heaps, objects]⟩
  · refine
      { pool := by
          rw [heaps, object]
          exact ⟨rfl, rfl, room, inMemory, apart, by omega⟩
        first := by
          rw [heaps, object]
          rfl
        last := by
          rw [heaps, object, tailOf]
          rfl
        ordered := by
          rw [List.pairwise_pair]
          omega
        ring := Ring.of_path ?_ (by simpa using ne')
        freeRing := Ring.of_path ?_ (by simpa using ne.symm)
        marked := fun a member => ?_
        owned := fun a member => ?_
        listed := fun a => id
        inside := fun a member => by simpa using .inl (List.mem_singleton.mp member)
        once := List.nodup_singleton _
        tailUsed := by
          rw [heaps, object, tailOf, List.mem_singleton]
          exact ne'.symm }
    · exact path_cons_cons.mpr ⟨⟨next, atTail .prev⟩,
        path_cons_cons.mpr ⟨⟨atTail .next, by simp [atStart]⟩, .singleton _⟩⟩
    · refine path_cons_cons.mpr ⟨⟨?_, ?_⟩, path_cons_cons.mpr ⟨⟨?_, ?_⟩, .singleton _⟩⟩
      · simp [atHeader]
      · simp [atStart, ne]
      · simp [atStart, ne]
      · simp [atHeader]
    · rcases List.mem_cons.mp member with rfl | last
      · rw [if_pos (List.mem_singleton.mpr rfl)]
        simp [atStart]
      · obtain rfl := List.mem_singleton.mp last
        rw [if_neg (by simpa using ne'.symm)]
        exact atTail .magic
    · rcases List.mem_cons.mp member with rfl | last
      · simp [atStart]
      · obtain rfl := List.mem_singleton.mp last
        exact atTail .poolPtr
  · exact .cons_cons (fun _ => by simpa using ne'.symm) (.singleton _)
  · rw [heaps, object, List.map_singleton, List.sum_singleton, dataSize, next]
    change rtAlignDown size - 48 = _
    omega
  · rw [initEq]
    have start : Frame [freeHeader heap, startAddr, tail] s s' := fun i _ => by rw [objects]
    have first : Frame [freeHeader heap, startAddr, tail] s (s'.firstItem heap startAddr tail) :=
      (((start.writeItem inHeader _ _ _ _ _ _).writeItem inStart _ _ _ _ _ _).set inStart _ _).set inStart _ _
    have put := first.trans (spread.frame_linkFree inStart inList neList inFront)
    exact put.writeItem inTail _ _ _ _ _ _

theorem Layout.init (layout : s.Layout) (placed : Placed heap startAddr size) (fresh : heap ∉ s.objectList)
    (apart : ∀ other ∈ s.objectList,
      Separate [(startAddr, rtAlignDown size), (freeHeader heap, rtMemheapSize)] (s.regions other)) :
    (s.rtMemheapInit heap startAddr size).Layout ∧
      (∀ a, (s.rtMemheapInit heap startAddr size).content heap a = none) ∧
      (s.rtMemheapInit heap startAddr size).blockItems heap = [startAddr, startAddr + rtAlignDown size - 24] ∧
      ∀ other ∈ s.objectList,
        (s.rtMemheapInit heap startAddr size).blockItems other = s.blockItems other ∧
        ∀ a, (s.rtMemheapInit heap startAddr size).content other a = s.content other a := by
  obtain ⟨tail, tailEq⟩ : ∃ tail, startAddr + rtAlignDown size - 24 = tail := ⟨_, rfl⟩
  obtain ⟨made, frame, heaps⟩ := Sound.init (s := s) placed tailEq
  have object : (s.rtMemheapInit heap startAddr size).heap heap = initObject heap startAddr size := by
    rw [heaps, Function.update_self]
  have same (other : ℕ) (member : other ∈ s.objectList) :
      (s.rtMemheapInit heap startAddr size).heap other = s.heap other := by
    rw [heaps, Function.update_of_ne (ne_of_mem_of_not_mem member fresh)]
  have kept (other : ℕ) (member : other ∈ s.objectList) :=
    (layout.sound other member).congr (same other member) fun region inRegions i above below => by
      have away := apart other member
      have fromPool : startAddr + rtAlignDown size ≤ region.1 ∨ region.1 + region.2 ≤ startAddr :=
        away _ List.mem_cons_self region inRegions
      have fromHeader : freeHeader heap + 24 ≤ region.1 ∨ region.1 + region.2 ≤ freeHeader heap :=
        away _ (List.mem_cons_of_mem _ List.mem_cons_self) region inRegions
      have room := placed.1
      refine frame i fun a member => ?_
      simp only [List.mem_cons, List.not_mem_nil, or_false] at member
      omega
  have newRegions : (s.rtMemheapInit heap startAddr size).regions heap =
      [(startAddr, rtAlignDown size), (freeHeader heap, rtMemheapSize)] := by
    rw [regions, object]
    rfl
  have oldRegions (other : ℕ) (member : other ∈ s.objectList) :
      (s.rtMemheapInit heap startAddr size).regions other = s.regions other := by
    rw [regions, same other member]
    rfl
  have objects : (s.rtMemheapInit heap startAddr size).objectList = heap :: s.objectList := rfl
  refine ⟨⟨fun other member => ?_, fun one inOne other inOther ne => ?_⟩, fun a => ?_, ?_, fun other member =>
    ⟨?_, fun a => ?_⟩⟩
  · rw [objects] at member
    rcases List.mem_cons.mp member with rfl | old
    · rw [made.blockItems_eq, made.freeItems_eq]
      exact made
    · have sound := (kept other old).1
      rw [sound.blockItems_eq, sound.freeItems_eq]
      exact sound
  · rw [objects] at inOne inOther
    rcases List.mem_cons.mp inOne with rfl | oldOne
    · have oldOther := (List.mem_cons.mp inOther).resolve_left ne.symm
      rw [newRegions, oldRegions other oldOther]
      exact apart other oldOther
    · rw [oldRegions one oldOne]
      rcases List.mem_cons.mp inOther with rfl | oldOther
      · rw [newRegions]
        exact (apart one oldOne).symm
      · rw [oldRegions other oldOther]
        exact layout.apart one oldOne other oldOther ne
  · rw [made.content_eq, contentOf, object, if_neg]
    rintro ⟨inside, away, notLast⟩
    rcases List.mem_cons.mp inside with rfl | last
    · exact away List.mem_cons_self
    · exact notLast ((List.mem_singleton.mp last).trans tailEq.symm)
  · rw [made.blockItems_eq, tailEq]
  · exact (kept other member).1.blockItems_eq
  · rw [(kept other member).1.content_eq, (kept other member).2]
    rfl

end

end Memheaps

end RtThread
