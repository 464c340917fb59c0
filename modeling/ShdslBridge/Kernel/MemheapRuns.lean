import ShdslBridge.Kernel.MemheapRealloc
import ShdslBridge.Lib.Run

/-! # Runs of the calls of a memheap

A run starts without heaps. Its events are `rt_memheap_init` on memory that no other heap uses, the calls on
these heaps, and stores of the owners of blocks into their data areas. `live` are the pointers in the hands
of the callers; a call on another pointer is outside the contract and not part of a run.

The links, the free list and the byte counter are right in every state, as long as no call asks
`rt_memheap_realloc` for a size so large that the test for growing in place wraps, with a free item behind.
-/

namespace RtThread

open DoublyLinked Memory

structure MemheapRun where
  state : Memheaps
  live : Finset ℕ

inductive MemheapEvent
  | init (memheap startAddr size : ℕ)
  | alloc (heap size : ℕ)
  | realloc (heap ptr newsize : ℕ)
  | free (ptr : ℕ)
  | store (ptr offset : ℕ) (byte : BitVec 8)

def Memheaps.dataOf (s : Memheaps) (ptr : ℕ) : List (BitVec 8) :=
  readAt s.bytes ptr (s.memitemSize (ptr - rtMemheapSize))

theorem Memheaps.Layout.dataOf_eq {s : Memheaps} {heap item : ℕ} {data : List (BitVec 8)} (layout : s.Layout)
    (listed : heap ∈ s.objectList) (live : s.content heap item = some data) : s.dataOf (item + 24) = data := by
  rw [dataOf, rtMemheapSize, Nat.add_sub_cancel, layout.memitemSize_live listed live, length_of_content live]
  exact (content_eq_some.mp live).2

namespace MemheapRun

/-- The null pointer, or a live pointer into the heap. -/
def Owns (run : MemheapRun) (heap ptr : ℕ) : Prop :=
  ptr = 0 ∨ ptr ∈ run.live ∧ run.state.get .poolPtr (ptr - rtMemheapSize) = heap

def answer (run : MemheapRun) (released : ℕ) : Memheaps × Option ℕ → MemheapRun
  | (state, none) => { run with state }
  | (state, some ptr) => { state, live := insert ptr (run.live.erase released) }

instance (run : MemheapRun) (heap ptr : ℕ) : Decidable (run.Owns heap ptr) := inferInstanceAs (Decidable (_ ∨ _))

/-- One event; `none` where the call does not return. -/
def call (run : MemheapRun) : MemheapEvent → Option MemheapRun
  | .init memheap startAddr size =>
    if Memheaps.Placed memheap startAddr size ∧ memheap ∉ run.state.objectList ∧
        ∀ other ∈ run.state.objectList, Memheaps.Separate
          [(startAddr, rtAlignDown size), (freeHeader memheap, rtMemheapSize)] (run.state.regions other) then
      some { run with state := run.state.rtMemheapInit memheap startAddr size }
    else some run
  | .alloc heap size =>
    if heap ∈ run.state.objectList then (run.state.rtMemheapAlloc heap size).map (run.answer 0) else some run
  | .realloc heap ptr newsize =>
    if heap ∈ run.state.objectList ∧ run.Owns heap ptr then
      if newsize = 0 then
        (run.state.rtMemheapRealloc heap ptr newsize).map fun result =>
          { state := result.1, live := run.live.erase ptr }
      else (run.state.rtMemheapRealloc heap ptr newsize).map (run.answer ptr)
    else some run
  | .free ptr =>
    if ptr = 0 ∨ ptr ∈ run.live then
      (run.state.rtMemheapFree ptr).map fun state => { state, live := run.live.erase ptr }
    else some run
  | .store ptr offset byte =>
    if ptr ∈ run.live ∧ offset < (run.state.dataOf ptr).length then
      some { run with state := { run.state with bytes := writeAt run.state.bytes (ptr + offset) [byte] } }
    else some run

/-- A call that does not return leaves the heaps as they are. -/
def step (run : MemheapRun) (event : MemheapEvent) : MemheapRun := (run.call event).getD run

/-- Before the first call of `rt_memheap_init`, with anything in the memory. -/
def boot (s : Memheaps) : MemheapRun := { state := { s with objectList := [] }, live := ∅ }

end MemheapRun

namespace MemheapEvent

def argument : MemheapEvent → ℕ
  | init .. => 0
  | alloc .. => 0
  | realloc _ ptr _ => ptr
  | free ptr => ptr
  | store ptr _ _ => ptr

/-- Rounding the size up to `RT_ALIGN_SIZE` does not wrap. -/
def Small : MemheapEvent → Prop
  | init .. => True
  | alloc _ size => size + 7 < 2 ^ 32
  | realloc _ _ newsize => newsize + 7 < 2 ^ 32
  | free _ => True
  | store .. => True

/-- A block is resized, the test for growing in place wraps, and the item behind is free. -/
def GrowthWraps (event : MemheapEvent) (run : MemheapRun) : Prop :=
  match event with
  | realloc _ ptr newsize => ptr ∈ run.live ∧ newsize ≠ 0 ∧ run.state.GrowthWraps (ptr - rtMemheapSize) newsize
  | _ => False

/-- Twelve bytes are cut off an item of the heap. -/
def CutsMinialloc (event : MemheapEvent) (run : MemheapRun) (heap : ℕ) : Prop :=
  match event with
  | alloc target size => target = heap ∧ alignedSize size = rtMemheapMinialloc ∧ run.state.CanServe heap size ∧
      ∀ item ∈ run.state.firstFit heap size,
        rtMemheapMinialloc + rtMemheapSize + rtMemheapMinialloc ≤ run.state.memitemSize item
  | realloc target ptr newsize => target = heap ∧ ptr ∈ run.live ∧ newsize ≠ 0 ∧
      alignedSize newsize = rtMemheapMinialloc ∧
        rtMemheapMinialloc + rtMemheapSize + rtMemheapMinialloc < run.state.memitemSize (ptr - rtMemheapSize)
  | _ => False

end MemheapEvent

structure Memheaps.WellFormed (s : Memheaps) (heap : ℕ) : Prop where
  first : (s.blockItems heap).head? = some (s.heap heap).startAddr
  last : (s.blockItems heap).getLast? = some ((s.heap heap).startAddr + (s.heap heap).poolSize - rtMemheapSize)
  ordered : (s.blockItems heap).Pairwise fun item behind => item + rtMemheapSize ≤ behind
  ring : Ring (s.get .next) (s.get .prev) (s.blockItems heap)
  freeRing : Ring (s.get .nextFree) (s.get .prevFree) (freeHeader heap :: s.freeItems heap)
  listed : ∀ item, item ∈ s.freeItems heap ↔ item ∈ s.blockItems heap ∧ ¬ s.IsUsed item
  apart : (s.blockItems heap).IsChain fun item behind => ¬ s.IsUsed item → s.IsUsed behind
  account : (s.heap heap).availableSize = ((s.freeItems heap).map s.memitemSize).sum

namespace MemheapRun

/-- All heaps are well formed, and the live pointers are those behind the used items, the last ones apart. -/
structure WellFormed (run : MemheapRun) : Prop where
  heaps : ∀ heap ∈ run.state.objectList, run.state.WellFormed heap
  live : ∀ item, item + rtMemheapSize ∈ run.live ↔ ∃ heap ∈ run.state.objectList,
    item ∈ run.state.blockItems heap ∧ run.state.IsUsed item ∧
      item ≠ (run.state.heap heap).startAddr + (run.state.heap heap).poolSize - rtMemheapSize

/-- The block that `rt_memheap_realloc` is called for keeps its first bytes, or stays as it is. -/
def ReallocKeeps (run : MemheapRun) (heap ptr newsize : ℕ) : Prop :=
  match run.state.rtMemheapRealloc heap ptr newsize with
  | none => False
  | some (state, none) =>
    ptr ∈ (run.step (.realloc heap ptr newsize)).live ∧ state.dataOf ptr = run.state.dataOf ptr
  | some (state, some new) =>
    new ∈ (run.step (.realloc heap ptr newsize)).live ∧
      (state.dataOf new).take (min (run.state.dataOf ptr).length newsize) =
        (run.state.dataOf ptr).take (min (run.state.dataOf ptr).length newsize)

/-- An event returns, and changes neither the extent nor the content of a live block other than its argument. -/
structure Isolated (run : MemheapRun) (event : MemheapEvent) : Prop where
  returns : (run.call event).isSome
  others : ∀ ptr ∈ run.live, ptr ≠ event.argument →
    ptr ∈ (run.step event).live ∧ (run.step event).state.dataOf ptr = run.state.dataOf ptr
  argument : ∀ heap ptr newsize, event = .realloc heap ptr newsize → heap ∈ run.state.objectList → ptr ≠ 0 →
    run.Owns heap ptr → newsize ≠ 0 → run.ReallocKeeps heap ptr newsize

/-! ## What the calls keep -/

/-- The heaps hold what is live. -/
structure Tracks (run : MemheapRun) : Prop where
  layout : run.state.Layout
  header : ∀ ptr ∈ run.live, ∃ item, ptr = item + 24
  live : ∀ item, item + 24 ∈ run.live ↔
    ∃ heap ∈ run.state.objectList, ∃ data, run.state.content heap item = some data

def ItemsAligned (run : MemheapRun) (heap : ℕ) : Prop :=
  heap ∈ run.state.objectList → 8 ∣ (run.state.heap heap).startAddr → ∀ a ∈ run.state.blockItems heap, 8 ∣ a

/-- An event seen from the other blocks and from the headers. -/
structure Stepped (run run' : MemheapRun) (event : MemheapEvent) : Prop where
  tracks : run'.Tracks
  objects : ∀ heap ∈ run.state.objectList, heap ∈ run'.state.objectList
  kept : ∀ heap ∈ run.state.objectList, ∀ item data, item + 24 ≠ event.argument →
    run.state.content heap item = some data → run'.state.content heap item = some data
  aligned : ∀ heap, ¬ event.CutsMinialloc run heap → run.ItemsAligned heap → run'.ItemsAligned heap

variable {run : MemheapRun} {s' : Memheaps} {heap item : ℕ} {data : List (BitVec 8)}

theorem Tracks.put (tracks : run.Tracks) (listed : heap ∈ run.state.objectList)
    (change : Memheaps.Change run.state s' heap item (some data)) :
    Tracks { state := s', live := insert (item + 24) run.live } := by
  refine ⟨change.layout, fun ptr member => ?_, fun a => ?_⟩
  · rcases Finset.mem_insert.mp member with rfl | old
    · exact ⟨item, rfl⟩
    · exact tracks.header ptr old
  · dsimp only
    rw [Finset.mem_insert, change.objects]
    rcases eq_or_ne a item with rfl | ne
    · exact iff_of_true (.inl rfl) ⟨heap, listed, data, change.content_self listed⟩
    · rw [or_iff_right (by omega), tracks.live a]
      refine exists_congr fun other => and_congr_right fun member => ?_
      rw [change.content_eq other member, if_neg fun both => ne both.2]

theorem Tracks.drop (tracks : run.Tracks) (listed : heap ∈ run.state.objectList)
    (live : run.state.content heap item = some data) (change : Memheaps.Change run.state s' heap item none) :
    Tracks { state := s', live := run.live.erase (item + 24) } := by
  refine ⟨change.layout, fun ptr member => tracks.header ptr (Finset.mem_of_mem_erase member), fun a => ?_⟩
  dsimp only
  rw [Finset.mem_erase, change.objects]
  rcases eq_or_ne a item with rfl | ne
  · refine iff_of_false (fun both => both.1 rfl) ?_
    rintro ⟨other, member, data', isLive⟩
    rw [change.content_eq other member] at isLive
    split at isLive
    · cases isLive
    · rename_i away
      exact away ⟨(tracks.layout.unique listed member live isLive).symm, rfl⟩
  · rw [and_iff_right (by omega), tracks.live a]
    refine exists_congr fun other => and_congr_right fun member => ?_
    rw [change.content_eq other member, if_neg fun both => ne both.2]

variable {run' : MemheapRun} {event : MemheapEvent}

theorem stepped_of_items (tracks : run'.Tracks) (objects : run'.state.objectList = run.state.objectList)
    (start : ∀ other, (run'.state.heap other).startAddr = (run.state.heap other).startAddr)
    (kept : ∀ other ∈ run.state.objectList, ∀ a data, a + 24 ≠ event.argument → run.state.content other a = some data → run'.state.content other a = some data)
    (others : ∀ other ∈ run.state.objectList, other ≠ heap → run'.state.blockItems other = run.state.blockItems other)
    (items : ¬ event.CutsMinialloc run heap → (∀ a ∈ run.state.blockItems heap, 8 ∣ a) → ∀ a ∈ run'.state.blockItems heap, 8 ∣ a) :
    Stepped run run' event := by
  refine ⟨tracks, fun other member => objects.symm ▸ member, kept, fun other uncut aligned member base => ?_⟩
  rw [objects] at member
  rw [start] at base
  rcases eq_or_ne other heap with rfl | ne
  · exact items uncut (aligned member base)
  · rw [others other member ne]
    exact aligned member base

theorem Tracks.stay (tracks : run.Tracks) (event : MemheapEvent) : Stepped run run event :=
  ⟨tracks, fun _ => id, fun _ _ _ _ _ => id, fun _ _ => id⟩

theorem Tracks.zero_notMem (tracks : run.Tracks) : 0 ∉ run.live := fun member => by
  obtain ⟨item, same⟩ := tracks.header 0 member
  omega

/-- `rt_memheap_alloc`. -/
theorem Tracks.alloc {size : ℕ} (tracks : run.Tracks) (listed : heap ∈ run.state.objectList)
    (cuts : run.state.CanServe heap size → alignedSize size = rtMemheapMinialloc → (∀ item ∈ run.state.firstFit heap size, rtMemheapMinialloc + rtMemheapSize + rtMemheapMinialloc ≤ run.state.memitemSize item) → event.CutsMinialloc run heap)
    :
    ∃ run', (run.state.rtMemheapAlloc heap size).map (run.answer 0) = some run' ∧ Stepped run run' event := by
  rcases tracks.layout.alloc listed size with ⟨-, call⟩ | ⟨item, s', data, served, fit, call, change, fresh, -, inside⟩
  · rw [call]
    exact ⟨run, rfl, tracks.stay event⟩
  · have put := tracks.put listed change
    have live : insert (item + 24) (run.live.erase 0) = insert (item + 24) run.live := by
      rw [Finset.erase_eq_of_notMem tracks.zero_notMem]
    rw [← live] at put
    rw [call]
    refine ⟨_, rfl, stepped_of_items put change.objects change.start (fun other member a data _ isLive => ?_)
      change.items_eq fun uncut aligned a member => ?_⟩
    · dsimp only [answer]
      rw [change.content_eq other member, if_neg, isLive]
      rintro ⟨rfl, rfl⟩
      rw [fresh] at isLive
      cases isLive
    · have isFree : item ∈ run.state.freeItems heap := List.mem_of_find?_eq_some fit
      have atItem := aligned item ((tracks.layout.sound heap listed).free_mem isFree).1
      rcases inside a member with old | ⟨rfl, room⟩
      · exact aligned a old
      · rcases Memheaps.alignedSize_cases size with least | ⟨multiple, -⟩
        · refine absurd (cuts served least fun other found => ?_) uncut
          obtain rfl : item = other := Option.some.inj (fit.symm.trans found)
          rw [rtMemheapMinialloc, rtMemheapSize]
          omega
        · omega

/-- A live pointer is behind the header of its item, which names its heap. -/
theorem Tracks.owner {ptr : ℕ} (tracks : run.Tracks) (member : ptr ∈ run.live) :
    ∃ heap ∈ run.state.objectList, ∃ item data, ptr = item + 24 ∧ run.state.content heap item = some data ∧
      run.state.get .poolPtr item = heap := by
  obtain ⟨item, rfl⟩ := tracks.header ptr member
  obtain ⟨heap, listed, data, live⟩ := (tracks.live item).mp member
  have here := (Memheaps.content_eq_some.mp live).1.1
  exact ⟨heap, listed, item, data, rfl, live, (tracks.layout.sound heap listed).parts.owned item here⟩

/-- `rt_memheap_free`. -/
theorem Tracks.free {ptr : ℕ} (tracks : run.Tracks) (member : ptr ∈ run.live) (about : event.argument = ptr) :
    ∃ state, run.state.rtMemheapFree ptr = some state ∧
      Stepped run { state, live := run.live.erase ptr } event := by
  obtain ⟨heap, listed, item, data, rfl, live, -⟩ := tracks.owner member
  obtain ⟨s', call, change, fewer⟩ := tracks.layout.free listed live
  refine ⟨s', call, stepped_of_items (tracks.drop listed live change) change.objects change.start
    (fun other member a data away isLive => ?_) change.items_eq fun _ aligned a inside => aligned a (fewer a inside)⟩
  dsimp only
  rw [change.content_eq other member, if_neg, isLive]
  rintro ⟨-, rfl⟩
  exact away about.symm

/-- `rt_memheap_realloc` of a live block. -/
theorem Tracks.realloc {newsize : ℕ} (tracks : run.Tracks) (listed : heap ∈ run.state.objectList)
    (live : run.state.content heap item = some data) (nonzero : newsize ≠ 0)
    (safe : ¬ run.state.GrowthWraps item newsize) :
    ∃ run', (run.state.rtMemheapRealloc heap (item + 24) newsize).map (run.answer (item + 24)) = some run' ∧
      Stepped run run' (.realloc heap (item + 24) newsize) := by
  have isLive : item + 24 ∈ run.live := (tracks.live item).mpr ⟨heap, listed, data, live⟩
  have atItem (aligned : ∀ a ∈ run.state.blockItems heap, 8 ∣ a) : 8 ∣ item :=
    aligned item (Memheaps.content_eq_some.mp live).1.1
  have size := tracks.layout.memitemSize_live listed live
  have outcome := tracks.layout.realloc listed live nonzero safe
  have again : insert (item + 24) (run.live.erase (item + 24)) = insert (item + 24) run.live := by
    rw [Finset.insert_erase isLive, Finset.insert_eq_of_mem isLive]
  revert outcome
  generalize run.state.rtMemheapRealloc heap (item + 24) newsize = result
  intro outcome
  cases outcome with
  | same enough =>
    refine ⟨run, ?_, tracks.stay _⟩
    rw [Option.map_some, answer, Finset.insert_erase isLive]
  | failed short unserved noRoom => exact ⟨run, rfl, tracks.stay _⟩
  | resized change room long kept items =>
    have put := tracks.put listed change
    rw [← again] at put
    refine ⟨_, rfl, stepped_of_items put change.objects change.start (fun other member a data away isLive => ?_)
      change.items_eq fun uncut aligned a member => ?_⟩
    · dsimp only [answer]
      rw [change.content_eq other member, if_neg, isLive]
      rintro ⟨-, rfl⟩
      exact away rfl
    · rcases items a member with old | ⟨rfl, which⟩
      · exact aligned a old
      · have := atItem aligned
        rcases Memheaps.alignedSize_cases newsize with least | ⟨multiple, -⟩
        · refine absurd ⟨rfl, isLive, nonzero, least, ?_⟩ uncut
          rw [rtMemheapSize, Nat.add_sub_cancel, size, rtMemheapMinialloc]
          omega
        · omega
  | @moved s₁ s' new data' first second fresh inside short long kept served noRoom items =>
    have ne : item ≠ new := by
      rintro rfl
      rw [fresh] at live
      cases live
    have live₁ : s₁.content heap item = some data := by
      rw [first.content_eq heap listed, if_neg fun both => ne both.2, live]
    have put := tracks.put listed first
    have moved := put.drop (first.objects.symm ▸ listed) live₁ second
    have swap : (insert (new + 24) run.live).erase (item + 24) = insert (new + 24) (run.live.erase (item + 24)) :=
      Finset.erase_insert_of_ne (by omega)
    rw [swap] at moved
    refine ⟨_, rfl, stepped_of_items moved (second.objects.trans first.objects)
      (fun other => (second.start other).trans (first.start other)) (fun other member a data away isLive => ?_)
      (fun other member ne => (second.items_eq other (first.objects.symm ▸ member) ne).trans
        (first.items_eq other member ne)) fun _ aligned a member => ?_⟩
    · dsimp only [answer]
      rw [second.content_eq other (first.objects.symm ▸ member), if_neg, first.content_eq other member, if_neg, isLive]
      · rintro ⟨rfl, rfl⟩
        rw [fresh] at isLive
        cases isLive
      · rintro ⟨-, rfl⟩
        exact away rfl
    · rcases items a member with old | ⟨rfl, large⟩
      · exact aligned a old
      · have := aligned new inside
        rcases Memheaps.alignedSize_cases newsize with least | ⟨multiple, -⟩
        · omega
        · omega

/-- `rt_memheap_init`. -/
theorem Tracks.init {memheap startAddr size : ℕ} (tracks : run.Tracks)
    (placed : Memheaps.Placed memheap startAddr size) (fresh : memheap ∉ run.state.objectList)
    (apart : ∀ other ∈ run.state.objectList, Memheaps.Separate
      [(startAddr, rtAlignDown size), (freeHeader memheap, rtMemheapSize)] (run.state.regions other)) :
    Stepped run { run with state := run.state.rtMemheapInit memheap startAddr size }
      (.init memheap startAddr size) := by
  obtain ⟨layout, empty, blocks, old⟩ := tracks.layout.init placed fresh apart
  have heaps := (Memheaps.Sound.init (s := run.state) placed rfl).2.2
  have objects : (run.state.rtMemheapInit memheap startAddr size).objectList = memheap :: run.state.objectList := rfl
  refine ⟨⟨layout, tracks.header, fun item => ?_⟩, fun other member => List.mem_cons_of_mem _ member,
    fun other member item data _ live => ?_, fun other _ aligned member base => ?_⟩
  · dsimp only
    rw [tracks.live item, objects]
    constructor
    · rintro ⟨other, member, data, live⟩
      exact ⟨other, List.mem_cons_of_mem _ member, data, ((old other member).2 item).trans live⟩
    · rintro ⟨other, member, data, live⟩
      rcases List.mem_cons.mp member with rfl | before
      · rw [empty] at live
        cases live
      · exact ⟨other, before, data, ((old other before).2 item).symm.trans live⟩
  · exact ((old other member).2 item).trans live
  · dsimp only at member base ⊢
    rw [objects] at member
    rw [heaps] at base
    rcases List.mem_cons.mp member with rfl | before
    · rw [Function.update_self] at base
      have base : 8 ∣ startAddr := base
      rw [blocks]
      intro a inside
      have room := placed.1
      have multiple : 8 ∣ rtAlignDown size := Nat.dvd_mul_left 8 _
      simp only [List.mem_cons, List.not_mem_nil, or_false] at inside
      omega
    · rw [Function.update_of_ne (ne_of_mem_of_not_mem before fresh)] at base
      rw [(old other before).1]
      exact aligned before base

theorem Tracks.store {ptr offset : ℕ} {byte : BitVec 8} (tracks : run.Tracks) (member : ptr ∈ run.live)
    (inside : offset < (run.state.dataOf ptr).length) :
    Stepped run { run with state := { run.state with bytes := writeAt run.state.bytes (ptr + offset) [byte] } }
      (.store ptr offset byte) := by
  obtain ⟨heap, listed, item, data, rfl, live, -⟩ := tracks.owner member
  rw [tracks.layout.dataOf_eq listed live] at inside
  have fits : offset + [byte].length ≤ data.length := inside
  obtain ⟨change, items⟩ := tracks.layout.write listed live fits
  have put := tracks.put listed change
  rw [Finset.insert_eq_of_mem member] at put
  refine stepped_of_items put rfl (fun _ => rfl) (fun other member a data away isLive => ?_) change.items_eq
    fun _ aligned a inside => ?_
  · dsimp only
    rw [change.content_eq other member, if_neg, isLive]
    rintro ⟨-, rfl⟩
    exact away rfl
  · dsimp only at inside
    rw [items] at inside
    exact aligned a inside

theorem Tracks.call (tracks : run.Tracks) (event : MemheapEvent) (safe : ¬ event.GrowthWraps run) :
    ∃ run', run.call event = some run' ∧ Stepped run run' event := by
  cases event with
  | init memheap startAddr size =>
    rw [MemheapRun.call]
    split
    · rename_i fits
      exact ⟨_, rfl, tracks.init fits.1 fits.2.1 fits.2.2⟩
    · exact ⟨run, rfl, tracks.stay _⟩
  | alloc heap size =>
    rw [MemheapRun.call]
    split
    · rename_i listed
      exact tracks.alloc listed fun served least cut => ⟨rfl, least, served, cut⟩
    · exact ⟨run, rfl, tracks.stay _⟩
  | realloc heap ptr newsize =>
    rw [MemheapRun.call]
    split
    case isFalse => exact ⟨run, rfl, tracks.stay _⟩
    rename_i valid
    obtain ⟨listed, owns⟩ := valid
    have freed : newsize = 0 → run.state.rtMemheapRealloc heap ptr newsize =
        (run.state.rtMemheapFree ptr).map fun state => (state, none) := fun none => by
      rw [Memheaps.rtMemheapRealloc, if_pos none]
    rcases owns with rfl | ⟨member, owned⟩
    · split
      · rename_i none
        refine ⟨run, ?_, tracks.stay _⟩
        rw [freed none, Memheaps.rtMemheapFree, if_pos rfl, Option.map_some, Option.map_some,
          Finset.erase_eq_of_notMem tracks.zero_notMem]
      · rename_i nonzero
        rw [Memheaps.rtMemheapRealloc, if_neg nonzero]
        dsimp only
        rw [if_pos rfl]
        exact tracks.alloc listed fun _ least => absurd least (Memheaps.alignedSize_twice newsize)
    · obtain ⟨owner, listed', item, data, rfl, live, named⟩ := tracks.owner member
      rw [rtMemheapSize, Nat.add_sub_cancel, named] at owned
      subst owned
      split
      · rename_i none
        obtain ⟨state, call, stepped⟩ := tracks.free member
          (show MemheapEvent.argument (.realloc owner (item + 24) newsize) = item + 24 from rfl)
        rw [freed none, call]
        exact ⟨_, rfl, stepped⟩
      · rename_i nonzero
        refine tracks.realloc listed live nonzero fun wraps => safe ⟨member, nonzero, ?_⟩
        rw [rtMemheapSize, Nat.add_sub_cancel]
        exact wraps
  | free ptr =>
    rw [MemheapRun.call]
    split
    case isFalse => exact ⟨run, rfl, tracks.stay _⟩
    rename_i valid
    rcases valid with rfl | member
    · refine ⟨run, ?_, tracks.stay _⟩
      rw [Memheaps.rtMemheapFree, if_pos rfl, Option.map_some, Finset.erase_eq_of_notMem tracks.zero_notMem]
    · obtain ⟨state, call, stepped⟩ := tracks.free member (show MemheapEvent.argument (.free ptr) = ptr from rfl)
      rw [call]
      exact ⟨_, rfl, stepped⟩
  | store ptr offset byte =>
    rw [MemheapRun.call]
    split
    · rename_i valid
      exact ⟨_, rfl, tracks.store valid.1 valid.2⟩
    · exact ⟨run, rfl, tracks.stay _⟩

/-! ## Runs -/

theorem boot_tracks (s : Memheaps) : (boot s).Tracks :=
  ⟨⟨fun _ => nofun, fun _ => nofun⟩, fun _ member => absurd member (Finset.notMem_empty _),
    fun _ => iff_of_false (Finset.notMem_empty _) fun ⟨_, listed, _⟩ => nomatch listed⟩

theorem Tracks.wellFormed (tracks : run.Tracks) : run.WellFormed := by
  constructor
  · intro heap listed
    have sound := tracks.layout.sound heap listed
    have parts := sound.parts
    have used (a : ℕ) (here : a ∈ run.state.blockItems heap) := tracks.layout.isUsed_iff listed here
    refine ⟨parts.first, parts.last, parts.ordered, parts.ring, parts.freeRing, fun item => ?_, ?_, ?_⟩
    · constructor
      · intro isFree
        have here := (sound.free_mem isFree).1
        exact ⟨here, fun isUsed => (used item here).mp isUsed isFree⟩
      · rintro ⟨here, unused⟩
        by_contra isUsed
        exact unused ((used item here).mpr isUsed)
    · refine sound.coalesced.imp_of_mem_imp fun a b inA inB apart unused => (used b inB).mpr (apart ?_)
      by_contra isUsed
      exact unused ((used a inA).mpr isUsed)
    · rw [sound.counted, List.map_congr_left fun a isFree => tracks.layout.memitemSize_eq listed isFree]
  · exact fun item => (tracks.live item).trans
      (exists_congr fun heap => and_congr_right fun listed => tracks.layout.content_iff_used listed)

theorem step_of_call (call : run.call event = some run') : run.step event = run' := by
  rw [step, call, Option.getD_some]

theorem Stepped.others (stepped : Stepped run run' event) (tracks : run.Tracks) {ptr : ℕ} (member : ptr ∈ run.live)
    (away : ptr ≠ event.argument) : ptr ∈ run'.live ∧ run'.state.dataOf ptr = run.state.dataOf ptr := by
  obtain ⟨heap, listed, item, data, rfl, live, -⟩ := tracks.owner member
  have listed' := stepped.objects heap listed
  have live' := stepped.kept heap listed item data away live
  refine ⟨(stepped.tracks.live item).mpr ⟨heap, listed', data, live'⟩, ?_⟩
  rw [tracks.layout.dataOf_eq listed live, stepped.tracks.layout.dataOf_eq listed' live']

/-- `rt_memheap_realloc` keeps the bytes that both sizes have. -/
theorem Tracks.reallocKeeps {newsize : ℕ} (tracks : run.Tracks) (listed : heap ∈ run.state.objectList)
    (live : run.state.content heap item = some data) (nonzero : newsize ≠ 0) (small : newsize + 7 < 2 ^ 32)
    (safe : ¬ run.state.GrowthWraps item newsize) : run.ReallocKeeps heap (item + 24) newsize := by
  have isLive : item + 24 ∈ run.live := (tracks.live item).mpr ⟨heap, listed, data, live⟩
  have owns : run.Owns heap (item + 24) := by
    have here := (Memheaps.content_eq_some.mp live).1.1
    refine .inr ⟨isLive, ?_⟩
    rw [rtMemheapSize, Nat.add_sub_cancel]
    exact (tracks.layout.sound heap listed).parts.owned item here
  have large := Memheaps.le_alignedSize small
  have outcome := tracks.layout.realloc listed live nonzero safe
  have call : run.step (.realloc heap (item + 24) newsize) =
      ((run.state.rtMemheapRealloc heap (item + 24) newsize).map (run.answer (item + 24))).getD run := by
    rw [step, MemheapRun.call, if_pos ⟨listed, owns⟩, if_neg nonzero]
  rw [ReallocKeeps, call, tracks.layout.dataOf_eq listed live]
  revert outcome
  generalize run.state.rtMemheapRealloc heap (item + 24) newsize = result
  intro outcome
  cases outcome with
  | same enough =>
    dsimp only
    rw [tracks.layout.dataOf_eq listed live]
    exact ⟨Finset.mem_insert_self .., rfl⟩
  | failed short unserved noRoom =>
    dsimp only
    rw [tracks.layout.dataOf_eq listed live]
    exact ⟨isLive, rfl⟩
  | @resized s' data' change room long kept items =>
    dsimp only
    rw [change.layout.dataOf_eq (change.objects.symm ▸ listed) (change.content_self listed)]
    refine ⟨Finset.mem_insert_self .., ?_⟩
    have both := congrArg (List.take (min data.length newsize)) kept
    rw [List.take_take, List.take_take, Nat.min_eq_left (Nat.min_le_left ..),
      Nat.min_eq_left ((Nat.min_le_right ..).trans large)] at both
    exact both
  | @moved s₁ s' new data' first second fresh inside short long kept served noRoom items =>
    have ne : new ≠ item := by
      rintro rfl
      rw [fresh] at live
      cases live
    have listed₁ := first.objects.symm ▸ listed
    have live' : s'.content heap new = some data' := by
      rw [second.content_eq heap listed₁, if_neg fun both => ne both.2, first.content_self listed]
    dsimp only
    rw [second.layout.dataOf_eq (second.objects.symm ▸ listed₁) live']
    refine ⟨Finset.mem_insert_self .., ?_⟩
    have both := congrArg (List.take (min data.length newsize)) kept
    rw [List.take_take, Nat.min_eq_left (Nat.min_le_left ..)] at both
    exact both

theorem Tracks.isolated (tracks : run.Tracks) (small : event.Small) (safe : ¬ event.GrowthWraps run) :
    run.Isolated event := by
  obtain ⟨run', call, stepped⟩ := tracks.call event safe
  refine ⟨call ▸ rfl, fun ptr member away => ?_, ?_⟩
  · rw [step_of_call call]
    exact stepped.others tracks member away
  · rintro heap ptr newsize rfl listed notNull (null | ⟨member, owned⟩) nonzero
    · exact absurd null notNull
    · obtain ⟨owner, listed', item, data, rfl, live, named⟩ := tracks.owner member
      rw [rtMemheapSize, Nat.add_sub_cancel, named] at owned
      subst owned
      refine tracks.reallocKeeps listed' live nonzero small fun wraps => safe ⟨member, nonzero, ?_⟩
      rw [rtMemheapSize, Nat.add_sub_cancel]
      exact wraps

theorem Tracks.step (tracks : run.Tracks) (event : MemheapEvent) (safe : ¬ event.GrowthWraps run) :
    (run.step event).Tracks := by
  obtain ⟨run', call, stepped⟩ := tracks.call event safe
  rw [step_of_call call]
  exact stepped.tracks

/-- While no test for growing in place wraps, all heaps are well formed after every call, and a call changes its
own block only. -/
theorem heaps_wellFormed (s : Memheaps) (events : List MemheapEvent)
    (safe : Run.Along step (fun run event => event.Small ∧ ¬ event.GrowthWraps run) (boot s) events) :
    Run.Always step WellFormed (boot s) events ∧ Run.Along step Isolated (boot s) events := by
  have keeps (run : MemheapRun) (event : MemheapEvent) (tracks : run.Tracks)
      (fits : event.Small ∧ ¬ event.GrowthWraps run) : (run.step event).Tracks := tracks.step event fits.2
  constructor
  · exact safe.always keeps (fun _ tracks => tracks.wellFormed) (boot_tracks s)
  · exact safe.along keeps (fun _ _ tracks fits => tracks.isolated fits.1 fits.2) (boot_tracks s)

/-- Memory that is zero, without heaps. -/
def zeroed : Memheaps where
  bytes _ := 0
  heap _ :=
    { startAddr := 0, poolSize := 0, availableSize := 0, maxUsedSize := 0, blockList := 0, freeList := 0 }
  objectList := []

/-- A block of 16 bytes grows to 40 in place, and is released. -/
theorem heaps_wellFormed_growth :
    Run.Always step WellFormed (boot zeroed)
        [.init 0x100 0x1000 256, .alloc 0x100 16, .realloc 0x100 0x1018 40, .free 0x1018] ∧
      Run.Along step Isolated (boot zeroed)
        [.init 0x100 0x1000 256, .alloc 0x100 16, .realloc 0x100 0x1018 40, .free 0x1018] :=
  heaps_wellFormed zeroed _
    ⟨⟨trivial, id⟩, ⟨show 16 + 7 < 2 ^ 32 by decide, id⟩,
      ⟨show 40 + 7 < 2 ^ 32 by decide, fun wraps => absurd wraps.2.2.1 (by decide)⟩, ⟨trivial, id⟩, trivial⟩

/-- The same block is to grow to nearly 2^32 bytes: the sum with `RT_MEMHEAP_MINIALLOC` is 4, the item behind is
taken, and the next header is written into the block. -/
theorem growth_not_wellFormed :
    ¬ ∀ (s : Memheaps) (events : List MemheapEvent), (∀ event ∈ events, event.Small) →
      Run.Always step WellFormed (boot s) events ∧ Run.Along step Isolated (boot s) events := by
  intro all
  have small : ∀ event ∈ [MemheapEvent.init 0x100 0x1000 256, .alloc 0x100 16, .realloc 0x100 0x1018 0xfffffff8],
      event.Small := by simp [MemheapEvent.Small]
  have last := (all zeroed _ small).1.last
  have ordered := (last.heaps 0x100 (by decide +kernel)).ordered
  revert ordered
  decide +kernel

end MemheapRun

end RtThread
