import ShdslBridge.Kernel.HeapRuns

/-! # When the heap finds a free block

`lfree` is the lowest free block in every state of a run exactly when no `rt_realloc` cuts a hole
off a block in front of `lfree` whose next block is used: that path calls `plug_holes` but does not
lower `lfree`. And where `lfree` is right, `rt_malloc` misses one kind of block only, because its
loop stops in front of `mem_size_aligned - size`: the last block of the heap, when it is the only one
that fits and has exactly the rounded size.
-/

namespace RtThread

open LittleEndian Memory

namespace Heap

/-- `lfree` is the lowest free block, or `heap_end` when there is none. -/
def LowestFree (heap : Heap) : Prop :=
  (heap.lfree = heap.heapEnd ∨ heap.lfree ∈ heap.chain ∧ heap.used heap.lfree = 0) ∧
    ∀ mem ∈ heap.chain, heap.used mem = 0 → heap.lfree ≤ mem

def dataSize (heap : Heap) (mem : ℕ) : ℕ := heap.next mem - (mem + sizeofStructMem)

/-- `rt_malloc` returns a null pointer only if no free block has a data area of the rounded size. -/
def Complete (heap : Heap) (size : ℕ) : Prop :=
  0 < size → ∀ other, rtMalloc heap size = some (other, none) →
    ∀ mem ∈ heap.chain, heap.used mem = 0 → heap.dataSize mem < roundedSize size

/-- The only free block that is large enough is the last block of the heap, and it has exactly the
rounded size. -/
def OnlyLastFits (heap : Heap) (size : ℕ) : Prop :=
  0 < size ∧ rtAlign size ≤ heap.memSizeAligned ∧
    ∃ mem ∈ heap.chain, heap.used mem = 0 ∧ heap.next mem = heap.heapEnd ∧
      heap.dataSize mem = roundedSize size ∧
      ∀ other ∈ heap.chain, heap.used other = 0 → roundedSize size ≤ heap.dataSize other → other = mem

end Heap

variable {heap : Heap} {blocks : List Block}

theorem Chain.mem_free {prev off mem : ℕ} (chain : Chain heap prev off blocks) (endUsed : heap.used heap.heapEnd = 1) :
    mem ∈ offsets off blocks ++ [heap.heapEnd] ∧ heap.used mem = 0 ↔ mem ∈ freeOffsets off blocks := by
  induction blocks generalizing prev off with
  | nil =>
    simp only [offsets, freeOffsets, List.nil_append, List.mem_singleton, List.not_mem_nil, iff_false]
    rintro ⟨rfl, free⟩
    omega
  | cons block rest ih =>
    obtain ⟨stored, tail⟩ := chain
    have later := ih tail
    have used := stored.used
    rw [offsets, List.cons_append, List.mem_cons]
    cases block with
    | free span =>
      simp only [Block.span] at later ⊢
      rw [freeOffsets, List.mem_cons, ← later, or_and_right]
      refine or_congr_left ⟨fun both => both.1, ?_⟩
      rintro rfl
      exact ⟨rfl, used⟩
    | used content =>
      simp only [Block.span] at later ⊢
      rw [freeOffsets, Nat.add_assoc, ← later, or_and_right]
      refine or_iff_right ?_
      rintro ⟨rfl, free⟩
      rw [used] at free
      cases free

theorem Represents.mem_free (inv : Represents heap blocks) {mem : ℕ} :
    mem ∈ heap.chain ∧ heap.used mem = 0 ↔ mem ∈ freeOffsets 0 blocks := by
  rw [inv.chain_eq]
  exact inv.chain.mem_free inv.endUsed

theorem Represents.lowestFree_iff (inv : Represents heap blocks) : heap.LowestFree ↔ Lowest heap blocks := by
  constructor
  · intro lowest mem member
    obtain ⟨reached, free⟩ := inv.mem_free.mpr member
    exact lowest.2 mem reached free
  · intro lowest
    refine ⟨?_, fun mem reached free => lowest mem (inv.mem_free.mp ⟨reached, free⟩)⟩
    exact inv.lfree.symm.imp_right inv.mem_free.mpr

theorem Represents.fits {mem size : ℕ} (inv : Represents heap blocks) (member : mem ∈ freeOffsets 0 blocks) :
    ∃ left span right, blocks = left ++ .free span :: right ∧ mem = extent left ∧ 16 ≤ span ∧
      heap.next mem = mem + span ∧ mem + span ≤ heap.heapEnd ∧
      (size ≤ heap.dataSize mem ↔ size + 16 ≤ span) := by
  obtain ⟨left, span, right, rfl, rfl⟩ := mem_freeOffsets.mp member
  have ⟨stored, _, _, wide, total, _, _, _, _, _, _⟩ := inv.found
  have next : heap.next (extent left) = extent left + span := stored.next
  rw [Nat.zero_add]
  refine ⟨left, span, right, rfl, rfl, wide, next, by omega, ?_⟩
  rw [Heap.dataSize, next, sizeofStructMem]
  omega

theorem searchBound {size : ℕ} (fits : size ≤ heap.memSizeAligned) (bound : heap.memSizeAligned < 2 ^ 32) :
    sub32 heap.memSizeAligned size = heap.memSizeAligned - size :=
  sub32_of_le fits bound

theorem Layout.search_ends {size : ℕ} (inv : Layout heap blocks) (fits : size ≤ heap.memSizeAligned) :
    ∃ result, findFit heap size (heap.heapEnd + 1) heap.lfree = some result := by
  have total : heap.heapEnd = heap.memSizeAligned + 16 := inv.size
  have bound : heap.heapPtr + heap.heapEnd + 16 ≤ 2 ^ 32 := inv.bound
  have stop := searchBound fits (by omega)
  obtain ⟨left, right, split, place⟩ := inv.lfree_split
  have chain := inv.chain
  have whole := inv.total
  rw [split] at chain whole
  have ⟨_, tail⟩ := (chain_append heap 0 0 left right).mp chain
  have few := tail.length_le
  rw [extent_append] at whole
  rw [place]
  rw [Nat.zero_add] at tail
  exact Option.isSome_iff_exists.mp (findFit_isSome tail whole (by omega) (by omega))

/-- What the search finds is a free block from `lfree` on, in front of the bound. -/
theorem Layout.search_some {size mem : ℕ} (inv : Layout heap blocks)
    (found : findFit heap size (heap.heapEnd + 1) heap.lfree = some (some mem)) :
    mem ∈ freeOffsets 0 blocks ∧ heap.lfree ≤ mem ∧ size ≤ heap.dataSize mem ∧ mem + size < heap.memSizeAligned := by
  have total : heap.heapEnd = heap.memSizeAligned + 16 := inv.size
  have bound : heap.heapPtr + heap.heapEnd + 16 ≤ 2 ^ 32 := inv.bound
  obtain ⟨before, _, rfl, first, between, span, behind, rfl, rfl, enough, inside⟩ := inv.search found
  have member : extent before + extent between ∈
      freeOffsets 0 (before ++ (between ++ .free span :: behind)) := by
    refine mem_freeOffsets.mpr ⟨before ++ between, span, behind, (List.append_assoc ..).symm, ?_⟩
    rw [extent_append, Nat.zero_add]
  rw [← List.append_assoc] at member inv
  rw [← extent_append] at member inside ⊢
  have place := inv.found
  have next : heap.next (extent (before ++ between)) = extent (before ++ between) + span := place.stored.next
  have room := place.total
  have ahead : heap.lfree ≤ extent (before ++ between) := by
    rw [first, extent_append]
    exact Nat.le_add_right _ _
  rw [sizeofStructMem] at enough
  rw [searchBound (by omega) (by omega)] at inside
  refine ⟨by rwa [List.append_assoc] at member, ahead, ?_, by omega⟩
  rw [Heap.dataSize, next, sizeofStructMem]
  omega

/-- A search in vain: every block from `lfree` on that fits starts at the bound or behind it. -/
theorem Layout.search_none {size mem : ℕ} (inv : Layout heap blocks) (above : heap.lfree ≤ mem)
    (fits : size ≤ heap.memSizeAligned) (found : findFit heap size (heap.heapEnd + 1) heap.lfree = some none)
    (member : mem ∈ freeOffsets 0 blocks) (enough : size ≤ heap.dataSize mem) : heap.memSizeAligned - size ≤ mem := by
  have total : heap.heapEnd = heap.memSizeAligned + 16 := inv.size
  have bound : heap.heapPtr + heap.heapEnd + 16 ≤ 2 ^ 32 := inv.bound
  have stop := searchBound fits (by omega)
  have room (span : ℕ) (next : heap.next mem = mem + span) (wide : 16 ≤ span) : size + 16 ≤ span := by
    rw [Heap.dataSize, next, sizeofStructMem] at enough
    omega
  obtain ⟨before, rest, rfl, place, missed⟩ := inv.search found
  obtain ⟨front, tail⟩ := (chain_append heap 0 0 before rest).mp inv.chain
  rw [freeOffsets_append, List.mem_append, Nat.zero_add] at member
  rw [Nat.zero_add] at tail
  rcases member with early | late
  · have bounds := front.mem_freeOffsets_bounds early
    rw [sizeofStructMem] at bounds
    omega
  · obtain ⟨left, span, right, rfl, rfl⟩ := mem_freeOffsets.mp late
    have stored := ((chain_append heap _ _ left _).mp tail).2.1
    rw [← stop]
    exact missed left span right rfl (room span stored.next stored.wide)

/-- With the right `lfree`, the last block of exactly the rounded size is the only one missed. -/
theorem Layout.complete_iff {size : ℕ} (inv : Layout heap blocks) (lowest : Lowest heap blocks) :
    heap.Complete size ↔ ¬ heap.OnlyLastFits size := by
  have total : heap.heapEnd = heap.memSizeAligned + 16 := inv.size
  have bound : heap.heapPtr + heap.heapEnd + 16 ≤ 2 ^ 32 := inv.bound
  have rounded := (roundedSize_facts size).2
  constructor
  · rintro complete ⟨positive, fits, mem, reached, free, atEnd, exact_, only⟩
    have member := inv.mem_free.mp ⟨reached, free⟩
    obtain ⟨_, span, _, _, _, _, next, _, large⟩ := @Represents.fits _ _ _ (roundedSize size) inv.toRepresents member
    have span_ := large.mp exact_.ge
    obtain ⟨result, found⟩ := inv.search_ends (show roundedSize size ≤ heap.memSizeAligned by omega)
    have nothing : result = none := by
      cases result with
      | none => rfl
      | some other =>
        obtain ⟨place, -, enough, inside⟩ := inv.search_some found
        obtain ⟨there, empty⟩ := inv.mem_free.mpr place
        have same := only other there empty enough
        rw [Heap.dataSize, sizeofStructMem] at exact_
        omega
    have returned : rtMalloc heap size = some (heap, none) := by
      rw [rtMalloc, if_neg (by omega), if_neg (by omega), found, nothing]
    have missed := complete positive heap returned mem reached free
    omega
  · intro notOnly positive other call mem reached free
    by_contra large
    have enough : roundedSize size ≤ heap.dataSize mem := by omega
    have atLeast := rtAlign_le_roundedSize size
    have place (block : ℕ) (there : block ∈ heap.chain) (empty : heap.used block = 0)
        (fit : roundedSize size ≤ heap.dataSize block) :
        roundedSize size ≤ heap.memSizeAligned ∧ block ≤ heap.memSizeAligned - roundedSize size := by
      obtain ⟨_, span, _, _, _, _, _, inside, wide⟩ :=
        @Represents.fits _ _ _ (roundedSize size) inv.toRepresents (inv.mem_free.mp ⟨there, empty⟩)
      have room := wide.mp fit
      omega
    obtain ⟨_, reason⟩ := rtMalloc_null call
    rcases reason with zero | tooLarge | found
    · omega
    · have inside := place mem reached free enough
      omega
    · have behind (block : ℕ) (there : block ∈ heap.chain) (empty : heap.used block = 0)
          (fit : roundedSize size ≤ heap.dataSize block) :
          block = heap.memSizeAligned - roundedSize size := by
        obtain ⟨room, low⟩ := place block there empty fit
        have high := inv.search_none (lowest block (inv.mem_free.mp ⟨there, empty⟩)) room found
          (inv.mem_free.mp ⟨there, empty⟩) fit
        omega
      obtain ⟨_, span, _, _, _, _, next, inside, wide⟩ :=
        @Represents.fits _ _ _ (roundedSize size) inv.toRepresents (inv.mem_free.mp ⟨reached, free⟩)
      have room := wide.mp enough
      have here := behind mem reached free enough
      have fits := (place mem reached free enough).1
      refine notOnly ⟨positive, by omega, mem, reached, free, by omega, ?_, fun other there empty fit => ?_⟩
      · rw [Heap.dataSize, next, sizeofStructMem]
        omega
      · rw [behind other there empty fit, here]

/-- The states with the invariant in which `lfree` is right. -/
def Ordered (run : HeapRun) : Prop := ∃ blocks, Tracks run blocks ∧ Lowest run.heap blocks

theorem Tracks.lowestFree_iff {run : HeapRun} (tracks : Tracks run blocks) :
    run.heap.LowestFree ↔ Lowest run.heap blocks :=
  tracks.layout.toRepresents.lowestFree_iff

/-- `lfree` is the lowest free block in every state of a run, and `rt_malloc` finds a block for the
size asked for at its end if there is one, exactly when no step makes a hole in front of `lfree` and
the size is not that of the last block as the only one that fits. -/
theorem heap_complete_iff (content : ℕ → BitVec 8) (beginAddr endAddr : ℕ) {heap : Heap}
    (init : rtSystemHeapInit content beginAddr endAddr = some heap) (events : List HeapEvent) (size : ℕ) :
    Run.Always HeapRun.step (fun run => run.heap.LowestFree) (.boot heap) events ∧
        (Run.exec HeapRun.step (.boot heap) events).heap.Complete size ↔
      Run.Along HeapRun.step (fun run event => ¬ event.ShrinksBelow run) (.boot heap) events ∧
        ¬ (Run.exec HeapRun.step (.boot heap) events).heap.OnlyLastFits size := by
  have start : Ordered (.boot heap) := ⟨_, boot_tracks init, (rtSystemHeapInit_layout init).2⟩
  have keeps (run : HeapRun) (event : HeapEvent) (holds : Ordered run) (above : ¬ event.ShrinksBelow run) :
      Ordered (run.step event) := by
    obtain ⟨blocks, tracks, lowest⟩ := holds
    obtain ⟨others, stepped⟩ := tracks.step event
    exact ⟨others, stepped.kept.tracks, (stepped.lowest lowest).mpr above⟩
  have always : Run.Always HeapRun.step (fun run => run.heap.LowestFree) (.boot heap) events ↔
      Run.Along HeapRun.step (fun run event => ¬ event.ShrinksBelow run) (.boot heap) events := by
    refine Run.always_iff_along keeps ?_ ?_ start events
    · rintro run ⟨blocks, tracks, lowest⟩
      exact tracks.lowestFree_iff.mpr lowest
    · rintro run event ⟨blocks, tracks, lowest⟩ below still
      obtain ⟨others, stepped⟩ := tracks.step event
      exact below ((stepped.lowest lowest).mp (stepped.kept.tracks.lowestFree_iff.mp still))
  rw [always]
  refine and_congr_right fun along => ?_
  obtain ⟨blocks, tracks, lowest⟩ := along.invariant keeps start
  exact tracks.layout.complete_iff lowest

/-- A heap of 112 bytes. -/
def smallHeap : Heap := (rtSystemHeapInit (fun _ => 0) 8 120).get rfl

def shrinkBelowLfree : List HeapEvent := [.malloc 40, .malloc 16, .realloc (some 16) 8]

/-- The hole at 24 is free and `lfree` points to the end of the heap; and on the fresh heap a block
of all its 80 bytes is not found. -/
theorem shrinkBelowLfree_not_lowest :
    ¬ (Run.exec HeapRun.step (.boot smallHeap) shrinkBelowLfree).heap.LowestFree ∧
      ¬ smallHeap.Complete 80 := by
  constructor
  · rintro ⟨_, lowest⟩
    exact absurd (lowest 24 (by decide +kernel) (by decide +kernel)) (by decide +kernel)
  · intro complete
    exact absurd (complete (by decide) smallHeap (by rfl) 0 (by decide +kernel) (by decide +kernel)) (by decide +kernel)

/-- The theorem at work on one call. -/
theorem heap_complete_iff_oneCall :
    Run.Always HeapRun.step (fun run => run.heap.LowestFree) (.boot smallHeap) [.malloc 8] ∧
        (Run.exec HeapRun.step (.boot smallHeap) [.malloc 8]).heap.Complete 8 ↔
      Run.Along HeapRun.step (fun run event => ¬ event.ShrinksBelow run) (.boot smallHeap) [.malloc 8] ∧
        ¬ (Run.exec HeapRun.step (.boot smallHeap) [.malloc 8]).heap.OnlyLastFits 8 :=
  heap_complete_iff (fun _ => 0) 8 120 (Option.some_get _).symm _ 8

end RtThread
