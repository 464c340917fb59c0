import ShdslBridge.Kernel.HeapCompleteness

/-! # The sizes that `rt_malloc` and `rt_calloc` are asked for

Rounding a size up and multiplying a count with a size wrap around. A block that is returned for a request
of the last seven sizes, or for a product beyond 32 bits, is shorter than the request: the heap itself is.
So a request is served as it should be exactly when it is at most `2 ^ 32 - 8`, or when no free block is
found for what is left of it.
-/

namespace RtThread

open LittleEndian Memory

namespace Heap

/-- The block that `rt_malloc` returns has the size asked for. -/
def MallocFits (heap : Heap) (size : ℕ) : Prop :=
  ∀ other rmem, rtMalloc heap size = some (other, some rmem) → size ≤ (other.dataOf rmem).length

/-- The block that `rt_calloc` returns has the size asked for. -/
def CallocFits (heap : Heap) (count size : ℕ) : Prop :=
  ∀ other rmem, rtCalloc heap count size = some (other, some rmem) → count * size ≤ (other.dataOf rmem).length

/-- From `lfree` on, a free block is large enough and starts in front of the bound of the search. -/
def Serves (heap : Heap) (size : ℕ) : Prop :=
  0 < size ∧ ∃ mem ∈ heap.chain, heap.used mem = 0 ∧ heap.lfree ≤ mem ∧ roundedSize size ≤ heap.dataSize mem ∧
    mem + roundedSize size < heap.memSizeAligned

/-- The request is not rounded to a smaller one, or it is not served. -/
def Unwrapped (heap : Heap) (request : ℕ) : Prop := request + 7 < 2 ^ 32 ∨ ¬ heap.Serves (word32 request)

end Heap

section Malloc

variable {heap other : Heap} {blocks : List Block} {size rmem : ℕ}

theorem Layout.serves (inv : Layout heap blocks) (call : rtMalloc heap size = some (other, some rmem)) :
    heap.Serves size := by
  rw [rtMalloc] at call
  split at call
  next => cases call
  next some =>
    split at call
    next => cases call
    next =>
      split at call
      next => cases call
      next => cases call
      next mem found =>
        obtain ⟨member, ahead, enough, inside⟩ := inv.search_some found
        obtain ⟨reached, free⟩ := inv.mem_free.mpr member
        exact ⟨Nat.pos_of_ne_zero some, mem, reached, free, ahead, enough, inside⟩

theorem Layout.rtMalloc_of_serves (inv : Layout heap blocks) (serves : heap.Serves size) :
    ∃ other rmem, rtMalloc heap size = some (other, some rmem) := by
  obtain ⟨positive, mem, reached, free, ahead, enough, inside⟩ := serves
  have atLeast := rtAlign_le_roundedSize size
  obtain ⟨result, found⟩ := inv.search_ends (show roundedSize size ≤ heap.memSizeAligned by omega)
  cases result with
  | none =>
    have late := inv.search_none ahead (by omega) found (inv.mem_free.mp ⟨reached, free⟩) enough
    omega
  | some block =>
    obtain ⟨member, -, room, -⟩ := inv.search_some found
    obtain ⟨left, span, right, rfl, rfl, -, -, -, large⟩ :=
      @Represents.fits _ _ _ (roundedSize size) inv.toRepresents member
    have ends := advanceLfree_isSome inv.toRepresents (roundedSize_facts size).1 (large.mp room)
    obtain ⟨other, advanced⟩ := Option.isSome_iff_exists.mp ends
    refine ⟨other, extent left + sizeofStructMem, ?_⟩
    rw [rtMalloc, if_neg (by omega), if_neg (by omega), found]
    dsimp only
    rw [advanced]
    rfl

theorem Layout.returned (inv : Layout heap blocks) (call : rtMalloc heap size = some (other, some rmem)) :
    sizeofStructMem ≤ rmem ∧ roundedSize size ≤ (other.dataOf rmem).length ∧
      (other.dataOf rmem).length + 7 < 2 ^ 32 := by
  obtain ⟨others, data, turns, -, enough, -⟩ := rtMalloc_turns inv call
  have placed : contentAt 0 others rmem = some data := by
    rw [turns.content, Function.update_self]
  obtain ⟨above, below⟩ := contentAt_bounds placed
  have total := turns.layout.total
  have bound := turns.layout.bound
  rw [sizeofStructMem] at bound
  rw [turns.layout.toRepresents.dataOf placed]
  exact ⟨by omega, enough, by omega⟩

/-- A request whose size is kept in a word is served with a large enough block exactly if it is not wrapped. -/
theorem Layout.unwrapped_iff (inv : Layout heap blocks) (request : ℕ) :
    (∀ other rmem, rtMalloc heap (word32 request) = some (other, some rmem) → request ≤ (other.dataOf rmem).length) ↔
      heap.Unwrapped request := by
  constructor
  · intro fits
    by_contra wrapped
    obtain ⟨large, serves⟩ := not_or.mp wrapped
    obtain ⟨other, rmem, call⟩ := inv.rtMalloc_of_serves (not_not.mp serves)
    have long := fits other rmem call
    have short := (inv.returned call).2.2
    omega
  · rintro (small | unserved) other rmem call
    · obtain ⟨-, enough, -⟩ := inv.returned call
      rw [word32_of_lt (by omega)] at enough
      exact (le_rtAlign small).trans ((rtAlign_le_roundedSize request).trans enough)
    · exact absurd (inv.serves call) unserved

theorem Layout.mallocFits_iff (inv : Layout heap blocks) (word : size < 2 ^ 32) :
    heap.MallocFits size ↔ heap.Unwrapped size := by
  have same := inv.unwrapped_iff size
  rwa [word32_of_lt word] at same

theorem dataOf_overwrite (heap : Heap) (cells : List (BitVec 8)) (above : sizeofStructMem ≤ rmem) :
    ((heap.overwrite rmem cells).dataOf rmem).length = (heap.dataOf rmem).length := by
  have next : (heap.overwrite rmem cells).next (rmem - sizeofStructMem) = heap.next (rmem - sizeofStructMem) := by
    refine readNat_congr fun i _ inside => writeAt_outside _ _ _ (.inl ?_)
    simp only [sizeofStructMem] at above inside
    omega
  rw [Heap.dataOf, Heap.dataOf, next, readAt_length, readAt_length]

theorem Layout.callocFits_iff (inv : Layout heap blocks) (count size : ℕ) :
    heap.CallocFits count size ↔ heap.Unwrapped (count * size) := by
  rw [← inv.unwrapped_iff]
  constructor
  · intro fits other rmem call
    have ran : rtCalloc heap count size =
        some (other.overwrite rmem (List.replicate (word32 (count * size)) 0), some rmem) := by
      rw [rtCalloc, call]
      rfl
    rw [← dataOf_overwrite other _ (inv.returned call).1]
    exact fits _ _ ran
  · intro fits other rmem ran
    obtain ⟨⟨middle, p⟩, call, returned⟩ := Option.map_eq_some_iff.mp ran
    cases p with
    | none => cases returned
    | some p =>
      cases returned
      rw [dataOf_overwrite middle _ (inv.returned call).1]
      exact fits _ _ call

end Malloc

/-- In every state of a run, `rt_malloc` and `rt_calloc` return large enough blocks exactly for the requests
that are not wrapped. -/
theorem heap_sizes_iff (content : ℕ → BitVec 8) (beginAddr endAddr : ℕ) {heap : Heap}
    (init : rtSystemHeapInit content beginAddr endAddr = some heap) (events : List HeapEvent) (count size : ℕ)
    (word : size < 2 ^ 32) :
    ((Run.exec HeapRun.step (.boot heap) events).heap.MallocFits size ↔
        (Run.exec HeapRun.step (.boot heap) events).heap.Unwrapped size) ∧
      ((Run.exec HeapRun.step (.boot heap) events).heap.CallocFits count size ↔
        (Run.exec HeapRun.step (.boot heap) events).heap.Unwrapped (count * size)) := by
  have keeps (run : HeapRun) (event : HeapEvent) (holds : ∃ blocks, Tracks run blocks) :
      ∃ blocks, Tracks (run.step event) blocks := by
    obtain ⟨blocks, tracks⟩ := holds
    obtain ⟨others, stepped⟩ := tracks.step event
    exact ⟨others, stepped.kept.tracks⟩
  obtain ⟨blocks, tracks⟩ := (Run.always_of_invariant keeps (fun _ holds => holds) ⟨_, boot_tracks init⟩ events).last
  exact ⟨tracks.layout.mallocFits_iff word, tracks.layout.callocFits_iff count size⟩

/-- The theorem at work on a small heap with one block in use. -/
theorem heap_sizes_iff_smallHeap :
    ((Run.exec HeapRun.step (.boot smallHeap) [.malloc 8]).heap.MallocFits 20 ↔
        (Run.exec HeapRun.step (.boot smallHeap) [.malloc 8]).heap.Unwrapped 20) ∧
      ((Run.exec HeapRun.step (.boot smallHeap) [.malloc 8]).heap.CallocFits 2 20 ↔
        (Run.exec HeapRun.step (.boot smallHeap) [.malloc 8]).heap.Unwrapped (2 * 20)) :=
  heap_sizes_iff (fun _ => 0) 8 120 (Option.some_get _).symm _ 2 20 (by decide)

/-- A request for all but the last byte of the address space, and one for 2147483652 pairs, get blocks of
sixteen bytes. -/
theorem smallHeap_wraps : ¬ smallHeap.MallocFits 0xffffffff ∧ ¬ smallHeap.CallocFits 0x80000004 2 := by
  have short : ((rtMalloc smallHeap 0xffffffff).map fun call => (call.2, (call.1.dataOf 16).length)) =
      some (some 16, 16) ∧
      ((rtCalloc smallHeap 0x80000004 2).map fun call => (call.2, (call.1.dataOf 16).length)) = some (some 16, 16) := by
    decide +kernel
  obtain ⟨malloc, calloc⟩ := short
  constructor
  · intro fits
    obtain ⟨⟨other, p⟩, call, result⟩ := Option.map_eq_some_iff.mp malloc
    obtain ⟨rfl, length⟩ : p = some 16 ∧ (other.dataOf 16).length = 16 := Prod.mk.inj result
    exact absurd (fits other 16 call) (by omega)
  · intro fits
    obtain ⟨⟨other, p⟩, call, result⟩ := Option.map_eq_some_iff.mp calloc
    obtain ⟨rfl, length⟩ : p = some 16 ∧ (other.dataOf 16).length = 16 := Prod.mk.inj result
    exact absurd (fits other 16 call) (by omega)

end RtThread
