import ShdslBridge.Lib.LittleEndian

/-! # The system heap

One stretch of memory is cut into blocks, each behind a `struct heap_mem` of sixteen bytes with the
offsets of its neighbours. A pointer into the heap is its offset from `heap_ptr`, and a null pointer
is `none`; an address below `heap_ptr` has no offset, so of the range checks of the source only the
one against `heap_end` remains. Sizes and offsets are 32-bit words: the subtractions that the source
relies on wrap around.

The two loops carry fuel. A call that runs out of it is `none`: the source stays in the loop for
ever, with `heap_sem` taken.
-/

namespace RtThread

open LittleEndian Memory

/-- `SIZEOF_STRUCT_MEM`. -/
def sizeofStructMem : ℕ := 16

/-- `MIN_SIZE`. -/
def minSize : ℕ := 12

/-- `MIN_SIZE_ALIGNED`. -/
def minSizeAligned : ℕ := 16

/-- `HEAP_MAGIC`. -/
def heapMagic : ℕ := 0x1ea0

/-- A sum as the machine keeps it. -/
def word32 (number : ℕ) : ℕ := number % 2 ^ 32

/-- The difference of two words. -/
def sub32 (left right : ℕ) : ℕ := word32 (left + 2 ^ 32 - right)

/-- `RT_ALIGN(size, RT_ALIGN_SIZE)`. -/
def rtAlign (size : ℕ) : ℕ := word32 (size + 7) / 8 * 8

/-- `RT_ALIGN_DOWN(size, RT_ALIGN_SIZE)`. -/
def rtAlignDown (size : ℕ) : ℕ := word32 size / 8 * 8

/-- The static variables of the heap; `bytes i` is `heap_ptr[i]`. -/
structure Heap where
  heapPtr : ℕ
  bytes : ℕ → BitVec 8
  heapEnd : ℕ
  lfree : ℕ
  memSizeAligned : ℕ
  usedMem : ℕ
  maxMem : ℕ

namespace Heap

/-- Reads a field of `len` bytes. -/
def load (heap : Heap) (address len : ℕ) : ℕ := readNat heap.bytes address len

/-- Writes a field of `len` bytes. -/
def store (heap : Heap) (address len number : ℕ) : Heap :=
  { heap with bytes := writeNat heap.bytes address len number }

/-- `mem->magic`. -/
def magic (heap : Heap) (mem : ℕ) : ℕ := heap.load mem 2

/-- `mem->used`. -/
def used (heap : Heap) (mem : ℕ) : ℕ := heap.load (mem + 2) 2

/-- `mem->next`. -/
def next (heap : Heap) (mem : ℕ) : ℕ := heap.load (mem + 4) 4

/-- `mem->prev`. -/
def prev (heap : Heap) (mem : ℕ) : ℕ := heap.load (mem + 8) 4

/-- `mem->magic = number`. -/
def setMagic (heap : Heap) (mem number : ℕ) : Heap := heap.store mem 2 number

/-- `mem->used = number`. -/
def setUsed (heap : Heap) (mem number : ℕ) : Heap := heap.store (mem + 2) 2 number

/-- `mem->next = number`. -/
def setNext (heap : Heap) (mem number : ℕ) : Heap := heap.store (mem + 4) 4 number

/-- `mem->prev = number`. -/
def setPrev (heap : Heap) (mem number : ℕ) : Heap := heap.store (mem + 8) 4 number

/-- `used_mem += amount`, and `max_mem` follows. -/
def addUsed (heap : Heap) (amount : ℕ) : Heap :=
  let usedMem := word32 (heap.usedMem + amount)
  { heap with usedMem, maxMem := if heap.maxMem < usedMem then usedMem else heap.maxMem }

/-- `used_mem -= amount`. -/
def subUsed (heap : Heap) (amount : ℕ) : Heap :=
  { heap with usedMem := sub32 heap.usedMem amount }

/-- The start and the end of the heap, as `rt_system_heap_init` writes them. -/
def initHeaders (heap : Heap) : Heap :=
  let heapEnd := heap.heapEnd
  let heap := (((heap.setMagic 0 heapMagic).setNext 0 heapEnd).setPrev 0 0).setUsed 0 0
  (((heap.setMagic heapEnd heapMagic).setUsed heapEnd 1).setNext heapEnd heapEnd).setPrev heapEnd heapEnd

/-- Bytes are copied into the heap, by `rt_memcpy` or by the owner of a block. -/
def overwrite (heap : Heap) (address : ℕ) (cells : List (BitVec 8)) : Heap :=
  { heap with bytes := writeAt heap.bytes address cells }

/-- Either half of `plug_holes`: `mem` takes over `nmem`, the block behind it. -/
def combine (heap : Heap) (mem nmem : ℕ) : Heap :=
  let heap := if heap.lfree = nmem then { heap with lfree := mem } else heap
  let heap := heap.setNext mem (heap.next nmem)
  heap.setPrev (heap.next nmem) mem

/-- The unused block `mem2` is inserted between `mem` and `mem->next`, in `rt_malloc` and in
`rt_realloc`. -/
def insertBlock (heap : Heap) (mem mem2 : ℕ) : Heap :=
  let heap := heap.setUsed mem2 0
  let heap := heap.setNext mem2 (heap.next mem)
  let heap := heap.setPrev mem2 mem
  let heap := heap.setNext mem mem2
  if heap.next mem2 ≠ word32 (heap.memSizeAligned + sizeofStructMem) then
    heap.setPrev (heap.next mem2) mem2
  else heap

end Heap

/-- The first half of `plug_holes`. -/
def plugForward (heap : Heap) (mem : ℕ) : Heap :=
  let nmem := heap.next mem
  if mem ≠ nmem ∧ heap.used nmem = 0 ∧ nmem ≠ heap.heapEnd then heap.combine mem nmem else heap

/-- The second half of `plug_holes`. -/
def plugBackward (heap : Heap) (mem : ℕ) : Heap :=
  let pmem := heap.prev mem
  if pmem ≠ mem ∧ heap.used pmem = 0 then heap.combine pmem mem else heap

/-- `plug_holes`. -/
def plugHoles (heap : Heap) (mem : ℕ) : Heap :=
  plugBackward (plugForward heap mem) mem

/-- `rt_system_heap_init`, on memory with any content; `none` when the stretch is too small. -/
def rtSystemHeapInit (content : ℕ → BitVec 8) (beginAddr endAddr : ℕ) : Option Heap :=
  let beginAlign := rtAlign beginAddr
  let endAlign := rtAlignDown endAddr
  if 2 * sizeofStructMem < endAlign ∧ beginAlign ≤ endAlign - 2 * sizeofStructMem then
    let memSizeAligned := endAlign - beginAlign - 2 * sizeofStructMem
    let heapEnd := memSizeAligned + sizeofStructMem
    let heap : Heap :=
      { heapPtr := beginAlign, bytes := fun i => content (beginAlign + i), heapEnd, lfree := 0, memSizeAligned,
        usedMem := 0, maxMem := 0 }
    some heap.initHeaders
  else none

/-- The `for` loop of `rt_malloc` from `ptr` on: the block that is large enough, or `none` at the
bound. -/
def findFit (heap : Heap) (size : ℕ) : ℕ → ℕ → Option (Option ℕ)
  | 0, _ => none
  | fuel + 1, ptr =>
    if ptr < sub32 heap.memSizeAligned size then
      if heap.used ptr = 0 ∧ size ≤ sub32 (heap.next ptr) (ptr + sizeofStructMem) then some (some ptr)
      else findFit heap size fuel (heap.next ptr)
    else some none

/-- The `while` loop of `rt_malloc` that moves `lfree` to the next free block. -/
def nextFree (heap : Heap) : ℕ → ℕ → Option ℕ
  | 0, _ => none
  | fuel + 1, lfree =>
    if heap.used lfree ≠ 0 ∧ lfree ≠ heap.heapEnd then nextFree heap fuel (heap.next lfree) else some lfree

/-- The block `mem` that `rt_malloc` has found becomes a used one of `size` bytes; a large rest of
it is split off. -/
def takeBlock (heap : Heap) (mem size : ℕ) : Heap :=
  let heap :=
    if size + sizeofStructMem + minSizeAligned ≤ sub32 (heap.next mem) (mem + sizeofStructMem) then
      ((heap.insertBlock mem (mem + sizeofStructMem + size)).setUsed mem 1).addUsed (size + sizeofStructMem)
    else
      (heap.setUsed mem 1).addUsed (sub32 (heap.next mem) mem)
  heap.setMagic mem heapMagic

/-- `lfree` moves on if it points to the block that `rt_malloc` has just taken. -/
def advanceLfree (heap : Heap) (mem : ℕ) : Option Heap :=
  if mem = heap.lfree then
    (nextFree heap (heap.heapEnd + 1) heap.lfree).map fun lfree => { heap with lfree }
  else some heap

/-- The data size of the block that `rt_malloc` looks for. -/
def roundedSize (size : ℕ) : ℕ :=
  if rtAlign size < minSizeAligned then minSizeAligned else rtAlign size

/-- `rt_malloc`: the heap behind the call and the pointer returned. -/
def rtMalloc (heap : Heap) (size : ℕ) : Option (Heap × Option ℕ) :=
  if size = 0 then some (heap, none)
  else if heap.memSizeAligned < rtAlign size then some (heap, none)
  else
    match findFit heap (roundedSize size) (heap.heapEnd + 1) heap.lfree with
    | none => none
    | some none => some (heap, none)
    | some (some mem) =>
      (advanceLfree (takeBlock heap mem (roundedSize size)) mem).map fun heap =>
        (heap, some (mem + sizeofStructMem))

/-- `rt_calloc`. -/
def rtCalloc (heap : Heap) (count size : ℕ) : Option (Heap × Option ℕ) :=
  (rtMalloc heap (word32 (count * size))).map fun (heap, p) =>
    match p with
    | none => (heap, none)
    | some p => (heap.overwrite p (List.replicate (word32 (count * size)) 0), some p)

/-- `rt_free`. -/
def rtFree (heap : Heap) (rmem : Option ℕ) : Heap :=
  match rmem with
  | none => heap
  | some rmem =>
    if heap.heapEnd ≤ rmem then heap
    else
      let mem := rmem - sizeofStructMem
      let heap := (heap.setUsed mem 0).setMagic mem 0
      let heap := if mem < heap.lfree then { heap with lfree := mem } else heap
      let heap := heap.subUsed (sub32 (heap.next mem) mem)
      plugHoles heap mem

/-- `rt_realloc` on a block that stays where it is: the rest behind `newsize` bytes becomes a free
block. -/
def shrink (heap : Heap) (mem size newsize : ℕ) : Heap :=
  let heap := heap.subUsed (size - newsize)
  let mem2 := mem + sizeofStructMem + newsize
  plugHoles ((heap.setMagic mem2 heapMagic).insertBlock mem mem2) mem2

/-- `rt_realloc`: the heap behind the call and the pointer returned. -/
def rtRealloc (heap : Heap) (rmem : Option ℕ) (newsize : ℕ) : Option (Heap × Option ℕ) :=
  let newsize := rtAlign newsize
  if heap.memSizeAligned < newsize then some (heap, none)
  else
    match rmem with
    | none => rtMalloc heap newsize
    | some rmem =>
      if heap.heapEnd ≤ rmem then some (heap, some rmem)
      else
        let mem := rmem - sizeofStructMem
        let size := sub32 (heap.next mem) (mem + sizeofStructMem)
        if size = newsize then some (heap, some rmem)
        else if newsize + sizeofStructMem + minSize < size then some (shrink heap mem size newsize, some rmem)
        else
          (rtMalloc heap newsize).map fun (heap, nmem) =>
            match nmem with
            | none => (heap, none)
            | some nmem =>
              (rtFree (heap.overwrite nmem (readAt heap.bytes rmem (min size newsize))) (some rmem), some nmem)

end RtThread
