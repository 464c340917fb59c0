import ShdslBridge.Kernel.Heap

/-! # The heaps of `memheap.c`

A heap cuts its pool into items, each behind a `struct rt_memheap_item` of 24 bytes. All items of a pool
form one circular list, in the order of their addresses; those without the `USED` mark form another one
with the `free_header` of the heap. The last item of a pool has no data and stays used.

The headers are in the memory, and an address is a number of the machine; the null pointer is zero, and
`none` as a result. The other fields of a heap object are apart, under the address of the object. Sizes and
addresses are 32-bit words. The calls come one after the other, and `lock` is left out. A failed assertion
is `none`, and so is a search that does not end.
-/

namespace RtThread

open LittleEndian Memory

/-- `RT_MEMHEAP_MAGIC`. -/
def rtMemheapMagic : ℕ := 0x1ea01ea0

/-- `RT_MEMHEAP_MASK`, which is also `~RT_MEMHEAP_USED`. -/
def rtMemheapMask : ℕ := 0xfffffffe

/-- `RT_MEMHEAP_USED`. -/
def rtMemheapUsed : ℕ := 1

/-- `RT_MEMHEAP_MINIALLOC`. -/
def rtMemheapMinialloc : ℕ := 12

/-- `RT_MEMHEAP_SIZE`. -/
def rtMemheapSize : ℕ := 24

/-- The fields of `struct rt_memheap_item`. -/
inductive ItemField
  | magic
  | poolPtr
  | next
  | prev
  | nextFree
  | prevFree
  deriving DecidableEq

def ItemField.offset : ItemField → ℕ
  | magic => 0
  | poolPtr => 4
  | next => 8
  | prev => 12
  | nextFree => 16
  | prevFree => 20

/-- `struct rt_memheap`, without its `free_header`. -/
structure Memheap where
  startAddr : ℕ
  poolSize : ℕ
  availableSize : ℕ
  maxUsedSize : ℕ
  blockList : ℕ
  freeList : ℕ

/-- The address of the `free_header` of a heap. -/
def freeHeader (memheap : ℕ) : ℕ := memheap + 44

structure Memheaps where
  bytes : ℕ → BitVec 8
  heap : ℕ → Memheap
  objectList : List ℕ

/-- A size as `rt_memheap_alloc` and `rt_memheap_realloc` round it. -/
def alignedSize (size : ℕ) : ℕ :=
  if rtAlign size < rtMemheapMinialloc then rtMemheapMinialloc else rtAlign size

namespace Memheaps

def get (s : Memheaps) (field : ItemField) (item : ℕ) : ℕ := readNat s.bytes (item + field.offset) 4

def set (s : Memheaps) (field : ItemField) (item number : ℕ) : Memheaps :=
  { s with bytes := writeNat s.bytes (item + field.offset) 4 number }

/-- `RT_MEMHEAP_IS_USED`. -/
def IsUsed (s : Memheaps) (item : ℕ) : Prop := s.get .magic item &&& rtMemheapUsed ≠ 0

instance (s : Memheaps) (item : ℕ) : Decidable (s.IsUsed item) := inferInstanceAs (Decidable (_ ≠ _))

/-- `MEMITEM_SIZE`. -/
def memitemSize (s : Memheaps) (item : ℕ) : ℕ := sub32 (sub32 (s.get .next item) item) rtMemheapSize

/-- `heap->available_size` is written. -/
def setAvailable (s : Memheaps) (heap availableSize : ℕ) : Memheaps :=
  { s with heap := Function.update s.heap heap { s.heap heap with availableSize } }

/-- `heap->available_size` is written, and `max_used_size` follows. -/
def useAvailable (s : Memheaps) (heap availableSize : ℕ) : Memheaps :=
  let used := sub32 (s.heap heap).poolSize availableSize
  let maxUsedSize := if (s.heap heap).maxUsedSize < used then used else (s.heap heap).maxUsedSize
  { s with heap := Function.update s.heap heap { s.heap heap with availableSize, maxUsedSize } }

def writeItem (s : Memheaps) (item magic poolPtr next prev nextFree prevFree : ℕ) : Memheaps :=
  let s := s.set .magic item magic
  let s := s.set .poolPtr item poolPtr
  let s := s.set .next item next
  let s := s.set .prev item prev
  let s := s.set .nextFree item nextFree
  s.set .prevFree item prevFree

def linkFree (s : Memheaps) (heap item : ℕ) : Memheaps :=
  let freeList := (s.heap heap).freeList
  let s := s.set .nextFree item (s.get .nextFree freeList)
  let s := s.set .prevFree item freeList
  let s := s.set .prevFree (s.get .nextFree freeList) item
  s.set .nextFree freeList item

def unlinkFree (s : Memheaps) (item : ℕ) : Memheaps :=
  let s := s.set .prevFree (s.get .nextFree item) (s.get .prevFree item)
  s.set .nextFree (s.get .prevFree item) (s.get .nextFree item)

/-- A new free item is put behind `item` in the block list. -/
def splitItem (s : Memheaps) (heap item new : ℕ) : Memheaps :=
  let s := s.set .magic new rtMemheapMagic
  let s := s.set .poolPtr new heap
  let s := s.set .prev new item
  let s := s.set .next new (s.get .next item)
  let s := s.set .prev (s.get .next item) new
  s.set .next item new

/-- The item behind `item` is taken out of the block list. -/
def mergeItem (s : Memheaps) (item behind : ℕ) : Memheaps :=
  let s := s.set .prev (s.get .next behind) item
  s.set .next item (s.get .next behind)

/-- `rt_memheap_init`. -/
def rtMemheapInit (s : Memheaps) (memheap startAddr size : ℕ) : Memheaps :=
  let poolSize := rtAlignDown size
  let availableSize := sub32 poolSize (2 * rtMemheapSize)
  let object : Memheap :=
    { startAddr, poolSize, availableSize, maxUsedSize := sub32 poolSize availableSize, blockList := startAddr
      freeList := freeHeader memheap }
  let s := { s with objectList := memheap :: s.objectList, heap := Function.update s.heap memheap object }
  -- the free list header
  let item := freeHeader memheap
  let s := s.writeItem item rtMemheapMagic memheap 0 0 item item
  -- the first big memory block
  let item := startAddr
  let s := s.writeItem item rtMemheapMagic memheap 0 0 item item
  let s := s.set .next item (word32 (item + availableSize + rtMemheapSize))
  let s := s.set .prev item (s.get .next item)
  let s := s.linkFree memheap item
  -- the tailer block
  let item := s.get .next item
  s.writeItem item (rtMemheapMagic ||| rtMemheapUsed) memheap startAddr startAddr 0 0

/-- The loop of `rt_memheap_alloc` over the free list. -/
def search (s : Memheaps) (freeList size : ℕ) : ℕ → ℕ → Option (Option ℕ)
  | 0, _ => none
  | fuel + 1, item =>
    if item = freeList then some none
    else if s.memitemSize item < size then s.search freeList size fuel (s.get .nextFree item)
    else some (some item)

/-- `rt_memheap_alloc` takes `size` bytes from a free item. -/
def takeItem (s : Memheaps) (heap item size : ℕ) : Memheaps :=
  let freeSize := s.memitemSize item
  let availableSize := (s.heap heap).availableSize
  let s :=
    if word32 (size + rtMemheapSize + rtMemheapMinialloc) ≤ freeSize then
      let new := word32 (item + size + rtMemheapSize)
      let s := s.splitItem heap item new
      let s := s.unlinkFree item
      let s := s.set .nextFree item 0
      let s := s.set .prevFree item 0
      let s := s.linkFree heap new
      s.useAvailable heap (sub32 (sub32 availableSize size) rtMemheapSize)
    else
      let s := s.useAvailable heap (sub32 availableSize freeSize)
      let s := s.unlinkFree item
      let s := s.set .nextFree item 0
      s.set .prevFree item 0
  s.set .magic item (s.get .magic item ||| rtMemheapUsed)

/-- `rt_memheap_alloc`; no heap has more items than bytes. -/
def rtMemheapAlloc (s : Memheaps) (heap size : ℕ) : Option (Memheaps × Option ℕ) :=
  let size := alignedSize size
  let freeList := (s.heap heap).freeList
  if size < (s.heap heap).availableSize then do
    match ← s.search freeList size (s.heap heap).poolSize (s.get .nextFree freeList) with
    | none => some (s, none)
    | some item => some (s.takeItem heap item size, some (word32 (item + rtMemheapSize)))
  else some (s, none)

/-- `rt_memheap_free`, from the mark on; the item that the block ends up in. -/
def releaseItem (s : Memheaps) (heap item : ℕ) : Memheaps :=
  let s := s.set .magic item (s.get .magic item &&& rtMemheapMask)
  let s := s.setAvailable heap (word32 ((s.heap heap).availableSize + s.memitemSize item))
  let insertHeader := s.IsUsed (s.get .prev item)
  let (s, item) :=
    if ¬ s.IsUsed (s.get .prev item) then
      let s := s.setAvailable heap (word32 ((s.heap heap).availableSize + rtMemheapSize))
      let s := s.set .next (s.get .prev item) (s.get .next item)
      let s := s.set .prev (s.get .next item) (s.get .prev item)
      (s, s.get .prev item)
    else (s, item)
  let s :=
    if ¬ s.IsUsed (s.get .next item) then
      let s := s.setAvailable heap (word32 ((s.heap heap).availableSize + rtMemheapSize))
      let new := s.get .next item
      let s := s.mergeItem item new
      s.unlinkFree new
    else s
  if insertHeader then s.linkFree heap item else s

/-- `rt_memheap_free`. -/
def rtMemheapFree (s : Memheaps) (ptr : ℕ) : Option Memheaps :=
  if ptr = 0 then some s
  else
    let item := sub32 ptr rtMemheapSize
    if s.get .magic item &&& rtMemheapMask ≠ rtMemheapMagic then none
    else if ¬ s.IsUsed item then none
    else if s.get .magic (s.get .next item) &&& rtMemheapMask ≠ rtMemheapMagic then none
    else some (s.releaseItem (s.get .poolPtr item) item)

/-- `rt_memheap_realloc` takes the first bytes of the free item `behind` into the block of `item`. -/
def growItem (s : Memheaps) (heap item behind oldsize newsize : ℕ) : Memheaps :=
  let s := s.useAvailable heap (sub32 (s.heap heap).availableSize (sub32 newsize oldsize))
  let s := s.unlinkFree behind
  let s := s.set .prev (s.get .next behind) (s.get .prev behind)
  let s := s.set .next (s.get .prev behind) (s.get .next behind)
  let new := word32 (item + rtMemheapSize + newsize)
  let s := s.splitItem heap item new
  s.linkFree heap new

/-- `rt_memheap_realloc` gives the end of the block of `item` back. -/
def shrinkItem (s : Memheaps) (heap item newsize : ℕ) : Memheaps :=
  let new := word32 (item + newsize + rtMemheapSize)
  let s := s.splitItem heap item new
  let s :=
    if ¬ s.IsUsed (s.get .next new) then
      let free := s.get .next new
      let s := s.setAvailable heap (sub32 (s.heap heap).availableSize (s.memitemSize free))
      let s := s.mergeItem new free
      s.unlinkFree free
    else s
  let s := s.linkFree heap new
  s.setAvailable heap (word32 ((s.heap heap).availableSize + s.memitemSize new))

/-- `rt_memcpy` between two blocks. -/
def copy (s : Memheaps) (target source count : ℕ) : Memheaps :=
  { s with bytes := writeAt s.bytes target (readAt s.bytes source count) }

/-- `rt_memheap_realloc`. -/
def rtMemheapRealloc (s : Memheaps) (heap ptr newsize : ℕ) : Option (Memheaps × Option ℕ) :=
  if newsize = 0 then (s.rtMemheapFree ptr).map fun s => (s, none)
  else
    let newsize := alignedSize newsize
    if ptr = 0 then s.rtMemheapAlloc heap newsize
    else
      let item := sub32 ptr rtMemheapSize
      let oldsize := s.memitemSize item
      if oldsize < newsize then
        let behind := s.get .next item
        let room := word32 (s.memitemSize behind + oldsize)
        if ¬ item < behind then none
        else if ¬ s.IsUsed behind ∧ word32 (newsize + rtMemheapMinialloc) < room then
          some (s.growItem heap item behind oldsize newsize, some ptr)
        else do
          match ← s.rtMemheapAlloc heap newsize with
          | (s, none) => some (s, none)
          | (s, some new) =>
            let s := s.copy new ptr (if oldsize < newsize then oldsize else newsize)
            (s.rtMemheapFree ptr).map fun s => (s, some new)
      else if oldsize ≤ word32 (newsize + rtMemheapSize + rtMemheapMinialloc) then some (s, some ptr)
      else some (s.shrinkItem heap item newsize, some ptr)

/-- The loop of `rt_malloc` over the heaps behind the system heap. -/
def tryHeaps (s : Memheaps) (system size : ℕ) : List ℕ → Option (Memheaps × Option ℕ)
  | [] => some (s, none)
  | heap :: rest =>
    if heap = system then s.tryHeaps system size rest
    else do
      match ← s.rtMemheapAlloc heap size with
      | (s, none) => s.tryHeaps system size rest
      | (s, some ptr) => some (s, some ptr)

/-- `rt_malloc`, where `system` is the address of `_heap`. -/
def rtMalloc (s : Memheaps) (system size : ℕ) : Option (Memheaps × Option ℕ) := do
  match ← s.rtMemheapAlloc system size with
  | (s, none) => s.tryHeaps system size s.objectList
  | (s, some ptr) => some (s, some ptr)

/-- `rt_free`. -/
def rtFree (s : Memheaps) (rmem : ℕ) : Option Memheaps := s.rtMemheapFree rmem

/-- `rt_realloc`. -/
def rtRealloc (s : Memheaps) (system rmem newsize : ℕ) : Option (Memheaps × Option ℕ) :=
  if rmem = 0 then s.rtMalloc system newsize
  else do
    let item := sub32 rmem rtMemheapSize
    match ← s.rtMemheapRealloc (s.get .poolPtr item) rmem newsize with
    | (s, some new) => some (s, some new)
    | (s, none) =>
      if newsize = 0 then some (s, none)
      else
        match ← s.rtMalloc system newsize with
        | (s, none) => some (s, none)
        | (s, some new) =>
          let oldsize := s.memitemSize item
          some (s.copy new rmem (if oldsize < newsize then oldsize else newsize), some new)

end Memheaps

end RtThread
