import ShdslBridge.Lib.LittleEndian

/-! # The heap of the string literals

`finsh_heap.c`: an array of 128 bytes is cut into blocks, each behind a header of eight bytes with the
length of the block and the header behind it in its list. The free and the allocated blocks are two
lists in the order of their addresses. When no free block is long enough, the collector releases every
allocated block that is not the value of a variable. A pointer is its address, and `NULL` is 0.

The loops carry fuel, which is more than the number of headers that fit the array. A call that runs
out of it is `none`: the source stays in the loop for ever.
-/

namespace Finsh

open LittleEndian Memory

/-- The rounds that a loop over a list of headers has. -/
def rounds : ℕ := 17

/-- `HEAP_ALIGN_SIZE`, in 32 bits. -/
def heapAlignSize (size : ℕ) : ℕ := (size + 3) % 2 ^ 32 / 4 * 4

/-- `value.ptr` of the entries of `global_variable`, where an entry has a type. -/
abbrev VariableTable := List (Option ℕ)

/-- The static variables of `finsh_heap.c` and the memory with `finsh_heap`. -/
structure StringHeap where
  bytes : ℕ → BitVec 8
  freeList : ℕ
  allocateList : ℕ

namespace StringHeap

/-- `header->length`. -/
def length (heap : StringHeap) (header : ℕ) : ℕ := readNat heap.bytes header 4

/-- `header->next`. -/
def next (heap : StringHeap) (header : ℕ) : ℕ := readNat heap.bytes (header + 4) 4

/-- `header->length = number`. -/
def setLength (heap : StringHeap) (header number : ℕ) : StringHeap :=
  { heap with bytes := writeNat heap.bytes header 4 number }

/-- `header->next = number`. -/
def setNext (heap : StringHeap) (header number : ℕ) : StringHeap :=
  { heap with bytes := writeNat heap.bytes (header + 4) 4 number }

/-- `finsh_heap_init`, with the array at the address `finshHeap`. -/
def init (finshHeap : ℕ) (bytes : ℕ → BitVec 8) : StringHeap :=
  let heap : StringHeap := ⟨writeAt bytes finshHeap (List.replicate 128 0), finshHeap, 0⟩
  (heap.setLength finshHeap 120).setNext finshHeap 0

/-- A loop along a list, up to the first header at which it stops or the end of the list. -/
def search (heap : StringHeap) (stop : ℕ → Bool) : (fuel header : ℕ) → Option ℕ
  | 0, _ => none
  | fuel + 1, header =>
    if header = 0 then some 0
    else if stop header then some header
    else heap.search stop fuel (heap.next header)

/-- `finsh_block_insert`; the list comes back as it is then. -/
def blockInsert (heap : StringHeap) (list header : ℕ) : Option (ℕ × StringHeap) :=
  if list = 0 then some (header, heap)
  else if header < list then some (header, heap.setNext header list)
  else do
    let node ← heap.search (fun node => decide (header < heap.next node) || heap.next node == 0) rounds list
    let heap := if heap.next node ≠ 0 then heap.setNext header (heap.next node) else heap
    some (list, heap.setNext node header)

/-- `finsh_block_remove`; the list comes back as it is then. -/
def blockRemove (heap : StringHeap) (list header : ℕ) : Option (ℕ × StringHeap) :=
  if list = header then some (heap.next header, heap.setNext header 0)
  else do
    let node ← heap.search (fun node => heap.next node == header) rounds list
    some (list, if node = 0 then heap else heap.setNext node (heap.next header))

/-- `finsh_block_split`, in 32 bits. -/
def blockSplit (heap : StringHeap) (header size : ℕ) : StringHeap :=
  let next := (header + 8 + size) % 2 ^ 32
  let heap := heap.setLength next ((heap.length header + (2 ^ 32 - 8) + (2 ^ 32 - size)) % 2 ^ 32)
  let heap := heap.setLength header size
  let heap := heap.setNext next (heap.next header)
  heap.setNext header next

/-- A header takes over the blocks behind it, up to the one that `next` was read from. -/
def absorb (heap : StringHeap) (header length next : ℕ) : StringHeap :=
  (heap.setLength header (heap.length header + length)).setNext header next

/-- `finsh_block_merge`. -/
def blockMerge (heap : StringHeap) (list header : ℕ) : Option StringHeap := do
  let nextNode := heap.next header
  let prevNode ←
    if list = header then some 0 else heap.search (fun node => heap.next node == header) rounds list
  if prevNode ≠ 0 ∧ prevNode + heap.length prevNode + 8 = header then
    if nextNode ≠ 0 ∧ header + heap.length header + 8 = nextNode then
      some (heap.absorb prevNode (heap.length header + heap.length nextNode + 2 * 8) (heap.next nextNode))
    else some (heap.absorb prevNode (heap.length header + 8) (heap.next header))
  else if nextNode ≠ 0 ∧ header + heap.length header + 8 = nextNode then
    some (heap.absorb header (heap.length nextNode + 8) (heap.next nextNode))
  else some heap

/-- `finsh_heap_free`. -/
def heapFree (heap : StringHeap) (ptr : ℕ) : Option StringHeap := do
  let header := ptr - 8
  let (allocateList, heap) ← heap.blockRemove heap.allocateList header
  let heap := { heap with allocateList }
  let (freeList, heap) ← heap.blockInsert heap.freeList header
  let heap := { heap with freeList }
  heap.blockMerge heap.freeList header

/-- The loop of `finsh_heap_gc`. -/
def gcLoop (globalVariable : VariableTable) : (fuel header : ℕ) → StringHeap → Option StringHeap
  | 0, _, _ => none
  | fuel + 1, header, heap =>
    if header = 0 then some heap
    else
      let after := heap.next header
      if some (header + 8) ∈ globalVariable then gcLoop globalVariable fuel after heap
      else do
        let heap ← heap.heapFree (header + 8)
        gcLoop globalVariable fuel after heap

/-- `finsh_heap_gc`. -/
def heapGc (heap : StringHeap) (globalVariable : VariableTable) : Option StringHeap :=
  gcLoop globalVariable rounds heap.allocateList heap

/-- The end of `finsh_heap_allocate`: a block is taken from the front of a free one. -/
def carve (heap : StringHeap) (header size : ℕ) : Option (ℕ × StringHeap) := do
  let heap := heap.blockSplit header size
  let (freeList, heap) ← heap.blockRemove heap.freeList header
  let heap := { heap with freeList }.setNext header 0
  let (allocateList, heap) ← heap.blockInsert heap.allocateList header
  some (header + 8, { heap with allocateList, bytes := writeAt heap.bytes (header + 8) (List.replicate size 0) })

/-- `finsh_heap_allocate`, of a size of 32 bits. -/
def heapAllocate (heap : StringHeap) (globalVariable : VariableTable) (size : ℕ) : Option (ℕ × StringHeap) := do
  let size := heapAlignSize size
  let header ← heap.search (fun header => !decide (heap.length header ≤ (size + 8) % 2 ^ 32)) rounds heap.freeList
  if header ≠ 0 then heap.carve header size
  else
    let heap ← heap.heapGc globalVariable
    let header ← heap.search (fun header => !decide (heap.length header < (size + 8) % 2 ^ 32)) rounds heap.freeList
    if header = 0 then some (0, heap) else heap.carve header size

end StringHeap

end Finsh
