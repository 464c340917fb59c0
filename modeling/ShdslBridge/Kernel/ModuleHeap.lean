import ShdslBridge.Kernel.Heap
import ShdslBridge.Kernel.PageAllocator

/-! # The heap of an application module

A module takes pages from the page allocator and deals them out in units of eight bytes, the size of
`struct rt_mem_head`. A block starts with its header; the pointer handed out is the unit behind it.
`mem_list` links the free blocks in the order of their addresses, `page_array` records the runs of
pages that were taken.

The headers of the blocks in `mem_list` are carried by the list, those of the blocks handed out by
`size`. `held` is not a variable of the code: it follows the calls of `rt_page_alloc` and
`rt_page_free`. A failed assertion, a call that waits for `mod_sem` for ever and an access through a
null pointer are `none`.
-/

namespace RtThread

open FreeList Memory

/-- The size of `struct rt_mem_head`. -/
abbrev sizeofMemHead : ℕ := 8

/-- `PAGE_COUNT_MAX`. -/
def pageCountMax : ℕ := 256

/-- The variables of a module that its heap uses, `mod_sem`, `rt_page_list` and the memory. -/
structure ModuleHeap where
  memList : List Extent
  size : ℕ → ℕ
  bytes : ℕ → BitVec 8
  pageArray : ℕ → Extent
  pageCnt : ℕ
  modSem : ℕ
  rtPageList : List Extent
  held : List Extent

/-- What a call of an allocation does: the heap behind it, and the pointer, `none` for the null pointer. -/
abbrev Allocation := Option (ModuleHeap × Option ℕ)

/-- `rt_module_malloc_page`. -/
def rtModuleMallocPage (m : ModuleHeap) (npages : ℕ) : Allocation :=
  match rtPageAlloc m.rtPageList npages with
  | none => some (m, none)
  | some (chunk, rtPageList) =>
    let m := { m with
      rtPageList, held := m.held ++ pagesOf chunk npages
      pageArray := Function.update m.pageArray m.pageCnt ⟨chunk, npages⟩
      pageCnt := word32 (m.pageCnt + 1) }
    if m.pageCnt ≤ pageCountMax then some (m, some chunk) else none

/-- The entries of `page_array` behind the entry `i` move up. -/
def dropEntry (pageArray : ℕ → Extent) (pageCnt i : ℕ) : ℕ → Extent := fun k =>
  if k + 1 = pageCnt then ⟨0, 0⟩ else if i ≤ k ∧ k + 1 < pageCnt then pageArray (k + 1) else pageArray k

/-- `rt_module_free_page`, for the module of the running thread. -/
def rtModuleFreePage (m : ModuleHeap) (pagePtr npages : ℕ) : Option ModuleHeap := do
  let rtPageList ← rtPageFree m.rtPageList pagePtr npages
  let i ← (List.range m.pageCnt).find? fun i => (m.pageArray i).addr = pagePtr
  let m := { m with rtPageList, held := withoutPages m.held pagePtr npages }
  if (m.pageArray i).size = npages + 1 then
    some { m with
      pageArray := Function.update m.pageArray i
        ⟨pagePtr + npages * rtMmPageSize, (m.pageArray i).size - npages⟩
      pageCnt := sub32 m.pageCnt 1 }
  else if (m.pageArray i).size = npages then
    -- `module` and `self_module` are the same module: `page_cnt` is decremented twice
    some { m with pageArray := dropEntry m.pageArray m.pageCnt i, pageCnt := sub32 (sub32 m.pageCnt 1) 1 }
  else none

/-- The units of a block for `size` bytes, its header included. -/
def nunitsOf (size : ℕ) : ℕ := word32 (size + sizeofMemHead - 1) / sizeofMemHead + 1

/-- The pages taken for a block of `size` bytes. -/
def npageOf (size : ℕ) : ℕ := word32 (size + sizeofMemHead + rtMmPageSize - 1) / rtMmPageSize

/-- `rt_module_malloc`; `depth` bounds the calls of itself that it makes. -/
def rtModuleMallocDeep : ℕ → ModuleHeap → ℕ → Allocation
  | 0, _, _ => none
  | depth + 1, m, size =>
    if size = 0 ∨ m.modSem = 0 then none
    else match firstFit sizeofMemHead (nunitsOf size) m.memList with
      | some (b, memList) =>
        some ({ m with memList, size := Function.update m.size b (nunitsOf size) }, some (b + sizeofMemHead))
      | none => do
        let (m, up) ← rtModuleMallocPage { m with modSem := m.modSem - 1 } (npageOf size)
        match up with
        | none => some (m, none)
        | some up =>
          let memList := link sizeofMemHead ⟨up, npageOf size * rtMmPageSize / sizeofMemHead⟩ m.memList
          rtModuleMallocDeep depth { m with memList, modSem := m.modSem + 1 } size

/-- `rt_module_malloc`. -/
def rtModuleMalloc (m : ModuleHeap) (size : ℕ) : Allocation := rtModuleMallocDeep 2 m size

/-- What a release leaves of the list from a block on, and the run of pages that goes back. -/
abbrev Relisted := List Extent × Option Extent

/-- The listed block `b` grows by `n`, and by the next block of the list if that one starts behind `n`. -/
def mergeBehind (b n : Extent) : List Extent → Extent × List Extent
  | [] => (⟨b.addr, b.size + n.size⟩, [])
  | next :: rest =>
    if b.addr + (b.size + n.size) * sizeofMemHead = next.addr then
      (⟨b.addr, b.size + (next.size + n.size)⟩, rest)
    else (⟨b.addr, b.size + n.size⟩, next :: rest)

/-- A merged block `b` that stands in the list, in front of `rest`. -/
def relistLeft (b : Extent) (rest : List Extent) : Relisted :=
  let npage := b.size * sizeofMemHead / rtMmPageSize
  let nunits := npage * rtMmPageSize / sizeofMemHead
  if b.addr % rtMmPageSize = 0 ∧ 0 < npage then
    if b.size * sizeofMemHead % rtMmPageSize ≠ 0 then
      (⟨b.addr + nunits * sizeofMemHead, b.size - nunits⟩ :: rest, some ⟨b.addr, npage⟩)
    else (rest, some ⟨b.addr, npage⟩)
  else (b :: rest, none)

/-- The block `n` is joined with the block `b` behind it, in front of `rest`. -/
def relistRight (n b : Extent) (rest : List Extent) : Relisted :=
  let joined : Extent := ⟨n.addr, b.size + n.size⟩
  if joined.addr % rtMmPageSize = 0 then
    let npage := joined.size * sizeofMemHead / rtMmPageSize
    let nunits := npage * rtMmPageSize / sizeofMemHead
    if 0 < npage then
      if joined.size * sizeofMemHead % rtMmPageSize ≠ 0 then
        (⟨joined.addr + nunits * sizeofMemHead, joined.size - nunits⟩ :: rest, some ⟨joined.addr, npage⟩)
      else (rest, some ⟨joined.addr, npage⟩)
    else (b :: rest, none)
  else (joined :: rest, none)

/-- The block `n` touches no block, and stands in front of `rest`. -/
def relistAlone (n : Extent) (rest : List Extent) : Relisted :=
  if n.addr % rtMmPageSize = 0 then
    let npage := n.size * sizeofMemHead / rtMmPageSize
    let nunits := npage * rtMmPageSize / sizeofMemHead
    if 0 < npage then
      if n.size % rtMmPageSize ≠ 0 then
        (⟨n.addr + nunits * sizeofMemHead, n.size - nunits⟩ :: rest, some ⟨n.addr, npage⟩)
      else (rest, some ⟨n.addr, npage⟩)
    else (rest, none)
  else (n :: rest, none)

/-- The loop of `rt_module_free` over `mem_list`, for the block `n`. -/
def relist (n : Extent) : List Extent → Option Relisted
  | [] => some (relistAlone n [])
  | b :: rest =>
    if b.size = 0 then none
    else if ¬ (n.addr < b.addr ∨ b.stop sizeofMemHead ≤ n.addr) then none
    else if b.stop sizeofMemHead = n.addr ∧ n.addr % rtMmPageSize ≠ 0 then
      some (relistLeft (mergeBehind b n rest).1 (mergeBehind b n rest).2)
    else if b.addr = n.stop sizeofMemHead then some (relistRight n b rest)
    else if n.stop sizeofMemHead < b.addr then some (relistAlone n (b :: rest))
    else (relist n rest).map fun relisted => (b :: relisted.1, relisted.2)

def ModuleHeap.blockOf (m : ModuleHeap) (ptr : ℕ) : Extent :=
  ⟨ptr - sizeofMemHead, m.size (ptr - sizeofMemHead)⟩

/-- `rt_module_free`. -/
def rtModuleFree (m : ModuleHeap) (addr : ℕ) : Option ModuleHeap :=
  if addr = 0 ∨ addr % sizeofMemHead ≠ 0 ∨ m.modSem = 0 then none
  else match relist (m.blockOf addr) m.memList with
    | none => none
    | some (memList, none) => some { m with memList }
    | some (memList, some pages) => rtModuleFreePage { m with memList } pages.addr pages.size

/-- The block behind `b` in `mem_list` has the units that `b` lacks: `none` when the first block of the
list is read through a null pointer. -/
def growInPlace (b : Extent) (nunits : ℕ) : List Extent → Option (Option (List Extent))
  | [] => none
  | [_] => some none
  | prev :: p :: rest =>
    if nunits - b.size ≤ p.size ∧ p.addr = b.stop sizeofMemHead then
      if p.size = nunits - b.size then some (some (prev :: rest))
      else some (some (prev :: ⟨b.addr + nunits * sizeofMemHead, p.size + b.size - nunits⟩ :: rest))
    else some none

/-- `rt_module_realloc`. -/
def rtModuleRealloc (m : ModuleHeap) (ptr : Option ℕ) (size : ℕ) : Allocation :=
  match ptr with
  | none => rtModuleMalloc m size
  | some ptr =>
    if size = 0 then (rtModuleFree m ptr).map fun m => (m, none)
    else
      let nunits := nunitsOf size
      let b := m.blockOf ptr
      if nunits ≤ b.size then
        if nunits = b.size then some (m, some ptr)
        else
          let p := b.addr + nunits * sizeofMemHead
          let sizes := Function.update (Function.update m.size p (b.size - nunits)) b.addr nunits
          (rtModuleFree { m with size := sizes } (p + sizeofMemHead)).map fun m => (m, some (b.addr + sizeofMemHead))
      else do
        match ← growInPlace b nunits m.memList with
        | some memList =>
          some ({ m with memList, size := Function.update m.size b.addr nunits }, some (b.addr + sizeofMemHead))
        | none =>
          let (m, p) ← rtModuleMalloc m size
          match p with
          | none => some (m, none)
          | some p =>
            let m := { m with
              bytes := writeAt m.bytes p (readAt m.bytes (b.addr + sizeofMemHead) (b.size * sizeofMemHead)) }
            (rtModuleFree m (b.addr + sizeofMemHead)).map fun m => (m, some p)

end RtThread
