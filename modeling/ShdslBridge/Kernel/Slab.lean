import ShdslBridge.Kernel.Heap
import ShdslBridge.Kernel.PageAllocator

/-! # The slab heap

Small blocks are the chunks of a zone, a run of pages that starts with the header of the zone and is
cut into chunks of one size. Blocks from `zone_limit` on are runs of pages of their own. `memusage`
tells for each page whether it belongs to a zone, and how far it is from the start of the zone.

The lists that go through the zones and through the free chunks are lists of addresses here; a list
is empty where its head is the null pointer. `memusage` is indexed by the number of the page, that is
by the index of the source plus the page number of `heap_start`. `zones` is not a variable of the code:
it lists the zones taken from the page allocator and not given back. The calls come one after the
other, and `heap_sem` is left out. A failed assertion and an access through a null pointer are `none`.
-/

namespace RtThread

open FreeList Memory

/-- `PAGE_TYPE_FREE`. -/
def pageTypeFree : ℕ := 0
/-- `PAGE_TYPE_SMALL`. -/
def pageTypeSmall : ℕ := 1
/-- `PAGE_TYPE_LARGE`. -/
def pageTypeLarge : ℕ := 2

/-- `struct memusage`. -/
structure Memusage where
  type : ℕ
  size : ℕ
  deriving DecidableEq

/-- `ZALLOC_SLAB_MAGIC`. -/
def zallocSlabMagic : ℕ := 0x51ab51ab
/-- `ZALLOC_ZONE_LIMIT`. -/
def zallocZoneLimit : ℕ := 16 * 1024
/-- `ZALLOC_MIN_ZONE_SIZE`. -/
def zallocMinZoneSize : ℕ := 32 * 1024
/-- `ZALLOC_MAX_ZONE_SIZE`. -/
def zallocMaxZoneSize : ℕ := 128 * 1024
/-- `NZONES`. -/
def nzones : ℕ := 72
/-- `ZONE_RELEASE_THRESH`. -/
def zoneReleaseThresh : ℕ := 2
/-- The size of `struct slab_zone`. -/
def sizeofSlabZone : ℕ := 36

/-- `struct slab_zone`; its `z_next` is in the lists of the heap. -/
structure SlabZone where
  zMagic : ℕ
  zNfree : ℕ
  zNmax : ℕ
  zBaseptr : ℕ
  zUindex : ℕ
  zChunksize : ℕ
  zZoneindex : ℕ
  zFreechunk : List ℕ

structure Slab where
  zoneArray : ℕ → List ℕ
  zoneFree : List ℕ
  zoneFreeCnt : ℕ
  zoneSize : ℕ
  zoneLimit : ℕ
  zonePageCnt : ℕ
  memusage : ℕ → Memusage
  rtPageList : List Extent
  usedMem : ℕ
  maxMem : ℕ
  zone : ℕ → SlabZone
  bytes : ℕ → BitVec 8
  zones : List ℕ

/-- `RT_ALIGN(size, RT_MM_PAGE_SIZE)`. -/
def rtAlignPage (size : ℕ) : ℕ := word32 (size + 4095) / 4096 * 4096

/-- The loop of `rt_system_heap_init` that doubles the zone size, at most twice. -/
def growZoneSize (limsize : ℕ) : ℕ → ℕ → ℕ
  | 0, zoneSize => zoneSize
  | fuel + 1, zoneSize =>
    if zoneSize < zallocMaxZoneSize ∧ 2 * zoneSize < limsize / 1024 then growZoneSize limsize fuel (2 * zoneSize)
    else zoneSize

/-- The static variables before the heap is set up, over any memory. -/
def Slab.static (memusage : ℕ → Memusage) (zone : ℕ → SlabZone) (bytes : ℕ → BitVec 8) : Slab where
  zoneArray := fun _ => []
  zoneFree := []
  zoneFreeCnt := 0
  zoneSize := 0
  zoneLimit := 0
  zonePageCnt := 0
  memusage := memusage
  rtPageList := []
  usedMem := 0
  maxMem := 0
  zone := zone
  bytes := bytes
  zones := []

/-- `rt_system_heap_init`; the pages of `memusage` come from the page allocator. -/
def Slab.rtSystemHeapInit (s : Slab) (beginAddr endAddr : ℕ) : Option Slab :=
  let heapStart := rtAlignPage beginAddr
  let heapEnd := word32 endAddr / 4096 * 4096
  if heapEnd ≤ heapStart then none
  else do
    let npages := (heapEnd - heapStart) / rtMmPageSize
    let rtPageList ← rtPageInit heapStart npages
    let zoneSize := growZoneSize (heapEnd - heapStart) 2 zallocMinZoneSize
    let (_, rtPageList) ← rtPageAlloc rtPageList (rtAlignPage (npages * 4) / rtMmPageSize)
    some { s with
      zoneSize, zoneLimit := min (zoneSize / 4) zallocZoneLimit, zonePageCnt := zoneSize / rtMmPageSize
      rtPageList }

/-- `(n + size - 1) & ~(size - 1)` for a power of two. -/
def roundUp (n size : ℕ) : ℕ := (n + size - 1) / size * size

/-- `zoneindex`: the chunk size and the index of the zones for `n` bytes. -/
def zoneindex (n : ℕ) : ℕ × ℕ :=
  if n < 128 then (roundUp n 8, roundUp n 8 / 8 - 1)
  else if n < 256 then (roundUp n 16, roundUp n 16 / 16 + 7)
  else if n < 8192 then
    if n < 512 then (roundUp n 32, roundUp n 32 / 32 + 15)
    else if n < 1024 then (roundUp n 64, roundUp n 64 / 64 + 23)
    else if n < 2048 then (roundUp n 128, roundUp n 128 / 128 + 31)
    else if n < 4096 then (roundUp n 256, roundUp n 256 / 256 + 39)
    else (roundUp n 512, roundUp n 512 / 512 + 47)
  else if n < 16384 then (roundUp n 1024, roundUp n 1024 / 1024 + 55)
  else (n, 0)

namespace Slab

/-- `btokup`. -/
def btokup (s : Slab) (addr : ℕ) : Memusage := s.memusage (addr / rtMmPageSize)

def zoneOf (s : Slab) (ptr : ℕ) : ℕ := ptr / rtMmPageSize * rtMmPageSize - (s.btokup ptr).size * rtMmPageSize

/-- `used_mem += size`, and `max_mem` follows. -/
def useMem (s : Slab) (size : ℕ) : Slab :=
  { s with usedMem := word32 (s.usedMem + size), maxMem := max s.maxMem (word32 (s.usedMem + size)) }

def setZone (s : Slab) (z : ℕ) (header : SlabZone) : Slab := { s with zone := Function.update s.zone z header }

def setArray (s : Slab) (zi : ℕ) (list : List ℕ) : Slab :=
  { s with zoneArray := Function.update s.zoneArray zi list }

section

variable (s : Slab) (z zi : ℕ) (header : SlabZone) (list : List ℕ)

@[simp] theorem setZone_zone : (s.setZone z header).zone = Function.update s.zone z header := rfl
@[simp] theorem setZone_zoneFree : (s.setZone z header).zoneFree = s.zoneFree := rfl
@[simp] theorem setZone_zoneArray : (s.setZone z header).zoneArray = s.zoneArray := rfl
@[simp] theorem setArray_zone : (s.setArray zi list).zone = s.zone := rfl
@[simp] theorem setArray_zoneFree : (s.setArray zi list).zoneFree = s.zoneFree := rfl
@[simp] theorem setArray_zoneArray :
    (s.setArray zi list).zoneArray = Function.update s.zoneArray zi list := rfl

end

def setUsage (s : Slab) (z : ℕ) (kup : ℕ → Memusage) : Slab :=
  { s with
    memusage := fun page =>
      if z / rtMmPageSize ≤ page ∧ page < z / rtMmPageSize + s.zonePageCnt then kup (page - z / rtMmPageSize)
      else s.memusage page }

/-- Where the chunks start behind the header: power-of-two chunks are aligned to their size. -/
def chunkOffset (size : ℕ) : ℕ :=
  if (size ||| (size - 1)) + 1 = 2 * size then roundUp sizeofSlabZone size else roundUp sizeofSlabZone 8

/-- The header of a zone at `z` for chunks of `size` bytes, the first of which is handed out. -/
def freshHeader (zoneSize z size zi : ℕ) : SlabZone :=
  let off := chunkOffset size
  let nmax := (zoneSize - off) / size
  { zMagic := zallocSlabMagic, zZoneindex := zi, zNmax := nmax, zNfree := nmax - 1, zBaseptr := z + off
    zUindex := 0, zChunksize := size, zFreechunk := [] }

def startZone (s : Slab) (z size zi : ℕ) : Slab × ℕ :=
  let header := freshHeader s.zoneSize z size zi
  let s := s.setZone z header
  ((s.setArray zi (z :: s.zoneArray zi)).useMem size, header.zBaseptr + header.zUindex * size)

/-- A chunk is taken from the first zone of the list: the area never used comes first. -/
def takeChunk (s : Slab) (z : ℕ) (rest : List ℕ) (size zi : ℕ) : Option (Slab × ℕ) :=
  let header := s.zone z
  if header.zNfree = 0 then none
  else
    let header := { header with zNfree := header.zNfree - 1 }
    let s := if header.zNfree = 0 then s.setArray zi rest else s
    if header.zUindex + 1 ≠ header.zNmax then
      let header := { header with zUindex := header.zUindex + 1 }
      some ((s.setZone z header).useMem header.zChunksize, header.zBaseptr + header.zUindex * size)
    else match header.zFreechunk with
      | [] => none
      | chunk :: more =>
        some ((s.setZone z { header with zFreechunk := more }).useMem header.zChunksize, chunk)

/-- `rt_malloc`. -/
def rtMalloc (s : Slab) (size : ℕ) : Option (Slab × Option ℕ) :=
  if size = 0 then some (s, none)
  else if s.zoneLimit ≤ size then
    match rtPageAlloc s.rtPageList (rtAlignPage size / rtMmPageSize) with
    | none => some (s, none)
    | some (chunk, rtPageList) =>
      let memusage := Function.update s.memusage (chunk / rtMmPageSize)
        ⟨pageTypeLarge, rtAlignPage size / rtMmPageSize⟩
      some (useMem { s with rtPageList, memusage } (rtAlignPage size), some chunk)
  else
    let (size, zi) := zoneindex size
    if ¬ zi < nzones then none
    else match s.zoneArray zi with
      | z :: rest => (s.takeChunk z rest size zi).map fun (s, chunk) => (s, some chunk)
      | [] => match s.zoneFree with
        | z :: rest =>
          let (s, chunk) := startZone { s with zoneFree := rest, zoneFreeCnt := s.zoneFreeCnt - 1 } z size zi
          some (s, some chunk)
        | [] => match rtPageAlloc s.rtPageList (s.zoneSize / rtMmPageSize) with
          | none => some (s, none)
          | some (z, rtPageList) =>
            let s := { s with rtPageList, zones := z :: s.zones }
            let (s, chunk) := (s.setUsage z fun off => ⟨pageTypeSmall, off⟩).startZone z size zi
            some (s, some chunk)

/-- A zone without a chunk in use leaves its list; above the threshold it is given back. -/
def retireZone (s : Slab) (z : ℕ) : Option Slab :=
  let header := s.zone z
  let s := s.setArray header.zZoneindex ((s.zoneArray header.zZoneindex).erase z)
  let s := s.setZone z { header with zMagic := 2 ^ 32 - 1 }
  let s := { s with zoneFree := z :: s.zoneFree, zoneFreeCnt := s.zoneFreeCnt + 1 }
  if zoneReleaseThresh < s.zoneFreeCnt then
    let s := { s with zoneFree := s.zoneFree.tail, zoneFreeCnt := s.zoneFreeCnt - 1 }
    let s := s.setUsage z fun _ => ⟨pageTypeFree, 0⟩
    (rtPageFree s.rtPageList z (s.zoneSize / rtMmPageSize)).map fun rtPageList =>
      { s with rtPageList, zones := s.zones.erase z }
  else some s

/-- A chunk goes to the free list of its zone; a zone that had no free chunk is linked again. -/
def giveChunk (s : Slab) (z ptr : ℕ) : Slab :=
  let header := s.zone z
  let s := { s with usedMem := sub32 s.usedMem header.zChunksize }
  let s := s.setZone z { header with zFreechunk := ptr :: header.zFreechunk, zNfree := header.zNfree + 1 }
  if header.zNfree = 0 then s.setArray header.zZoneindex (z :: s.zoneArray header.zZoneindex) else s

/-- `rt_free`. -/
def rtFree (s : Slab) (ptr : ℕ) : Option Slab :=
  if ptr = 0 then some s
  else
    let kup := s.btokup ptr
    if kup.type = pageTypeLarge then
      let s := { s with
        memusage := Function.update s.memusage (ptr / rtMmPageSize) { kup with size := 0 }
        usedMem := sub32 s.usedMem (kup.size * rtMmPageSize) }
      (rtPageFree s.rtPageList ptr kup.size).map fun rtPageList => { s with rtPageList }
    else
      let z := s.zoneOf ptr
      if (s.zone z).zMagic ≠ zallocSlabMagic then none
      else
        let s := s.giveChunk z ptr
        let header := s.zone z
        -- the zone is in its list, and not alone there: `z->z_next || zone_array[z->z_zoneindex] != z`
        if header.zNfree = header.zNmax ∧ s.zoneArray header.zZoneindex ≠ [z] then s.retireZone z else some s

/-- The end of `rt_realloc`: a new block takes the first `len` bytes, and the old one is released. -/
def moveBlock (s : Slab) (ptr size len : ℕ) : Option (Slab × Option ℕ) := do
  match ← s.rtMalloc size with
  | (s, none) => some (s, none)
  | (s, some nptr) =>
    let s := { s with bytes := writeAt s.bytes nptr (readAt s.bytes ptr len) }
    (s.rtFree ptr).map fun s => (s, some nptr)

/-- `rt_realloc`. -/
def rtRealloc (s : Slab) (ptr size : ℕ) : Option (Slab × Option ℕ) :=
  if ptr = 0 then s.rtMalloc size
  else if size = 0 then (s.rtFree ptr).map fun s => (s, none)
  else if (s.btokup ptr).type = pageTypeLarge then
    let osize := (s.btokup ptr).size * rtMmPageSize
    s.moveBlock ptr size (if osize < size then osize else size)
  else if (s.btokup ptr).type = pageTypeSmall then
    let header := s.zone (s.zoneOf ptr)
    if header.zMagic ≠ zallocSlabMagic then none
    else
      let size := (zoneindex size).1
      if header.zChunksize = size then some (s, some ptr)
      else s.moveBlock ptr size (if header.zChunksize < size then header.zChunksize else size)
  else some (s, none)

end Slab

end RtThread
