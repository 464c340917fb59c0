import ShdslBridge.Kernel.SlabZones

/-! # The accounts of the slab heap

Three accounts agree in every state reached: the page allocator, the zones and the large blocks divide
the pages of the heap, each zone divides its chunks (`ZoneOk`), and the lists of zones follow `z_nfree`
(`ZoneLists`). `Sound` is the invariant made of them, and each way in which a call changes the heap
keeps it: a chunk is handed out or released, a zone is set up, parked or given back, a large block comes
and goes.
-/

namespace RtThread

open FreeList Memory

/-- A pointer that was handed out, the size asked for, and the zone of its chunk, `none` for a block
of pages. -/
structure LiveBlock where
  ptr : ℕ
  size : ℕ
  home : Option ℕ
  deriving DecidableEq

def chunksOf (live : List LiveBlock) (z : ℕ) : List ℕ :=
  (live.filter fun block => block.home = some z).map LiveBlock.ptr

namespace Slab

/-- The zone of a chunk, `none` for a block of pages. -/
def homeOf (s : Slab) (ptr : ℕ) : Option ℕ :=
  if (s.btokup ptr).type = pageTypeLarge then none else some (s.zoneOf ptr)

/-- The bytes of the block behind a pointer. -/
def usable (s : Slab) (ptr : ℕ) : ℕ :=
  if (s.btokup ptr).type = pageTypeLarge then (s.btokup ptr).size * rtMmPageSize
  else (s.zone (s.zoneOf ptr)).zChunksize

def blocks (s : Slab) (live : List LiveBlock) : List Extent := live.map fun block => ⟨block.ptr, s.usable block.ptr⟩

def headers (s : Slab) : List Extent := s.zones.map fun z => ⟨z, sizeofSlabZone⟩

def zoneRuns (s : Slab) : List Extent := s.zones.map fun z => ⟨z, s.zonePageCnt⟩

def largeRuns (s : Slab) (live : List LiveBlock) : List Extent :=
  (live.filter fun block => block.home = none).map fun block => ⟨block.ptr, (s.btokup block.ptr).size⟩

/-- The heap is well formed, seen from the live pointers and from the zones. -/
structure WellFormed (s : Slab) (live : List LiveBlock) : Prop where
  nfree : ∀ z ∈ s.zones, (s.zone z).zNfree + ((s.zone z).zUindex + 1) =
    (s.zone z).zNmax + (s.zone z).zFreechunk.length
  linked : ∀ z ∈ s.zones, z ∈ s.zoneArray (s.zone z).zZoneindex ↔ 0 < (s.zone z).zNfree ∧ z ∉ s.zoneFree
  apart : ∀ address, cells 1 (s.blocks live) address + cells 1 s.headers address +
    cells rtMmPageSize s.rtPageList address ≤ 1
  enough : ∀ block ∈ live, block.size ≤ s.usable block.ptr
  mapped : ∀ z ∈ s.zones, ∀ address, z ≤ address → address < z + s.zoneSize →
    (s.btokup address).type = pageTypeSmall ∧ s.zoneOf address = z

/-- The sizes that `rt_system_heap_init` chooses. -/
structure Config (s : Slab) : Prop where
  pages : s.zonePageCnt * rtMmPageSize = s.zoneSize
  large : 32768 ≤ s.zoneSize
  limit : s.zoneLimit = 8192 ∨ s.zoneLimit = 16384
  quarter : 4 * s.zoneLimit ≤ s.zoneSize

/-- The lists of the zones follow the headers. -/
structure ZoneLists (s : Slab) : Prop where
  nodup : s.zones.Nodup
  arrays : ∀ zi, (s.zoneArray zi).Nodup
  free : s.zoneFree.Nodup
  listed : ∀ zi z, z ∈ s.zoneArray zi ↔
    z ∈ s.zones ∧ (s.zone z).zZoneindex = zi ∧ (s.zone z).zNfree ≠ 0 ∧ z ∉ s.zoneFree
  parked : ∀ z ∈ s.zoneFree, z ∈ s.zones ∧ (s.zone z).zNfree = (s.zone z).zNmax
  magic : ∀ z ∈ s.zones, z ∉ s.zoneFree → (s.zone z).zMagic = zallocSlabMagic

/-- The invariant of the runs. -/
structure Sound (s : Slab) (live : List LiveBlock) : Prop where
  config : s.Config
  pageList : PageList s.rtPageList
  once : ∀ address, cells rtMmPageSize s.rtPageList address + cells rtMmPageSize s.zoneRuns address +
    cells rtMmPageSize (s.largeRuns live) address ≤ 1
  lists : s.ZoneLists
  zones : ∀ z ∈ s.zones, ZoneOk s.zoneSize z (s.zone z) (chunksOf live z)
  aligned : ∀ z ∈ s.zones, z % rtMmPageSize = 0
  usage : ∀ z ∈ s.zones, ∀ off < s.zonePageCnt, s.memusage (z / rtMmPageSize + off) = ⟨pageTypeSmall, off⟩
  chunks : ∀ block ∈ live, ∀ z, block.home = some z → z ∈ s.zones ∧ block.size ≤ (s.zone z).zChunksize
  larges : ∀ block ∈ live, block.home = none → block.ptr % rtMmPageSize = 0 ∧ block.ptr ≠ 0 ∧
    (s.btokup block.ptr).type = pageTypeLarge ∧ 0 < (s.btokup block.ptr).size ∧
      block.size ≤ (s.btokup block.ptr).size * rtMmPageSize

variable {s : Slab} {live : List LiveBlock}

/-! ## Reading the invariant -/

theorem Sound.perm (sound : s.Sound live) {reordered : List LiveBlock} (perm : live.Perm reordered) :
    s.Sound reordered where
  config := sound.config
  pageList := sound.pageList
  once address := by
    have := sound.once address
    rw [largeRuns, cells_eq_of_perm ((perm.filter _).map _)] at this
    exact this
  lists := sound.lists
  zones z member := (sound.zones z member).perm ((perm.filter _).map _)
  aligned := sound.aligned
  usage := sound.usage
  chunks block member := sound.chunks block (perm.symm.subset member)
  larges block member := sound.larges block (perm.symm.subset member)

variable {z : ℕ} {block : LiveBlock}

theorem Sound.mapped (sound : s.Sound live) (member : z ∈ s.zones) {address : ℕ} (lower : z ≤ address)
    (upper : address < z + s.zoneSize) : (s.btokup address).type = pageTypeSmall ∧ s.zoneOf address = z := by
  have start : z % 4096 = 0 := sound.aligned z member
  have pages : s.zonePageCnt * 4096 = s.zoneSize := sound.config.pages
  have page : address / rtMmPageSize = z / rtMmPageSize + (address - z) / 4096 := by
    change address / 4096 = z / 4096 + (address - z) / 4096
    omega
  have kup : s.btokup address = ⟨pageTypeSmall, (address - z) / 4096⟩ := by
    rw [btokup, page]
    exact sound.usage z member _ (by omega)
  refine ⟨by rw [kup], ?_⟩
  rw [zoneOf, kup]
  change address / 4096 * 4096 - (address - z) / 4096 * 4096 = z
  omega

theorem Sound.chunk (sound : s.Sound live) (member : block ∈ live) (home : block.home = some z) :
    z ∈ s.zones ∧ block.ptr ∈ chunksOf live z ∧ (s.btokup block.ptr).type = pageTypeSmall ∧
      s.zoneOf block.ptr = z := by
  obtain ⟨inZones, -⟩ := sound.chunks block member z home
  have inUse : block.ptr ∈ chunksOf live z :=
    List.mem_map_of_mem (List.mem_filter.mpr ⟨member, decide_eq_true home⟩)
  have ok := sound.zones z inZones
  obtain ⟨lower, upper⟩ := ok.bounds inUse
  have := ok.positive
  exact ⟨inZones, inUse, sound.mapped inZones ((Nat.le_add_right _ _).trans lower) (by omega)⟩

theorem Sound.usable_large (sound : s.Sound live) (member : block ∈ live) (home : block.home = none) :
    s.usable block.ptr = (s.btokup block.ptr).size * rtMmPageSize :=
  if_pos (sound.larges block member home).2.2.1

theorem Sound.usable_chunk (sound : s.Sound live) (member : block ∈ live) (home : block.home = some z) :
    s.usable block.ptr = (s.zone z).zChunksize := by
  obtain ⟨-, -, small, back⟩ := sound.chunk member home
  rw [usable, small, back]
  exact if_neg (by decide)

variable (s) in
/-- The chunks of the zones and the headers are apart, and inside the zones. -/
theorem cells_chunks_le {zs : List ℕ} (nodup : zs.Nodup) (address : ℕ) (list : List LiveBlock)
    (homes : ∀ block ∈ list, ∃ z ∈ zs, block.home = some z)
    (parts : ∀ z ∈ zs, cells 1 (s.blocks (list.filter fun block => block.home = some z)) address +
      inside z (z + sizeofSlabZone) address ≤ inside z (z + s.zoneSize) address) :
    cells 1 (s.blocks list) address + cells 1 (zs.map fun z => ⟨z, sizeofSlabZone⟩) address ≤
      cells 1 (zs.map fun z => ⟨z, s.zoneSize⟩) address := by
  induction zs generalizing list with
  | nil =>
    obtain rfl : list = [] := List.eq_nil_iff_forall_not_mem.mpr fun block member => by
      obtain ⟨z, absent, -⟩ := homes block member
      exact absurd absent List.not_mem_nil
    exact Nat.zero_le _
  | cons z rest ih =>
    obtain ⟨fresh, nodupRest⟩ := List.nodup_cons.mp nodup
    obtain ⟨part, partsRest⟩ := List.forall_mem_cons.mp parts
    have split : cells 1 (s.blocks list) address =
        cells 1 (s.blocks (list.filter fun block => block.home = some z)) address +
          cells 1 (s.blocks (list.filter fun block => !decide (block.home = some z))) address := by
      rw [← cells_append, blocks, blocks, blocks, ← List.map_append]
      exact (cells_eq_of_perm ((List.filter_append_perm _ list).map _) address).symm
    have later := ih nodupRest (list.filter fun block => !decide (block.home = some z)) ?_ ?_
    · rw [List.map_cons, List.map_cons, cells_cons, cells_cons, split]
      simp only [Extent.stop, Nat.mul_one]
      omega
    · intro block member
      obtain ⟨inList, elsewhere⟩ := List.mem_filter.mp member
      obtain ⟨home, inZones, eq⟩ := homes block inList
      rcases List.mem_cons.mp inZones with rfl | inRest
      · simp [eq] at elsewhere
      · exact ⟨home, inRest, eq⟩
    · intro other inRest
      have different : other ≠ z := fun same => fresh (same ▸ inRest)
      rw [List.filter_filter]
      have same : (list.filter fun block => decide (block.home = some other) && !decide (block.home = some z)) =
          list.filter fun block => decide (block.home = some other) := by
        refine List.filter_congr fun block _ => ?_
        by_cases home : block.home = some other
        · rw [home, decide_eq_true rfl, decide_eq_false fun eq => different (Option.some.inj eq)]
          rfl
        · rw [decide_eq_false home]
          rfl
      rw [same]
      exact partsRest other inRest

/-- The live blocks, the headers of the zones and the free pages are apart. -/
theorem Sound.apart (sound : s.Sound live) (address : ℕ) :
    cells 1 (s.blocks live) address + cells 1 s.headers address + cells rtMmPageSize s.rtPageList address ≤ 1 := by
  have once := sound.once address
  have split : cells 1 (s.blocks live) address =
      cells 1 (s.blocks (live.filter fun block => block.home = none)) address +
        cells 1 (s.blocks (live.filter fun block => !decide (block.home = none))) address := by
    rw [← cells_append, blocks, blocks, blocks, ← List.map_append]
    exact (cells_eq_of_perm ((List.filter_append_perm _ live).map _) address).symm
  have large : cells 1 (s.blocks (live.filter fun block => block.home = none)) address =
      cells rtMmPageSize (s.largeRuns live) address := by
    rw [blocks, largeRuns]
    refine cells_map_congr (fun block member => ?_) address
    obtain ⟨inLive, home⟩ := List.mem_filter.mp member
    refine ⟨rfl, ?_⟩
    rw [sound.usable_large inLive (of_decide_eq_true home), Extent.stop, Extent.stop, Nat.mul_one]
  have runs : cells 1 (s.zones.map fun z => ⟨z, s.zoneSize⟩) address = cells rtMmPageSize s.zoneRuns address := by
    rw [zoneRuns]
    refine cells_map_congr (fun z _ => ?_) address
    refine ⟨rfl, ?_⟩
    rw [Extent.stop, Extent.stop, Nat.mul_one, sound.config.pages]
  have chunks := s.cells_chunks_le sound.lists.nodup address (live.filter fun block => !decide (block.home = none))
    ?_ ?_
  · rw [headers]
    omega
  · intro block member
    obtain ⟨inLive, home⟩ := List.mem_filter.mp member
    cases eq : block.home with
    | none => simp [eq] at home
    | some z => exact ⟨z, (sound.chunks block inLive z eq).1, rfl⟩
  · intro z inZones
    have inZone : ((live.filter fun block => !decide (block.home = none)).filter fun block => block.home = some z) =
        live.filter fun block => block.home = some z := by
      rw [List.filter_filter]
      refine List.filter_congr fun block _ => ?_
      cases block.home <;> simp
    have runs : s.blocks (live.filter fun block => block.home = some z) =
        chunkRuns (s.zone z).zChunksize (chunksOf live z) := by
      rw [blocks, chunkRuns, chunksOf, List.map_map]
      refine List.map_congr_left fun block member => ?_
      obtain ⟨inLive, home⟩ := List.mem_filter.mp member
      rw [sound.usable_chunk inLive (of_decide_eq_true home)]
      rfl
    rw [inZone, runs]
    exact (sound.zones z inZones).cells_le address

theorem Sound.wellFormed (sound : s.Sound live) : s.WellFormed live where
  nfree z member := (sound.zones z member).nfree
  linked z member := by
    rw [sound.lists.listed, Nat.pos_iff_ne_zero]
    exact ⟨fun listed => listed.2.2, fun free => ⟨member, rfl, free⟩⟩
  apart := sound.apart
  enough block member := by
    cases home : block.home with
    | none =>
      rw [sound.usable_large member home]
      exact (sound.larges block member home).2.2.2.2
    | some z =>
      rw [sound.usable_chunk member home]
      exact (sound.chunks block member z home).2
  mapped z member address lower upper := sound.mapped member lower upper

/-! ## One zone changes -/

/-- Nothing but zone headers, lists of zones, bytes and statistics differs. -/
structure SamePages (s t : Slab) : Prop where
  zoneSize : t.zoneSize = s.zoneSize
  zoneLimit : t.zoneLimit = s.zoneLimit
  zonePageCnt : t.zonePageCnt = s.zonePageCnt
  rtPageList : t.rtPageList = s.rtPageList
  memusage : t.memusage = s.memusage
  zones : t.zones = s.zones

theorem SamePages.btokup {t : Slab} (pages : SamePages s t) (addr : ℕ) : t.btokup addr = s.btokup addr :=
  congrFun pages.memusage _

theorem SamePages.trans {t u : Slab} (first : SamePages s t) (second : SamePages t u) : SamePages s u :=
  ⟨second.zoneSize.trans first.zoneSize, second.zoneLimit.trans first.zoneLimit,
    second.zonePageCnt.trans first.zonePageCnt, second.rtPageList.trans first.rtPageList,
    second.memusage.trans first.memusage, second.zones.trans first.zones⟩

theorem samePages_setZone (z : ℕ) (header : SlabZone) : SamePages s (s.setZone z header) :=
  ⟨rfl, rfl, rfl, rfl, rfl, rfl⟩

theorem samePages_setArray (zi : ℕ) (list : List ℕ) : SamePages s (s.setArray zi list) :=
  ⟨rfl, rfl, rfl, rfl, rfl, rfl⟩

theorem samePages_usedMem (usedMem : ℕ) : SamePages s { s with usedMem } := ⟨rfl, rfl, rfl, rfl, rfl, rfl⟩

/-- A zone whose header and chunks in use change together keeps the heap sound. -/
theorem Sound.rezone (sound : s.Sound live) {t : Slab} (pages : SamePages s t) {header : SlabZone}
    (zone : t.zone = Function.update s.zone z header) (lists : t.ZoneLists) {now : List LiveBlock}
    (ok : ZoneOk s.zoneSize z header (chunksOf now z))
    (others : ∀ other, other ≠ z → chunksOf now other = chunksOf live other)
    (larges : (now.filter fun block => block.home = none) = live.filter fun block => block.home = none)
    (chunks : ∀ block ∈ now, ∀ z, block.home = some z → z ∈ s.zones ∧ block.size ≤ (t.zone z).zChunksize) :
    t.Sound now where
  config := by
    have config := sound.config
    exact ⟨by rw [pages.zonePageCnt, pages.zoneSize]; exact config.pages, pages.zoneSize ▸ config.large,
      pages.zoneLimit ▸ config.limit, by rw [pages.zoneLimit, pages.zoneSize]; exact config.quarter⟩
  pageList := pages.rtPageList ▸ sound.pageList
  once address := by
    have runs : t.zoneRuns = s.zoneRuns := by rw [zoneRuns, zoneRuns, pages.zones, pages.zonePageCnt]
    have blocks : t.largeRuns now = s.largeRuns live := by
      rw [largeRuns, largeRuns, larges]
      exact List.map_congr_left fun block _ => by rw [pages.btokup]
    rw [runs, blocks, pages.rtPageList]
    exact sound.once address
  lists := lists
  zones other member := by
    rw [pages.zones] at member
    rw [pages.zoneSize, zone]
    by_cases same : other = z
    · rw [same, Function.update_self]
      exact ok
    · rw [Function.update_of_ne same, others other same]
      exact sound.zones other member
  aligned other member := sound.aligned other (pages.zones ▸ member)
  usage other member off inside_ := by
    rw [pages.memusage]
    exact sound.usage other (pages.zones ▸ member) off (pages.zonePageCnt ▸ inside_)
  chunks block member z home := by
    rw [pages.zones]
    exact chunks block member z home
  larges block member home := by
    have inFilter : block ∈ now.filter fun block => block.home = none :=
      List.mem_filter.mpr ⟨member, decide_eq_true home⟩
    rw [larges] at inFilter
    rw [pages.btokup]
    exact sound.larges block (List.mem_of_mem_filter inFilter) home

/-- A zone outside the free zones is relinked as its `z_nfree` becomes zero or not. -/
theorem ZoneLists.relink (lists : s.ZoneLists) {t : Slab} {header : SlabZone} {list : List ℕ}
    (zones : t.zones = s.zones) (free : t.zoneFree = s.zoneFree) (zone : t.zone = Function.update s.zone z header)
    (array : t.zoneArray = Function.update s.zoneArray (s.zone z).zZoneindex list) (member : z ∈ s.zones)
    (inUse : z ∉ s.zoneFree) (index : header.zZoneindex = (s.zone z).zZoneindex)
    (magic : header.zMagic = (s.zone z).zMagic) (nodup : list.Nodup)
    (others : ∀ other, other ≠ z → (other ∈ list ↔ other ∈ s.zoneArray (s.zone z).zZoneindex))
    (own : z ∈ list ↔ header.zNfree ≠ 0) : t.ZoneLists where
  nodup := zones ▸ lists.nodup
  arrays zi := by
    rw [array]
    by_cases same : zi = (s.zone z).zZoneindex
    · rw [same, Function.update_self]
      exact nodup
    · rw [Function.update_of_ne same]
      exact lists.arrays zi
  free := free ▸ lists.free
  listed zi other := by
    rw [array, zones, free, zone]
    by_cases atZone : other = z
    · subst atZone
      rw [Function.update_self, index]
      by_cases same : zi = (s.zone other).zZoneindex
      · rw [same, Function.update_self, own]
        exact ⟨fun nonzero => ⟨member, rfl, nonzero, inUse⟩, fun all => all.2.2.1⟩
      · rw [Function.update_of_ne same, lists.listed]
        exact ⟨fun all => absurd all.2.1.symm same, fun all => absurd all.2.1.symm same⟩
    · rw [Function.update_of_ne atZone]
      by_cases same : zi = (s.zone z).zZoneindex
      · rw [same, Function.update_self, others other atZone, lists.listed]
      · rw [Function.update_of_ne same, lists.listed]
  parked other inFree := by
    rw [free] at inFree
    have different : other ≠ z := fun same => inUse (same ▸ inFree)
    rw [zones, zone, Function.update_of_ne different]
    exact lists.parked other inFree
  magic other inZones notFree := by
    rw [zones] at inZones
    rw [free] at notFree
    rw [zone]
    by_cases same : other = z
    · rw [same, Function.update_self, magic]
      exact lists.magic z member inUse
    · rw [Function.update_of_ne same]
      exact lists.magic other inZones notFree

end Slab

/-! ## Chunks in use -/

theorem chunksOf_cons_self (ptr size z : ℕ) (live : List LiveBlock) :
    chunksOf (⟨ptr, size, some z⟩ :: live) z = ptr :: chunksOf live z := by
  rw [chunksOf, List.filter_cons_of_pos (by simp)]
  rfl

theorem chunksOf_cons_of_ne {block : LiveBlock} {z : ℕ} (other : block.home ≠ some z) (live : List LiveBlock) :
    chunksOf (block :: live) z = chunksOf live z := by
  rw [chunksOf, List.filter_cons_of_neg (by simpa using other)]
  rfl

theorem chunksOf_cons_large (ptr size z : ℕ) (live : List LiveBlock) :
    chunksOf (⟨ptr, size, none⟩ :: live) z = chunksOf live z :=
  chunksOf_cons_of_ne (Option.some_ne_none z).symm live

theorem filter_large_cons {block : LiveBlock} {z : ℕ} (home : block.home = some z) (live : List LiveBlock) :
    ((block :: live).filter fun block => block.home = none) = live.filter fun block => block.home = none :=
  List.filter_cons_of_neg (by simp [home])

namespace Slab

variable {s : Slab} {live : List LiveBlock}

variable {t : Slab} {header : SlabZone} {rest : List ℕ} {rtPageList : List Extent}

theorem SamePages.homeOf (pages : SamePages s t) (ptr : ℕ) : t.homeOf ptr = s.homeOf ptr := by
  simp only [Slab.homeOf, Slab.zoneOf, pages.btokup]

theorem Sound.homeOf (sound : s.Sound live) {z : ℕ} (member : z ∈ s.zones) {used : List ℕ}
    (ok : ZoneOk s.zoneSize z header used) {chunk : ℕ} (inUse : chunk ∈ used) : s.homeOf chunk = some z := by
  obtain ⟨lower, upper⟩ := ok.bounds inUse
  have := ok.positive
  obtain ⟨small, back⟩ := sound.mapped member ((Nat.le_add_right _ _).trans lower) (by omega)
  rw [Slab.homeOf, small, if_neg (by decide), back]

theorem Sound.handOut (sound : s.Sound live) (pages : SamePages s t) (lists : t.ZoneLists) {z n chunk : ℕ}
    (member : z ∈ s.zones) (zone : t.zone = Function.update s.zone z header)
    (ok : ZoneOk s.zoneSize z header (chunk :: chunksOf live z)) (enough : n ≤ header.zChunksize)
    (size : chunksOf live z = [] ∨ header.zChunksize = (s.zone z).zChunksize) :
    t.Sound (⟨chunk, n, t.homeOf chunk⟩ :: live) := by
  have home : t.homeOf chunk = some z :=
    (pages.homeOf chunk).trans (sound.homeOf member ok List.mem_cons_self)
  rw [home]
  refine sound.rezone pages zone lists (by rwa [chunksOf_cons_self]) (fun other different => ?_)
    (filter_large_cons rfl live) fun block inNow other inZone => ?_
  · exact chunksOf_cons_of_ne (fun same => different (Option.some.inj same).symm) live
  · rw [zone]
    rcases List.mem_cons.mp inNow with rfl | inLive
    · obtain rfl := Option.some.inj inZone
      rw [Function.update_self]
      exact ⟨member, enough⟩
    · obtain ⟨inZones, fits⟩ := sound.chunks block inLive other inZone
      refine ⟨inZones, ?_⟩
      by_cases same : other = z
      · subst same
        rw [Function.update_self]
        rcases size with none_ | kept
        · obtain ⟨-, inUse, -⟩ := sound.chunk inLive inZone
          rw [none_] at inUse
          exact absurd inUse List.not_mem_nil
        · rw [kept]
          exact fits
      · rw [Function.update_of_ne same]
        exact fits

theorem setArray_self (s : Slab) (zi : ℕ) : s.setArray zi (s.zoneArray zi) = s := by
  rw [setArray, Function.update_eq_self]

theorem Sound.takeChunk (sound : s.Sound live) {zi z n size : ℕ} (head : s.zoneArray zi = z :: rest)
    (chunkSize : size = chunkSizeAt zi) (enough : n ≤ size) {chunk : ℕ}
    (taken : s.takeChunk z rest size zi = some (t, chunk)) : t.Sound (⟨chunk, n, t.homeOf chunk⟩ :: live) := by
  have first : z ∈ s.zoneArray zi := head ▸ List.mem_cons_self
  obtain ⟨inZones, index, nonzero, notFree⟩ := (sound.lists.listed zi z).mp first
  have ok := sound.zones z inZones
  have sized : (s.zone z).zChunksize = size := by rw [ok.sized, index, chunkSize]
  have nodup := sound.lists.arrays zi
  rw [head] at nodup
  obtain ⟨fresh, nodupRest⟩ := List.nodup_cons.mp nodup
  obtain ⟨list, listEq⟩ : ∃ list, (if (s.zone z).zNfree - 1 = 0 then rest else z :: rest) = list := ⟨_, rfl⟩
  have relinked : (if (s.zone z).zNfree - 1 = 0 then s.setArray zi rest else s) = s.setArray zi list := by
    rw [← listEq]
    split_ifs
    · rfl
    · rw [← head, setArray_self]
  have lists (header : SlabZone) (used : ℕ) (left : header.zNfree = (s.zone z).zNfree - 1)
      (sameIndex : header.zZoneindex = (s.zone z).zZoneindex) (sameMagic : header.zMagic = (s.zone z).zMagic) :
      (((s.setArray zi list).setZone z header).useMem used).ZoneLists := by
    have linked : (((s.setArray zi list).setZone z header).useMem used).zoneArray =
        Function.update s.zoneArray (s.zone z).zZoneindex list := by
      rw [index]
      rfl
    refine sound.lists.relink rfl rfl rfl linked inZones notFree sameIndex sameMagic ?_ (fun other different => ?_) ?_
    · rw [← listEq]
      split_ifs
      · exact nodupRest
      · exact nodup
    · rw [index, head, ← listEq, List.mem_cons]
      split_ifs
      · exact (or_iff_right different).symm
      · rw [List.mem_cons]
    · rw [left, ← listEq]
      split_ifs with last
      · exact iff_of_false fresh fun more => more last
      · exact iff_of_true List.mem_cons_self last
  rw [Slab.takeChunk] at taken
  dsimp only at taken
  rw [if_neg nonzero, relinked] at taken
  split_ifs at taken with never
  · obtain ⟨rfl, rfl⟩ := Prod.mk.inj (Option.some.inj taken)
    have grown := ok.takeNew never
    have next := lists { s.zone z with zNfree := (s.zone z).zNfree - 1, zUindex := (s.zone z).zUindex + 1 }
      (s.zone z).zChunksize rfl rfl rfl
    refine sound.handOut ?_ next inZones rfl ?_ ?_ (Or.inr rfl)
    · exact ⟨rfl, rfl, rfl, rfl, rfl, rfl⟩
    · rw [← sized]
      exact grown
    · exact enough.trans sized.ge
  · cases list' : (s.zone z).zFreechunk with
    | nil => exact absurd list' (ok.freechunk_ne_nil nonzero (not_not.mp never))
    | cons free more =>
      rw [list'] at taken
      obtain ⟨rfl, rfl⟩ := Prod.mk.inj (Option.some.inj taken)
      have shorter := ok.takeFree nonzero list'
      have next := lists { s.zone z with zNfree := (s.zone z).zNfree - 1, zFreechunk := more }
        (s.zone z).zChunksize rfl rfl rfl
      refine sound.handOut ?_ next inZones rfl shorter (enough.trans sized.ge) (Or.inr rfl)
      exact ⟨rfl, rfl, rfl, rfl, rfl, rfl⟩

/-! ## Zones come and go -/

theorem ZoneLists.unpark (lists : s.ZoneLists) {z zi : ℕ} (head : s.zoneFree = z :: rest) (zones : t.zones = s.zones)
    (free : t.zoneFree = rest) (zone : t.zone = Function.update s.zone z header)
    (array : t.zoneArray = Function.update s.zoneArray zi (z :: s.zoneArray zi)) (index : header.zZoneindex = zi)
    (magic : header.zMagic = zallocSlabMagic) (nonzero : header.zNfree ≠ 0) : t.ZoneLists := by
  have inFree : z ∈ s.zoneFree := head ▸ List.mem_cons_self
  obtain ⟨inZones, -⟩ := lists.parked z inFree
  have unlisted (zi : ℕ) : z ∉ s.zoneArray zi := fun listed => ((lists.listed zi z).mp listed).2.2.2 inFree
  have nodup := lists.free
  rw [head] at nodup
  obtain ⟨fresh, nodupRest⟩ := List.nodup_cons.mp nodup
  refine ⟨zones ▸ lists.nodup, fun other => ?_, free ▸ nodupRest, fun other w => ?_, fun w inRest => ?_,
    fun w inZones notFree => ?_⟩
  · rw [array]
    by_cases same : other = zi
    · rw [same, Function.update_self]
      exact List.nodup_cons.mpr ⟨unlisted zi, lists.arrays zi⟩
    · rw [Function.update_of_ne same]
      exact lists.arrays other
  · rw [array, zones, free, zone]
    by_cases atZone : w = z
    · subst atZone
      rw [Function.update_self, index]
      by_cases same : other = zi
      · rw [same, Function.update_self]
        exact iff_of_true List.mem_cons_self ⟨inZones, rfl, nonzero, fresh⟩
      · rw [Function.update_of_ne same]
        exact iff_of_false (unlisted other) fun all => same all.2.1.symm
    · have outside : w ∉ rest ↔ w ∉ s.zoneFree := by rw [head, List.mem_cons, or_iff_right atZone]
      rw [Function.update_of_ne atZone, outside, ← lists.listed]
      by_cases same : other = zi
      · rw [same, Function.update_self, List.mem_cons, or_iff_right atZone]
      · rw [Function.update_of_ne same]
  · rw [free] at inRest
    have different : w ≠ z := fun same => fresh (same ▸ inRest)
    rw [zones, zone, Function.update_of_ne different]
    exact lists.parked w (head ▸ List.mem_cons_of_mem _ inRest)
  · rw [zones] at inZones
    rw [free] at notFree
    rw [zone]
    by_cases same : w = z
    · rw [same, Function.update_self]
      exact magic
    · rw [Function.update_of_ne same]
      exact lists.magic w inZones (by rw [head, List.mem_cons]; exact not_or.mpr ⟨same, notFree⟩)

/-- A free zone is set up for another chunk size, and hands out its first chunk. -/
theorem Sound.startZone (sound : s.Sound live) {z zi n size : ℕ} (head : s.zoneFree = z :: rest)
    (chunkSize : size = chunkSizeAt zi) (positive : 0 < size) (small : size ≤ s.zoneLimit) (enough : n ≤ size)
    (pages : SamePages s t) (free : t.zoneFree = rest)
    (array : t.zoneArray = Function.update s.zoneArray zi (z :: s.zoneArray zi))
    (zone : t.zone = Function.update s.zone z (freshHeader s.zoneSize z size zi)) {chunk : ℕ}
    (first : chunk = z + chunkOffset size) : t.Sound (⟨chunk, n, t.homeOf chunk⟩ :: live) := by
  obtain ⟨inZones, whole⟩ := sound.lists.parked z (head ▸ List.mem_cons_self)
  have unused := (sound.zones z inZones).unused whole
  have quarter := sound.config.quarter
  have ok : ZoneOk s.zoneSize z (freshHeader s.zoneSize z size zi) [z + chunkOffset size] :=
    ZoneOk.start chunkSize positive (by omega) sound.config.large
  have many := ok.many
  have counted := ok.nfree_add
  rw [List.length_singleton] at counted
  have lists := sound.lists.unpark head pages.zones free zone array rfl rfl (by omega)
  refine sound.handOut pages lists inZones zone ?_ enough (Or.inl unused)
  rw [unused, first]
  exact ok

/-- Two pages on either side of a run of pages have different numbers. -/
theorem page_outside {start page : ℕ} (count off : ℕ) (startAligned : start % rtMmPageSize = 0)
    (aligned : page % rtMmPageSize = 0)
    (outside : ¬ (start ≤ page + off * rtMmPageSize ∧ page + off * rtMmPageSize < start + count * rtMmPageSize)) :
    ¬ (start / rtMmPageSize ≤ page / rtMmPageSize + off ∧
      page / rtMmPageSize + off < start / rtMmPageSize + count) := by
  change ¬ (start / 4096 ≤ page / 4096 + off ∧ page / 4096 + off < start / 4096 + count)
  change ¬ (start ≤ page + off * 4096 ∧ page + off * 4096 < start + count * 4096) at outside
  change start % 4096 = 0 at startAligned
  change page % 4096 = 0 at aligned
  omega

theorem Sound.zone_page (_ : s.Sound live) {z off : ℕ} (member : z ∈ s.zones) (within : off < s.zonePageCnt) :
    0 < cells rtMmPageSize s.zoneRuns (z + off * rtMmPageSize) := by
  refine cells_pos.mpr ⟨⟨z, s.zonePageCnt⟩, List.mem_map_of_mem member, Nat.le_add_right _ _, ?_⟩
  change z + off * 4096 < z + s.zonePageCnt * 4096
  omega

theorem Sound.large_page (sound : s.Sound live) {kept : List LiveBlock} (sub : kept ⊆ live) {block : LiveBlock}
    (member : block ∈ kept) (home : block.home = none) :
    0 < cells rtMmPageSize (s.largeRuns kept) block.ptr := by
  have long : (⟨block.ptr, (s.btokup block.ptr).size⟩ : Extent).addr <
      (⟨block.ptr, (s.btokup block.ptr).size⟩ : Extent).stop rtMmPageSize :=
    addr_lt_stop (sound.larges block (sub member) home).2.2.2.1 (by decide)
  exact cells_pos.mpr ⟨_, List.mem_map_of_mem (List.mem_filter.mpr ⟨member, decide_eq_true home⟩), le_rfl, long⟩

/-- The large blocks are counted in the same way when their descriptors stay. -/
theorem largeRuns_congr {blocks : List LiveBlock}
    (same : ∀ block ∈ blocks, block.home = none → t.btokup block.ptr = s.btokup block.ptr) :
    t.largeRuns blocks = s.largeRuns blocks := by
  refine List.map_congr_left fun block member => ?_
  obtain ⟨inBlocks, home⟩ := List.mem_filter.mp member
  rw [same block inBlocks (of_decide_eq_true home)]

/-- The sizes chosen by `rt_system_heap_init` stay. -/
structure SameSizes (s t : Slab) : Prop where
  zoneSize : t.zoneSize = s.zoneSize
  zoneLimit : t.zoneLimit = s.zoneLimit
  zonePageCnt : t.zonePageCnt = s.zonePageCnt

theorem SameSizes.config (sizes : SameSizes s t) (config : s.Config) : t.Config := by
  obtain ⟨zoneSize, zoneLimit, zonePageCnt⟩ := sizes
  refine ⟨?_, zoneSize ▸ config.large, zoneLimit ▸ config.limit, ?_⟩
  · rw [zonePageCnt, zoneSize]
    exact config.pages
  · rw [zoneLimit, zoneSize]
    exact config.quarter

theorem Sound.addZone (sound : s.Sound live) (empty : s.zoneFree = []) {z : ℕ}
    (allocated : rtPageAlloc s.rtPageList (s.zoneSize / rtMmPageSize) = some (z, rtPageList))
    (ok : ZoneOk s.zoneSize z header []) (whole : header.zNfree = header.zNmax) (sizes : SameSizes s t)
    (list : t.rtPageList = rtPageList) (zones : t.zones = z :: s.zones) (free : t.zoneFree = [z])
    (array : t.zoneArray = s.zoneArray) (zone : t.zone = Function.update s.zone z header)
    (memusage : t.memusage = (s.setUsage z fun off => ⟨pageTypeSmall, off⟩).memusage) : t.Sound live := by
  obtain ⟨pageList, -, aligned, -, taken⟩ := sound.pageList.alloc allocated
  have pages : s.zoneSize / rtMmPageSize = s.zonePageCnt := by
    rw [← sound.config.pages]
    exact Nat.mul_div_cancel _ (by decide)
  rw [pages] at taken
  have clear (address : ℕ) (lower : z ≤ address) (upper : address < z + s.zonePageCnt * rtMmPageSize) :
      cells rtMmPageSize s.zoneRuns address = 0 ∧ cells rtMmPageSize (s.largeRuns live) address = 0 := by
    have := inside_pos.mpr ⟨lower, upper⟩
    have := taken address
    have := sound.once address
    omega
  have nonzero : 0 < s.zonePageCnt := by
    have pageSize : s.zonePageCnt * 4096 = s.zoneSize := sound.config.pages
    have := sound.config.large
    omega
  have fresh : z ∉ s.zones := fun member => by
    have counted := sound.zone_page member nonzero
    have := clear (z + 0 * rtMmPageSize) (Nat.le_add_right _ _) (by change z + 0 * 4096 < z + _ * 4096; omega)
    omega
  have different {w : ℕ} (member : w ∈ s.zones) : w ≠ z := fun same => fresh (same ▸ member)
  have zoneKup {w off : ℕ} (member : w ∈ s.zones) (within : off < s.zonePageCnt) :
      ¬ (z / rtMmPageSize ≤ w / rtMmPageSize + off ∧ w / rtMmPageSize + off < z / rtMmPageSize + s.zonePageCnt) := by
    refine page_outside _ off aligned (sound.aligned w member) fun inside_ => ?_
    have := sound.zone_page member within
    have := clear _ inside_.1 inside_.2
    omega
  have largeKup : ∀ block ∈ live, block.home = none →
      ¬ (z / rtMmPageSize ≤ block.ptr / rtMmPageSize ∧
        block.ptr / rtMmPageSize < z / rtMmPageSize + s.zonePageCnt) := by
    intro block member home
    refine page_outside _ 0 aligned (sound.larges block member home).1 fun inside_ => ?_
    have := sound.large_page (List.Subset.refl live) member home
    have := clear _ inside_.1 inside_.2
    rw [Nat.zero_mul, Nat.add_zero] at this
    omega
  have kupOutside {page : ℕ} (outside : ¬ (z / rtMmPageSize ≤ page ∧ page < z / rtMmPageSize + s.zonePageCnt)) :
      t.memusage page = s.memusage page := by
    rw [memusage]
    exact if_neg outside
  have kupInside {off : ℕ} (within : off < s.zonePageCnt) :
      t.memusage (z / rtMmPageSize + off) = ⟨pageTypeSmall, off⟩ := by
    rw [memusage]
    refine (if_pos ⟨Nat.le_add_right _ _, Nat.add_lt_add_left within _⟩).trans ?_
    rw [Nat.add_sub_cancel_left]
  have arrays (zi : ℕ) : z ∉ s.zoneArray zi := fun listed => fresh ((sound.lists.listed zi z).mp listed).1
  have lists : t.ZoneLists := by
    refine ⟨?_, fun zi => ?_, ?_, fun zi w => ?_, fun w member => ?_, fun w member notFree => ?_⟩
    · rw [zones]
      exact List.nodup_cons.mpr ⟨fresh, sound.lists.nodup⟩
    · rw [array]
      exact sound.lists.arrays zi
    · rw [free]
      exact List.nodup_cons.mpr ⟨List.not_mem_nil, List.nodup_nil⟩
    · rw [array, zones, free, zone]
      by_cases same : w = z
      · subst same
        exact iff_of_false (arrays zi) fun all => all.2.2.2 List.mem_cons_self
      · have outside : w ∉ [z] ↔ w ∉ s.zoneFree := by rw [empty, List.mem_singleton]; simp [same]
        rw [Function.update_of_ne same, List.mem_cons, or_iff_right same, outside]
        exact sound.lists.listed zi w
    · rw [free] at member
      obtain rfl := List.mem_singleton.mp member
      rw [zones, zone, Function.update_self]
      exact ⟨List.mem_cons_self, whole⟩
    · rw [zones] at member
      rw [free] at notFree
      have same : w ≠ z := fun same => notFree (same ▸ List.mem_cons_self)
      rw [zone, Function.update_of_ne same]
      exact sound.lists.magic w ((List.mem_cons.mp member).resolve_left same) (empty ▸ List.not_mem_nil)
  have unused : chunksOf live z = [] := by
    refine List.map_eq_nil_iff.mpr (List.filter_eq_nil_iff.mpr fun block member home => ?_)
    exact fresh (sound.chunks block member z (of_decide_eq_true home)).1
  refine ⟨sizes.config sound.config, list ▸ pageList, fun address => ?_, lists, fun w member => ?_,
    fun w member => ?_, fun w member off within => ?_, fun block member w home => ?_, fun block member home => ?_⟩
  · have runs : t.largeRuns live = s.largeRuns live :=
      largeRuns_congr fun block member home => kupOutside (largeKup block member home)
    have := taken address
    have := sound.once address
    rw [runs, list, zoneRuns, zones, sizes.zonePageCnt, List.map_cons, cells_cons]
    change cells rtMmPageSize rtPageList address +
      (inside z (z + s.zonePageCnt * rtMmPageSize) address + cells rtMmPageSize s.zoneRuns address) + _ ≤ 1
    omega
  · rw [zones] at member
    rw [sizes.zoneSize, zone]
    rcases List.mem_cons.mp member with rfl | old
    · rw [Function.update_self, unused]
      exact ok
    · rw [Function.update_of_ne (different old)]
      exact sound.zones w old
  · rw [zones] at member
    rcases List.mem_cons.mp member with rfl | old
    · exact aligned
    · exact sound.aligned w old
  · rw [zones] at member
    rw [sizes.zonePageCnt] at within
    rcases List.mem_cons.mp member with rfl | old
    · exact kupInside within
    · rw [kupOutside (zoneKup old within)]
      exact sound.usage w old off within
  · obtain ⟨inZones, fits⟩ := sound.chunks block member w home
    rw [zones, zone, Function.update_of_ne (different inZones)]
    exact ⟨List.mem_cons_of_mem _ inZones, fits⟩
  · have kup : t.btokup block.ptr = s.btokup block.ptr := kupOutside (largeKup block member home)
    rw [kup]
    exact sound.larges block member home

theorem Sound.zoneRuns_split (_ : s.Sound live) {z : ℕ} (member : z ∈ s.zones) (address : ℕ) :
    cells rtMmPageSize s.zoneRuns address = inside z (z + s.zonePageCnt * rtMmPageSize) address +
      cells rtMmPageSize ((s.zones.erase z).map fun z => ⟨z, s.zonePageCnt⟩) address :=
  cells_eq_of_perm ((List.perm_cons_erase member).map fun z => (⟨z, s.zonePageCnt⟩ : Extent)) address

theorem Sound.zones_apart (sound : s.Sound live) {z w address : ℕ} (first : z ∈ s.zones) (second : w ∈ s.zones)
    (different : w ≠ z) (inFirst : z ≤ address ∧ address < z + s.zonePageCnt * rtMmPageSize) :
    ¬ (w ≤ address ∧ address < w + s.zonePageCnt * rtMmPageSize) := by
  intro inSecond
  have inRest : w ∈ s.zones.erase z := (List.mem_erase_of_ne different).mpr second
  have more : 0 < cells rtMmPageSize ((s.zones.erase z).map fun z => ⟨z, s.zonePageCnt⟩) address :=
    cells_pos.mpr ⟨⟨w, s.zonePageCnt⟩, List.mem_map_of_mem inRest, inSecond.1, inSecond.2⟩
  have one := inside_pos.mpr inFirst
  have split := sound.zoneRuns_split first address
  have := sound.once address
  omega

theorem ZoneLists.congr (lists : s.ZoneLists) (zones : t.zones = s.zones) (free : t.zoneFree = s.zoneFree)
    (array : t.zoneArray = s.zoneArray) (zone : t.zone = s.zone) : t.ZoneLists := by
  obtain ⟨nodup, arrays, frees, listed, parked, magic⟩ := lists
  refine ⟨zones ▸ nodup, array ▸ arrays, free ▸ frees, ?_, ?_, ?_⟩
  · rw [zones, free, array, zone]
    exact listed
  · rw [zones, free, zone]
    exact parked
  · rw [zones, free, zone]
    exact magic

theorem ZoneLists.drop (lists : s.ZoneLists) {z : ℕ} (head : s.zoneFree = z :: rest) (zones : t.zones = s.zones.erase z)
    (free : t.zoneFree = rest) (array : t.zoneArray = s.zoneArray) (zone : t.zone = s.zone) : t.ZoneLists := by
  have inFree : z ∈ s.zoneFree := head ▸ List.mem_cons_self
  have nodup := lists.free
  rw [head] at nodup
  obtain ⟨fresh, nodupRest⟩ := List.nodup_cons.mp nodup
  have outside {w : ℕ} (different : w ≠ z) : w ∉ rest ↔ w ∉ s.zoneFree := by
    rw [head, List.mem_cons, or_iff_right different]
  refine ⟨zones ▸ lists.nodup.erase z, array ▸ lists.arrays, free ▸ nodupRest, fun zi w => ?_, fun w inRest => ?_,
    fun w inZones notFree => ?_⟩
  · rw [array, zones, free, zone]
    by_cases same : w = z
    · subst same
      exact iff_of_false (fun listed => ((lists.listed zi w).mp listed).2.2.2 inFree)
        fun all => lists.nodup.not_mem_erase all.1
    · rw [List.mem_erase_of_ne same, outside same]
      exact lists.listed zi w
  · rw [free] at inRest
    have different : w ≠ z := fun same => fresh (same ▸ inRest)
    rw [zones, zone, List.mem_erase_of_ne different]
    exact lists.parked w (head ▸ List.mem_cons_of_mem _ inRest)
  · rw [zones] at inZones
    rw [free] at notFree
    have different : w ≠ z := fun same => lists.nodup.not_mem_erase (same ▸ inZones)
    rw [zone]
    exact lists.magic w ((List.mem_erase_of_ne different).mp inZones) ((outside different).mp notFree)

theorem Sound.dropZone (sound : s.Sound live) {z : ℕ} (head : s.zoneFree = z :: rest)
    (freed : rtPageFree s.rtPageList z (s.zoneSize / rtMmPageSize) = some rtPageList) (sizes : SameSizes s t)
    (list : t.rtPageList = rtPageList) (zones : t.zones = s.zones.erase z) (free : t.zoneFree = rest)
    (array : t.zoneArray = s.zoneArray) (zone : t.zone = s.zone)
    (memusage : t.memusage = (s.setUsage z fun _ => ⟨pageTypeFree, 0⟩).memusage) : t.Sound live := by
  obtain ⟨inZones, whole⟩ := sound.lists.parked z (head ▸ List.mem_cons_self)
  have unused := (sound.zones z inZones).unused whole
  have aligned := sound.aligned z inZones
  have pages : s.zoneSize / rtMmPageSize = s.zonePageCnt := by
    rw [← sound.config.pages]
    exact Nat.mul_div_cancel _ (by decide)
  have nonzero : 0 < s.zonePageCnt := by
    have pageSize : s.zonePageCnt * 4096 = s.zoneSize := sound.config.pages
    have := sound.config.large
    omega
  rw [pages] at freed
  have notNull : z ≠ 0 := by
    rintro rfl
    rw [rtPageFree, if_pos (Or.inl rfl)] at freed
    cases freed
  have split := sound.zoneRuns_split inZones
  obtain ⟨list', eq, pageList, given⟩ := sound.pageList.free notNull aligned nonzero fun address lower upper => by
    have := inside_pos.mpr ⟨lower, upper⟩
    have := split address
    have := sound.once address
    omega
  obtain rfl := Option.some.inj (eq.symm.trans freed)
  have different {w : ℕ} (member : w ∈ s.zones.erase z) : w ≠ z :=
    fun same => sound.lists.nodup.not_mem_erase (same ▸ member)
  have kupOutside {page : ℕ} (off : ℕ) (start : page % rtMmPageSize = 0)
      (outside : ¬ (z ≤ page + off * rtMmPageSize ∧ page + off * rtMmPageSize < z + s.zonePageCnt * rtMmPageSize)) :
      t.memusage (page / rtMmPageSize + off) = s.memusage (page / rtMmPageSize + off) := by
    rw [memusage]
    exact if_neg (page_outside _ off aligned start outside)
  have largeKup : ∀ block ∈ live, block.home = none → t.btokup block.ptr = s.btokup block.ptr := by
    intro block member home
    refine kupOutside 0 (sound.larges block member home).1 fun within => ?_
    rw [Nat.zero_mul, Nat.add_zero] at within
    have := inside_pos.mpr within
    have := sound.large_page (List.Subset.refl live) member home
    have := split block.ptr
    have := sound.once block.ptr
    omega
  refine ⟨sizes.config sound.config, list ▸ pageList, fun address => ?_, sound.lists.drop head zones free array zone,
    fun w member => ?_, fun w member => ?_, fun w member off within => ?_, fun block member w home => ?_,
    fun block member home => ?_⟩
  · have := given address
    have := split address
    have := sound.once address
    rw [largeRuns_congr largeKup, list, zoneRuns, zones, sizes.zonePageCnt]
    omega
  · rw [sizes.zoneSize, zone]
    exact sound.zones w (List.mem_of_mem_erase (zones ▸ member))
  · exact sound.aligned w (List.mem_of_mem_erase (zones ▸ member))
  · rw [zones] at member
    rw [sizes.zonePageCnt] at within
    have inOld := List.mem_of_mem_erase member
    rw [kupOutside off (sound.aligned w inOld) fun shared => ?_]
    · exact sound.usage w inOld off within
    · exact sound.zones_apart inZones inOld (different member) shared
        ⟨Nat.le_add_right _ _, Nat.add_lt_add_left (Nat.mul_lt_mul_of_pos_right within (by decide)) _⟩
  · obtain ⟨inOld, fits⟩ := sound.chunks block member w home
    have other : w ≠ z := by
      rintro rfl
      obtain ⟨-, inUse, -⟩ := sound.chunk member home
      rw [unused] at inUse
      exact absurd inUse List.not_mem_nil
    rw [zones, zone]
    exact ⟨(List.mem_erase_of_ne other).mpr inOld, fits⟩
  · rw [largeKup block member home]
    exact sound.larges block member home

/-- A zone whose chunks are all free leaves its list for the free zones. -/
theorem Sound.park (sound : s.Sound live) {z : ℕ} (member : z ∈ s.zones) (notFree : z ∉ s.zoneFree)
    (whole : (s.zone z).zNfree = (s.zone z).zNmax) (pages : SamePages s t) (free : t.zoneFree = z :: s.zoneFree)
    (array : t.zoneArray = Function.update s.zoneArray (s.zone z).zZoneindex ((s.zoneArray (s.zone z).zZoneindex).erase z))
    (zone : t.zone = Function.update s.zone z { s.zone z with zMagic := 2 ^ 32 - 1 }) : t.Sound live := by
  have lists : t.ZoneLists := by
    obtain ⟨nodup, arrays, frees, listed, parked, magic⟩ := sound.lists
    refine ⟨pages.zones ▸ nodup, fun zi => ?_, free ▸ List.nodup_cons.mpr ⟨notFree, frees⟩, fun zi w => ?_,
      fun w inFree => ?_, fun w inZones outside => ?_⟩
    · rw [array]
      by_cases same : zi = (s.zone z).zZoneindex
      · rw [same, Function.update_self]
        exact (arrays _).erase z
      · rw [Function.update_of_ne same]
        exact arrays zi
    · rw [array, pages.zones, free, zone]
      by_cases atZone : w = z
      · subst atZone
        refine iff_of_false (fun inArray => ?_) fun all => all.2.2.2 List.mem_cons_self
        by_cases same : zi = (s.zone w).zZoneindex
        · rw [same, Function.update_self] at inArray
          exact (arrays _).not_mem_erase inArray
        · rw [Function.update_of_ne same] at inArray
          exact same ((listed zi w).mp inArray).2.1.symm
      · rw [Function.update_of_ne atZone, List.mem_cons, or_iff_right atZone, ← listed]
        by_cases same : zi = (s.zone z).zZoneindex
        · rw [same, Function.update_self, List.mem_erase_of_ne atZone]
        · rw [Function.update_of_ne same]
    · rw [free] at inFree
      rw [pages.zones, zone]
      by_cases same : w = z
      · subst same
        rw [Function.update_self]
        exact ⟨member, whole⟩
      · rw [Function.update_of_ne same]
        exact parked w ((List.mem_cons.mp inFree).resolve_left same)
    · rw [pages.zones] at inZones
      rw [free] at outside
      obtain ⟨same, old⟩ := not_or.mp (List.mem_cons.not.mp outside)
      rw [zone, Function.update_of_ne same]
      exact magic w inZones old
  refine sound.rezone pages zone lists { sound.zones z member with } (fun _ _ => rfl) rfl fun block inLive w home => ?_
  obtain ⟨inZones, fits⟩ := sound.chunks block inLive w home
  refine ⟨inZones, ?_⟩
  rw [zone]
  by_cases same : w = z
  · subst same
    rw [Function.update_self]
    exact fits
  · rw [Function.update_of_ne same]
    exact fits

/-! ## Chunks and large blocks -/

theorem Sound.zone_inUse (sound : s.Sound live) {block : LiveBlock} (member : block ∈ live) {z : ℕ}
    (home : block.home = some z) : z ∉ s.zoneFree := by
  intro parked
  obtain ⟨inZones, whole⟩ := sound.lists.parked z parked
  obtain ⟨-, inUse, -⟩ := sound.chunk member home
  rw [(sound.zones z inZones).unused whole] at inUse
  exact List.not_mem_nil inUse

theorem Sound.give {ptr n z : ℕ} (sound : s.Sound (⟨ptr, n, some z⟩ :: live)) (pages : SamePages s t)
    (free : t.zoneFree = s.zoneFree)
    (array : t.zoneArray = Function.update s.zoneArray (s.zone z).zZoneindex (if (s.zone z).zNfree = 0 then z :: s.zoneArray (s.zone z).zZoneindex else s.zoneArray (s.zone z).zZoneindex))
    (zone : t.zone = Function.update s.zone z { s.zone z with zFreechunk := ptr :: (s.zone z).zFreechunk, zNfree := (s.zone z).zNfree + 1 })
    :
    t.Sound live := by
  obtain ⟨member, -⟩ := sound.chunk List.mem_cons_self rfl
  have notFree := sound.zone_inUse List.mem_cons_self rfl
  have ok := sound.zones z member
  rw [chunksOf_cons_self] at ok
  have listed := sound.lists.listed (s.zone z).zZoneindex z
  have nodup := sound.lists.arrays (s.zone z).zZoneindex
  have lists : t.ZoneLists := by
    refine sound.lists.relink pages.zones free zone array member notFree rfl rfl ?_ (fun other different => ?_) ?_
    · split_ifs with full
      · exact List.nodup_cons.mpr ⟨fun inArray => (listed.mp inArray).2.2.1 full, nodup⟩
      · exact nodup
    · split_ifs
      · rw [List.mem_cons, or_iff_right different]
      · exact Iff.rfl
    · refine iff_of_true ?_ (Nat.succ_ne_zero _)
      split_ifs with full
      · exact List.mem_cons_self
      · exact listed.mpr ⟨member, rfl, full, notFree⟩
  refine sound.rezone pages zone lists ok.give (fun other different => ?_) (filter_large_cons rfl live).symm
    fun block inLive w home => ?_
  · exact (chunksOf_cons_of_ne (fun same => different (Option.some.inj same).symm) live).symm
  · obtain ⟨inZones, fits⟩ := sound.chunks block (List.mem_cons_of_mem _ inLive) w home
    refine ⟨inZones, ?_⟩
    rw [zone]
    by_cases same : w = z
    · subst same
      rw [Function.update_self]
      exact fits
    · rw [Function.update_of_ne same]
      exact fits

theorem largeRuns_cons (ptr n : ℕ) (live : List LiveBlock) :
    s.largeRuns (⟨ptr, n, none⟩ :: live) = ⟨ptr, (s.btokup ptr).size⟩ :: s.largeRuns live := by
  rw [largeRuns, List.filter_cons_of_pos (by simp)]
  rfl

/-- The descriptors of the zones and of the large blocks away from a page stay when only that of the
page is written. -/
theorem Sound.writeKup (sound : s.Sound live) {page : ℕ} (start : page % rtMmPageSize = 0)
    (noZone : cells rtMmPageSize s.zoneRuns page = 0) {kept : List LiveBlock} (sub : kept ⊆ live)
    (noBlock : cells rtMmPageSize (s.largeRuns kept) page = 0) {kup : Memusage}
    (memusage : t.memusage = Function.update s.memusage (page / rtMmPageSize) kup) :
    (∀ z ∈ s.zones, ∀ off < s.zonePageCnt, t.memusage (z / rtMmPageSize + off) = ⟨pageTypeSmall, off⟩) ∧
      ∀ block ∈ kept, block.home = none → t.btokup block.ptr = s.btokup block.ptr := by
  have same {a : ℕ} (off : ℕ) (aligned : a % rtMmPageSize = 0) (other : a + off * rtMmPageSize ≠ page) :
      t.memusage (a / rtMmPageSize + off) = s.memusage (a / rtMmPageSize + off) := by
    rw [memusage]
    refine Function.update_of_ne (fun equal => ?_) _ _
    have outside := page_outside 1 off start aligned fun within => ?_
    · exact outside ⟨equal.ge, by omega⟩
    · change page ≤ a + off * 4096 ∧ a + off * 4096 < page + 1 * 4096 at within
      change a + off * 4096 ≠ page at other
      change a % 4096 = 0 at aligned
      change page % 4096 = 0 at start
      omega
  constructor
  · intro z member off within
    rw [same off (sound.aligned z member) fun equal => ?_]
    · exact sound.usage z member off within
    · have := sound.zone_page member within
      rw [equal] at this
      omega
  · intro block member home
    refine same 0 (sound.larges block (sub member) home).1 fun equal => ?_
    rw [Nat.zero_mul, Nat.add_zero] at equal
    have := sound.large_page sub member home
    rw [equal] at this
    omega

theorem Sound.addLarge (sound : s.Sound live) {n count chunk : ℕ}
    (allocated : rtPageAlloc s.rtPageList count = some (chunk, rtPageList)) (enough : n ≤ count * rtMmPageSize)
    (sizes : SameSizes s t) (list : t.rtPageList = rtPageList) (zones : t.zones = s.zones)
    (free : t.zoneFree = s.zoneFree) (array : t.zoneArray = s.zoneArray) (zone : t.zone = s.zone)
    (memusage : t.memusage = Function.update s.memusage (chunk / rtMmPageSize) ⟨pageTypeLarge, count⟩) :
    t.Sound (⟨chunk, n, t.homeOf chunk⟩ :: live) := by
  obtain ⟨pageList, nonzero, aligned, notNull, taken⟩ := sound.pageList.alloc allocated
  have kup : t.btokup chunk = ⟨pageTypeLarge, count⟩ := by
    rw [btokup, memusage, Function.update_self]
  have home : t.homeOf chunk = none := by rw [Slab.homeOf, kup, if_pos rfl]
  have long : 0 < count * rtMmPageSize := Nat.mul_pos nonzero (by decide)
  have one := inside_pos.mpr (⟨le_rfl, Nat.lt_add_of_pos_right long⟩ : chunk ≤ chunk ∧
      chunk < chunk + count * rtMmPageSize)
  have start := taken chunk
  have onceStart := sound.once chunk
  obtain ⟨usage, large⟩ := sound.writeKup aligned (by omega) (List.Subset.refl live) (by omega) memusage
  rw [home]
  refine ⟨sizes.config sound.config, list ▸ pageList, fun address => ?_,
    sound.lists.congr zones free array zone, fun z member => ?_, fun z member => ?_, fun z member off within => ?_,
    fun block member z inZone => ?_, fun block member noZone => ?_⟩
  · have := taken address
    have := sound.once address
    have runs : t.zoneRuns = s.zoneRuns := by rw [zoneRuns, zoneRuns, zones, sizes.zonePageCnt]
    rw [largeRuns_cons, largeRuns_congr large, list, runs, cells_cons, kup]
    dsimp only [Extent.stop]
    omega
  · rw [chunksOf_cons_large, sizes.zoneSize, zone]
    exact sound.zones z (zones ▸ member)
  · exact sound.aligned z (zones ▸ member)
  · exact usage z (zones ▸ member) off (sizes.zonePageCnt ▸ within)
  · rcases List.mem_cons.mp member with rfl | old
    · exact absurd inZone nofun
    · rw [zones, zone]
      exact sound.chunks block old z inZone
  · rcases List.mem_cons.mp member with rfl | old
    · rw [kup]
      exact ⟨aligned, notNull, rfl, nonzero, enough⟩
    · rw [large block old noZone]
      exact sound.larges block old noZone

theorem Sound.dropLarge {ptr n : ℕ} (sound : s.Sound (⟨ptr, n, none⟩ :: live))
    (freed : rtPageFree s.rtPageList ptr (s.btokup ptr).size = some rtPageList) (sizes : SameSizes s t)
    (list : t.rtPageList = rtPageList) (zones : t.zones = s.zones) (free : t.zoneFree = s.zoneFree)
    (array : t.zoneArray = s.zoneArray) (zone : t.zone = s.zone)
    (memusage : t.memusage = Function.update s.memusage (ptr / rtMmPageSize) { s.btokup ptr with size := 0 }) :
    t.Sound live := by
  obtain ⟨aligned, notNull, -, nonzero, -⟩ := sound.larges ⟨ptr, n, none⟩ List.mem_cons_self rfl
  dsimp only at aligned notNull nonzero
  have once := sound.once
  rw [largeRuns_cons] at once
  have range (address : ℕ) : inside ptr (ptr + (s.btokup ptr).size * rtMmPageSize) address +
      cells rtMmPageSize (s.largeRuns live) address + cells rtMmPageSize s.rtPageList address +
      cells rtMmPageSize s.zoneRuns address ≤ 1 := by
    have := once address
    rw [cells_cons] at this
    dsimp only [Extent.stop] at this
    omega
  obtain ⟨list', eq, pageList, given⟩ := sound.pageList.free notNull aligned nonzero fun address lower upper => by
    have := inside_pos.mpr ⟨lower, upper⟩
    have := range address
    omega
  obtain rfl := Option.some.inj (eq.symm.trans freed)
  have long : 0 < (s.btokup ptr).size * rtMmPageSize := Nat.mul_pos nonzero (by decide)
  have one := inside_pos.mpr
    (⟨le_rfl, Nat.lt_add_of_pos_right long⟩ : ptr ≤ ptr ∧ ptr < ptr + (s.btokup ptr).size * rtMmPageSize)
  have start := range ptr
  obtain ⟨usage, large⟩ := sound.writeKup aligned (by omega) (List.subset_cons_self _ _) (by omega) memusage
  refine ⟨sizes.config sound.config, list ▸ pageList, fun address => ?_,
    sound.lists.congr zones free array zone, fun z member => ?_, fun z member => ?_, fun z member off within => ?_,
    fun block member z inZone => ?_, fun block member noZone => ?_⟩
  · have := given address
    have := range address
    have runs : t.zoneRuns = s.zoneRuns := by rw [zoneRuns, zoneRuns, zones, sizes.zonePageCnt]
    rw [largeRuns_congr large, list, runs]
    omega
  · have ok := sound.zones z (zones ▸ member)
    rw [chunksOf_cons_large] at ok
    rw [sizes.zoneSize, zone]
    exact ok
  · exact sound.aligned z (zones ▸ member)
  · exact usage z (zones ▸ member) off (sizes.zonePageCnt ▸ within)
  · rw [zones, zone]
    exact sound.chunks block (List.mem_cons_of_mem _ member) z inZone
  · rw [large block member noZone]
    exact sound.larges block (List.mem_cons_of_mem _ member) noZone

end Slab

end RtThread
