import ShdslBridge.Kernel.ModuleHeap
import ShdslBridge.Lib.Run

/-! # What the heap of a module accounts for

A run is any sequence of calls of `rt_module_malloc`, `rt_module_realloc` and `rt_module_free` by one
module on pointers that it holds, between which other users take pages from the page allocator and
give them back. A call that does not return leaves the state as it is.

The branches of `rt_module_free` that give pages back, and those for a block at the start of a page,
lose units or entries of `page_array`; as long as no release takes one of them, every unit of every
page held stays in one block.
-/

namespace RtThread

open FreeList Memory

structure ModuleRun where
  heap : ModuleHeap
  live : List ℕ
  others : List Extent

inductive ModuleEvent
  | malloc (size : ℕ)
  | realloc (ptr : Option ℕ) (size : ℕ)
  | free (ptr : ℕ)
  | pageAlloc (npages : ℕ)
  | pageFree (addr npages : ℕ)

def ModuleHeap.blocks (m : ModuleHeap) (live : List ℕ) : List Extent := live.map m.blockOf

/-- The entries of `page_array` in use. -/
def ModuleHeap.entries (m : ModuleHeap) : List Extent := (List.range m.pageCnt).map m.pageArray

namespace ModuleRun

/-- The module holds what an allocation returns, and no longer the pointer released. -/
def answer (run : ModuleRun) (released : List ℕ) : Allocation → ModuleRun
  | none => run
  | some (heap, none) => { run with heap }
  | some (heap, some ptr) => { run with heap, live := ptr :: released }

def step (run : ModuleRun) : ModuleEvent → ModuleRun
  | .malloc size => run.answer run.live (rtModuleMalloc run.heap size)
  | .realloc none size => run.answer run.live (rtModuleRealloc run.heap none size)
  | .realloc (some ptr) size =>
    if ptr ∈ run.live then
      if size = 0 then
        match rtModuleRealloc run.heap (some ptr) size with
        | none => run
        | some (heap, _) => { run with heap, live := run.live.erase ptr }
      else run.answer (run.live.erase ptr) (rtModuleRealloc run.heap (some ptr) size)
    else run
  | .free ptr =>
    if ptr ∈ run.live then
      match rtModuleFree run.heap ptr with
      | none => run
      | some heap => { run with heap, live := run.live.erase ptr }
    else run
  | .pageAlloc npages =>
    match rtPageAlloc run.heap.rtPageList npages with
    | none => run
    | some (chunk, rtPageList) =>
      { run with heap := { run.heap with rtPageList }, others := run.others ++ pagesOf chunk npages }
  | .pageFree addr npages =>
    if ∀ page ∈ pagesOf addr npages, page ∈ run.others then
      match rtPageFree run.heap.rtPageList addr npages with
      | none => run
      | some rtPageList =>
        { run with heap := { run.heap with rtPageList }, others := withoutPages run.others addr npages }
    else run

/-- A module that has just been loaded; `size`, `bytes` and `page_array` hold anything. -/
def boot (size : ℕ → ℕ) (bytes : ℕ → BitVec 8) (pageArray : ℕ → Extent) (rtPageList : List Extent) : ModuleRun where
  heap := { memList := [], size, bytes, pageArray, pageCnt := 0, modSem := 1, rtPageList, held := [] }
  live := []
  others := []

/-- Every unit of every page held is in one block, `mem_list` is in order, and `page_array` describes
the pages held. -/
structure Accounted (run : ModuleRun) : Prop where
  units : ∀ address, 0 < cells rtMmPageSize run.heap.held address →
    cells sizeofMemHead (run.heap.blocks run.live) address + cells sizeofMemHead run.heap.memList address = 1
  ordered : FreeList.Ordered sizeofMemHead run.heap.memList
  once : ∀ address, cells rtMmPageSize run.heap.held address ≤ 1
  pages : ∀ address, cells rtMmPageSize run.heap.entries address = cells rtMmPageSize run.heap.held address

end ModuleRun

/-- The release of the block `n` reaches neither a branch for the start of a page nor one that gives
pages back: `n` does not start a page, and the listed block in front of it, if it starts a page, is
with `n` and the block behind `n` shorter than the page. -/
def Relists (n : Extent) (memList : List Extent) : Prop :=
  n.addr % rtMmPageSize ≠ 0 ∧
    ∀ b ∈ memList, b.stop sizeofMemHead = n.addr → b.addr % rtMmPageSize = 0 →
      (b.size + n.size) * sizeofMemHead < rtMmPageSize ∧
        ∀ behind ∈ memList, behind.addr = n.stop sizeofMemHead →
          (b.size + (behind.size + n.size)) * sizeofMemHead < rtMmPageSize

/-- The release that a call makes, if any, only relists its block. -/
def ModuleRun.InPlace (run : ModuleRun) : ModuleEvent → Prop
  | .realloc (some ptr) size =>
    let b := run.heap.blockOf ptr
    let nunits := nunitsOf size
    if size = 0 then Relists b run.heap.memList
    else if nunits < b.size then
      Relists ⟨b.addr + nunits * sizeofMemHead, b.size - nunits⟩ run.heap.memList
    else
      -- the old block is released into the list that the allocation leaves
      b.size < nunits → growInPlace b nunits run.heap.memList = some none →
        ∀ heap ptr, rtModuleMalloc run.heap size = some (heap, some ptr) → Relists b heap.memList
  | .free ptr => Relists (run.heap.blockOf ptr) run.heap.memList
  | _ => True

/-! ## One release -/

/-- A merged block stays in the list when it does not fill the page that it starts. -/
theorem relistLeft_eq {b : Extent} (rest : List Extent)
    (short : b.addr % rtMmPageSize = 0 → b.size * sizeofMemHead < rtMmPageSize) :
    relistLeft b rest = (b :: rest, none) := by
  rw [relistLeft, if_neg]
  rintro ⟨start, full⟩
  rw [Nat.div_eq_of_lt (short start)] at full
  exact Nat.lt_irrefl 0 full

theorem mergeBehind_cons (b n : Extent) (rest : List Extent) :
    (mergeBehind b n rest).1 :: (mergeBehind b n rest).2 =
      joinNext sizeofMemHead ⟨b.addr, b.size + n.size⟩ rest := by
  cases rest with
  | nil => rfl
  | cons next more =>
    rw [mergeBehind, joinNext]
    change (if b.addr + (b.size + n.size) * sizeofMemHead = next.addr then _ else _ : Extent × List Extent).1 ::
      (if b.addr + (b.size + n.size) * sizeofMemHead = next.addr then _ else _ : Extent × List Extent).2 =
      if b.addr + (b.size + n.size) * sizeofMemHead = next.addr then _ else _
    split_ifs
    · rw [Nat.add_comm next.size, ← Nat.add_assoc]
    · rfl

/-- A release outside the page branches puts the block back and merges it with its neighbours. -/
theorem relist_eq {n : Extent} {memList : List Extent} (positive : ∀ b ∈ memList, 0 < b.size) (own : 0 < n.size)
    (apart : FreeList.Apart sizeofMemHead n memList) (relists : Relists n memList) :
    relist n memList = some (release sizeofMemHead n memList, none) := by
  obtain ⟨unaligned, left⟩ := relists
  have long : n.addr < n.stop sizeofMemHead := addr_lt_stop own (by decide)
  have alone (rest : List Extent) : relistAlone n rest = (n :: rest, none) := by
    rw [relistAlone, if_neg unaligned]
  induction memList with
  | nil => rw [relist, alone, release]
  | cons b rest ih =>
    obtain ⟨nonzero, somewhere⟩ := List.forall_mem_cons.mp positive
    obtain ⟨clear, clearRest⟩ := List.forall_mem_cons.mp apart
    have longer : b.addr < b.stop sizeofMemHead := addr_lt_stop nonzero (by decide)
    rw [relist, release, if_neg (by omega), if_neg (by omega)]
    by_cases touch : b.stop sizeofMemHead = n.addr
    · rw [if_pos ⟨touch, unaligned⟩, if_pos touch, ← mergeBehind_cons]
      refine congrArg some (relistLeft_eq _ ?_)
      have short := left b List.mem_cons_self touch
      have stop := stop_join touch
      cases rest with
      | nil => exact fun start => (short start).1
      | cons next more =>
        rw [mergeBehind]
        split_ifs with adjacent
        · exact fun start => (short start).2 next (by simp) (adjacent.symm.trans stop)
        · exact fun start => (short start).1
    · rw [if_neg fun both => touch both.1, if_neg touch]
      split_ifs with right behind
      · rw [relistRight, if_neg unaligned]
      · rw [alone]
      · rw [ih somewhere clearRest fun c member touches start => ?_]
        · rfl
        · obtain ⟨short, next⟩ := left c (List.mem_cons_of_mem _ member) touches start
          exact ⟨short, fun further inRest => next further (List.mem_cons_of_mem _ inRest)⟩

/-! ## The invariant -/

/-- The blocks handed out and the blocks of `mem_list` tile the pages held, and the pages held, the
free pages and those of the other users are apart. -/
structure ModuleHeap.Sound (m : ModuleHeap) (live : List ℕ) (others : List Extent) : Prop where
  pageList : PageList m.rtPageList
  once : ∀ address, cells rtMmPageSize m.rtPageList address + cells rtMmPageSize m.held address +
    cells rtMmPageSize others address ≤ 1
  units : ∀ address, cells sizeofMemHead (m.blocks live) address + cells sizeofMemHead m.memList address =
    cells rtMmPageSize m.held address
  ordered : FreeList.Ordered sizeofMemHead m.memList
  listed : ∀ b ∈ m.memList, 0 < b.size
  handed : ∀ ptr ∈ live, sizeofMemHead ≤ ptr ∧ 0 < m.size (ptr - sizeofMemHead)
  pages : ∀ address, cells rtMmPageSize m.entries address = cells rtMmPageSize m.held address
  few : m.pageCnt ≤ pageCountMax
  foreign : ∀ page ∈ others, page.size = 1 ∧ page.addr % rtMmPageSize = 0 ∧ page.addr ≠ 0

/-- The module holds the block at the start of every run of pages. A release of it would start a page. -/
def ModuleHeap.Starts (m : ModuleHeap) (live : List ℕ) : Prop :=
  ∀ i < m.pageCnt, (m.pageArray i).addr % rtMmPageSize = 0 ∧ (m.pageArray i).addr + sizeofMemHead ∈ live

namespace ModuleHeap

variable {m : ModuleHeap} {live : List ℕ} {others : List Extent}

theorem blocks_congr {other : ModuleHeap}
    (same : ∀ ptr ∈ live, other.size (ptr - sizeofMemHead) = m.size (ptr - sizeofMemHead)) :
    other.blocks live = m.blocks live :=
  List.map_congr_left fun ptr member => by rw [blockOf, blockOf, same ptr member]

theorem Starts.mono (starts : m.Starts live) {more : List ℕ} (sub : live ⊆ more) : m.Starts more :=
  fun i inUse => ⟨(starts i inUse).1, sub (starts i inUse).2⟩

theorem entries_add (chunk npages : ℕ) (grown : ModuleHeap) (count : grown.pageCnt = m.pageCnt + 1)
    (array : grown.pageArray = Function.update m.pageArray m.pageCnt ⟨chunk, npages⟩) :
    grown.entries = m.entries ++ [⟨chunk, npages⟩] := by
  rw [entries, entries, count, array, List.range_succ, List.map_append, List.map_singleton, Function.update_self]
  congr 1
  refine List.map_congr_left fun i member => ?_
  rw [Function.update_of_ne (List.mem_range.mp member).ne]

namespace Sound

theorem perm (sound : m.Sound live others) {reordered : List ℕ} (perm : live.Perm reordered) :
    m.Sound reordered others where
  pageList := sound.pageList
  once := sound.once
  units address := by
    rw [← sound.units address, blocks, blocks, cells_eq_of_perm (perm.map m.blockOf).symm]
  ordered := sound.ordered
  listed := sound.listed
  handed ptr member := sound.handed ptr (perm.symm.subset member)
  pages := sound.pages
  few := sound.few
  foreign := sound.foreign

theorem fresh (sound : m.Sound live others) {b : Extent} (member : b ∈ m.memList) {ptr : ℕ} (handed : ptr ∈ live) :
    ptr - sizeofMemHead ≠ b.addr := by
  intro same
  have free : 0 < cells sizeofMemHead m.memList b.addr :=
    cells_pos.mpr ⟨b, member, le_rfl, addr_lt_stop (sound.listed b member) (by decide)⟩
  have long : (m.blockOf ptr).addr < (m.blockOf ptr).stop sizeofMemHead :=
    addr_lt_stop (sound.handed ptr handed).2 (by decide)
  have used : 0 < cells sizeofMemHead (m.blocks live) b.addr :=
    cells_pos.mpr ⟨m.blockOf ptr, List.mem_map_of_mem handed, same.le, same.symm.trans_lt long⟩
  have := sound.units b.addr
  have := sound.once b.addr
  omega

theorem take (sound : m.Sound live others) {nunits b : ℕ} {memList : List Extent} (nonzero : 0 < nunits)
    (taken : firstFit sizeofMemHead nunits m.memList = some (b, memList)) :
    Sound { m with memList, size := Function.update m.size b nunits } ((b + sizeofMemHead) :: live) others ∧
      ∀ ptr ∈ live, Function.update m.size b nunits (ptr - sizeofMemHead) = m.size (ptr - sizeofMemHead) := by
  obtain ⟨front, member, rfl, -⟩ := firstFit_front taken
  have same : ∀ ptr ∈ live,
      Function.update m.size front.addr nunits (ptr - sizeofMemHead) = m.size (ptr - sizeofMemHead) :=
    fun ptr handed => Function.update_of_ne (sound.fresh member handed) _ _
  refine ⟨{ sound with
    units := fun address => ?_, ordered := firstFit_ordered taken sound.ordered
    listed := firstFit_positive taken sound.listed, handed := ?_ }, same⟩
  · have kept : ModuleHeap.blocks { m with memList, size := Function.update m.size front.addr nunits } live =
        m.blocks live := blocks_congr same
    have block : ModuleHeap.blockOf { m with memList, size := Function.update m.size front.addr nunits }
        (front.addr + sizeofMemHead) = ⟨front.addr, nunits⟩ := by
      rw [blockOf, Nat.add_sub_cancel]
      exact congrArg (Extent.mk front.addr) (Function.update_self _ _ _)
    have := firstFit_cells taken address
    have := sound.units address
    change cells sizeofMemHead (ModuleHeap.blockOf _ _ :: ModuleHeap.blocks _ live) address + _ = _
    rw [kept, block, cells_cons]
    change inside front.addr (front.addr + nunits * sizeofMemHead) address + _ + _ = _
    dsimp only
    omega
  · intro ptr inLive
    change _ ∧ 0 < Function.update m.size front.addr nunits (ptr - sizeofMemHead)
    rcases List.mem_cons.mp inLive with rfl | inLive
    · rw [Nat.add_sub_cancel, Function.update_self]
      exact ⟨Nat.le_add_left _ _, nonzero⟩
    · rw [same ptr inLive]
      exact sound.handed ptr inLive

theorem gap (sound : m.Sound live others) (starts : m.Starts live) {chunk npages : ℕ} {rtPageList : List Extent}
    (allocated : rtPageAlloc m.rtPageList npages = some (chunk, rtPageList)) :
    ∀ b ∈ m.memList, b.addr ≠ chunk + npages * rtMmPageSize := by
  intro b member behind
  obtain ⟨-, nonzero, -, notNull, taken⟩ := sound.pageList.alloc allocated
  have free : 0 < cells sizeofMemHead m.memList b.addr :=
    cells_pos.mpr ⟨b, member, le_rfl, addr_lt_stop (sound.listed b member) (by decide)⟩
  have units := sound.units b.addr
  have once := sound.once b.addr
  have described := sound.pages b.addr
  obtain ⟨entry, inEntries, from_, upTo⟩ := cells_pos.mp (show 0 < cells rtMmPageSize m.entries b.addr by omega)
  obtain ⟨i, inUse, rfl⟩ := List.mem_map.mp inEntries
  obtain ⟨-, inLive⟩ := starts i (List.mem_range.mp inUse)
  rcases from_.eq_or_lt with start | inner
  · exact sound.fresh member inLive (by rw [Nat.add_sub_cancel, start])
  · have before : 0 < cells rtMmPageSize m.entries (b.addr - 1) :=
      cells_pos.mpr ⟨_, inEntries, by omega, by omega⟩
    have room : 0 < npages * rtMmPageSize := Nat.mul_pos nonzero (by decide)
    have inRun : 0 < inside chunk (chunk + npages * rtMmPageSize) (b.addr - 1) := inside_pos.mpr (by omega)
    have := taken (b.addr - 1)
    have := sound.pages (b.addr - 1)
    have := sound.once (b.addr - 1)
    omega

theorem page (sound : m.Sound live others) (starts : m.Starts live) {chunk npages : ℕ} {rtPageList : List Extent}
    (allocated : rtPageAlloc m.rtPageList npages = some (chunk, rtPageList)) {grown : ModuleHeap}
    (list : grown.rtPageList = rtPageList) (held : grown.held = m.held ++ pagesOf chunk npages)
    (linked : grown.memList = link sizeofMemHead ⟨chunk, npages * rtMmPageSize / sizeofMemHead⟩ m.memList)
    (count : grown.pageCnt = m.pageCnt + 1) (few : grown.pageCnt ≤ pageCountMax)
    (array : grown.pageArray = Function.update m.pageArray m.pageCnt ⟨chunk, npages⟩)
    (size : grown.size = m.size) : grown.Sound live others := by
  obtain ⟨pageList, nonzero, -, -, taken⟩ := sound.pageList.alloc allocated
  have length : npages * rtMmPageSize / sizeofMemHead * sizeofMemHead = npages * rtMmPageSize := by
    change npages * 4096 / 8 * 8 = npages * 4096
    omega
  have stop : (⟨chunk, npages * rtMmPageSize / sizeofMemHead⟩ : Extent).stop sizeofMemHead =
      chunk + npages * rtMmPageSize := congrArg (chunk + ·) length
  have positive : 0 < npages * rtMmPageSize / sizeofMemHead := by
    change 0 < npages * 4096 / 8
    omega
  have more (address : ℕ) : cells rtMmPageSize grown.held address =
      cells rtMmPageSize m.held address + inside chunk (chunk + npages * rtMmPageSize) address := by
    rw [held, cells_append, cells_pagesOf]
  have blocks : grown.blocks live = m.blocks live := blocks_congr fun ptr _ => congrFun size _
  refine ⟨list ▸ pageList, fun address => ?_, fun address => ?_, ?_, ?_, ?_, fun address => ?_, few, sound.foreign⟩
  · have := taken address
    have := sound.once address
    rw [list, more]
    omega
  · have := sound.units address
    rw [blocks, linked, link_cells, stop, more]
    dsimp only
    omega
  · rw [linked]
    refine link_ordered sound.ordered (apart_of_cells (fun b member => addr_lt_stop (sound.listed b member) (by decide))
      (addr_lt_stop positive (by decide)) fun address lower upper => ?_) fun b member => ?_
    · rw [stop] at upper
      have := inside_pos.mpr ⟨lower, upper⟩
      have := taken address
      have := sound.once address
      have := sound.units address
      dsimp only at *
      omega
    · rw [stop]
      exact sound.gap starts allocated b member
  · rw [linked]
    intro b member
    rcases List.mem_cons.mp ((link_perm _ _).subset member) with rfl | inList
    · exact positive
    · exact sound.listed b inList
  · rw [size]
    exact sound.handed
  · have := sound.pages address
    rw [entries_add chunk npages grown count array, cells_append, cells_cons, cells_nil, more, Extent.stop]
    dsimp only
    omega

end Sound

/-- What an allocation leaves: the heap is sound with the pointer handed out, and the blocks handed
out before are as long as they were. -/
def Allocates (m : ModuleHeap) (live : List ℕ) (others : List Extent) : Allocation → Prop
  | none => True
  | some (after, none) => after.Sound live others ∧ after.Starts live
  | some (after, some ptr) => after.Sound (ptr :: live) others ∧ after.Starts (ptr :: live) ∧
      ∀ other ∈ live, after.size (other - sizeofMemHead) = m.size (other - sizeofMemHead)

theorem nunitsOf_le (size : ℕ) (nonzero : 0 < npageOf size) :
    nunitsOf size ≤ npageOf size * rtMmPageSize / sizeofMemHead := by
  change 0 < (size + 8 + 4096 - 1) % 2 ^ 32 / 4096 at nonzero
  change (size + 8 - 1) % 2 ^ 32 / 8 + 1 ≤ (size + 8 + 4096 - 1) % 2 ^ 32 / 4096 * 4096 / 8
  omega

/-- `rt_module_malloc` hands out a block of `mem_list`, or takes pages and hands out their front. -/
theorem rtModuleMallocDeep_allocates (sound : m.Sound live others) (starts : m.Starts live) (depth size : ℕ) :
    Allocates m live others (rtModuleMallocDeep depth m size) := by
  cases depth with
  | zero => trivial
  | succ depth =>
    rw [rtModuleMallocDeep]
    split_ifs with refused
    · trivial
    split
    next b memList fit =>
      obtain ⟨taken, same⟩ := sound.take (Nat.succ_pos _) fit
      exact ⟨taken, starts.mono (List.subset_cons_self _ _), same⟩
    next full =>
      cases allocated : rtPageAlloc m.rtPageList (npageOf size) with
      | none =>
        simp only [rtModuleMallocPage, allocated, Option.bind_eq_bind, Option.bind_some]
        exact ⟨{ sound with }, starts⟩
      | some pair =>
        obtain ⟨chunk, rtPageList⟩ := pair
        have counted : word32 (m.pageCnt + 1) = m.pageCnt + 1 := by
          have few : m.pageCnt ≤ 256 := sound.few
          exact Nat.mod_eq_of_lt (by omega)
        simp only [rtModuleMallocPage, allocated, Option.bind_eq_bind, counted]
        split_ifs with room
        · rw [Option.bind_some]
          dsimp only
          cases depth with
          | zero => trivial
          | succ depth =>
            have fits := nunitsOf_le size (sound.pageList.alloc allocated).2.1
            obtain ⟨rest, fit⟩ : ∃ rest, firstFit sizeofMemHead (nunitsOf size)
                (link sizeofMemHead ⟨chunk, npageOf size * rtMmPageSize / sizeofMemHead⟩ m.memList) =
                  some (chunk, rest) := firstFit_link full fits
            have grown : ModuleHeap.Sound
                { m with
                  rtPageList, held := m.held ++ pagesOf chunk (npageOf size)
                  pageArray := Function.update m.pageArray m.pageCnt ⟨chunk, npageOf size⟩
                  pageCnt := m.pageCnt + 1, modSem := m.modSem - 1 + 1
                  memList := link sizeofMemHead ⟨chunk, npageOf size * rtMmPageSize / sizeofMemHead⟩ m.memList }
                live others :=
              sound.page starts allocated rfl rfl rfl rfl room rfl rfl
            rw [rtModuleMallocDeep, if_neg (show ¬ (size = 0 ∨ m.modSem - 1 + 1 = 0) by omega)]
            dsimp only
            rw [fit]
            obtain ⟨taken, same⟩ := grown.take (Nat.succ_pos _) fit
            refine ⟨{ taken with }, fun i inUse => ?_, same⟩
            change i < m.pageCnt + 1 at inUse
            change (Function.update m.pageArray m.pageCnt ⟨chunk, npageOf size⟩ i).addr % rtMmPageSize = 0 ∧ _
            change _ ∧ (Function.update m.pageArray m.pageCnt ⟨chunk, npageOf size⟩ i).addr + sizeofMemHead ∈ _
            rcases Nat.lt_succ_iff_lt_or_eq.mp inUse with old | rfl
            · rw [Function.update_of_ne old.ne]
              exact ⟨(starts i old).1, List.mem_cons_of_mem _ (starts i old).2⟩
            · rw [Function.update_self]
              exact ⟨(sound.pageList.alloc allocated).2.2.1, List.mem_cons_self⟩
        · trivial

/-- A release that only relists its block leaves the heap sound without the pointer. -/
theorem rtModuleFree_sound {ptr : ℕ} (sound : m.Sound (ptr :: live) others) (starts : m.Starts (ptr :: live))
    (relists : Relists (m.blockOf ptr) m.memList) {after : ModuleHeap} (freed : rtModuleFree m ptr = some after) :
    after.Sound live others ∧ after.Starts live := by
  obtain ⟨from_, size⟩ := sound.handed ptr List.mem_cons_self
  have long : (m.blockOf ptr).addr < (m.blockOf ptr).stop sizeofMemHead := addr_lt_stop size (by decide)
  have units (address : ℕ) : inside (m.blockOf ptr).addr ((m.blockOf ptr).stop sizeofMemHead) address +
      cells sizeofMemHead (m.blocks live) address + cells sizeofMemHead m.memList address =
      cells rtMmPageSize m.held address := sound.units address
  have listed : ∀ b ∈ m.memList, b.addr < b.stop sizeofMemHead :=
    fun b member => addr_lt_stop (sound.listed b member) (by decide)
  have apart : FreeList.Apart sizeofMemHead (m.blockOf ptr) m.memList := by
    refine apart_of_cells listed long fun address lower upper => ?_
    have := inside_pos.mpr ⟨lower, upper⟩
    have := units address
    have := sound.once address
    omega
  rw [rtModuleFree, relist_eq sound.listed size apart relists] at freed
  split_ifs at freed with refused
  obtain rfl := Option.some.inj freed
  refine ⟨{ sound with
    units := fun address => ?_, ordered := release_ordered sound.ordered listed apart
    listed := fun b member => ?_, handed := fun p inLive => sound.handed p (List.mem_cons_of_mem _ inLive) },
    fun i inUse => ⟨(starts i inUse).1, ?_⟩⟩
  · rw [release_cells, ← units address]
    change cells sizeofMemHead (m.blocks live) address + _ = _
    omega
  · obtain ⟨origin, inList, -, longer⟩ := release_origin member
    rcases List.mem_cons.mp inList with rfl | inList
    · exact size.trans_le longer
    · exact (sound.listed origin inList).trans_le longer
  · obtain ⟨start, inLive⟩ := starts i inUse
    refine (List.mem_cons.mp inLive).resolve_left fun same => relists.1 ?_
    change (ptr - sizeofMemHead) % rtMmPageSize = 0
    rw [← same, Nat.add_sub_cancel]
    exact start

theorem Sound.clear {ptr other : ℕ} (sound : m.Sound (ptr :: live) others) (member : other ∈ live) :
    ¬ ((m.blockOf ptr).addr ≤ other - sizeofMemHead ∧
      other - sizeofMemHead < (m.blockOf ptr).stop sizeofMemHead) := by
  intro within
  have long : (m.blockOf other).addr < (m.blockOf other).stop sizeofMemHead :=
    addr_lt_stop (sound.handed other (List.mem_cons_of_mem _ member)).2 (by decide)
  have second : 0 < cells sizeofMemHead (m.blocks live) (other - sizeofMemHead) :=
    cells_pos.mpr ⟨m.blockOf other, List.mem_map_of_mem member, le_rfl, long⟩
  have first := inside_pos.mpr within
  have units := sound.units (other - sizeofMemHead)
  change inside (m.blockOf ptr).addr ((m.blockOf ptr).stop sizeofMemHead) (other - sizeofMemHead) +
    cells sizeofMemHead (m.blocks live) (other - sizeofMemHead) + _ = _ at units
  have := sound.once (other - sizeofMemHead)
  omega

theorem Sound.cut {ptr nunits : ℕ} (sound : m.Sound (ptr :: live) others) (nonzero : 0 < nunits)
    (longer : nunits < (m.blockOf ptr).size) {cut : ModuleHeap}
    (eq : cut = { m with
      size := Function.update (Function.update m.size ((m.blockOf ptr).addr + nunits * sizeofMemHead)
        ((m.blockOf ptr).size - nunits)) (m.blockOf ptr).addr nunits }) :
    cut.Sound (((m.blockOf ptr).addr + nunits * sizeofMemHead + sizeofMemHead) :: ptr :: live) others ∧
      cut.blockOf ((m.blockOf ptr).addr + nunits * sizeofMemHead + sizeofMemHead) =
        ⟨(m.blockOf ptr).addr + nunits * sizeofMemHead, (m.blockOf ptr).size - nunits⟩ := by
  obtain ⟨b, addr⟩ : ∃ b, m.blockOf ptr = b := ⟨_, rfl⟩
  obtain ⟨p, back⟩ : ∃ p, b.addr + nunits * sizeofMemHead = p := ⟨_, rfl⟩
  rw [addr] at longer eq ⊢
  rw [back] at eq ⊢
  have grows : 0 < nunits * sizeofMemHead := Nat.mul_pos nonzero (by decide)
  have front : ptr - sizeofMemHead = b.addr := congrArg Extent.addr addr
  have stop : (⟨p, b.size - nunits⟩ : Extent).stop sizeofMemHead = b.stop sizeofMemHead := by
    rw [← back]
    exact stop_split longer.le
  have cutOff : p < b.stop sizeofMemHead := by
    have positive : 0 < (⟨p, b.size - nunits⟩ : Extent).size := Nat.sub_pos_of_lt longer
    rw [← stop]
    exact addr_lt_stop positive (by decide)
  have sizes (a : ℕ) (notFront : a ≠ b.addr) (notBack : a ≠ p) : cut.size a = m.size a := by
    rw [eq]
    exact (Function.update_of_ne notFront _ _).trans (Function.update_of_ne notBack _ _)
  have sizeFront : cut.size b.addr = nunits := by
    rw [eq]
    exact Function.update_self _ _ _
  have sizeBack : cut.size p = b.size - nunits := by
    rw [eq]
    exact (Function.update_of_ne (by omega) _ _).trans (Function.update_self _ _ _)
  have blockFront : cut.blockOf ptr = ⟨b.addr, nunits⟩ := by rw [blockOf, front, sizeFront]
  have blockBack : cut.blockOf (p + sizeofMemHead) = ⟨p, b.size - nunits⟩ := by
    rw [blockOf, Nat.add_sub_cancel, sizeBack]
  have same : ∀ other ∈ live, cut.size (other - sizeofMemHead) = m.size (other - sizeofMemHead) := by
    intro other member
    have clear := sound.clear member
    rw [addr] at clear
    exact sizes _ (by omega) (by omega)
  refine ⟨?_, blockBack⟩
  subst eq
  refine { sound with units := fun address => ?_, handed := fun other member => ?_ }
  · rw [← sound.units address]
    change cells sizeofMemHead (ModuleHeap.blockOf _ _ :: ModuleHeap.blockOf _ _ :: ModuleHeap.blocks _ live) _ + _ =
      cells sizeofMemHead (m.blockOf ptr :: m.blocks live) address + _
    rw [blockFront, blockBack, blocks_congr same, addr, cells_cons, cells_cons, cells_cons, stop,
      ← inside_add (show b.addr ≤ p by omega) cutOff.le]
    change _ + (inside b.addr (b.addr + nunits * sizeofMemHead) address + _) + _ = _
    rw [back]
    dsimp only
    omega
  · rcases List.mem_cons.mp member with rfl | member
    · rw [Nat.add_sub_cancel, sizeBack]
      exact ⟨Nat.le_add_left _ _, Nat.sub_pos_of_lt longer⟩
    · rcases List.mem_cons.mp member with rfl | member
      · rw [front, sizeFront]
        exact ⟨(sound.handed other List.mem_cons_self).1, nonzero⟩
      · rw [same other member]
        exact sound.handed other (List.mem_cons_of_mem _ member)

theorem growInPlace_eq {b : Extent} {nunits : ℕ} {memList grown : List Extent} (longer : b.size < nunits)
    (grows : growInPlace b nunits memList = some (some grown)) :
    ∃ prev more taken, memList = prev :: more ∧ grown = prev :: taken ∧
      firstFit sizeofMemHead (nunits - b.size) more = some (b.stop sizeofMemHead, taken) := by
  rcases memList with - | ⟨prev, - | ⟨p, rest⟩⟩
  · cases grows
  · cases grows
  · rw [growInPlace] at grows
    split_ifs at grows with fits equal
    · obtain rfl := Option.some.inj (Option.some.inj grows)
      refine ⟨prev, p :: rest, rest, rfl, rfl, ?_⟩
      rw [firstFit, if_neg (by omega), if_pos equal, fits.2]
    · obtain rfl := Option.some.inj (Option.some.inj grows)
      obtain ⟨enough, start⟩ := fits
      refine ⟨prev, p :: rest, _, rfl, rfl, ?_⟩
      have front : b.addr + nunits * sizeofMemHead = p.addr + (nunits - b.size) * sizeofMemHead := by
        rw [start]
        change b.addr + nunits * 8 = b.addr + b.size * 8 + (nunits - b.size) * 8
        omega
      have size : p.size + b.size - nunits = p.size - (nunits - b.size) := by omega
      rw [firstFit, if_pos (by omega), front, size, start]
    · cases Option.some.inj grows

theorem Sound.grow {ptr nunits : ℕ} {memList : List Extent} (sound : m.Sound (ptr :: live) others)
    (longer : (m.blockOf ptr).size < nunits)
    (grows : growInPlace (m.blockOf ptr) nunits m.memList = some (some memList)) {grown : ModuleHeap}
    (eq : grown = { m with memList, size := Function.update m.size (m.blockOf ptr).addr nunits }) :
    grown.Sound (ptr :: live) others := by
  obtain ⟨prev, more, taken, old, rfl, fit⟩ := growInPlace_eq longer grows
  have ordered := sound.ordered
  have listed := sound.listed
  rw [old] at ordered listed
  obtain ⟨before, later⟩ := List.pairwise_cons.mp ordered
  obtain ⟨first, positive⟩ := List.forall_mem_cons.mp listed
  have sizeFront : grown.size (ptr - sizeofMemHead) = nunits := by
    rw [eq]
    exact Function.update_self _ _ _
  have same : ∀ other ∈ live, grown.size (other - sizeofMemHead) = m.size (other - sizeofMemHead) := by
    intro other member
    have clear := sound.clear member
    have long : (m.blockOf ptr).addr < (m.blockOf ptr).stop sizeofMemHead :=
      addr_lt_stop (sound.handed ptr List.mem_cons_self).2 (by decide)
    rw [eq]
    exact Function.update_of_ne (by omega) _ _
  have blockFront : grown.blockOf ptr = ⟨(m.blockOf ptr).addr, nunits⟩ := by
    rw [blockOf, sizeFront]
    rfl
  subst eq
  refine { sound with
    units := fun address => ?_, ordered := ?_, listed := ?_, handed := fun other member => ?_ }
  · have cellsOld := sound.units address
    have takes := firstFit_cells fit address
    have stop : (m.blockOf ptr).stop sizeofMemHead + (nunits - (m.blockOf ptr).size) * sizeofMemHead =
        (m.blockOf ptr).addr + nunits * sizeofMemHead := by
      rw [Extent.stop, Nat.add_assoc, ← Nat.add_mul, Nat.add_sub_cancel' longer.le]
    have joined := inside_add (addr_le_stop (m.blockOf ptr))
      ((Nat.le_add_right _ _).trans stop.le) address
    change cells sizeofMemHead (m.blockOf ptr :: m.blocks live) address + _ = _ at cellsOld
    rw [old, cells_cons, cells_cons, takes, stop] at cellsOld
    change cells sizeofMemHead (ModuleHeap.blockOf _ _ :: ModuleHeap.blocks _ live) address + _ = _
    rw [blockFront, blocks_congr same, cells_cons, cells_cons]
    change inside (m.blockOf ptr).addr ((m.blockOf ptr).addr + nunits * sizeofMemHead) address + _ + _ =
      cells rtMmPageSize m.held address
    omega
  · refine List.pairwise_cons.mpr ⟨fun b member => ?_, firstFit_ordered fit later⟩
    obtain ⟨origin, inMore, starts, -⟩ := firstFit_addr_le fit member
    exact (before origin inMore).trans starts
  · exact List.forall_mem_cons.mpr ⟨first, firstFit_positive fit positive⟩
  · rcases List.mem_cons.mp member with rfl | member
    · rw [sizeFront]
      exact ⟨(sound.handed other List.mem_cons_self).1, (Nat.zero_le _).trans_lt longer⟩
    · rw [same other member]
      exact sound.handed other (List.mem_cons_of_mem _ member)

/-- What a change of the size leaves: the heap is sound with the pointer returned in place of the old
one, or with the old one. -/
def Reallocates (ptr : ℕ) (live : List ℕ) (others : List Extent) : Allocation → Prop
  | none => True
  | some (after, none) => after.Sound (ptr :: live) others ∧ after.Starts (ptr :: live)
  | some (after, some moved) => after.Sound (moved :: live) others ∧ after.Starts (moved :: live)

/-- `rt_module_realloc` keeps the block, cuts it, lets it grow, or moves it. -/
theorem rtModuleRealloc_reallocates {ptr size : ℕ} (sound : m.Sound (ptr :: live) others)
    (starts : m.Starts (ptr :: live)) (nonzero : size ≠ 0)
    (inPlace : ModuleRun.InPlace { heap := m, live := ptr :: live, others } (.realloc (some ptr) size)) :
    Reallocates ptr live others (rtModuleRealloc m (some ptr) size) := by
  have back : (m.blockOf ptr).addr + sizeofMemHead = ptr := Nat.sub_add_cancel (sound.handed ptr List.mem_cons_self).1
  have positive : 0 < nunitsOf size := Nat.succ_pos _
  rw [rtModuleRealloc, if_neg nonzero]
  rw [ModuleRun.InPlace] at inPlace
  dsimp only at inPlace ⊢
  rw [if_neg nonzero] at inPlace
  split_ifs with short equal
  · exact ⟨sound, starts⟩
  · rw [if_pos (by omega)] at inPlace
    obtain ⟨cut, block⟩ := sound.cut positive (by omega) rfl
    rw [back]
    cases freed : rtModuleFree _ _ with
    | none => trivial
    | some after =>
      refine rtModuleFree_sound cut (starts.mono (List.subset_cons_self _ _)) ?_ freed
      rw [block]
      exact inPlace
  · have longer : (m.blockOf ptr).size < nunitsOf size := by omega
    rw [if_neg (by omega)] at inPlace
    cases grows : growInPlace (m.blockOf ptr) (nunitsOf size) m.memList with
    | none => trivial
    | some grown =>
      cases grown with
      | some memList =>
        simp only [Option.bind_eq_bind, Option.bind_some, back]
        exact ⟨sound.grow longer grows rfl, starts⟩
      | none =>
        have allocates := rtModuleMallocDeep_allocates sound starts 2 size
        have relists := inPlace longer grows
        simp only [Option.bind_eq_bind, Option.bind_some, back]
        rw [← rtModuleMalloc] at allocates
        cases allocated : rtModuleMalloc m size with
        | none => trivial
        | some result =>
          obtain ⟨after, handed⟩ := result
          rw [allocated] at allocates
          cases handed with
          | none => exact allocates
          | some p =>
            obtain ⟨moved, startsMoved, same⟩ := allocates
            have block : after.blockOf ptr = m.blockOf ptr := by
              rw [blockOf, blockOf, same ptr List.mem_cons_self]
            have swapped := moved.perm (List.Perm.swap ptr p live)
            have startsSwapped := startsMoved.mono (List.Perm.swap ptr p live).subset
            rw [Option.bind_some]
            dsimp only
            cases freed : rtModuleFree _ _ with
            | none => trivial
            | some released =>
              have written : ModuleHeap.Sound
                  { after with
                    bytes := writeAt after.bytes p (readAt after.bytes ptr ((m.blockOf ptr).size * sizeofMemHead)) }
                  (ptr :: p :: live) others := { swapped with }
              refine rtModuleFree_sound written startsSwapped ?_ freed
              change Relists (after.blockOf ptr) after.memList
              rw [block]
              exact relists after p allocated

end ModuleHeap

namespace ModuleRun

/-- The invariant of the runs. -/
def Inv (run : ModuleRun) : Prop := run.heap.Sound run.live run.others ∧ run.heap.Starts run.live

variable {run : ModuleRun}

theorem Inv.accounted (inv : run.Inv) : run.Accounted where
  units address held := by
    have := inv.1.units address
    have := inv.1.once address
    omega
  ordered := inv.1.ordered
  once address := by
    have := inv.1.once address
    omega
  pages := inv.1.pages

theorem Inv.answer (inv : run.Inv) {released : List ℕ} {allocation : Allocation}
    (refused : ∀ heap, allocation = some (heap, none) → heap.Sound run.live run.others ∧ heap.Starts run.live)
    (handed : ∀ heap ptr, allocation = some (heap, some ptr) → heap.Sound (ptr :: released) run.others ∧ heap.Starts (ptr :: released))
    :
    (run.answer released allocation).Inv := by
  match allocation with
  | none => exact inv
  | some (heap, none) => exact refused heap rfl
  | some (heap, some ptr) => exact handed heap ptr rfl

theorem Inv.malloc (inv : run.Inv) (size : ℕ) : (run.answer run.live (rtModuleMalloc run.heap size)).Inv := by
  have allocates := ModuleHeap.rtModuleMallocDeep_allocates inv.1 inv.2 2 size
  refine inv.answer (fun heap result => ?_) fun heap ptr result => ?_
  · rw [← rtModuleMalloc, result] at allocates
    exact allocates
  · rw [← rtModuleMalloc, result] at allocates
    exact ⟨allocates.1, allocates.2.1⟩

theorem Inv.front (inv : run.Inv) {ptr : ℕ} (member : ptr ∈ run.live) :
    run.heap.Sound (ptr :: run.live.erase ptr) run.others ∧ run.heap.Starts (ptr :: run.live.erase ptr) :=
  ⟨inv.1.perm (List.perm_cons_erase member), inv.2.mono (List.perm_cons_erase member).subset⟩

/-- An event whose release only relists its block keeps the invariant. -/
theorem Inv.step (inv : run.Inv) (event : ModuleEvent) (inPlace : run.InPlace event) : (run.step event).Inv := by
  cases event with
  | malloc size => exact inv.malloc size
  | realloc ptr size =>
    cases ptr with
    | none => exact inv.malloc size
    | some ptr =>
      rw [ModuleRun.step]
      split_ifs with member zero
      · subst zero
        obtain ⟨sound, starts⟩ := inv.front member
        change (match (rtModuleFree run.heap ptr).map fun m => (m, (none : Option ℕ)) with
          | none => run
          | some (heap, _) => { run with heap, live := run.live.erase ptr } : ModuleRun).Inv
        cases freed : rtModuleFree run.heap ptr with
        | none => exact inv
        | some after => exact ModuleHeap.rtModuleFree_sound sound starts inPlace freed
      · obtain ⟨sound, starts⟩ := inv.front member
        have reallocates := ModuleHeap.rtModuleRealloc_reallocates sound starts zero inPlace
        refine inv.answer (fun heap result => ?_) fun heap moved result => ?_
        · rw [result] at reallocates
          have perm := (List.perm_cons_erase member).symm
          exact ⟨reallocates.1.perm perm, reallocates.2.mono perm.subset⟩
        · rw [result] at reallocates
          exact reallocates
      · exact inv
  | free ptr =>
    rw [ModuleRun.step]
    split_ifs with member
    · obtain ⟨sound, starts⟩ := inv.front member
      cases freed : rtModuleFree run.heap ptr with
      | none => exact inv
      | some after => exact ModuleHeap.rtModuleFree_sound sound starts inPlace freed
    · exact inv
  | pageAlloc npages =>
    rw [ModuleRun.step]
    cases allocated : rtPageAlloc run.heap.rtPageList npages with
    | none => exact inv
    | some pair =>
      obtain ⟨chunk, rtPageList⟩ := pair
      obtain ⟨sound, starts⟩ := inv
      obtain ⟨pageList, nonzero, aligned, notNull, taken⟩ := sound.pageList.alloc allocated
      refine ⟨{ sound with pageList, once := fun address => ?_, foreign := fun page member => ?_ }, starts⟩
      · have := taken address
        have := sound.once address
        dsimp only
        rw [cells_append, cells_pagesOf]
        omega
      · rcases List.mem_append.mp member with old | new
        · exact sound.foreign page old
        · obtain ⟨i, -, rfl⟩ := List.mem_map.mp new
          refine ⟨rfl, ?_, ?_⟩
          · rw [Nat.add_mul_mod_self_right]
            exact aligned
          · dsimp only
            omega
  | pageFree addr npages =>
    rw [ModuleRun.step]
    split_ifs with theirs
    · cases freed : rtPageFree run.heap.rtPageList addr npages with
      | none => exact inv
      | some rtPageList =>
        obtain ⟨sound, starts⟩ := inv
        have asserted := freed
        rw [rtPageFree] at asserted
        split_ifs at asserted with refused
        obtain ⟨notNull, nonzero⟩ : addr ≠ 0 ∧ 0 < npages := by omega
        have aligned : addr % rtMmPageSize = 0 := by
          by_contra off
          exact refused (Or.inr (Or.inl off))
        have other := cells_withoutPages (fun page member => (sound.foreign page member).1)
          (fun page member => (sound.foreign page member).2.1)
          (fun address => by have := sound.once address; omega) aligned theirs
        obtain ⟨rest, eq, pageList, given⟩ := sound.pageList.free notNull aligned nonzero fun address lower upper => by
          have := inside_pos.mpr ⟨lower, upper⟩
          have := other address
          have := sound.once address
          omega
        obtain rfl := Option.some.inj (eq.symm.trans freed)
        refine ⟨{ sound with pageList, once := fun address => ?_, foreign := fun page member => ?_ }, starts⟩
        · have := given address
          have := other address
          have := sound.once address
          dsimp only
          omega
        · exact sound.foreign page (List.mem_of_mem_filter member)
    · exact inv

theorem inv_boot {start npages : ℕ} {rtPageList : List Extent} (init : rtPageInit start npages = some rtPageList)
    (size : ℕ → ℕ) (bytes : ℕ → BitVec 8) (pageArray : ℕ → Extent) :
    (boot size bytes pageArray rtPageList).Inv := by
  obtain ⟨pageList, once⟩ := PageList.init init
  exact ⟨⟨pageList, once, fun _ => rfl, List.Pairwise.nil, nofun, nofun, fun _ => rfl, Nat.zero_le _, nofun⟩, nofun⟩

/-- The heap of a module loses nothing: in a run whose releases only relist their blocks, every unit of
every page held is in one block handed out or in one block of `mem_list`, `mem_list` is in order, and
`page_array` describes the pages held. -/
theorem accounted_of_inPlace {start npages : ℕ} {rtPageList : List Extent}
    (init : rtPageInit start npages = some rtPageList) (size : ℕ → ℕ) (bytes : ℕ → BitVec 8)
    (pageArray : ℕ → Extent) {events : List ModuleEvent}
    (along : Run.Along step InPlace (boot size bytes pageArray rtPageList) events) :
    Run.Always step Accounted (boot size bytes pageArray rtPageList) events := by
  have keeps : ∀ run event, Inv run → run.InPlace event → Inv (run.step event) :=
    fun run event inv inPlace => inv.step event inPlace
  have implies : ∀ run, Inv run → run.Accounted := fun run inv => inv.accounted
  exact along.always keeps implies (inv_boot init size bytes pageArray)

def bootFour : ModuleRun := boot (fun _ => 0) (fun _ => 0) (fun _ => ⟨0, 0⟩) [⟨4096, 4⟩]

/-- The second of two blocks is released. -/
theorem accounted_of_inPlace_twoBlocks :
    Run.Always step Accounted bootFour [.malloc 100, .malloc 40, .free 4216] := by
  have init : rtPageInit 4096 4 = some [⟨4096, 4⟩] := rfl
  refine accounted_of_inPlace init _ _ _ ⟨trivial, trivial, ?_, trivial⟩
  change Relists ⟨4208, 6⟩ [⟨4256, 492⟩]
  refine ⟨by decide, fun b member touch => ?_⟩
  obtain rfl := List.mem_singleton.mp member
  exact absurd touch (by decide)

/-- The first of two blocks, at the start of its page, is released: its units are in no block. -/
theorem pageStart_not_accounted :
    ¬ Run.Always step Accounted bootFour [.malloc 16, .malloc 16, .free 4104] := by
  intro always
  have lost := always.2.2.2.units 4096 (by decide +kernel)
  exact absurd lost (by decide +kernel)

end ModuleRun

end RtThread
