import ShdslBridge.Kernel.PageAllocator
import ShdslBridge.Lib.Run

/-! # What the page allocator accounts for

A run is any sequence of calls of `rt_page_alloc`, and of `rt_page_free` on pages that are handed out. A
release can give back a whole allocation or a part of it. The pages handed out are kept one by one.

In every state of a run the free runs are in order with room between them, and each page of the beginning
is in one of them or handed out, and not both. A failed allocation finds no run of the length asked for,
since two runs that touch have become one.
-/

namespace RtThread

open FreeList

/-- `rt_page_list`, and the pages that are handed out. -/
structure PageUse where
  rtPageList : List Extent
  allocated : List Extent

/-- The calls. -/
inductive PageEvent
  | alloc (npages : ℕ)
  | free (addr npages : ℕ)

namespace PageUse

/-- The pages from `addr` on are handed out. -/
def Holds (s : PageUse) (addr npages : ℕ) : Prop := 0 < npages ∧ ∀ page ∈ pagesOf addr npages, page ∈ s.allocated

instance (s : PageUse) (addr npages : ℕ) : Decidable (s.Holds addr npages) := inferInstanceAs (Decidable (_ ∧ _))

/-- One call. Only pages that are handed out are given back. -/
def step (s : PageUse) : PageEvent → PageUse
  | .alloc npages =>
    match rtPageAlloc s.rtPageList npages with
    | none => s
    | some (chunk, rtPageList) => { rtPageList, allocated := s.allocated ++ pagesOf chunk npages }
  | .free addr npages =>
    if s.Holds addr npages then
      match rtPageFree s.rtPageList addr npages with
      | none => s
      | some rtPageList => { rtPageList, allocated := withoutPages s.allocated addr npages }
    else s

/-- The free runs are in order with room between them; together with the pages handed out they are the
pages from `start` on, each of them once; no assertion of a release fails; and an allocation fails only if
no free run is long enough. -/
structure Accounted (start count : ℕ) (s : PageUse) : Prop where
  separate : Separate rtMmPageSize s.rtPageList
  positive : ∀ run ∈ s.rtPageList, 0 < run.size
  pages : ∀ address, cells rtMmPageSize s.rtPageList address + cells rtMmPageSize s.allocated address =
    inside start (start + count * rtMmPageSize) address
  released : ∀ addr npages, s.Holds addr npages → (rtPageFree s.rtPageList addr npages).isSome = true
  complete : ∀ npages, 0 < npages → rtPageAlloc s.rtPageList npages = none →
    ∀ run ∈ s.rtPageList, run.size < npages

/-- What the calls keep. -/
structure Inv (start count : ℕ) (s : PageUse) : Prop where
  pageList : PageList s.rtPageList
  separate : Separate rtMmPageSize s.rtPageList
  pages : ∀ address, cells rtMmPageSize s.rtPageList address + cells rtMmPageSize s.allocated address =
    inside start (start + count * rtMmPageSize) address
  single : ∀ page ∈ s.allocated, page.size = 1 ∧ page.addr % rtMmPageSize = 0 ∧ page.addr ≠ 0

variable {start count : ℕ} {s : PageUse}

theorem Inv.alloc (inv : s.Inv start count) {npages chunk : ℕ} {rest : List Extent}
    (allocated : rtPageAlloc s.rtPageList npages = some (chunk, rest)) :
    Inv start count { rtPageList := rest, allocated := s.allocated ++ pagesOf chunk npages } := by
  obtain ⟨pageList, -, aligned, notNull, taken⟩ := inv.pageList.alloc allocated
  have fit : firstFit rtMmPageSize npages s.rtPageList = some (chunk, rest) := by
    rw [rtPageAlloc] at allocated
    split at allocated
    · cases allocated
    · exact allocated
  refine ⟨pageList, firstFit_separate fit inv.separate, fun address => ?_, fun page member => ?_⟩
  · have before := inv.pages address
    have split := taken address
    dsimp only
    rw [cells_append, cells_pagesOf]
    omega
  · rcases List.mem_append.mp member with old | new
    · exact inv.single page old
    · obtain ⟨i, -, rfl⟩ := List.mem_map.mp new
      refine ⟨rfl, ?_, ?_⟩
      · rw [Nat.add_mul_mod_self_right]
        exact aligned
      · dsimp only
        omega

/-- The pages that are given back are on page boundaries and in no free run. -/
theorem Inv.clear (inv : s.Inv start count) {addr npages : ℕ} (holds : s.Holds addr npages) :
    addr ≠ 0 ∧ addr % rtMmPageSize = 0 ∧
      (∀ address, cells rtMmPageSize s.allocated address = inside addr (addr + npages * rtMmPageSize) address +
        cells rtMmPageSize (withoutPages s.allocated addr npages) address) ∧
      ∀ address, addr ≤ address → address < addr + npages * rtMmPageSize →
        cells rtMmPageSize s.rtPageList address = 0 := by
  obtain ⟨nonzero, theirs⟩ := holds
  have first : ⟨addr, 1⟩ ∈ pagesOf addr npages :=
    List.mem_map.mpr ⟨0, List.mem_range.mpr nonzero, by rw [Nat.zero_mul, Nat.add_zero]⟩
  obtain ⟨aligned, notNull⟩ : addr % rtMmPageSize = 0 ∧ addr ≠ 0 := (inv.single _ (theirs _ first)).2
  have once (address : ℕ) : cells rtMmPageSize s.allocated address ≤ 1 := by
    have pages := inv.pages address
    have one := inside_le_one start (start + count * rtMmPageSize) address
    omega
  have parts := cells_withoutPages (fun page member => (inv.single page member).1)
    (fun page member => (inv.single page member).2.1) once aligned theirs
  refine ⟨notNull, aligned, parts, fun address lower upper => ?_⟩
  have given := inside_pos.mpr ⟨lower, upper⟩
  have split := parts address
  have pages := inv.pages address
  have one := inside_le_one start (start + count * rtMmPageSize) address
  omega

theorem Inv.free (inv : s.Inv start count) {addr npages : ℕ} (holds : s.Holds addr npages) :
    ∃ rest, rtPageFree s.rtPageList addr npages = some rest ∧
      Inv start count { rtPageList := rest, allocated := withoutPages s.allocated addr npages } := by
  obtain ⟨notNull, aligned, parts, clear⟩ := inv.clear holds
  have own : (⟨addr, npages⟩ : Extent).addr < (⟨addr, npages⟩ : Extent).stop rtMmPageSize :=
    addr_lt_stop holds.1 (by decide)
  have apart : FreeList.Apart rtMmPageSize ⟨addr, npages⟩ s.rtPageList := apart_of_cells inv.pageList.long own clear
  obtain ⟨rest, freed, pageList, given⟩ := inv.pageList.free notNull aligned holds.1 clear
  have merged : rest = release rtMmPageSize ⟨addr, npages⟩ s.rtPageList := by
    have nonzero := holds.1
    rw [rtPageFree, if_neg (by omega), PageList.rtPageFreeLoop_eq inv.pageList.positive nonzero apart] at freed
    exact (Option.some.inj freed).symm
  refine ⟨rest, freed, pageList, ?_, fun address => ?_, fun page member => ?_⟩
  · rw [merged]
    exact release_separate inv.separate inv.pageList.long apart
  · have before := inv.pages address
    have split := parts address
    have more := given address
    dsimp only
    omega
  · exact inv.single page (List.mem_of_mem_filter member)

theorem Inv.step (inv : s.Inv start count) (event : PageEvent) : (s.step event).Inv start count := by
  cases event with
  | alloc npages =>
    rw [PageUse.step]
    split
    · exact inv
    · exact inv.alloc ‹_›
  | free addr npages =>
    rw [PageUse.step]
    split
    · rename_i holds
      obtain ⟨rest, freed, inv'⟩ := inv.free holds
      rw [freed]
      exact inv'
    · exact inv

theorem Inv.accounted (inv : s.Inv start count) : s.Accounted start count where
  separate := inv.separate
  positive := inv.pageList.positive
  pages := inv.pages
  released addr npages holds := by
    obtain ⟨rest, freed, -⟩ := inv.free holds
    rw [freed]
    rfl
  complete npages nonzero failed := by
    rw [rtPageAlloc, if_neg (Nat.ne_of_gt nonzero)] at failed
    exact firstFit_eq_none.mp failed

/-- In every state of a run the free runs are in order and do not touch, they are with the pages handed
out the pages of the beginning, and an allocation fails only if no free run is long enough. -/
theorem pages_accounted {rtPageList : List Extent} (init : rtPageInit start count = some rtPageList)
    (events : List PageEvent) :
    Run.Always step (Accounted start count) { rtPageList, allocated := [] } events := by
  have pageList := (PageList.init init).1
  have single : rtPageList = [⟨start, count⟩] := by
    rw [rtPageInit, rtPageFree] at init
    split at init
    · cases init
    · exact (Option.some.inj init).symm
  have inv : Inv start count { rtPageList, allocated := [] } := by
    refine ⟨pageList, ?_, fun address => ?_, List.forall_mem_nil _⟩
    · rw [single]
      exact List.pairwise_singleton _ _
    · rw [single]
      rfl
  exact Run.always_of_invariant (fun _ event inv => inv.step event) (fun _ inv => inv.accounted) inv events

/-- Four pages, of which two are taken and given back one by one. -/
theorem pages_accounted_four :
    Run.Always step (Accounted 4096 4) { rtPageList := [⟨4096, 4⟩], allocated := [] }
      [.alloc 2, .free 4096 1, .free 8192 1, .alloc 4] :=
  pages_accounted rfl _

end PageUse

end RtThread
