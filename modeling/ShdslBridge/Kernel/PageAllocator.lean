import ShdslBridge.Lib.FreeList

/-! # The page allocator of the slab heap

`rt_page_list` is the list of the free runs of pages, in the order of their addresses. The header of
a run stands in its first page; the list here carries the headers, and addresses are in bytes.
A failed assertion is `none` for `rt_page_free`; for `rt_page_alloc` `none` is the null pointer.
`heap_sem` is taken and released inside each call and is left out.
-/

namespace RtThread

open FreeList

/-- `RT_MM_PAGE_SIZE`, which is also the size of `struct rt_page_head`. -/
abbrev rtMmPageSize : ℕ := 4096

/-- `rt_page_alloc`. -/
def rtPageAlloc (rtPageList : List Extent) (npages : ℕ) : Option (ℕ × List Extent) :=
  if npages = 0 then none else firstFit rtMmPageSize npages rtPageList

/-- The loop of `rt_page_free`, for the run `n`. -/
def rtPageFreeLoop (n : Extent) : List Extent → Option (List Extent)
  | [] => some [n]
  | b :: rest =>
    if b.size = 0 then none
    else if ¬ (n.addr < b.addr ∨ b.stop rtMmPageSize ≤ n.addr) then none
    else if b.stop rtMmPageSize = n.addr then
      some (joinNext rtMmPageSize ⟨b.addr, b.size + n.size⟩ rest)
    else if b.addr = n.stop rtMmPageSize then some (⟨n.addr, b.size + n.size⟩ :: rest)
    else if n.stop rtMmPageSize < b.addr then some (n :: b :: rest)
    else (rtPageFreeLoop n rest).map (b :: ·)

/-- `rt_page_free`. -/
def rtPageFree (rtPageList : List Extent) (addr npages : ℕ) : Option (List Extent) :=
  if addr = 0 ∨ addr % rtMmPageSize ≠ 0 ∨ npages = 0 then none
  else rtPageFreeLoop ⟨addr, npages⟩ rtPageList

/-- `rt_page_init`. -/
def rtPageInit (addr npages : ℕ) : Option (List Extent) := rtPageFree [] addr npages

/-- The free runs are in order, not empty, on page boundaries, and not at the null pointer. -/
structure PageList (rtPageList : List Extent) : Prop where
  ordered : Ordered rtMmPageSize rtPageList
  positive : ∀ run ∈ rtPageList, 0 < run.size
  aligned : ∀ run ∈ rtPageList, run.addr % rtMmPageSize = 0
  notNull : ∀ run ∈ rtPageList, run.addr ≠ 0

def pagesOf (addr npages : ℕ) : List Extent :=
  (List.range npages).map fun i => ⟨addr + i * rtMmPageSize, 1⟩

def withoutPages (pages : List Extent) (addr npages : ℕ) : List Extent :=
  pages.filter fun page => ¬ (addr ≤ page.addr ∧ page.addr < addr + npages * rtMmPageSize)

theorem cells_pagesOf (addr npages address : ℕ) :
    cells rtMmPageSize (pagesOf addr npages) address =
      inside addr (addr + npages * rtMmPageSize) address := by
  induction npages with
  | zero =>
    rw [inside, if_neg (by omega)]
    rfl
  | succ count ih =>
    have grown : pagesOf addr (count + 1) = pagesOf addr count ++ [⟨addr + count * rtMmPageSize, 1⟩] := by
      simp only [pagesOf, List.range_succ, List.map_append, List.map_cons, List.map_nil]
    rw [grown, cells_append, ih, cells_cons, cells_nil, Nat.add_zero, Nat.succ_mul, ← Nat.add_assoc]
    have stop : (⟨addr + count * rtMmPageSize, 1⟩ : Extent).stop rtMmPageSize =
        addr + count * rtMmPageSize + rtMmPageSize := by
      rw [Extent.stop, Nat.one_mul]
    rw [stop]
    exact inside_add (Nat.le_add_right _ _) (Nat.le_add_right _ _) address

theorem cells_withoutPages {pages : List Extent} {addr npages : ℕ} (single : ∀ page ∈ pages, page.size = 1)
    (aligned : ∀ page ∈ pages, page.addr % rtMmPageSize = 0)
    (once : ∀ address, cells rtMmPageSize pages address ≤ 1) (start : addr % rtMmPageSize = 0)
    (within : ∀ page ∈ pagesOf addr npages, page ∈ pages) (address : ℕ) :
    cells rtMmPageSize pages address =
      inside addr (addr + npages * rtMmPageSize) address +
        cells rtMmPageSize (withoutPages pages addr npages) address := by
  let isIn : Extent → Bool := fun page => decide (addr ≤ page.addr ∧ page.addr < addr + npages * rtMmPageSize)
  have split : cells rtMmPageSize pages address = cells rtMmPageSize (pages.filter isIn) address +
      cells rtMmPageSize (pages.filter fun page => !isIn page) address := cells_filter isIn pages address
  have rest : withoutPages pages addr npages = pages.filter fun page => !isIn page := by
    simp only [withoutPages, isIn, decide_not]
  rw [rest]
  suffices part : cells rtMmPageSize (pages.filter isIn) address =
      inside addr (addr + npages * rtMmPageSize) address by omega
  by_cases holds : addr ≤ address ∧ address < addr + npages * 4096
  · have whole : ⟨addr + (address - addr) / 4096 * 4096, 1⟩ ∈ pages :=
      within _ (List.mem_map.mpr ⟨(address - addr) / 4096, List.mem_range.mpr (by omega), rfl⟩)
    have chosen : ⟨addr + (address - addr) / 4096 * 4096, 1⟩ ∈ pages.filter isIn :=
      List.mem_filter.mpr ⟨whole, decide_eq_true (by change _ ∧ _ < addr + npages * 4096; dsimp only; omega)⟩
    have held : 0 < cells rtMmPageSize (pages.filter isIn) address := by
      refine cells_pos.mpr ⟨_, chosen, ?_, ?_⟩
      · dsimp only
        omega
      · change address < addr + (address - addr) / 4096 * 4096 + 1 * 4096
        omega
    have := once address
    rw [inside, if_pos holds]
    omega
  · rw [inside, if_neg holds, ← Nat.le_zero, ← Nat.not_lt]
    intro held
    obtain ⟨page, member, starts, stops⟩ := cells_pos.mp held
    obtain ⟨inPages, inRun⟩ := List.mem_filter.mp member
    obtain ⟨lower, upper⟩ : addr ≤ page.addr ∧ page.addr < addr + npages * 4096 := of_decide_eq_true inRun
    have boundary : page.addr % 4096 = 0 := aligned page inPages
    have base : addr % 4096 = 0 := start
    change address < page.addr + page.size * 4096 at stops
    rw [single page inPages] at stops
    omega

namespace PageList

variable {rtPageList : List Extent}

theorem long (ok : PageList rtPageList) : ∀ run ∈ rtPageList, run.addr < run.stop rtMmPageSize := by
  intro run member
  exact addr_lt_stop (ok.positive run member) (by decide)

theorem alloc (ok : PageList rtPageList) {npages chunk : ℕ} {rest : List Extent}
    (allocated : rtPageAlloc rtPageList npages = some (chunk, rest)) :
    PageList rest ∧ 0 < npages ∧ chunk % rtMmPageSize = 0 ∧ chunk ≠ 0 ∧
      ∀ address, cells rtMmPageSize rtPageList address =
        inside chunk (chunk + npages * rtMmPageSize) address + cells rtMmPageSize rest address := by
  rw [rtPageAlloc] at allocated
  split_ifs at allocated with zero
  obtain ⟨front, member, rfl, -⟩ := firstFit_front allocated
  refine ⟨⟨firstFit_ordered allocated ok.ordered, firstFit_positive allocated ok.positive, ?_, ?_⟩,
    Nat.pos_of_ne_zero zero, ok.aligned front member, ok.notNull front member, firstFit_cells allocated⟩
  all_goals
    intro run inRest
    obtain ⟨origin, inList, -, rfl | ⟨longer, rfl⟩⟩ := firstFit_origin allocated inRest
  · exact ok.aligned run inList
  · have start : origin.addr % 4096 = 0 := ok.aligned origin inList
    change (origin.addr + npages * 4096) % 4096 = 0
    omega
  · exact ok.notNull run inList
  · have := ok.notNull origin inList
    change origin.addr + npages * 4096 ≠ 0
    omega

theorem init {start npages : ℕ} (init : rtPageInit start npages = some rtPageList) :
    PageList rtPageList ∧ ∀ address, cells rtMmPageSize rtPageList address ≤ 1 := by
  rw [rtPageInit, rtPageFree] at init
  split_ifs at init with refused
  obtain rfl := Option.some.inj init
  have aligned : start % rtMmPageSize = 0 := by
    by_contra off
    exact refused (Or.inr (Or.inl off))
  refine ⟨⟨List.pairwise_singleton _ _, ?_, ?_, ?_⟩, fun address => inside_le_one _ _ address⟩
  · exact List.forall_mem_singleton.mpr (by dsimp only; omega)
  · exact List.forall_mem_singleton.mpr aligned
  · exact List.forall_mem_singleton.mpr (by dsimp only; omega)

/-- On a list that the run keeps clear of, no assertion of the loop fails. -/
theorem rtPageFreeLoop_eq {n : Extent} {list : List Extent} (positive : ∀ run ∈ list, 0 < run.size)
    (own : 0 < n.size) (apart : Apart rtMmPageSize n list) :
    rtPageFreeLoop n list = some (release rtMmPageSize n list) := by
  induction list with
  | nil => rfl
  | cons b rest ih =>
    obtain ⟨clear, clearRest⟩ := List.forall_mem_cons.mp apart
    obtain ⟨nonzero, somewhere⟩ := List.forall_mem_cons.mp positive
    have long : n.addr < n.stop rtMmPageSize := addr_lt_stop own (by decide)
    have longer : b.addr < b.stop rtMmPageSize := addr_lt_stop nonzero (by decide)
    rw [rtPageFreeLoop, release, if_neg (by omega), if_neg (by omega)]
    split_ifs
    · rfl
    · rfl
    · rfl
    · rw [ih somewhere clearRest]
      rfl

/-- A release of pages that are not in the list passes its assertions, and adds them to the list. -/
theorem free (ok : PageList rtPageList) {addr npages : ℕ} (notNull : addr ≠ 0)
    (aligned : addr % rtMmPageSize = 0) (nonzero : 0 < npages)
    (clear : ∀ address, addr ≤ address → address < addr + npages * rtMmPageSize →
      cells rtMmPageSize rtPageList address = 0) :
    ∃ rest, rtPageFree rtPageList addr npages = some rest ∧ PageList rest ∧
      ∀ address, cells rtMmPageSize rest address =
        inside addr (addr + npages * rtMmPageSize) address + cells rtMmPageSize rtPageList address := by
  have own : (⟨addr, npages⟩ : Extent).addr < (⟨addr, npages⟩ : Extent).stop rtMmPageSize := by
    change addr < addr + npages * 4096
    omega
  have apart : Apart rtMmPageSize ⟨addr, npages⟩ rtPageList := apart_of_cells ok.long own clear
  refine ⟨_, ?_, ⟨release_ordered ok.ordered ok.long apart, ?_, ?_, ?_⟩, release_cells ⟨addr, npages⟩ rtPageList⟩
  · rw [rtPageFree, if_neg (by omega)]
    exact rtPageFreeLoop_eq ok.positive nonzero apart
  all_goals
    intro run member
    obtain ⟨origin, inList, start, size⟩ := release_origin member
  · have : 0 < origin.size := by
      rcases List.mem_cons.mp inList with rfl | inList
      · exact nonzero
      · exact ok.positive origin inList
    omega
  · rw [start]
    rcases List.mem_cons.mp inList with rfl | inList
    · exact aligned
    · exact ok.aligned origin inList
  · rw [start]
    rcases List.mem_cons.mp inList with rfl | inList
    · exact notNull
    · exact ok.notNull origin inList

end PageList

end RtThread
