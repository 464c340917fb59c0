import ShdslBridge.Kernel.MemheapRuns

/-! # What an allocation from a memheap promises

A block is aligned like the pool and has at least the bytes asked for, and the null pointer means that no
free item is long enough. The first needs two conditions: no block of `RT_MEMHEAP_MINIALLOC` bytes, which is no
multiple of `RT_ALIGN_SIZE`, has been cut off an item, and the size does not wrap when it is rounded. The
second fails where a heap has one free item and exactly its size is asked for, since `rt_memheap_alloc` first
compares with `<` against `available_size`.
-/

namespace RtThread

open Memheaps

namespace Memheaps

/-- A block that `rt_memheap_alloc` returns is aligned to `RT_ALIGN_SIZE` and has at least `size` bytes. -/
def Adequate (s : Memheaps) (heap size : ℕ) : Prop :=
  ∀ s' ptr, s.rtMemheapAlloc heap size = some (s', some ptr) → 8 ∣ ptr ∧ size ≤ s'.memitemSize (ptr - rtMemheapSize)

/-- `rt_memheap_alloc` returns the null pointer only if no free item has the rounded size. -/
def Complete (s : Memheaps) (heap size : ℕ) : Prop :=
  (s.rtMemheapAlloc heap size).map Prod.snd = some none →
    ∀ item ∈ s.freeItems heap, s.memitemSize item < alignedSize size

variable {s : Memheaps} {heap item size : ℕ}

theorem alignedSize_wrapped (word : size < 2 ^ 32) (wraps : 2 ^ 32 ≤ size + 7) :
    alignedSize size = rtMemheapMinialloc := by
  have rounded : rtAlign size = 0 := by
    rw [rtAlign, word32]
    omega
  rw [alignedSize, rounded, if_pos (by decide)]

theorem Layout.counted (layout : s.Layout) (listed : heap ∈ s.objectList) :
    (s.heap heap).availableSize = ((s.freeItems heap).map s.memitemSize).sum := by
  rw [(layout.sound heap listed).counted,
    List.map_congr_left fun a isFree => layout.memitemSize_eq listed isFree]

/-- A free item that is not alone has at least twelve bytes, and so have the others. -/
theorem Layout.free_large (layout : s.Layout) (listed : heap ∈ s.objectList) {front back : List ℕ}
    (split : s.freeItems heap = front ++ item :: back) {other : ℕ} (member : other ∈ front ++ back) :
    12 ≤ s.memitemSize item ∧ 12 ≤ s.memitemSize other := by
  have sound := layout.sound heap listed
  have once := sound.parts.once
  rw [split] at once
  have ne : other ≠ item := fun same => (List.nodup_cons.mp (List.nodup_middle.mp once)).1 (same ▸ member)
  have isFree : item ∈ s.freeItems heap := by simp [split]
  have isFree' : other ∈ s.freeItems heap := by
    rw [split]
    exact mem_middle.mpr (.inr member)
  obtain ⟨here, notLast⟩ := sound.free_mem isFree
  obtain ⟨here', notLast'⟩ := sound.free_mem isFree'
  rw [layout.memitemSize_eq listed isFree, layout.memitemSize_eq listed isFree']
  exact ⟨sound.roomy_other here' notLast' here notLast ne.symm, sound.roomy_other here notLast here' notLast' ne⟩

/-- The least size is served as long as the byte counter is above it. -/
theorem Layout.canServe_least (layout : s.Layout) (listed : heap ∈ s.objectList)
    (least : alignedSize size = rtMemheapMinialloc) :
    s.CanServe heap size ↔ rtMemheapMinialloc < (s.heap heap).availableSize := by
  rw [CanServe, least]
  refine and_iff_left_of_imp fun above => ?_
  rw [firstFit, List.find?_isSome, least]
  have counted := layout.counted listed
  cases split : s.freeItems heap with
  | nil =>
    rw [split, List.map_nil, List.sum_nil] at counted
    rw [counted] at above
    exact absurd above (Nat.not_lt_zero _)
  | cons item rest =>
    refine ⟨item, List.mem_cons_self, decide_eq_true ?_⟩
    cases rest with
    | nil =>
      rw [split, List.map_singleton, List.sum_singleton] at counted
      omega
    | cons other rest =>
      have split' : s.freeItems heap = [] ++ item :: other :: rest := split
      exact (layout.free_large listed split' List.mem_cons_self).1

theorem Layout.adequate_iff (layout : s.Layout) (listed : heap ∈ s.objectList)
    (aligned : ∀ a ∈ s.blockItems heap, 8 ∣ a) (word : size < 2 ^ 32) :
    s.Adequate heap size ↔ size + 7 < 2 ^ 32 ∨ (s.heap heap).availableSize ≤ rtMemheapMinialloc := by
  rcases layout.alloc listed size with ⟨unserved, call⟩ | ⟨item, s', data, served, fit, call, change, -, long, -⟩
  · have adequate : s.Adequate heap size := fun state ptr returned => by
      rw [call] at returned
      cases returned
    refine iff_of_true adequate ?_
    rcases Nat.lt_or_ge (size + 7) (2 ^ 32) with small | wraps
    · exact .inl small
    · have none := (layout.canServe_least listed (alignedSize_wrapped word wraps)).not.mp unserved
      exact .inr (Nat.le_of_not_lt none)
  · have live := change.content_self listed
    have length := change.layout.memitemSize_live (change.objects.symm ▸ listed) live
    have isFree : item ∈ s.freeItems heap := List.mem_of_find?_eq_some fit
    have atItem := aligned item ((layout.sound heap listed).free_mem isFree).1
    have promise : s.Adequate heap size ↔ size ≤ data.length := by
      constructor
      · intro adequate
        have enough := (adequate s' (item + 24) call).2
        rwa [rtMemheapSize, Nat.add_sub_cancel, length] at enough
      · intro enough state ptr returned
        rw [call] at returned
        cases returned
        rw [rtMemheapSize, Nat.add_sub_cancel, length]
        exact ⟨by omega, enough⟩
    rw [promise]
    rcases Nat.lt_or_ge (size + 7) (2 ^ 32) with small | wraps
    · exact iff_of_true ((le_alignedSize small).trans long) (.inl small)
    · have above := (layout.canServe_least listed (alignedSize_wrapped word wraps)).mp served
      obtain ⟨⟨here, -, notLast⟩, -⟩ := content_eq_some.mp live
      have parts := (change.layout.sound heap (change.objects.symm ▸ listed)).parts
      have ends := parts.dataSize_eq here notLast
      have inMemory := parts.pool.inMemory
      rw [length_of_content live]
      exact iff_of_false (by omega) (by omega)

theorem Layout.complete_iff (layout : s.Layout) (listed : heap ∈ s.objectList) :
    s.Complete heap size ↔
      ¬ (alignedSize size = (s.heap heap).availableSize ∧ (s.freeItems heap).length = 1) := by
  have counted := layout.counted listed
  rcases layout.alloc listed size with ⟨unserved, call⟩ | ⟨item, s', data, served, fit, call, -, -, -, -⟩
  · rw [Complete, call]
    simp only [Option.map_some, forall_const]
    constructor
    · rintro short ⟨same, alone⟩
      obtain ⟨item, single⟩ := List.length_eq_one_iff.mp alone
      rw [single, List.map_singleton, List.sum_singleton] at counted
      have := short item (single ▸ List.mem_cons_self)
      omega
    · intro apart item isFree
      by_contra large
      have found : (s.firstFit heap size).isSome := by
        rw [firstFit, List.find?_isSome]
        exact ⟨item, isFree, decide_eq_true (Nat.le_of_not_lt large)⟩
      have above : (s.heap heap).availableSize ≤ alignedSize size := by
        by_contra below
        exact unserved ⟨Nat.lt_of_not_le below, found⟩
      obtain ⟨front, back, split⟩ := List.append_of_mem isFree
      rw [split, sum_map_middle] at counted
      cases rest : front ++ back with
      | nil =>
        obtain ⟨rfl, rfl⟩ := List.append_eq_nil_iff.mp rest
        rw [rest, List.map_nil, List.sum_nil] at counted
        exact apart ⟨by omega, by rw [split]; rfl⟩
      | cons other more =>
        have member : other ∈ front ++ back := rest ▸ List.mem_cons_self
        have := (layout.free_large listed split member).2
        rw [rest, List.map_cons, List.sum_cons] at counted
        omega
  · have complete : s.Complete heap size := fun none => by
      rw [call] at none
      cases none
    refine iff_of_true complete ?_
    rintro ⟨same, -⟩
    exact absurd served.1 (by omega)

end Memheaps

namespace MemheapRun

variable {run : MemheapRun} {heap : ℕ}

theorem Tracks.step_aligned {event : MemheapEvent} (tracks : run.Tracks) (safe : ¬ event.GrowthWraps run)
    (uncut : ¬ event.CutsMinialloc run heap) (aligned : run.ItemsAligned heap) :
    (run.step event).ItemsAligned heap := by
  obtain ⟨run', call, stepped⟩ := tracks.call event safe
  rw [step_of_call call]
  exact stepped.aligned heap uncut aligned

/-- While no least block is cut off an item, every block that `rt_memheap_alloc` returns is aligned and long enough,
for all sizes but those that wrap. -/
theorem alloc_adequate (s : Memheaps) (events : List MemheapEvent) (heap : ℕ)
    (safe : Run.Along step (fun run event => ¬ event.GrowthWraps run ∧ ¬ event.CutsMinialloc run heap) (boot s)
      events) :
    Run.Always step (fun run => heap ∈ run.state.objectList → 8 ∣ (run.state.heap heap).startAddr →
      ∀ size < 2 ^ 32, run.state.Adequate heap size ↔
        size + 7 < 2 ^ 32 ∨ (run.state.heap heap).availableSize ≤ rtMemheapMinialloc) (boot s) events := by
  have keeps (run : MemheapRun) (event : MemheapEvent) (inv : run.Tracks ∧ run.ItemsAligned heap)
      (fits : ¬ event.GrowthWraps run ∧ ¬ event.CutsMinialloc run heap) :
      (run.step event).Tracks ∧ (run.step event).ItemsAligned heap :=
    ⟨inv.1.step event fits.1, inv.1.step_aligned fits.1 fits.2 inv.2⟩
  refine safe.always keeps (fun run inv listed base size word => ?_) ⟨boot_tracks s, fun listed => nomatch listed⟩
  exact inv.1.layout.adequate_iff listed (inv.2 listed base) word

/-- Two blocks of 16 bytes. -/
theorem alloc_adequate_twoBlocks :
    Run.Always step (fun run => 0x100 ∈ run.state.objectList → 8 ∣ (run.state.heap 0x100).startAddr →
      ∀ size < 2 ^ 32, run.state.Adequate 0x100 size ↔
        size + 7 < 2 ^ 32 ∨ (run.state.heap 0x100).availableSize ≤ rtMemheapMinialloc) (boot zeroed)
      [.init 0x100 0x1000 256, .alloc 0x100 16, .alloc 0x100 16] :=
  alloc_adequate zeroed _ 0x100
    ⟨⟨id, id⟩, ⟨id, fun cut => absurd cut.2.1 (by decide)⟩, ⟨id, fun cut => absurd cut.2.1 (by decide)⟩, trivial⟩

/-- A block of four bytes gets twelve, and the next one is at `0x103c`. -/
theorem alloc_not_adequate :
    ¬ ∀ (s : Memheaps) (events : List MemheapEvent) (heap size : ℕ),
      heap ∈ (Run.exec step (boot s) events).state.objectList →
      8 ∣ ((Run.exec step (boot s) events).state.heap heap).startAddr → size < 2 ^ 32 →
      (Run.exec step (boot s) events).state.Adequate heap size := by
  intro all
  have adequate := all zeroed [.init 0x100 0x1000 256, .alloc 0x100 4] 0x100 16 (by decide +kernel)
    (by decide +kernel) (by decide)
  have returned : ((Run.exec step (boot zeroed) [.init 0x100 0x1000 256, .alloc 0x100 4]).state.rtMemheapAlloc 0x100
      16).map Prod.snd = some (some 0x103c) := by decide +kernel
  obtain ⟨⟨s', ptr⟩, call, rfl⟩ := Option.map_eq_some_iff.mp returned
  exact absurd (adequate s' 0x103c call).1 (by decide)

/-- `rt_memheap_alloc` finds a free item that is long enough, unless the only one has exactly the rounded size. -/
theorem alloc_complete (s : Memheaps) (events : List MemheapEvent)
    (safe : Run.Along step (fun run event => ¬ event.GrowthWraps run) (boot s) events) :
    Run.Always step (fun run => ∀ heap ∈ run.state.objectList, ∀ size, run.state.Complete heap size ↔
      ¬ (alignedSize size = (run.state.heap heap).availableSize ∧ (run.state.freeItems heap).length = 1)) (boot s)
      events :=
  safe.always (fun _ event tracks fits => tracks.step event fits)
    (fun _ tracks _ listed _ => Memheaps.Layout.complete_iff tracks.layout listed) (boot_tracks s)

/-- One block of 16 bytes. -/
theorem alloc_complete_oneBlock :
    Run.Always step (fun run => ∀ heap ∈ run.state.objectList, ∀ size, run.state.Complete heap size ↔
      ¬ (alignedSize size = (run.state.heap heap).availableSize ∧ (run.state.freeItems heap).length = 1)) (boot zeroed)
      [.init 0x100 0x1000 256, .alloc 0x100 16] :=
  alloc_complete zeroed _ ⟨id, id, trivial⟩

/-- The first item of a new pool is not handed out as a whole. -/
theorem alloc_not_complete :
    ¬ ∀ (s : Memheaps) (events : List MemheapEvent) (heap size : ℕ),
      heap ∈ (Run.exec step (boot s) events).state.objectList →
      (Run.exec step (boot s) events).state.Complete heap size := by
  intro all
  have complete := all zeroed [.init 0x100 0x1000 256] 0x100 208 (by decide +kernel) (by decide +kernel) 0x1000
    (by decide +kernel)
  exact absurd complete (by decide +kernel)

end MemheapRun

end RtThread
