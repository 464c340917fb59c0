import ShdslBridge.Kernel.ModuleHeapRuns
import ShdslBridge.Kernel.Slab
import ShdslBridge.Lib.LockSections

/-! # The semaphores of the allocators

`heap_sem` protects the page allocator and the slab heap, `mod_sem` the heap of a module. The log of a
call lists what the call does to them, on the way that it takes through its function. The semaphores are
created with the value one.

Where `rt_malloc` gets no pages for a new zone, `heap_sem` has been released already, and is released
again. Where `rt_module_malloc` gets no pages it returns and keeps `mod_sem`.
-/

namespace RtThread

open FreeList LockSections

inductive AllocatorSem
  | heapSem
  | modSem
  deriving DecidableEq

/-- What a call does to the semaphores. -/
abbrev SemLog := List (Op AllocatorSem)

open AllocatorSem

/-- The log of `rt_page_alloc`. -/
def rtPageAllocLog (npages : ℕ) : SemLog := if npages = 0 then [] else sectionOf heapSem []

/-- The log of `rt_page_free`. -/
def rtPageFreeLog : SemLog := sectionOf heapSem []

namespace Slab

/-- The log of `rt_malloc`. -/
def rtMallocLog (s : Slab) (size : ℕ) : SemLog :=
  if size = 0 then []
  else if s.zoneLimit ≤ size then
    let npages := rtAlignPage size / rtMmPageSize
    rtPageAllocLog npages ++
      match rtPageAlloc s.rtPageList npages with
      | none => []
      | some _ => sectionOf heapSem []
  else match s.zoneArray (zoneindex size).2 with
    | _ :: _ => sectionOf heapSem []
    | [] => match s.zoneFree with
      | _ :: _ => sectionOf heapSem []
      | [] =>
        let npages := s.zoneSize / rtMmPageSize
        [.take heapSem, .release heapSem] ++ rtPageAllocLog npages ++
          match rtPageAlloc s.rtPageList npages with
          -- `goto fail`
          | none => [.release heapSem]
          | some _ => [.take heapSem, .release heapSem]

/-- The log of `rt_free`. -/
def rtFreeLog (s : Slab) (ptr : ℕ) : SemLog :=
  if ptr = 0 then []
  else if (s.btokup ptr).type = pageTypeLarge then sectionOf heapSem [] ++ rtPageFreeLog
  else
    let z := s.zoneOf ptr
    let s := s.giveChunk z ptr
    let header := s.zone z
    let retires := header.zNfree = header.zNmax ∧ s.zoneArray header.zZoneindex ≠ [z]
    if retires ∧ zoneReleaseThresh < s.zoneFreeCnt + 1 then sectionOf heapSem [] ++ rtPageFreeLog
    else sectionOf heapSem []

/-- The log of `rt_malloc`, and of `rt_free` where that got a block. -/
def moveBlockLog (s : Slab) (ptr size : ℕ) : SemLog :=
  s.rtMallocLog size ++
    match s.rtMalloc size with
    | some (s, some _) => s.rtFreeLog ptr
    | _ => []

/-- The log of `rt_realloc`. -/
def rtReallocLog (s : Slab) (ptr size : ℕ) : SemLog :=
  if ptr = 0 then s.rtMallocLog size
  else if size = 0 then s.rtFreeLog ptr
  else if (s.btokup ptr).type = pageTypeLarge then s.moveBlockLog ptr size
  else if (s.btokup ptr).type = pageTypeSmall then
    if (s.zone (s.zoneOf ptr)).zChunksize = (zoneindex size).1 then []
    else s.moveBlockLog ptr (zoneindex size).1
  else []

/-- A small request needs a new zone, and there are no pages for it. -/
def NoZone (s : Slab) (size : ℕ) : Prop :=
  size ≠ 0 ∧ size < s.zoneLimit ∧ s.zoneArray (zoneindex size).2 = [] ∧ s.zoneFree = [] ∧
    rtPageAlloc s.rtPageList (s.zoneSize / rtMmPageSize) = none

/-- The size that `rt_realloc` asks `rt_malloc` for, if it does. -/
def reallocRequest (s : Slab) (ptr size : ℕ) : Option ℕ :=
  if ptr = 0 then some size
  else if size = 0 then none
  else if (s.btokup ptr).type = pageTypeLarge then some size
  else if (s.btokup ptr).type = pageTypeSmall then
    if (s.zone (s.zoneOf ptr)).zChunksize = (zoneindex size).1 then none else some (zoneindex size).1
  else none

end Slab

/-- The log of `rt_module_malloc`; `depth` bounds the calls of itself that it makes. -/
def rtModuleMallocDeepLog : ℕ → ModuleHeap → ℕ → SemLog
  | 0, _, _ => []
  | depth + 1, m, size =>
    .take modSem :: match firstFit sizeofMemHead (nunitsOf size) m.memList with
      | some _ => [.release modSem]
      | none =>
        rtPageAllocLog (npageOf size) ++
          match rtModuleMallocPage { m with modSem := m.modSem - 1 } (npageOf size) with
          | some (m, some up) =>
            let memList := link sizeofMemHead ⟨up, npageOf size * rtMmPageSize / sizeofMemHead⟩ m.memList
            .release modSem :: rtModuleMallocDeepLog depth { m with memList, modSem := m.modSem + 1 } size
          | _ => []

/-- The log of `rt_module_malloc`. -/
def rtModuleMallocLog (m : ModuleHeap) (size : ℕ) : SemLog := rtModuleMallocDeepLog 2 m size

/-- The log of `rt_module_free`; `rt_page_free` is called inside its section. -/
def rtModuleFreeLog (m : ModuleHeap) (addr : ℕ) : SemLog :=
  match relist (m.blockOf addr) m.memList with
  | some (_, some _) => sectionOf modSem rtPageFreeLog
  | _ => sectionOf modSem []

/-- The log of `rt_module_realloc`. -/
def rtModuleReallocLog (m : ModuleHeap) (ptr : Option ℕ) (size : ℕ) : SemLog :=
  match ptr with
  | none => rtModuleMallocLog m size
  | some ptr =>
    if size = 0 then rtModuleFreeLog m ptr
    else
      let nunits := nunitsOf size
      let b := m.blockOf ptr
      if nunits ≤ b.size then
        if nunits = b.size then []
        else
          let p := b.addr + nunits * sizeofMemHead
          let sizes := Function.update (Function.update m.size p (b.size - nunits)) b.addr nunits
          rtModuleFreeLog { m with size := sizes } (p + sizeofMemHead)
      else match growInPlace b nunits m.memList with
        | some none =>
          rtModuleMallocLog m size ++
            match rtModuleMalloc m size with
            | some (m, some _) => rtModuleFreeLog m (b.addr + sizeofMemHead)
            | _ => []
        | _ => []

/-- A request fits in no free block of the module, and there are no pages for it. -/
def ModuleHeap.NoPages (m : ModuleHeap) (size : ℕ) : Prop :=
  firstFit sizeofMemHead (nunitsOf size) m.memList = none ∧ rtPageAlloc m.rtPageList (npageOf size) = none

/-- `rt_module_realloc` asks `rt_module_malloc` for a block. -/
def ModuleHeap.ReallocMoves (m : ModuleHeap) (ptr : Option ℕ) (size : ℕ) : Prop :=
  ∀ old ∈ ptr, size ≠ 0 ∧ (m.blockOf old).size < nunitsOf size ∧
    growInPlace (m.blockOf old) (nunitsOf size) m.memList = some none

inductive AllocatorCall
  | malloc (s : Slab) (size : ℕ)
  | realloc (s : Slab) (ptr size : ℕ)
  | free (s : Slab) (ptr : ℕ)
  | moduleMalloc (m : ModuleHeap) (size : ℕ)
  | moduleRealloc (m : ModuleHeap) (ptr : Option ℕ) (size : ℕ)
  | moduleFree (m : ModuleHeap) (addr : ℕ)

namespace AllocatorCall

def returns : AllocatorCall → Bool
  | malloc s size => (s.rtMalloc size).isSome
  | realloc s ptr size => (s.rtRealloc ptr size).isSome
  | free s ptr => (s.rtFree ptr).isSome
  | moduleMalloc m size => (rtModuleMalloc m size).isSome
  | moduleRealloc m ptr size => (rtModuleRealloc m ptr size).isSome
  | moduleFree m addr => (rtModuleFree m addr).isSome

def log : AllocatorCall → SemLog
  | malloc s size => s.rtMallocLog size
  | realloc s ptr size => s.rtReallocLog ptr size
  | free s ptr => s.rtFreeLog ptr
  | moduleMalloc m size => rtModuleMallocLog m size
  | moduleRealloc m ptr size => rtModuleReallocLog m ptr size
  | moduleFree m addr => rtModuleFreeLog m addr

/-- The call gets the pages that a new zone or the heap of the module needs, if it needs any. -/
def PagesServe : AllocatorCall → Prop
  | malloc s size => ¬ s.NoZone size
  | realloc s ptr size => ∀ request ∈ s.reallocRequest ptr size, ¬ s.NoZone request
  | moduleMalloc m size => ¬ m.NoPages size
  | moduleRealloc m ptr size => ¬ (m.ReallocMoves ptr size ∧ m.NoPages size)
  | free _ _ | moduleFree _ _ => True

/-- The call leaves every semaphore with the value that it had. -/
def Balanced (call : AllocatorCall) : Prop := ∀ sem, net sem call.log = 0

end AllocatorCall

/-! ## The ways through the functions -/

theorem bracketed_rtPageAllocLog (npages : ℕ) : Bracketed (rtPageAllocLog npages) := by
  rw [rtPageAllocLog]
  split
  · exact Bracketed.nil
  · exact bracketed_section heapSem

theorem bracketed_rtPageFreeLog : Bracketed rtPageFreeLog := bracketed_section heapSem

namespace Slab

variable {s : Slab} {ptr size : ℕ}

/-- Every way through `rt_malloc` but `goto fail`. -/
theorem bracketed_rtMallocLog (served : ¬ s.NoZone size) : Bracketed (s.rtMallocLog size) := by
  have single : Bracketed (sectionOf heapSem []) := bracketed_section heapSem
  rw [rtMallocLog]
  split
  · exact Bracketed.nil
  rename_i nonzero
  split
  · refine (bracketed_rtPageAllocLog _).append ?_
    split
    · exact Bracketed.nil
    · exact single
  rename_i small
  split
  · exact single
  rename_i noChunk
  split
  · exact single
  rename_i noZone
  refine (single.append (bracketed_rtPageAllocLog _)).append ?_
  split
  · rename_i noPages
    exact absurd ⟨nonzero, Nat.lt_of_not_le small, noChunk, noZone, noPages⟩ served
  · exact single

/-- On the way through `goto fail` `heap_sem` is released once more than it is taken. -/
theorem net_rtMallocLog (noZone : s.NoZone size) : net heapSem (s.rtMallocLog size) = 1 := by
  obtain ⟨nonzero, small, noChunk, noFree, noPages⟩ := noZone
  rw [rtMallocLog, if_neg nonzero, if_neg (Nat.not_le.mpr small), noChunk, noFree]
  dsimp only
  rw [noPages, net_append, net_append, (bracketed_rtPageAllocLog _).net_eq_zero]
  rfl

theorem bracketed_rtFreeLog (s : Slab) (ptr : ℕ) : Bracketed (s.rtFreeLog ptr) := by
  have single : Bracketed (sectionOf heapSem []) := bracketed_section heapSem
  rw [rtFreeLog]
  split
  · exact Bracketed.nil
  split
  · exact single.append bracketed_rtPageFreeLog
  dsimp only
  split
  · exact single.append bracketed_rtPageFreeLog
  · exact single

theorem bracketed_moveBlockLog (served : ¬ s.NoZone size) : Bracketed (s.moveBlockLog ptr size) := by
  refine (bracketed_rtMallocLog served).append ?_
  split
  · exact bracketed_rtFreeLog _ _
  · exact Bracketed.nil

/-- Without pages there is no new block, and the old one is not released. -/
theorem moveBlockLog_noZone (noZone : s.NoZone size) : s.moveBlockLog ptr size = s.rtMallocLog size := by
  obtain ⟨nonzero, small, noChunk, noFree, noPages⟩ := noZone
  rw [moveBlockLog, rtMalloc, if_neg nonzero, if_neg (Nat.not_le.mpr small)]
  dsimp only
  split
  · rename_i got
    split at got
    · cases got
    · rw [noChunk, noFree] at got
      dsimp only at got
      rw [noPages] at got
      cases got
  · exact List.append_nil _

/-- `rt_realloc` is a single `rt_malloc`, an `rt_malloc` and an `rt_free`, or no `rt_malloc` at all. -/
theorem rtReallocLog_cases (s : Slab) (ptr size : ℕ) :
    (s.reallocRequest ptr size = none ∧ Bracketed (s.rtReallocLog ptr size)) ∨
      ∃ request, s.reallocRequest ptr size = some request ∧
        (s.rtReallocLog ptr size = s.rtMallocLog request ∨
          s.rtReallocLog ptr size = s.moveBlockLog ptr request) := by
  rw [reallocRequest, rtReallocLog]
  split
  · exact .inr ⟨size, rfl, .inl rfl⟩
  split
  · exact .inl ⟨rfl, bracketed_rtFreeLog _ _⟩
  split
  · exact .inr ⟨size, rfl, .inr rfl⟩
  split
  · split
    · exact .inl ⟨rfl, Bracketed.nil⟩
    · exact .inr ⟨_, rfl, .inr rfl⟩
  · exact .inl ⟨rfl, Bracketed.nil⟩

theorem bracketed_rtReallocLog (served : ∀ request ∈ s.reallocRequest ptr size, ¬ s.NoZone request) :
    Bracketed (s.rtReallocLog ptr size) := by
  obtain ⟨-, bracketed⟩ | ⟨request, asked, same⟩ := rtReallocLog_cases s ptr size
  · exact bracketed
  · have served := served request asked
    rcases same with same | same
    · rw [same]
      exact bracketed_rtMallocLog served
    · rw [same]
      exact bracketed_moveBlockLog served

theorem net_rtReallocLog {request : ℕ} (asked : request ∈ s.reallocRequest ptr size) (noZone : s.NoZone request) :
    net heapSem (s.rtReallocLog ptr size) = 1 := by
  obtain ⟨none_, -⟩ | ⟨other, found, same⟩ := rtReallocLog_cases s ptr size
  · rw [none_] at asked
    cases asked
  · obtain rfl := Option.some.inj (found.symm.trans asked)
    rcases same with same | same
    · rw [same, net_rtMallocLog noZone]
    · rw [same, moveBlockLog_noZone noZone, net_rtMallocLog noZone]

end Slab

section

variable {m : ModuleHeap} {ptr : Option ℕ} {size : ℕ}

theorem bracketed_rtModuleFreeLog (m : ModuleHeap) (addr : ℕ) : Bracketed (rtModuleFreeLog m addr) := by
  rw [rtModuleFreeLog]
  split
  · exact bracketed_nested nofun
  · exact bracketed_section modSem

variable {after : ModuleHeap}

/-- A call that returns finds a block, perhaps in pages that it has just taken; or it finds no pages, and
returns without the release. -/
theorem rtModuleMalloc_cases {got : Option ℕ} (returned : rtModuleMalloc m size = some (after, got)) :
    (¬ m.NoPages size ∧ Bracketed (rtModuleMallocLog m size) ∧ after.modSem = m.modSem) ∨
      (m.NoPages size ∧ net modSem (rtModuleMallocLog m size) = -1 ∧ after.modSem + 1 = m.modSem ∧
        got = none) := by
  have single : Bracketed (sectionOf modSem []) := bracketed_section modSem
  rw [rtModuleMalloc, rtModuleMallocDeep] at returned
  split at returned
  · cases returned
  rename_i accepted
  rw [rtModuleMallocLog, rtModuleMallocDeepLog]
  cases full : firstFit sizeofMemHead (nunitsOf size) m.memList with
  | some found =>
    rw [full] at returned
    obtain ⟨rfl, -⟩ := Prod.mk.inj (Option.some.inj returned)
    refine .inl ⟨fun noPages => ?_, single, rfl⟩
    rw [noPages.1] at full
    cases full
  | none =>
    rw [full] at returned
    dsimp only at returned ⊢
    cases allocated : rtPageAlloc m.rtPageList (npageOf size) with
    | none =>
      simp only [rtModuleMallocPage, allocated, Option.bind_eq_bind, Option.bind_some] at returned ⊢
      obtain ⟨rfl, rfl⟩ := Prod.mk.inj (Option.some.inj returned)
      refine .inr ⟨⟨full, allocated⟩, ?_, ?_, rfl⟩
      · rw [net, net_append, (bracketed_rtPageAllocLog _).net_eq_zero]
        rfl
      · dsimp only
        omega
    | some pages =>
      obtain ⟨chunk, rtPageList⟩ := pages
      have positive : 0 < npageOf size := by
        rw [rtPageAlloc] at allocated
        split at allocated
        · cases allocated
        · omega
      obtain ⟨rest, fit⟩ : ∃ rest, firstFit sizeofMemHead (nunitsOf size)
          (link sizeofMemHead ⟨chunk, npageOf size * rtMmPageSize / sizeofMemHead⟩ m.memList) =
            some (chunk, rest) := firstFit_link full (ModuleHeap.nunitsOf_le size positive)
      simp only [rtModuleMallocPage, allocated, Option.bind_eq_bind] at returned ⊢
      split at returned
      · rename_i room
        rw [if_pos room]
        rw [Option.bind_some] at returned
        dsimp only at returned ⊢
        rw [rtModuleMallocDeep, if_neg (show ¬ (size = 0 ∨ m.modSem - 1 + 1 = 0) by omega)] at returned
        dsimp only at returned
        rw [fit] at returned
        obtain ⟨rfl, -⟩ := Prod.mk.inj (Option.some.inj returned)
        rw [rtModuleMallocDeepLog]
        dsimp only
        rw [fit]
        refine .inl ⟨fun noPages => ?_, ?_, ?_⟩
        · rw [noPages.2] at allocated
          cases allocated
        · have nested : Bracketed (sectionOf modSem (rtPageAllocLog (npageOf size))) := by
            rw [rtPageAllocLog, if_neg positive.ne']
            exact bracketed_nested (by rintro ⟨⟩)
          have := nested.append single
          rw [sectionOf, List.cons_append, List.append_assoc] at this
          exact this
        · omega
      · cases returned

theorem rtModuleFreePage_modSem {pagePtr npages : ℕ} (freed : rtModuleFreePage m pagePtr npages = some after) :
    after.modSem = m.modSem := by
  rw [rtModuleFreePage] at freed
  obtain ⟨rtPageList, -, freed⟩ := Option.bind_eq_some_iff.mp freed
  obtain ⟨i, -, freed⟩ := Option.bind_eq_some_iff.mp freed
  dsimp only at freed
  split at freed
  · rw [← Option.some.inj freed]
  split at freed
  · rw [← Option.some.inj freed]
  · cases freed

theorem rtModuleFree_modSem {addr : ℕ} (freed : rtModuleFree m addr = some after) : after.modSem = m.modSem := by
  rw [rtModuleFree] at freed
  split at freed
  · cases freed
  split at freed
  · cases freed
  · rw [← Option.some.inj freed]
  · exact (rtModuleFreePage_modSem freed).trans rfl

/-- `rt_module_realloc` keeps `mod_sem` unless it asks `rt_module_malloc` in vain. -/
theorem rtModuleRealloc_cases {got : Option ℕ} (returned : rtModuleRealloc m ptr size = some (after, got)) :
    (¬ (m.ReallocMoves ptr size ∧ m.NoPages size) ∧ Bracketed (rtModuleReallocLog m ptr size) ∧
        after.modSem = m.modSem) ∨
      (m.ReallocMoves ptr size ∧ m.NoPages size) ∧ net modSem (rtModuleReallocLog m ptr size) = -1 ∧
        after.modSem + 1 = m.modSem := by
  cases ptr with
  | none =>
    have moves : m.ReallocMoves none size := nofun
    obtain ⟨served, kept⟩ | ⟨noPages, taken, left, -⟩ := rtModuleMalloc_cases returned
    · exact .inl ⟨fun fails => served fails.2, kept⟩
    · exact .inr ⟨⟨moves, noPages⟩, taken, left⟩
  | some old =>
    rw [rtModuleRealloc] at returned
    rw [rtModuleReallocLog]
    dsimp only at returned ⊢
    split at returned
    · rename_i zero
      rw [if_pos zero]
      obtain ⟨next, freed, same⟩ := Option.map_eq_some_iff.mp returned
      obtain ⟨rfl, -⟩ := Prod.mk.inj same
      exact .inl ⟨fun fails => (fails.1 old rfl).1 zero, bracketed_rtModuleFreeLog _ _, rtModuleFree_modSem freed⟩
    rename_i nonzero
    rw [if_neg nonzero]
    split at returned
    · rename_i fits
      rw [if_pos fits]
      have stays : ¬ (m.ReallocMoves (some old) size ∧ m.NoPages size) := fun fails => by
        have := (fails.1 old rfl).2.1
        omega
      split at returned
      · rename_i same
        rw [if_pos same]
        obtain ⟨rfl, -⟩ := Prod.mk.inj (Option.some.inj returned)
        exact .inl ⟨stays, Bracketed.nil, rfl⟩
      · rename_i longer
        rw [if_neg longer]
        obtain ⟨next, freed, same⟩ := Option.map_eq_some_iff.mp returned
        obtain ⟨rfl, -⟩ := Prod.mk.inj same
        exact .inl ⟨stays, bracketed_rtModuleFreeLog _ _, (rtModuleFree_modSem freed).trans rfl⟩
    · rename_i short
      rw [if_neg short]
      obtain ⟨grown, growing, returned⟩ := Option.bind_eq_some_iff.mp returned
      rw [growing]
      cases grown with
      | some memList =>
        obtain ⟨rfl, -⟩ := Prod.mk.inj (Option.some.inj returned)
        refine .inl ⟨fun fails => ?_, Bracketed.nil, rfl⟩
        have moves := (fails.1 old rfl).2.2
        rw [growing] at moves
        cases moves
      | none =>
        have moves : m.ReallocMoves (some old) size := by
          intro other same
          obtain rfl := Option.some.inj same
          exact ⟨nonzero, Nat.lt_of_not_le short, growing⟩
        obtain ⟨⟨next, p⟩, malloced, returned⟩ := Option.bind_eq_some_iff.mp returned
        dsimp only at returned ⊢
        rw [malloced]
        obtain ⟨served, bracketed, kept⟩ | ⟨noPages, taken, left, rfl⟩ := rtModuleMalloc_cases malloced
        · refine .inl ⟨fun fails => served fails.2, ?_⟩
          cases p with
          | none =>
            obtain ⟨rfl, -⟩ := Prod.mk.inj (Option.some.inj returned)
            exact ⟨bracketed.append Bracketed.nil, kept⟩
          | some p =>
            obtain ⟨last, freed, same⟩ := Option.map_eq_some_iff.mp returned
            obtain ⟨rfl, -⟩ := Prod.mk.inj same
            exact ⟨bracketed.append (bracketed_rtModuleFreeLog _ _), (rtModuleFree_modSem freed).trans kept⟩
        · obtain ⟨rfl, -⟩ := Prod.mk.inj (Option.some.inj returned)
          refine .inr ⟨⟨moves, noPages⟩, ?_, left⟩
          rw [net_append, taken]
          rfl

end

namespace AllocatorCall

variable {call : AllocatorCall}

/-- A call that gets the pages it needs enters and leaves its sections. -/
theorem bracketed_log (returned : call.returns = true) (served : call.PagesServe) : Bracketed call.log := by
  cases call with
  | malloc s size => exact Slab.bracketed_rtMallocLog served
  | realloc s ptr size => exact Slab.bracketed_rtReallocLog served
  | free s ptr => exact Slab.bracketed_rtFreeLog s ptr
  | moduleMalloc m size =>
    obtain ⟨⟨after, got⟩, malloced⟩ := Option.isSome_iff_exists.mp returned
    obtain ⟨-, bracketed, -⟩ | ⟨noPages, -⟩ := rtModuleMalloc_cases malloced
    · exact bracketed
    · exact absurd noPages served
  | moduleRealloc m ptr size =>
    obtain ⟨⟨after, got⟩, realloced⟩ := Option.isSome_iff_exists.mp returned
    obtain ⟨-, bracketed, -⟩ | ⟨fails, -⟩ := rtModuleRealloc_cases realloced
    · exact bracketed
    · exact absurd fails served
  | moduleFree m addr => exact bracketed_rtModuleFreeLog m addr

/-- A call that does not get them releases a semaphore once too often or once too seldom. -/
theorem not_balanced (returned : call.returns = true) (fails : ¬ call.PagesServe) : ¬ call.Balanced := by
  intro balanced
  cases call with
  | malloc s size =>
    have more := Slab.net_rtMallocLog (Classical.not_not.mp fails)
    have none_ := balanced heapSem
    rw [log] at none_
    omega
  | realloc s ptr size =>
    rw [PagesServe] at fails
    push Not at fails
    obtain ⟨request, asked, noZone⟩ := fails
    have more := Slab.net_rtReallocLog asked noZone
    have none_ := balanced heapSem
    rw [log] at none_
    omega
  | free s ptr => exact fails trivial
  | moduleMalloc m size =>
    have none_ := balanced modSem
    rw [log] at none_
    obtain ⟨⟨after, got⟩, malloced⟩ := Option.isSome_iff_exists.mp returned
    obtain ⟨served, -⟩ | ⟨-, less, -⟩ := rtModuleMalloc_cases malloced
    · exact fails served
    · omega
  | moduleRealloc m ptr size =>
    have none_ := balanced modSem
    rw [log] at none_
    obtain ⟨⟨after, got⟩, realloced⟩ := Option.isSome_iff_exists.mp returned
    obtain ⟨served, -⟩ | ⟨-, less, -⟩ := rtModuleRealloc_cases realloced
    · exact fails served
    · omega
  | moduleFree m addr => exact fails trivial

/-- A call that returns leaves the semaphores as they were exactly if it gets the pages it needs. Threads
whose calls all do exclude each other from the sections. -/
theorem balanced_iff {τ : Type} [DecidableEq τ] (program : τ → List AllocatorCall) :
    (∀ call : AllocatorCall, call.returns = true → (call.Balanced ↔ call.PagesServe)) ∧
      ((∀ thread, ∀ call ∈ program thread, call.returns = true ∧ call.PagesServe) → ∀ schedule : List τ,
        Run.Always Threads.step Threads.Exclusive
          (Threads.start fun thread => ((program thread).map log).flatten) schedule) := by
  constructor
  · intro call returned
    constructor
    · intro balanced
      exact Classical.not_not.mp fun fails => not_balanced returned fails balanced
    · intro served sem
      exact (bracketed_log returned served).net_eq_zero sem
  · intro served schedule
    refine Threads.exclusive_of_bracketed (fun thread => Bracketed.flatten fun one member => ?_) schedule
    obtain ⟨call, inProgram, rfl⟩ := List.mem_map.mp member
    obtain ⟨returned, pages⟩ := served thread call inProgram
    exact bracketed_log returned pages

/-- The slab heap of eight pages: seven are left beside `memusage`, a zone takes eight. -/
def eightPages : Slab where
  zoneArray := fun _ => []
  zoneFree := []
  zoneFreeCnt := 0
  zoneSize := 32768
  zoneLimit := 8192
  zonePageCnt := 8
  memusage := fun _ => ⟨pageTypeFree, 0⟩
  rtPageList := [⟨8192, 7⟩]
  usedMem := 0
  maxMem := 0
  zone := fun _ => ⟨0, 0, 0, 0, 0, 0, 0, []⟩
  bytes := fun _ => 0
  zones := []

def noPagesLeft : ModuleHeap where
  memList := []
  size := fun _ => 0
  bytes := fun _ => 0
  pageArray := fun _ => ⟨0, 0⟩
  pageCnt := 0
  modSem := 1
  rtPageList := []
  held := []

def onePageLeft : ModuleHeap := { noPagesLeft with rtPageList := [⟨4096, 1⟩] }

/-- Behind the first request for eight bytes `heap_sem` is two, and two threads are inside `rt_page_alloc`.
A module that gets no page keeps `mod_sem`. -/
theorem failures_not_balanced :
    (Slab.static eightPages.memusage eightPages.zone eightPages.bytes).rtSystemHeapInit 4096 36864 =
        some eightPages ∧
      (malloc eightPages 8).returns = true ∧ net heapSem (malloc eightPages 8).log = 1 ∧
      ¬ (Run.exec Threads.step
          (Threads.start fun thread : Fin 3 =>
            if thread = 0 then (malloc eightPages 8).log else (malloc eightPages 8192).log)
          [0, 0, 0, 0, 0, 1, 2]).Exclusive ∧
      (moduleMalloc noPagesLeft 100).returns = true ∧ net modSem (moduleMalloc noPagesLeft 100).log = -1 := by
  refine ⟨rfl, rfl, rfl, fun exclusive => ?_, rfl, rfl⟩
  have same := exclusive heapSem 1 2 (by decide) (by decide)
  cases same

/-- The same requests with the pages they need: eight kilobytes are two pages of the heap, a hundred bytes
are one page for the module. -/
theorem served_balanced :
    (malloc eightPages 8192).Balanced ∧ (moduleMalloc onePageLeft 100).Balanced ∧
      (Run.exec Threads.step
        (Threads.start fun _ : Fin 2 =>
          ([malloc eightPages 8192, moduleMalloc onePageLeft 100].map log).flatten)
        [0, 1, 0, 1, 1, 0]).Exclusive := by
  have large : (malloc eightPages 8192).PagesServe := fun noZone => absurd noZone.2.1 (by decide)
  have page : (moduleMalloc onePageLeft 100).PagesServe := fun noPages => absurd noPages.2 nofun
  obtain ⟨each, together⟩ :=
    balanced_iff fun _ : Fin 2 => [malloc eightPages 8192, moduleMalloc onePageLeft 100]
  refine ⟨(each _ rfl).mpr large, (each _ rfl).mpr page, ?_⟩
  refine (together (fun _ call member => ?_) [0, 1, 0, 1, 1, 0]).last
  rcases List.mem_pair.mp member with rfl | rfl
  · exact ⟨rfl, large⟩
  · exact ⟨rfl, page⟩

end AllocatorCall

end RtThread
