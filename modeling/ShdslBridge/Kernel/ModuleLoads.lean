import ShdslBridge.Kernel.ModuleLoader
import ShdslBridge.Lib.Run

/-! # Loads one after another

What is loaded does not depend on the contents of the memory: `module_space` is cleared, and each relocation reads
and writes what it changes in it. The only other thing that goes from one call to the next is `unsolved`. It is set by
a symbol that the kernel does not have, and never cleared. The call that sets it loses the space of its module.
-/

namespace RtThread

open Memory LittleEndian

/-! ## Well-formed images -/

/-- A shared object for this machine, whose relocations are in its segments. -/
structure ElfImage.WellFormed (image : ElfImage) : Prop where
  magic : image.hasMagic rtmmag || image.hasMagic elfmag
  elfClass : image.eIdentClass = elfclass32
  type : image.eType = etDyn
  dynsym : image.dynsym.isSome
  inside : ∀ extent, image.extent = some extent → ∀ section_ ∈ image.sections, section_.isRel →
    ∀ rel ∈ image.relocations section_, rel.rType ≠ rArmNone →
      extent.vstartAddr.toNat ≤ rel.rOffset.toNat ∧ rel.rOffset.toNat + 4 ≤ extent.vendAddr.toNat

/-- A call with a well-formed image. Blocks of `rt_malloc` do not wrap around. -/
structure WellFormedCall extends LoadCall where
  wellFormed : image.WellFormed
  blocks : ∀ request size, (malloc request size).toNat + size.toNat ≤ 2 ^ 32

theorem WellFormedCall.block (call : WellFormedCall) (heap : LoadHeap) (size : BitVec 32) :
    (heap.rtMalloc call.malloc size).1.toNat + size.toNat ≤ 2 ^ 32 :=
  call.blocks heap.requests size

/-! ## The contents of the memory -/

theorem rtModuleArmRelocate_congr {memory other : ℕ → BitVec 8} {moduleSpace vstartAddr : BitVec 32} {rel : Elf32Rel}
    (symVal : BitVec 32)
    (word : rel.rType ≠ rArmNone → (rel.whereIn moduleSpace vstartAddr).toNat + 4 ≤ 2 ^ 32 ∧
      ∀ i, (rel.whereIn moduleSpace vstartAddr).toNat ≤ i → i < (rel.whereIn moduleSpace vstartAddr).toNat + 4 →
        memory i = other i) {address : ℕ} (agree : memory address = other address) :
    (rtModuleArmRelocate memory moduleSpace vstartAddr rel symVal).1 address =
      (rtModuleArmRelocate other moduleSpace vstartAddr rel symVal).1 address := by
  by_cases nothing : rel.rType = rArmNone
  · rw [rtModuleArmRelocate, rtModuleArmRelocate, if_pos nothing, if_pos nothing]
    exact agree
  · obtain ⟨below, same⟩ := word nothing
    generalize at_ : rel.whereIn moduleSpace vstartAddr = where_ at below same
    have words : readWord memory where_ = readWord other where_ := by
      rw [readWord, readWord, readNat_congr same]
    have uppers : readHalf memory where_ = readHalf other where_ := by
      rw [readHalf, readHalf, readNat_congr fun i above less => same i above (by omega)]
    have lowers : readHalf memory (where_ + 2) = readHalf other (where_ + 2) := by
      have behind : (where_ + 2).toNat = where_.toNat + 2 := by
        rw [BitVec.toNat_add]
        exact Nat.mod_eq_of_lt (by simp; omega)
      rw [readHalf, readHalf, behind, readNat_congr fun i above less => same i (by omega) (by omega)]
    have either {branch : Prop} [Decidable branch] {left right left' right' : (ℕ → BitVec 8) × Bool}
        (yes : left.1 address = right.1 address) (no : left'.1 address = right'.1 address) :
        (if branch then left else left').1 address = (if branch then right else right').1 address := by
      by_cases here : branch
      · rw [if_pos here, if_pos here, yes]
      · rw [if_neg here, if_neg here, no]
    have stored (value : BitVec 32) : writeWord memory where_ value address = writeWord other where_ value address :=
      writeNat_congr _ _ _ agree
    rw [rtModuleArmRelocate, rtModuleArmRelocate, at_, words, uppers, lowers]
    refine either agree (either (stored _) (either (stored _) (either (stored _) (either (stored _) (either (stored _)
      (either (stored _) (either (either agree ?_) agree)))))))
    exact writeNat_congr _ _ _ (writeNat_congr _ _ _ agree)

/-- Two states of the relocations with the same space of the module. -/
structure SameSpace (moduleSpace size : BitVec 32) (state other : RelocationState) : Prop where
  unsolved : state.unsolved = other.unsolved
  agree : ∀ address, moduleSpace.toNat ≤ address → address < moduleSpace.toNat + size.toNat →
    state.memory address = other.memory address

/-- The entry is in the segments. -/
def Elf32Rel.Inside (rel : Elf32Rel) (extent : ModuleExtent) : Prop :=
  rel.rType ≠ rArmNone →
    extent.vstartAddr.toNat ≤ rel.rOffset.toNat ∧ rel.rOffset.toNat + 4 ≤ extent.vendAddr.toNat

section

variable {symtab : List (List (BitVec 8) × BitVec 32)} {image : ElfImage} {moduleSpace : BitVec 32}
  {extent : ModuleExtent} {section_ : Elf32Shdr} {state other : RelocationState}

theorem toNat_whereIn (block : moduleSpace.toNat + extent.size.toNat ≤ 2 ^ 32) {rel : Elf32Rel}
    (above : extent.vstartAddr.toNat ≤ rel.rOffset.toNat) (below : rel.rOffset.toNat + 4 ≤ extent.vendAddr.toNat) :
    moduleSpace.toNat ≤ (rel.whereIn moduleSpace extent.vstartAddr).toNat ∧
      (rel.whereIn moduleSpace extent.vstartAddr).toNat + 4 ≤ moduleSpace.toNat + extent.size.toNat := by
  have size : extent.size.toNat = extent.vendAddr.toNat - extent.vstartAddr.toNat :=
    BitVec.toNat_sub_of_le (BitVec.le_def.mpr (by omega))
  have place : (rel.whereIn moduleSpace extent.vstartAddr).toNat =
      moduleSpace.toNat + (rel.rOffset.toNat - extent.vstartAddr.toNat) := by
    rw [Elf32Rel.whereIn, BitVec.toNat_sub, BitVec.toNat_add]
    omega
  omega

theorem SameSpace.relocate (same : SameSpace moduleSpace extent.size state other)
    (block : moduleSpace.toNat + extent.size.toNat ≤ 2 ^ 32) {rel : Elf32Rel} (inside : rel.Inside extent)
    (symVal : BitVec 32) :
    SameSpace moduleSpace extent.size
      { state with memory := (rtModuleArmRelocate state.memory moduleSpace extent.vstartAddr rel symVal).1 }
      { other with memory := (rtModuleArmRelocate other.memory moduleSpace extent.vstartAddr rel symVal).1 } where
  unsolved := same.unsolved
  agree address above below := by
    refine rtModuleArmRelocate_congr symVal (fun within => ?_) (same.agree address above below)
    obtain ⟨low, high⟩ := toNat_whereIn block (inside within).1 (inside within).2
    exact ⟨by omega, fun i above less => same.agree i (by omega) (by omega)⟩

theorem SameSpace.entry (same : SameSpace moduleSpace extent.size state other)
    (block : moduleSpace.toNat + extent.size.toNat ≤ 2 ^ 32) {rel : Elf32Rel} (inside : rel.Inside extent) :
    SameSpace moduleSpace extent.size (relocateEntry symtab image moduleSpace extent.vstartAddr section_ state rel)
      (relocateEntry symtab image moduleSpace extent.vstartAddr section_ other rel) := by
  unfold relocateEntry
  dsimp only
  split_ifs
  · exact same.relocate block inside _
  · exact ⟨rfl, same.agree⟩
  · exact same.relocate block inside _
  · exact same

theorem SameSpace.entries (same : SameSpace moduleSpace extent.size state other)
    (block : moduleSpace.toNat + extent.size.toNat ≤ 2 ^ 32) {rels : List Elf32Rel}
    (inside : ∀ rel ∈ rels, rel.Inside extent) :
    SameSpace moduleSpace extent.size
      (rels.foldl (relocateEntry symtab image moduleSpace extent.vstartAddr section_) state)
      (rels.foldl (relocateEntry symtab image moduleSpace extent.vstartAddr section_) other) := by
  induction rels generalizing state other with
  | nil => exact same
  | cons rel rest ih =>
    obtain ⟨first, later⟩ := List.forall_mem_cons.mp inside
    exact ih (same.entry block first) later

theorem SameSpace.sections (same : SameSpace moduleSpace extent.size state other)
    (block : moduleSpace.toNat + extent.size.toNat ≤ 2 ^ 32) {sections : List Elf32Shdr}
    (inside : ∀ section_ ∈ sections, section_.isRel → ∀ rel ∈ image.relocations section_, rel.Inside extent) :
    (relocateSections symtab image moduleSpace extent.vstartAddr sections state).1 =
        (relocateSections symtab image moduleSpace extent.vstartAddr sections other).1 ∧
      SameSpace moduleSpace extent.size
        (relocateSections symtab image moduleSpace extent.vstartAddr sections state).2
        (relocateSections symtab image moduleSpace extent.vstartAddr sections other).2 := by
  induction sections generalizing state other with
  | nil => exact ⟨rfl, same⟩
  | cons section_ rest ih =>
    obtain ⟨first, later⟩ := List.forall_mem_cons.mp inside
    unfold relocateSections
    cases kind : section_.isRel with
    | false => exact ih same later
    | true =>
      have entries : SameSpace moduleSpace extent.size
          ((image.relocations section_).foldl (relocateEntry symtab image moduleSpace extent.vstartAddr section_) state)
          ((image.relocations section_).foldl (relocateEntry symtab image moduleSpace extent.vstartAddr section_)
              other) :=
        same.entries block (first kind)
      simp only [Bool.not_true, Bool.false_eq_true, if_false, ← entries.unsolved]
      split_ifs
      · exact ⟨rfl, entries⟩
      · exact ih entries later

theorem copySegments_congr (vstartAddr : BitVec 32) {memory other : ℕ → BitVec 8} {address : ℕ}
    (agree : memory address = other address) :
    image.copySegments moduleSpace vstartAddr memory address =
        image.copySegments moduleSpace vstartAddr other address := by
  unfold ElfImage.copySegments
  induction image.segments generalizing memory other with
  | nil => exact agree
  | cons p rest ih =>
    refine ih ?_
    beta_reduce
    by_cases load : p.pType = ptLoad
    · rw [if_pos load, if_pos load]
      exact writeAt_congr _ _ agree
    · rw [if_neg load, if_neg load]
      exact agree

theorem sameSpace_start (unsolved : Bool) (vstartAddr size : BitVec 32) (memory other : ℕ → BitVec 8) :
    SameSpace moduleSpace size
      ⟨unsolved, image.copySegments moduleSpace vstartAddr (rtMemset memory moduleSpace.toNat 0 size.toNat)⟩
      ⟨unsolved, image.copySegments moduleSpace vstartAddr (rtMemset other moduleSpace.toNat 0 size.toNat)⟩ where
  unsolved := rfl
  agree address above below := by
    refine copySegments_congr vstartAddr ?_
    obtain ⟨i, rfl⟩ := Nat.exists_eq_add_of_le above
    rw [rtMemset_eq, rtMemset_eq, writeAt_inside _ _ _ (by simp; omega), writeAt_inside _ _ _ (by simp; omega)]

end

theorem placeModule_memory (kernel : LoaderKernel) (unsolved : Bool) (call : WellFormedCall) (memory : ℕ → BitVec 8)
    {extent : ModuleExtent} (laid : call.image.extent = some extent) {moduleSpace : BitVec 32}
    (block : moduleSpace.toNat + extent.size.toNat ≤ 2 ^ 32) :
    (placeModule kernel unsolved call.toLoadCall extent moduleSpace).1 =
        (placeModule kernel unsolved { call.toLoadCall with memory } extent moduleSpace).1 ∧
      SameSpace moduleSpace extent.size (placeModule kernel unsolved call.toLoadCall extent moduleSpace).2
        (placeModule kernel unsolved { call.toLoadCall with memory } extent moduleSpace).2 :=
  (sameSpace_start unsolved extent.vstartAddr extent.size call.memory memory).sections block
    (call.wellFormed.inside extent laid)

theorem loadSharedObject_memory (kernel : LoaderKernel) (unsolved : Bool) (call : WellFormedCall)
    (memory : ℕ → BitVec 8) :
    loadSharedObject kernel unsolved call.toLoadCall =
      loadSharedObject kernel unsolved { call.toLoadCall with memory } := by
  unfold loadSharedObject
  dsimp only
  cases laid : call.image.extent with
  | none => rfl
  | some extent =>
    dsimp only
    generalize LoadHeap.rtMalloc call.malloc ⟨0, []⟩ kernel.moduleObjectSize = object
    obtain ⟨completed, same⟩ := placeModule_memory kernel unsolved call memory laid (call.block object.2 extent.size)
    have space := readAt_congr fun i (inside : i < extent.size.toNat) =>
      same.agree _ (Nat.le_add_right _ i) (Nat.add_lt_add_left inside _)
    rw [completed, same.unsolved, space]

/-! ## Symbols that are not solved -/

def ElfImage.missing (image : ElfImage) (symtab : List (List (BitVec 8) × BitVec 32)) (section_ : Elf32Shdr)
    (rel : Elf32Rel) : Bool :=
  let sym := image.relocationSym section_ rel
  sym.stShndx == 0 && sym.bind != stbLocal && !image.hasMagic rtmmag &&
    rtModuleSymbolFind symtab (image.symName (image.shdr section_.shLink.toNat) sym) == 0

/-- The image has an entry whose symbol the kernel does not have. -/
def ElfImage.unsolved (image : ElfImage)
    (symtab : List (List (BitVec 8) × BitVec 32)) (sections : List Elf32Shdr) : Bool :=
  sections.any fun section_ => section_.isRel && (image.relocations section_).any (image.missing symtab section_)

section

variable (symtab : List (List (BitVec 8) × BitVec 32)) (image : ElfImage) (moduleSpace vstartAddr : BitVec 32)

theorem relocateEntry_unsolved (section_ : Elf32Shdr) (state : RelocationState) (rel : Elf32Rel) :
    (relocateEntry symtab image moduleSpace vstartAddr section_ state rel).unsolved =
      (state.unsolved || image.missing symtab section_ rel) := by
  unfold relocateEntry ElfImage.missing
  dsimp only
  split_ifs with defined elf found
  · rcases defined with here | here
    · simp_all
    · simp_all
  · simp_all
  · simp_all
  · simp_all

theorem entries_unsolved (section_ : Elf32Shdr) (rels : List Elf32Rel) (state : RelocationState) :
    (rels.foldl (relocateEntry symtab image moduleSpace vstartAddr section_) state).unsolved =
      (state.unsolved || rels.any (image.missing symtab section_)) := by
  induction rels generalizing state with
  | nil => simp
  | cons rel rest ih => rw [List.foldl_cons, ih, relocateEntry_unsolved, List.any_cons, Bool.or_assoc]

/-- From a clear variable the loop ends behind the last section if and only if no symbol is missing, and leaves the
variable clear then. -/
theorem relocateSections_unsolved (sections : List Elf32Shdr)
    {state : RelocationState} (clear : state.unsolved = false) :
    (relocateSections symtab image moduleSpace vstartAddr sections state).1 = !image.unsolved symtab sections ∧
      (relocateSections symtab image moduleSpace vstartAddr sections state).2.unsolved =
        image.unsolved symtab sections := by
  induction sections generalizing state with
  | nil => exact ⟨rfl, clear⟩
  | cons section_ rest ih =>
    unfold relocateSections
    cases kind : section_.isRel with
    | false => simpa [ElfImage.unsolved, kind] using ih clear
    | true =>
      have entries := entries_unsolved symtab image moduleSpace vstartAddr section_ (image.relocations section_) state
      rw [clear, Bool.false_or] at entries
      cases missing : (image.relocations section_).any (image.missing symtab section_) with
      | false =>
        rw [missing] at entries
        simpa [ElfImage.unsolved, kind, missing, entries] using ih entries
      | true =>
        rw [missing] at entries
        simp [ElfImage.unsolved, kind, missing, entries]

end

/-! ## A call -/

/-- The relocations of the call meet a symbol that the kernel does not have: there is memory for the module. -/
def LoadCall.Unresolved (kernel : LoaderKernel) (call : LoadCall) : Prop :=
  call.image.unsolved kernel.symtab call.image.sections = true ∧
    ∃ extent, call.image.extent = some extent ∧ extent.size ≠ 0 ∧ call.malloc 0 kernel.moduleObjectSize ≠ 0 ∧
      call.malloc 1 extent.size ≠ 0

theorem placeModule_unsolved (kernel : LoaderKernel)
    (call : LoadCall) (extent : ModuleExtent) (moduleSpace : BitVec 32) :
    (placeModule kernel false call extent moduleSpace).1 = !call.image.unsolved kernel.symtab call.image.sections ∧
      (placeModule kernel false call extent moduleSpace).2.unsolved =
        call.image.unsolved kernel.symtab call.image.sections :=
  relocateSections_unsolved _ _ _ _ _ rfl

theorem rtMalloc_of_null {malloc : ℕ → BitVec 32 → BitVec 32} {heap : LoadHeap} {size : BitVec 32}
    (null : malloc heap.requests size = 0) : heap.rtMalloc malloc size = (0, ⟨heap.requests + 1, heap.held⟩) := by
  rw [LoadHeap.rtMalloc, null]
  rfl

theorem rtMalloc_of_block {malloc : ℕ → BitVec 32 → BitVec 32} {heap : LoadHeap} {size : BitVec 32}
    (block : malloc heap.requests size ≠ 0) :
    heap.rtMalloc malloc size =
      (malloc heap.requests size, ⟨heap.requests + 1, heap.held ++ [malloc heap.requests size]⟩) := by
  dsimp only [LoadHeap.rtMalloc]
  rw [if_neg block]

theorem loadSharedObject_of_resolved {kernel : LoaderKernel} {call : LoadCall} (resolved : ¬ call.Unresolved kernel) :
    (loadSharedObject kernel false call).unsolved = false ∧
      ((loadSharedObject kernel false call).outcome = .refused →
        (loadSharedObject kernel false call).heap.held = []) := by
  unfold loadSharedObject
  cases laid : call.image.extent with
  | none => exact ⟨rfl, fun _ => rfl⟩
  | some extent =>
    dsimp only
    by_cases empty : extent.size = 0
    · rw [if_pos empty]
      exact ⟨rfl, fun _ => rfl⟩
    rw [if_neg empty]
    by_cases object : call.malloc 0 kernel.moduleObjectSize = 0
    · rw [rtMalloc_of_null object]
      exact ⟨rfl, fun _ => rfl⟩
    rw [rtMalloc_of_block object, if_neg object]
    dsimp only
    by_cases space : call.malloc 1 extent.size = 0
    · rw [rtMalloc_of_null space]
      exact ⟨rfl, fun _ => List.erase_cons_head _ _⟩
    rw [rtMalloc_of_block space, if_neg space]
    obtain ⟨completed, unsolved⟩ := placeModule_unsolved kernel call extent (call.malloc 1 extent.size)
    have solved : call.image.unsolved kernel.symtab call.image.sections = false :=
      Bool.eq_false_iff.mpr fun missing => resolved ⟨missing, extent, laid, empty, object, space⟩
    rw [solved] at completed unsolved
    dsimp only [Nat.zero_add]
    rw [completed, unsolved, if_neg (by decide)]
    split
    · exact ⟨rfl, fun refused => nomatch refused⟩
    · exact ⟨rfl, fun refused => nomatch refused⟩

theorem loadSharedObject_of_unresolved {kernel : LoaderKernel} {call : LoadCall} (unresolved : call.Unresolved kernel) :
    (loadSharedObject kernel false call).outcome = .refused ∧ (loadSharedObject kernel false call).heap.held ≠ [] := by
  obtain ⟨missing, extent, laid, sized, object, space⟩ := unresolved
  obtain ⟨completed, -⟩ := placeModule_unsolved kernel call extent (call.malloc 1 extent.size)
  rw [missing] at completed
  unfold loadSharedObject
  rw [laid]
  dsimp only
  rw [if_neg sized, rtMalloc_of_block object, if_neg object]
  dsimp only
  rw [rtMalloc_of_block space, if_neg space]
  dsimp only [Nat.zero_add]
  rw [completed, if_pos (show (!!true) = true from rfl)]
  refine ⟨rfl, ?_⟩
  dsimp only [LoadHeap.rtFree]
  rw [List.nil_append, List.singleton_append, List.erase_cons_head]
  exact List.cons_ne_nil _ _

/-- Behind the loading no call answers `RT_NULL`. -/
theorem startModule_ne_refused (kernel : LoaderKernel) (call : LoadCall) (module : RtModule) (heap : LoadHeap) :
    (startModule kernel call module heap).1 ≠ .refused := by
  unfold startModule
  dsimp only
  split_ifs
  · exact fun refused => nomatch refused
  · exact fun refused => nomatch refused
  · exact fun refused => nomatch refused

def LoadResult.start (kernel : LoaderKernel) (call : LoadCall) (result : LoadResult RtModule) : LoadResult RtModule :=
  match result.outcome with
  | .refused => result
  | .fault => result
  | .loaded module =>
    let (outcome, heap) := startModule kernel call module result.heap
    ⟨outcome, heap, result.unsolved⟩

section

variable (kernel : LoaderKernel) (loadRelocatedObject : LoadCall → LoadOutcome RtModule × LoadHeap)

theorem rtModuleDoMain_wellFormed (unsolved : Bool) {call : LoadCall} (wellFormed : call.image.WellFormed) :
    rtModuleDoMain kernel loadRelocatedObject unsolved call =
      (loadSharedObject kernel unsolved call).start kernel call := by
  obtain ⟨magic, elfClass, type, -, -⟩ := wellFormed
  have known : ¬ (!call.image.hasMagic rtmmag && !call.image.hasMagic elfmag) = true := by
    rw [← Bool.not_or, magic]
    decide
  rw [rtModuleDoMain, if_neg known, if_neg (not_not.mpr elfClass), type, if_neg (by decide), if_pos rfl]
  rfl

theorem start_unsolved (call : LoadCall) (result : LoadResult RtModule) :
    (result.start kernel call).unsolved = result.unsolved := by
  unfold LoadResult.start
  split <;> rfl

theorem start_refused (call : LoadCall) {result : LoadResult RtModule}
    (refused : (result.start kernel call).outcome = .refused) :
    result.outcome = .refused ∧ result.start kernel call = result := by
  unfold LoadResult.start at refused ⊢
  split at refused
  · rename_i outcome
    exact ⟨outcome, rfl⟩
  · rename_i outcome
    exact absurd (outcome.symm.trans refused) fun same => nomatch same
  · exact absurd refused (startModule_ne_refused _ _ _ _)

/-! ## Calls one after another -/

def loaderStep (unsolved : Bool) (call : WellFormedCall) : Bool :=
  (rtModuleDoMain kernel loadRelocatedObject unsolved call.toLoadCall).unsolved

/-- The outcome of the call is the one without calls before it, with any contents of the memory, and a call that
answers `RT_NULL` has released its blocks. -/
def LoadIndependent (unsolved : Bool) (call : WellFormedCall) : Prop :=
  (∀ memory, (rtModuleDoMain kernel loadRelocatedObject unsolved call.toLoadCall).outcome =
      (rtModuleDoMain kernel loadRelocatedObject false { call.toLoadCall with memory }).outcome) ∧
    ((rtModuleDoMain kernel loadRelocatedObject unsolved call.toLoadCall).outcome = .refused →
      (rtModuleDoMain kernel loadRelocatedObject unsolved call.toLoadCall).heap.held = [])

theorem loadIndependent_iff (call : WellFormedCall) :
    LoadIndependent kernel loadRelocatedObject false call ↔ ¬ call.Unresolved kernel := by
  unfold LoadIndependent
  rw [rtModuleDoMain_wellFormed kernel loadRelocatedObject false call.wellFormed]
  constructor
  · rintro ⟨-, released⟩ unresolved
    obtain ⟨refused, lost⟩ := loadSharedObject_of_unresolved unresolved
    have kept : (loadSharedObject kernel false call.toLoadCall).start kernel call.toLoadCall =
        loadSharedObject kernel false call.toLoadCall := by
      rw [LoadResult.start, refused]
    rw [kept] at released
    exact lost (released refused)
  · intro resolved
    constructor
    · intro memory
      have wellFormed : ({ call.toLoadCall with memory } : LoadCall).image.WellFormed := call.wellFormed
      rw [rtModuleDoMain_wellFormed kernel loadRelocatedObject false wellFormed,
        loadSharedObject_memory kernel false call memory]
      rfl
    · intro refused
      obtain ⟨loaded, same⟩ := start_refused kernel call.toLoadCall refused
      rw [same]
      exact (loadSharedObject_of_resolved resolved).2 loaded

theorem loaderStep_of_resolved {call : WellFormedCall} (resolved : ¬ call.Unresolved kernel) :
    loaderStep kernel loadRelocatedObject false call = false := by
  rw [loaderStep, rtModuleDoMain_wellFormed kernel loadRelocatedObject false call.wellFormed, start_unsolved]
  exact (loadSharedObject_of_resolved resolved).1

/-- Loads are independent of earlier ones, and release what they hold when they fail, if and only if no call meets a
symbol that the kernel does not have. -/
theorem loads_independent_iff (calls : List WellFormedCall) :
    Run.Along (loaderStep kernel loadRelocatedObject) (LoadIndependent kernel loadRelocatedObject) false calls ↔
      ∀ call ∈ calls, ¬ call.Unresolved kernel := by
  have keeps (unsolved : Bool) (call : WellFormedCall)
      (clear : unsolved = false) (resolved : ¬ call.Unresolved kernel) :
      loaderStep kernel loadRelocatedObject unsolved call = false := by
    rw [clear]
    exact loaderStep_of_resolved kernel loadRelocatedObject resolved
  have exact_ (unsolved : Bool) (call : WellFormedCall) (clear : unsolved = false) :
      LoadIndependent kernel loadRelocatedObject unsolved call ↔ ¬ call.Unresolved kernel := by
    rw [clear]
    exact loadIndependent_iff kernel loadRelocatedObject call
  exact (Run.along_iff_along keeps exact_ rfl calls).trans (Run.along_iff_forall false calls)

end

/-- A shared object of 8 bytes, whose relocation section has the size `relSize`. Its first entry is for an undefined
global symbol `f`. -/
def smallObject (relSize : ℕ) : ElfImage where
  bytes :=
    [0x464c457f, 0x00010101, 0, 0, 0x00280003, 1, 0, 52, 84, 0, 0x00200034, 0x00280001, 0x00020003,
      1, 0, 0, 0, 0, 8, 7, 4,
      0, 9, 0, 0, 204, relSize, 1, 0, 4, 8,
      1, 11, 2, 0, 212, 32, 2, 1, 4, 16,
      0, 3, 0, 0, 244, 11, 0, 0, 1, 0,
      0, 0x102,
      0, 0, 0, 0,
      9, 0, 0, 0x10,
      0x79642e00, 0x6d79736e, 0x00006600].flatMap (bytes 4)

def bareKernel : LoaderKernel := ⟨[], 128, 128⟩

/-- Blocks of 256 bytes, as many as asked for. -/
def smallBlocks (request : ℕ) (size : BitVec 32) : BitVec 32 :=
  if size.toNat ≤ 256 then BitVec.ofNat 32 (0x1000 + 0x100 * (request % 16)) else 0

theorem smallObject_extent {relSize : ℕ} (known : relSize = 0 ∨ relSize = 8) :
    (smallObject relSize).extent = some ⟨true, 0, 8⟩ := by
  rcases known with rfl | rfl <;> decide +kernel

theorem smallObject_wellFormed {relSize : ℕ} (known : relSize = 0 ∨ relSize = 8) :
    (smallObject relSize).WellFormed where
  magic := by rcases known with rfl | rfl <;> decide +kernel
  elfClass := by rcases known with rfl | rfl <;> decide +kernel
  type := by rcases known with rfl | rfl <;> decide +kernel
  dynsym := by rcases known with rfl | rfl <;> decide +kernel
  inside extent laid := by
    obtain rfl := Option.some.inj ((smallObject_extent known).symm.trans laid)
    rcases known with rfl | rfl <;> decide +kernel

theorem smallBlocks_inside (request : ℕ) (size : BitVec 32) :
    (smallBlocks request size).toNat + size.toNat ≤ 2 ^ 32 := by
  have bound := size.isLt
  unfold smallBlocks
  split_ifs with small
  · rw [BitVec.toNat_ofNat]
    omega
  · change 0 + size.toNat ≤ 2 ^ 32
    omega

def smallCall (relSize : ℕ) (known : relSize = 0 ∨ relSize = 8) : WellFormedCall where
  image := smallObject relSize
  cmdLine := none
  malloc := smallBlocks
  memory := fun _ => 0
  wellFormed := smallObject_wellFormed known
  blocks := smallBlocks_inside

/-- The load that fails for `f` keeps the space of its module, and behind it an object without relocations fails that
loads on its own. -/
theorem failedLoad_not_independent :
    let other := fun _ => (LoadOutcome.refused, ⟨0, []⟩)
    ¬ Run.Along (loaderStep bareKernel other) (LoadIndependent bareKernel other) false [smallCall 8 (.inr rfl)] ∧
      loaderStep bareKernel other false (smallCall 8 (.inr rfl)) = true ∧
      ¬ LoadIndependent bareKernel other true (smallCall 0 (.inl rfl)) := by
  intro other
  refine ⟨?_, by decide +kernel, ?_⟩
  · intro along
    refine (loadIndependent_iff bareKernel other _).mp along.1 ⟨by decide +kernel, ⟨true, 0, 8⟩, ?_⟩
    exact ⟨smallObject_extent (.inr rfl), by decide +kernel, by decide +kernel, by decide +kernel⟩
  · rintro ⟨same, -⟩
    have refused := congrArg (fun outcome => match outcome with | .refused => true | _ => false) (same fun _ => 0)
    revert refused
    decide +kernel

end RtThread
