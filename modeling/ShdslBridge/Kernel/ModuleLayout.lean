import ShdslBridge.Kernel.MemoryPrimitives
import ShdslBridge.Lib.RangeRow

/-! # The sections of a relocatable module

`_load_relocated_object` goes over the section table twice: once for the size of `module_space`, and once
to load the sections into it, one behind the other. Both passes make the same four tests of a section in
the same order. A bss section is cleared where the next section is loaded: the pointer does not move.
-/

namespace RtThread

open Memory RangeRow

/-- The fields of `Elf32_Shdr` that are read for the layout. -/
structure SectionHeader where
  shType : BitVec 32
  shFlags : BitVec 32
  shAddr : BitVec 32
  shOffset : BitVec 32
  shSize : BitVec 32

def shtProgbits : BitVec 32 := 1
def shtNobits : BitVec 32 := 8
def shfWrite : BitVec 32 := 0x1
def shfAlloc : BitVec 32 := 0x2
def shfExecinstr : BitVec 32 := 0x4

namespace SectionHeader

/-- `IS_PROG`. -/
def isProg (s : SectionHeader) : Bool := s.shType == shtProgbits

/-- `IS_NOPROG`. -/
def isNoprog (s : SectionHeader) : Bool := s.shType == shtNobits

/-- `IS_ALLOC`, which compares all flags. -/
def isAlloc (s : SectionHeader) : Bool := s.shFlags == shfAlloc

/-- `IS_AX`. -/
def isAx (s : SectionHeader) : Bool := s.shFlags &&& shfAlloc != 0 && s.shFlags &&& shfExecinstr != 0

/-- `IS_AW`. -/
def isAw (s : SectionHeader) : Bool := s.shFlags &&& shfAlloc != 0 && s.shFlags &&& shfWrite != 0

end SectionHeader

inductive SectionKind
  | text
  | rodata
  | data
  | bss
  deriving DecidableEq

/-- The tests of a section, in the order of both passes. -/
def sectionKinds : List SectionKind := [.text, .rodata, .data, .bss]

def SectionKind.takes : SectionKind → SectionHeader → Bool
  | .text, s => s.isProg && s.isAx
  | .rodata, s => s.isProg && s.isAlloc
  | .data, s => s.isProg && s.isAw
  | .bss, s => s.isNoprog && s.isAw

/-- `module_size` and `module_addr`. -/
structure ModuleSize where
  moduleSize : BitVec 32
  moduleAddr : BitVec 32

def ModuleSize.take (sum : ModuleSize) (kind : SectionKind) (s : SectionHeader) : ModuleSize :=
  { moduleSize := sum.moduleSize + s.shSize, moduleAddr := if kind = .text then s.shAddr else sum.moduleAddr }

/-- The first pass. -/
def moduleSize (sections : List SectionHeader) : ModuleSize :=
  sections.foldl (fun sum s => sectionKinds.foldl (fun sum kind => if kind.takes s then sum.take kind s else sum) sum)
    ⟨0, 0⟩

structure PlacedSection where
  kind : SectionKind
  addr : BitVec 32
  size : BitVec 32

/-- The second pass: the memory, `ptr`, the addresses that the relocations need, and the ranges so far. -/
structure SectionLoad where
  memory : ℕ → BitVec 8
  ptr : BitVec 32
  rodataAddr : BitVec 32
  dataAddr : BitVec 32
  bssAddr : BitVec 32
  placed : List PlacedSection

namespace SectionLoad

/-- A section is copied from the image to `ptr`, which moves behind it. -/
def copy (load : SectionLoad) (modulePtr : BitVec 32) (s : SectionHeader) (kind : SectionKind) : SectionLoad :=
  { load with
    memory := rtMemcpy load.memory load.ptr.toNat (modulePtr + s.shOffset).toNat s.shSize.toNat
    ptr := load.ptr + s.shSize
    placed := load.placed ++ [⟨kind, load.ptr, s.shSize⟩] }

def take (modulePtr : BitVec 32) (load : SectionLoad) (kind : SectionKind) (s : SectionHeader) : SectionLoad :=
  match kind with
  | .text => load.copy modulePtr s .text
  | .rodata => { load.copy modulePtr s .rodata with rodataAddr := load.ptr }
  | .data => { load.copy modulePtr s .data with dataAddr := load.ptr }
  | .bss =>
    { load with
      memory := rtMemset load.memory load.ptr.toNat 0 s.shSize.toNat
      bssAddr := load.ptr
      placed := load.placed ++ [⟨.bss, load.ptr, s.shSize⟩] }

end SectionLoad

structure RelocatedModule where
  vstartAddr : BitVec 32
  moduleSpace : BitVec 32
  moduleEntry : BitVec 32
  load : SectionLoad

/-- `_load_relocated_object` up to the relocations, which change no range. `object` says whether
`rt_object_allocate` answers an object. -/
def loadRelocatedObject (memory : ℕ → BitVec 8) (modulePtr eEntry : BitVec 32) (sections : List SectionHeader)
    (object : Bool) (rtMalloc : BitVec 32 → BitVec 32) : Option RelocatedModule :=
  let size := moduleSize sections
  if size.moduleSize = 0 then none
  else if !object then none
  else
    let moduleSpace := rtMalloc size.moduleSize
    if moduleSpace = 0 then none
    else
      let memory := rtMemset memory moduleSpace.toNat 0 size.moduleSize.toNat
      let load := sections.foldl (fun load s => sectionKinds.foldl
        (fun load kind => if kind.takes s then load.take modulePtr kind s else load) load)
        ⟨memory, moduleSpace, 0, 0, 0, []⟩
      some ⟨0, moduleSpace, moduleSpace + eEntry - size.moduleAddr, load⟩

/-! ## Both passes over the tests that are met -/

def taken (sections : List SectionHeader) : List (SectionKind × SectionHeader) :=
  sections.flatMap fun s => (sectionKinds.filter (·.takes s)).map fun kind => (kind, s)

def takenLen (item : SectionKind × SectionHeader) : ℕ := item.2.shSize.toNat

def takenMoves (item : SectionKind × SectionHeader) : Bool := item.1 != .bss

/-- A pass over the sections and their tests is a pass over the tests that are met. -/
theorem foldl_taken {S : Type*} (take : S → SectionKind → SectionHeader → S)
    (sections : List SectionHeader) (state : S) :
    sections.foldl (fun state s => sectionKinds.foldl
        (fun state kind => if kind.takes s then take state kind s else state) state) state =
      (taken sections).foldl (fun state item => take state item.1 item.2) state := by
  rw [taken, List.foldl_flatMap]
  simp only [List.foldl_map, List.foldl_filter]

theorem toNat_moduleSize (sections : List SectionHeader) :
    (moduleSize sections).moduleSize.toNat = ((taken sections).map takenLen).sum % 2 ^ 32 := by
  have adds (items : List (SectionKind × SectionHeader)) (sum : ModuleSize) :
      (items.foldl (fun sum item => sum.take item.1 item.2) sum).moduleSize.toNat =
        (sum.moduleSize.toNat + (items.map takenLen).sum) % 2 ^ 32 := by
    induction items generalizing sum with
    | nil => exact (Nat.mod_eq_of_lt sum.moduleSize.isLt).symm
    | cons item rest ih =>
      rw [List.foldl_cons, ih, ModuleSize.take, BitVec.toNat_add, List.map_cons, List.sum_cons, Nat.mod_add_mod,
        Nat.add_assoc]
      rfl
  rw [moduleSize, foldl_taken, adds]
  exact congrArg (· % 2 ^ 32) (Nat.zero_add _)

def PlacedSection.range (section_ : PlacedSection) : Range := ⟨section_.addr.toNat, section_.size.toNat⟩

/-- The second pass lays the sections out from the pointer on, where no address wraps. -/
theorem placed_ranges (modulePtr : BitVec 32) (items : List (SectionKind × SectionHeader)) (load : SectionLoad)
    (room : load.ptr.toNat + (items.map takenLen).sum < 2 ^ 32) :
    ((items.foldl (fun load item => load.take modulePtr item.1 item.2) load).placed.map (·.range)) =
      load.placed.map (·.range) ++ layOut takenMoves takenLen load.ptr.toNat items := by
  induction items generalizing load with
  | nil => exact (List.append_nil _).symm
  | cons item rest ih =>
    obtain ⟨kind, s⟩ := item
    rw [List.map_cons, List.sum_cons] at room
    have moved : (load.take modulePtr kind s).ptr.toNat =
        if takenMoves (kind, s) then load.ptr.toNat + takenLen (kind, s) else load.ptr.toNat := by
      cases kind with
      | bss => rfl
      | text | rodata | data => exact Nat.mod_eq_of_lt (by simp only [takenLen] at room ⊢; omega)
    have placed : (load.take modulePtr kind s).placed = load.placed ++ [⟨kind, load.ptr, s.shSize⟩] := by
      cases kind <;> rfl
    rw [List.foldl_cons, ih, placed, moved, layOut, List.map_append, List.append_assoc]
    · rfl
    · rw [moved]
      split_ifs <;> omega

/-- The ranges of the sections lie in `module_space` and share no address. -/
structure RelocatedModule.LaidOut (module : RelocatedModule) (size : BitVec 32) : Prop where
  inside : ∀ r ∈ module.load.placed.map (·.range),
    r.Inside module.moduleSpace.toNat (module.moduleSpace.toNat + size.toNat)
  apart : (module.load.placed.map (·.range)).Pairwise Range.Apart

/-- A bss section that is not empty is followed by empty sections only. -/
def BssLast (sections : List SectionHeader) : Prop :=
  (taken sections).Pairwise fun x y => x.1 = .bss → takenLen x = 0 ∨ takenLen y = 0

/-- Each section is given as many bytes as it has, wherever that is. -/
theorem placed_lens (modulePtr : BitVec 32) (items : List (SectionKind × SectionHeader)) (load : SectionLoad) :
    (((items.foldl (fun load item => load.take modulePtr item.1 item.2) load).placed.map (·.range)).map (·.len)) =
      (load.placed.map (·.range)).map (·.len) ++ items.map takenLen := by
  induction items generalizing load with
  | nil => exact (List.append_nil _).symm
  | cons item rest ih =>
    obtain ⟨kind, s⟩ := item
    have placed : (load.take modulePtr kind s).placed = load.placed ++ [⟨kind, load.ptr, s.shSize⟩] := by
      cases kind <;> rfl
    rw [List.foldl_cons, ih, placed, List.map_append, List.map_append, List.append_assoc]
    rfl

/-- A module that is accepted has loaded the tests that are met from the start of `module_space` on. -/
theorem accepted_load {memory : ℕ → BitVec 8} {modulePtr eEntry : BitVec 32} {sections : List SectionHeader}
    {object : Bool} {rtMalloc : BitVec 32 → BitVec 32} {module : RelocatedModule}
    (accepted : loadRelocatedObject memory modulePtr eEntry sections object rtMalloc = some module) :
    ∃ start : SectionLoad, start.ptr = module.moduleSpace ∧ start.placed = [] ∧
      module.load = (taken sections).foldl (fun load item => load.take modulePtr item.1 item.2) start := by
  rw [loadRelocatedObject] at accepted
  dsimp only at accepted
  split_ifs at accepted
  obtain rfl := Option.some.inj accepted
  exact ⟨_, rfl, rfl, foldl_taken (SectionLoad.take modulePtr) sections _⟩

/-- The sections of a module that is accepted are laid out right exactly if the sum of their sizes does not
wrap and bss comes last. -/
theorem loadRelocatedObject_laidOut_iff (memory : ℕ → BitVec 8) (modulePtr eEntry : BitVec 32)
    (sections : List SectionHeader) (object : Bool) (rtMalloc : BitVec 32 → BitVec 32) {module : RelocatedModule}
    (accepted : loadRelocatedObject memory modulePtr eEntry sections object rtMalloc = some module)
    (block : module.moduleSpace.toNat + (moduleSize sections).moduleSize.toNat < 2 ^ 32) :
    module.LaidOut (moduleSize sections).moduleSize ↔
      ((taken sections).map takenLen).sum < 2 ^ 32 ∧ BssLast sections := by
  obtain ⟨start, ptr, placed, load⟩ := accepted_load accepted
  have lens := placed_lens modulePtr (taken sections) start
  have sizes := toNat_moduleSize sections
  rw [placed, ← load] at lens
  have bss : BssLast sections ↔
      (taken sections).Pairwise fun x y => takenMoves x = false → takenLen x = 0 ∨ takenLen y = 0 := by
    simp [BssLast, takenMoves]
  have row (fits : ((taken sections).map takenLen).sum < 2 ^ 32) :
      module.load.placed.map (·.range) = layOut takenMoves takenLen module.moduleSpace.toNat (taken sections) := by
    rw [Nat.mod_eq_of_lt fits] at sizes
    rw [load, placed_ranges _ _ _ (by rw [ptr]; omega), placed, ptr]
    rfl
  constructor
  · intro laidOut
    have fits : ((taken sections).map takenLen).sum < 2 ^ 32 := by
      have bound := sum_len_le laidOut.apart laidOut.inside
      rw [lens, Nat.add_sub_cancel_left, sizes] at bound
      exact Nat.lt_of_le_of_lt bound (Nat.mod_lt _ (by decide))
    have apart := laidOut.apart
    rw [row fits] at apart
    exact ⟨fits, bss.mpr (layOut_apart_iff.mp apart)⟩
  · rintro ⟨fits, last⟩
    refine ⟨?_, ?_⟩
    · rw [row fits]
      rw [Nat.mod_eq_of_lt fits] at sizes
      exact layOut_inside (by rw [sizes])
    · rw [row fits]
      exact layOut_apart_iff.mpr (bss.mp last)

/-- A text section and a data section behind it, in a block at 0x20000000. -/
theorem loadRelocatedObject_laidOut_iff_textData :
    RelocatedModule.LaidOut
        ⟨0, 0x20000000, 0x20000000, (taken [⟨1, 6, 0, 0x34, 16⟩, ⟨1, 3, 0, 0x44, 4⟩]).foldl
          (fun load item => load.take 0x20001000 item.1 item.2)
          ⟨rtMemset (fun _ => 0) 0x20000000 0 20, 0x20000000, 0, 0, 0, []⟩⟩
        (moduleSize [⟨1, 6, 0, 0x34, 16⟩, ⟨1, 3, 0, 0x44, 4⟩]).moduleSize ↔
      ((taken [⟨1, 6, 0, 0x34, 16⟩, ⟨1, 3, 0, 0x44, 4⟩]).map takenLen).sum < 2 ^ 32 ∧
        BssLast [⟨1, 6, 0, 0x34, 16⟩, ⟨1, 3, 0, 0x44, 4⟩] :=
  loadRelocatedObject_laidOut_iff (fun _ => 0) 0x20001000 0 _ true (fun _ => 0x20000000) rfl (by decide)

/-- A bss section of 4 bytes in front of a data section of 4 bytes: both are given the same bytes. -/
theorem bssFirst_not_laidOut :
    ¬ ∀ (memory : ℕ → BitVec 8) (modulePtr eEntry : BitVec 32) (sections : List SectionHeader) (object : Bool)
        (rtMalloc : BitVec 32 → BitVec 32) (module : RelocatedModule),
      loadRelocatedObject memory modulePtr eEntry sections object rtMalloc = some module →
        module.moduleSpace.toNat + (moduleSize sections).moduleSize.toNat < 2 ^ 32 →
          module.LaidOut (moduleSize sections).moduleSize := by
  intro all
  have laidOut := all (fun _ => 0) 0x20001000 0 [⟨8, 3, 0, 0, 4⟩, ⟨1, 3, 0, 0x34, 4⟩] true (fun _ => 0x20000000) _ rfl
    (by decide)
  have apart : [(⟨0x20000000, 4⟩ : Range), ⟨0x20000000, 4⟩].Pairwise Range.Apart := laidOut.apart
  exact (List.pairwise_cons.mp apart).1 _ List.mem_cons_self 0x20000000 (by decide)

end RtThread
