import ShdslBridge.Kernel.MemoryPrimitives
import ShdslBridge.Kernel.ModuleRelocation

/-! # The loader of shared objects

`rt_module_do_main` with `_load_shared_object`: the layout of the segments, the copy to `module_space`, the
relocations against the symbol table of the kernel, the symbol table of the module and its main thread. The
image is data of its own, with zeros behind its end. `rt_malloc` is a function of the number of the request
in the call and of its size; 0 is `RT_NULL`. What stores through `RT_NULL` is a fault. The variable `unsolved`
is static: its value goes from one call to the next.

The allocator of modules is the one of `RT_USING_SLAB`. `_load_relocated_object`, which is called for the other
type of images, is a parameter.
-/

namespace RtThread

open Memory LittleEndian

/-! ## The image -/

/-- The bytes from `module_ptr` on. -/
structure ElfImage where
  bytes : List (BitVec 8)

/-- The fields of `Elf32_Phdr` that are read. -/
structure Elf32Phdr where
  pType : BitVec 32
  pOffset : BitVec 32
  pVaddr : BitVec 32
  pFilesz : BitVec 32
  pMemsz : BitVec 32

/-- The fields of `Elf32_Shdr` that are read. -/
structure Elf32Shdr where
  shName : BitVec 32
  shType : BitVec 32
  shOffset : BitVec 32
  shSize : BitVec 32
  shLink : BitVec 32

/-- The fields of `Elf32_Sym` that are read. -/
structure Elf32Sym where
  stName : BitVec 32
  stValue : BitVec 32
  stInfo : BitVec 8
  stShndx : BitVec 16

/-- `RTMMAG`. -/
def rtmmag : List (BitVec 8) := [0x7f, 0x52, 0x54, 0x4d]

/-- `ELFMAG`. -/
def elfmag : List (BitVec 8) := [0x7f, 0x45, 0x4c, 0x46]

def elfclass32 : BitVec 8 := 1
def etRel : BitVec 16 := 1
def etDyn : BitVec 16 := 3
def ptLoad : BitVec 32 := 1
def shtRel : BitVec 32 := 9
def stbLocal : BitVec 8 := 0
def stbGlobal : BitVec 8 := 1
def sttFunc : BitVec 8 := 2

/-- `ELF_DYNSYM`. -/
def elfDynsym : List (BitVec 8) := [0x2e, 0x64, 0x79, 0x6e, 0x73, 0x79, 0x6d]

/-- `ELF_ST_BIND`. -/
def Elf32Sym.bind (sym : Elf32Sym) : BitVec 8 := sym.stInfo >>> 4

/-- `ELF_ST_TYPE`. -/
def Elf32Sym.type (sym : Elf32Sym) : BitVec 8 := sym.stInfo &&& 0xf

/-- `IS_REL`. -/
def Elf32Shdr.isRel (section_ : Elf32Shdr) : Bool := section_.shType == shtRel

namespace ElfImage

variable (image : ElfImage)

def byte (offset : ℕ) : BitVec 8 := image.bytes.getD offset 0

def half (offset : ℕ) : BitVec 16 := BitVec.ofNat 16 (readNat image.byte offset 2)

def word (offset : ℕ) : BitVec 32 := BitVec.ofNat 32 (readNat image.byte offset 4)

def string (offset : ℕ) : List (BitVec 8) := (image.bytes.drop offset).takeWhile (· != 0)

/-- `rt_memcmp(elf_module->e_ident, magic, SELFMAG) == 0`. -/
def hasMagic (magic : List (BitVec 8)) : Bool := readAt image.byte 0 4 == magic

def eIdentClass : BitVec 8 := image.byte 4
def eType : BitVec 16 := image.half 16
def eEntry : BitVec 32 := image.word 24
def ePhoff : BitVec 32 := image.word 28
def eShoff : BitVec 32 := image.word 32
def ePhnum : BitVec 16 := image.half 44
def eShnum : BitVec 16 := image.half 48
def eShstrndx : BitVec 16 := image.half 50

/-- `phdr[index]`. -/
def phdr (index : ℕ) : Elf32Phdr :=
  let start := image.ePhoff.toNat + 32 * index
  ⟨image.word start, image.word (start + 4), image.word (start + 8), image.word (start + 16), image.word (start + 20)⟩

/-- `shdr[index]`. -/
def shdr (index : ℕ) : Elf32Shdr :=
  let start := image.eShoff.toNat + 40 * index
  ⟨image.word start, image.word (start + 4), image.word (start + 16), image.word (start + 20), image.word (start + 24)⟩

/-- `symtab[index]`. -/
def sym (symtab index : ℕ) : Elf32Sym :=
  let start := symtab + 16 * index
  ⟨image.word start, image.word (start + 4), image.byte (start + 12), image.half (start + 14)⟩

def segments : List Elf32Phdr := (List.range image.ePhnum.toNat).map image.phdr

def sections : List Elf32Shdr := (List.range image.eShnum.toNat).map image.shdr

def relocations (section_ : Elf32Shdr) : List Elf32Rel :=
  (List.range (section_.shSize.toNat / 8)).map fun i =>
    ⟨image.word (section_.shOffset.toNat + 8 * i), image.word (section_.shOffset.toNat + 8 * i + 4)⟩

def relocationSym (section_ : Elf32Shdr) (rel : Elf32Rel) : Elf32Sym :=
  image.sym (image.shdr section_.shLink.toNat).shOffset.toNat rel.rSym

def symName (symbols : Elf32Shdr) (sym : Elf32Sym) : List (BitVec 8) :=
  image.string ((image.shdr symbols.shLink.toNat).shOffset.toNat + sym.stName.toNat)

end ElfImage

/-! ## The segments -/

/-- `has_vstart`, `vstart_addr` and `vend_addr`. -/
structure ModuleExtent where
  hasVstart : Bool
  vstartAddr : BitVec 32
  vendAddr : BitVec 32
  deriving DecidableEq

def ModuleExtent.segment (extent : ModuleExtent) (p : Elf32Phdr) : Option ModuleExtent :=
  if p.pType ≠ ptLoad then some extent
  else if p.pMemsz < p.pFilesz then none
  else if !extent.hasVstart then
    if p.pVaddr + p.pMemsz < p.pVaddr then none else some ⟨true, p.pVaddr, p.pVaddr + p.pMemsz⟩
  else if p.pVaddr < extent.vendAddr then none
  else if p.pVaddr + p.pMemsz < p.pVaddr then none
  else some { extent with vendAddr := p.pVaddr + p.pMemsz }

def ElfImage.extent (image : ElfImage) : Option ModuleExtent :=
  image.segments.foldlM ModuleExtent.segment ⟨false, 0, 0⟩

/-- `module_size`. -/
def ModuleExtent.size (extent : ModuleExtent) : BitVec 32 := extent.vendAddr - extent.vstartAddr

/-- The loop that copies the segments to `module_space`. -/
def ElfImage.copySegments (image : ElfImage) (moduleSpace vstartAddr : BitVec 32) (memory : ℕ → BitVec 8) :
    ℕ → BitVec 8 :=
  image.segments.foldl (fun memory p =>
    if p.pType = ptLoad then
      writeAt memory (moduleSpace + p.pVaddr - vstartAddr).toNat (readAt image.byte p.pOffset.toNat p.pFilesz.toNat)
    else memory) memory

/-! ## The relocations -/

/-- The symbol table of the kernel, and `object_size` of the containers of modules and threads. -/
structure LoaderKernel where
  symtab : List (List (BitVec 8) × BitVec 32)
  moduleObjectSize : BitVec 32
  threadObjectSize : BitVec 32

/-- `rt_module_symbol_find`. -/
def rtModuleSymbolFind (symtab : List (List (BitVec 8) × BitVec 32)) (symStr : List (BitVec 8)) : BitVec 32 :=
  match symtab.find? (·.1 == symStr) with
  | some index => index.2
  | none => 0

/-- The memory and `unsolved`. -/
structure RelocationState where
  unsolved : Bool
  memory : ℕ → BitVec 8

/-- An entry of a relocation section. The answer of `rt_module_arm_relocate` is not looked at. -/
def relocateEntry (symtab : List (List (BitVec 8) × BitVec 32)) (image : ElfImage) (moduleSpace vstartAddr : BitVec 32)
    (section_ : Elf32Shdr) (state : RelocationState) (rel : Elf32Rel) : RelocationState :=
  let sym := image.relocationSym section_ rel
  if sym.stShndx ≠ 0 ∨ sym.bind = stbLocal then
    { state with
      memory := (rtModuleArmRelocate state.memory moduleSpace
          vstartAddr rel (moduleSpace + sym.stValue - vstartAddr)).1 }
  else if !image.hasMagic rtmmag then
    let addr := rtModuleSymbolFind symtab (image.symName (image.shdr section_.shLink.toNat) sym)
    if addr = 0 then { state with unsolved := true }
    else { state with memory := (rtModuleArmRelocate state.memory moduleSpace vstartAddr rel addr).1 }
  else state

/-- The loop over the relocation sections, and whether it ends without an unsolved symbol. -/
def relocateSections (symtab : List (List (BitVec 8) × BitVec 32))
    (image : ElfImage) (moduleSpace vstartAddr : BitVec 32) :
    List Elf32Shdr → RelocationState → Bool × RelocationState
  | [], state => (true, state)
  | section_ :: rest, state =>
    if !section_.isRel then relocateSections symtab image moduleSpace vstartAddr rest state
    else
      let state := (image.relocations section_).foldl (relocateEntry symtab image moduleSpace vstartAddr section_) state
      if state.unsolved then (false, state) else relocateSections symtab image moduleSpace vstartAddr rest state

/-! ## Memory of the kernel -/

/-- The number of requests of a call so far, and its blocks that have not been released. -/
structure LoadHeap where
  requests : ℕ
  held : List (BitVec 32)

/-- `rt_malloc`. -/
def LoadHeap.rtMalloc (malloc : ℕ → BitVec 32 → BitVec 32) (heap : LoadHeap) (size : BitVec 32) :
    BitVec 32 × LoadHeap :=
  let block := malloc heap.requests size
  (block, { requests := heap.requests + 1, held := if block = 0 then heap.held else heap.held ++ [block] })

/-- `rt_free`, also at the end of `rt_object_delete`. -/
def LoadHeap.rtFree (heap : LoadHeap) (block : BitVec 32) : LoadHeap := { heap with held := heap.held.erase block }

/-- What comes of a call: `RT_NULL`, a store through `RT_NULL`, or what is returned. -/
inductive LoadOutcome (α : Type*)
  | refused
  | fault
  | loaded (module : α)

/-- The end of a call. -/
structure LoadResult (α : Type*) where
  outcome : LoadOutcome α
  heap : LoadHeap
  unsolved : Bool

/-! ## The symbol table of the module -/

/-- `struct rt_module_symtab`, with the string in the block of the name. -/
structure ModuleSymbol where
  addr : BitVec 32
  name : BitVec 32
  text : List (BitVec 8)

/-- `symtab` and `nsym`, with the entries in the block. -/
structure ModuleSymtab where
  symtab : BitVec 32
  nsym : BitVec 16
  entries : List ModuleSymbol

def ElfImage.globalFunctions (image : ElfImage) (section_ : Elf32Shdr) : List Elf32Sym :=
  ((List.range (section_.shSize.toNat / 16)).map (image.sym section_.shOffset.toNat)).filter fun sym =>
    sym.bind == stbGlobal && sym.type == sttFunc

/-- The loop that copies the names. `none` is a fault: each entry is stored through `symtab`, and each name through
its block. -/
def nameSymbols (malloc : ℕ → BitVec 32 → BitVec 32) (image : ElfImage) (section_ : Elf32Shdr)
    (moduleSpace symtab : BitVec 32) : List Elf32Sym → LoadHeap → Option (List ModuleSymbol) × LoadHeap
  | [], heap => (some [], heap)
  | sym :: rest, heap =>
    if symtab = 0 then (none, heap)
    else
      let text := image.symName section_ sym
      let (name, heap) := heap.rtMalloc malloc (BitVec.ofNat 32 (text.length + 1))
      if name = 0 then (none, heap)
      else
        let (entries, heap) := nameSymbols malloc image section_ moduleSpace symtab rest heap
        (entries.map (⟨moduleSpace + sym.stValue, name, text⟩ :: ·), heap)

/-- The first section with the name `.dynsym`. -/
def ElfImage.dynsym (image : ElfImage) : Option Elf32Shdr :=
  image.sections.find? fun section_ =>
    image.string ((image.shdr image.eShstrndx.toNat).shOffset.toNat + section_.shName.toNat) == elfDynsym

/-- The construction of the symbol table. Without `.dynsym` its fields are not set. -/
def moduleSymtab (malloc : ℕ → BitVec 32 → BitVec 32) (image : ElfImage) (moduleSpace : BitVec 32) (heap : LoadHeap) :
    Option (Option ModuleSymtab) × LoadHeap :=
  match image.dynsym with
  | none => (some none, heap)
  | some section_ =>
    let symbols := image.globalFunctions section_
    let (symtab, heap) := heap.rtMalloc malloc (BitVec.ofNat 32 (symbols.length * 8))
    let (entries, heap) := nameSymbols malloc image section_ moduleSpace symtab symbols heap
    (entries.map fun entries => some ⟨symtab, BitVec.ofNat 16 symbols.length, entries⟩, heap)

/-! ## The module -/

def rtModuleFlagWithentry : BitVec 8 := 0x00
def rtModuleFlagWithoutentry : BitVec 8 := 0x01

/-- `RT_USING_MODULE_STKSZ`. -/
def rtUsingModuleStksz : BitVec 32 := 4096 * 2

/-- The size of `page_array`. -/
def pageArraySize : BitVec 32 := 256 * 8

/-- `struct rt_module`, with the bytes of `module_space` and of `module_cmd_line`. Fields that are set in one case
only are options. -/
structure RtModule where
  object : BitVec 32
  flag : BitVec 8
  vstartAddr : BitVec 32
  moduleSpace : BitVec 32
  space : List (BitVec 8)
  moduleEntry : BitVec 32
  moduleThread : Option (BitVec 32)
  moduleCmdLine : BitVec 32
  cmdLine : List (BitVec 8)
  moduleCmdSize : BitVec 32
  pageArray : Option (BitVec 32)
  nref : BitVec 16
  symtab : Option ModuleSymtab

/-- A call of `rt_module_do_main`: its arguments but the name, the answers of `rt_malloc` in it, and the contents of
the memory. -/
structure LoadCall where
  image : ElfImage
  cmdLine : Option (List (BitVec 8))
  malloc : ℕ → BitVec 32 → BitVec 32
  memory : ℕ → BitVec 8

def placeModule (kernel : LoaderKernel) (unsolved : Bool) (call : LoadCall) (extent : ModuleExtent)
    (moduleSpace : BitVec 32) : Bool × RelocationState :=
  let memory := rtMemset call.memory moduleSpace.toNat 0 extent.size.toNat
  let memory := call.image.copySegments moduleSpace extent.vstartAddr memory
  relocateSections kernel.symtab call.image moduleSpace extent.vstartAddr call.image.sections ⟨unsolved, memory⟩

/-- `_load_shared_object`. -/
def loadSharedObject (kernel : LoaderKernel) (unsolved : Bool) (call : LoadCall) : LoadResult RtModule :=
  match call.image.extent with
  | none => ⟨.refused, ⟨0, []⟩, unsolved⟩
  | some extent =>
    if extent.size = 0 then ⟨.refused, ⟨0, []⟩, unsolved⟩
    else
      let (object, heap) := LoadHeap.rtMalloc call.malloc ⟨0, []⟩ kernel.moduleObjectSize
      if object = 0 then ⟨.refused, heap, unsolved⟩
      else
        let (moduleSpace, heap) := heap.rtMalloc call.malloc extent.size
        if moduleSpace = 0 then ⟨.refused, heap.rtFree object, unsolved⟩
        else
          let (completed, state) := placeModule kernel unsolved call extent moduleSpace
          -- The space of the module stays allocated.
          if !completed then ⟨.refused, heap.rtFree object, state.unsolved⟩
          else
            match moduleSymtab call.malloc call.image moduleSpace heap with
            | (none, heap) => ⟨.fault, heap, state.unsolved⟩
            | (some symtab, heap) =>
              ⟨.loaded
                { object
                  flag := 0
                  vstartAddr := extent.vstartAddr
                  moduleSpace
                  space := readAt state.memory moduleSpace.toNat extent.size.toNat
                  moduleEntry := moduleSpace + call.image.eEntry - extent.vstartAddr
                  moduleThread := none
                  moduleCmdLine := 0
                  cmdLine := []
                  moduleCmdSize := 0
                  pageArray := none
                  nref := 0
                  symtab }, heap, state.unsolved⟩

/-- `rt_thread_create`: the object and its stack. -/
def rtThreadCreate (kernel : LoaderKernel) (malloc : ℕ → BitVec 32 → BitVec 32) (heap : LoadHeap) :
    BitVec 32 × LoadHeap :=
  let (thread, heap) := heap.rtMalloc malloc kernel.threadObjectSize
  if thread = 0 then (0, heap)
  else
    let (stack, heap) := heap.rtMalloc malloc rtUsingModuleStksz
    if stack = 0 then (0, heap.rtFree thread) else (thread, heap)

/-- The arguments of the main function. -/
def setCmdLine (malloc : ℕ → BitVec 32 → BitVec 32) (cmdLine : Option (List (BitVec 8))) (module : RtModule)
    (heap : LoadHeap) : RtModule × LoadHeap :=
  let line := cmdLine.getD []
  if line.length ≠ 0 then
    let (block, heap) := heap.rtMalloc malloc (BitVec.ofNat 32 (line.length + 1))
    ({ module with
      moduleCmdLine := block
      cmdLine := if block = 0 then [] else line ++ [0]
      moduleCmdSize := BitVec.ofNat 32 line.length }, heap)
  else ({ module with moduleCmdLine := 0, moduleCmdSize := 0 }, heap)

/-- `rt_module_do_main` behind the loading of the image. -/
def startModule (kernel : LoaderKernel) (call : LoadCall) (module : RtModule) (heap : LoadHeap) :
    LoadOutcome RtModule × LoadHeap :=
  let (module, heap) := setCmdLine call.malloc call.cmdLine module heap
  let module := { module with nref := module.nref + 1 }
  if call.image.eEntry ≠ 0 then
    let (pageArray, heap) := heap.rtMalloc call.malloc pageArraySize
    let (thread, heap) := rtThreadCreate kernel call.malloc heap
    -- `module->module_thread->module_id` is stored without a test of the thread.
    if thread = 0 then (.fault, heap)
    else (.loaded { module with pageArray, moduleThread := thread, flag := rtModuleFlagWithentry }, heap)
  else (.loaded { module with flag := module.flag ||| rtModuleFlagWithoutentry }, heap)

/-- `rt_module_do_main`. -/
def rtModuleDoMain (kernel : LoaderKernel) (loadRelocatedObject : LoadCall → LoadOutcome RtModule × LoadHeap)
    (unsolved : Bool) (call : LoadCall) : LoadResult RtModule :=
  if !call.image.hasMagic rtmmag && !call.image.hasMagic elfmag then ⟨.refused, ⟨0, []⟩, unsolved⟩
  else if call.image.eIdentClass ≠ elfclass32 then ⟨.refused, ⟨0, []⟩, unsolved⟩
  else
    let result : LoadResult RtModule :=
      if call.image.eType = etRel then
        let (outcome, heap) := loadRelocatedObject call
        ⟨outcome, heap, unsolved⟩
      else if call.image.eType = etDyn then loadSharedObject kernel unsolved call
      else ⟨.refused, ⟨0, []⟩, unsolved⟩
    match result.outcome with
    | .refused => result
    | .fault => result
    | .loaded module =>
      let (outcome, heap) := startModule kernel call module result.heap
      ⟨outcome, heap, result.unsolved⟩

end RtThread
