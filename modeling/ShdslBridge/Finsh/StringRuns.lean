import ShdslBridge.Finsh.StringCalls
import ShdslBridge.Lib.Run

/-! # Runs of the string heap

From `finsh_heap_init` on, the blocks that the two lists run through are read off the headers. As long as
no request is so large that the rounding and the header wrap 32 bits, they tile the array after every
call, no two free ones touch, and each allocated one is as long as it was requested.
-/

namespace Finsh

open LittleEndian Memory LinkedList

namespace StringHeap

open StringBlock

variable {finshHeap : ℕ} {heap heap' : StringHeap} {nodes free used : List StringBlock}

def blocks (heap : StringHeap) : (fuel header : ℕ) → List StringBlock
  | 0, _ => []
  | fuel + 1, header =>
    if header = 0 then [] else ⟨header, heap.length header⟩ :: heap.blocks fuel (heap.next header)

/-- The blocks of `free_list`. -/
def freeBlocks (heap : StringHeap) : List StringBlock := heap.blocks rounds heap.freeList

/-- The blocks of `allocate_list`. -/
def usedBlocks (heap : StringHeap) : List StringBlock := heap.blocks rounds heap.allocateList

theorem Listed.blocks {list fuel : ℕ} (listed : heap.Listed list nodes)
    (stored : ∀ b ∈ nodes, heap.length b.addr = b.len) (few : nodes.length < fuel) : heap.blocks fuel list = nodes := by
  induction nodes generalizing list fuel with
  | nil =>
    obtain ⟨fuel, rfl⟩ := Nat.exists_eq_add_one.mpr few
    rw [StringHeap.blocks, if_pos listed.nil]
  | cons b rest ih =>
    obtain ⟨fuel, rfl⟩ := Nat.exists_eq_add_one.mpr (Nat.lt_of_le_of_lt (Nat.zero_le _) few)
    obtain ⟨rfl, notNull⟩ := listed.start
    obtain ⟨here, later⟩ := List.forall_mem_cons.mp stored
    have tail : heap.Listed (heap.next b.addr) rest := ⟨listed.linked.2, listed.ordered.of_cons⟩
    rw [StringHeap.blocks, if_neg notNull, here, ih tail later (Nat.lt_of_succ_lt_succ few)]

theorem Tiled.freeBlocks (tiled : Tiled finshHeap heap free used) : heap.freeBlocks = free :=
  tiled.freeListed.blocks (fun b member => tiled.tiles.stored b (List.mem_append_left _ member))
    (tiled.tiles.few tiled.freeListed.ordered)

theorem Tiled.usedBlocks (tiled : Tiled finshHeap heap free used) : heap.usedBlocks = used :=
  tiled.usedListed.blocks (fun b member => tiled.tiles.stored b (List.mem_append_right _ member))
    ((tiled.tiles.perm List.perm_append_comm).few tiled.usedListed.ordered)

/-- `finsh_heap_init`: the array is one free block. -/
theorem sound_init (low : 0 < finshHeap) (high : finshHeap + 128 ≤ 2 ^ 32) (bytes : ℕ → BitVec 8) :
    Sound finshHeap (init finshHeap bytes) [] := by
  have length_ : (init finshHeap bytes).length finshHeap = 120 := by
    rw [init, length_setNext, length_setLength _ _ (by decide)]
  have next_ : (init finshHeap bytes).next finshHeap = 0 := next_setNext _ _ (by decide)
  refine ⟨[⟨finshHeap, 120⟩], ⟨⟨low, high, ?_, ?_, List.pairwise_singleton .., ?_⟩, ⟨?_, List.pairwise_singleton ..⟩,
    ⟨rfl, .nil⟩, ?_⟩, ?_⟩
  · intro b member
    rw [List.mem_singleton.mp member, length_]
  · intro b member
    rw [List.mem_singleton.mp member]
    exact ⟨Nat.le_refl _, Nat.le_refl _⟩
  · exact fun i above below => ⟨_, List.mem_singleton_self _, above, below⟩
  · refine ⟨pointer_of_pos low, ?_⟩
    change pointer ((init finshHeap bytes).next finshHeap) = none
    rw [next_]
    rfl
  · exact ⟨_, List.mem_singleton_self _, rfl⟩
  · intro x left y right reach
    rw [List.mem_singleton.mp left, List.mem_singleton.mp right] at reach
    simp only [stop] at reach
    omega

end StringHeap

inductive StringCall
  | allocate (globalVariable : VariableTable) (size : ℕ)
  | free (ptr : ℕ)
  | gc (globalVariable : VariableTable)

/-- The heap, and the size that was requested last for the block at a pointer. -/
structure StringRun where
  heap : StringHeap
  requested : ℕ → ℕ

namespace StringRun

open StringHeap StringBlock

/-- The heap behind `finsh_heap_init`. -/
def boot (finshHeap : ℕ) (bytes : ℕ → BitVec 8) : Option StringRun := some ⟨.init finshHeap bytes, fun _ => 0⟩

/-- A call; it is `none` if it does not return. -/
def call (run : StringRun) : StringCall → Option StringRun
  | .allocate globalVariable size => do
    let (ptr, heap) ← run.heap.heapAllocate globalVariable size
    some ⟨heap, if ptr = 0 then run.requested else Function.update run.requested ptr size⟩
  | .free ptr => do
    let heap ← run.heap.heapFree ptr
    some ⟨heap, run.requested⟩
  | .gc globalVariable => do
    let heap ← run.heap.heapGc globalVariable
    some ⟨heap, run.requested⟩

def step (run : Option StringRun) (event : StringCall) : Option StringRun := run.bind (·.call event)

/-- What the lists are to be like. -/
structure Structured (finshHeap : ℕ) (run : StringRun) : Prop where
  freeOrdered : Ordered run.heap.freeBlocks
  usedOrdered : Ordered run.heap.usedBlocks
  disjoint : (run.heap.freeBlocks ++ run.heap.usedBlocks).Pairwise Apart
  inside : ∀ b ∈ run.heap.freeBlocks ++ run.heap.usedBlocks, finshHeap ≤ b.addr ∧ b.stop ≤ finshHeap + 128
  covered : ∀ i, finshHeap ≤ i → i < finshHeap + 128 →
    ∃ b ∈ run.heap.freeBlocks ++ run.heap.usedBlocks, b.addr ≤ i ∧ i < b.stop
  merged : ∀ x ∈ run.heap.freeBlocks, ∀ y ∈ run.heap.freeBlocks, x.stop ≠ y.addr
  long : ∀ b ∈ run.heap.usedBlocks, run.requested (b.addr + 8) ≤ b.len

/-- All calls have returned, and the lists are well formed. -/
def WellFormed (finshHeap : ℕ) : Option StringRun → Prop
  | none => False
  | some run => run.Structured finshHeap

/-- What a caller of `finsh_heap_free` keeps to: the block is live. -/
def Live : Option StringRun → StringCall → Prop
  | some run, .free ptr => ∃ b ∈ run.heap.usedBlocks, ptr = b.addr + 8
  | _, _ => True

/-- A request is a number of 32 bits. -/
def Sized : StringCall → Prop
  | .allocate _ size => size < 2 ^ 32
  | _ => True

/-- Rounding a request up and adding a header to it does not wrap 32 bits. -/
def Small : StringCall → Prop
  | .allocate _ size => size + 12 ≤ 2 ^ 32
  | _ => True

variable {finshHeap : ℕ}

/-- What every call keeps. -/
def Tracks (finshHeap : ℕ) : Option StringRun → Prop
  | none => False
  | some run => ∃ used, Sound finshHeap run.heap used ∧ ∀ b ∈ used, run.requested (b.addr + 8) ≤ b.len

theorem Tracks.wellFormed {run : Option StringRun} (tracks : Tracks finshHeap run) : WellFormed finshHeap run := by
  cases run with
  | none => exact tracks
  | some run =>
    obtain ⟨used, ⟨free, tiled, merged⟩, long⟩ := tracks
    have all : run.heap.freeBlocks ++ run.heap.usedBlocks = free ++ used := by
      rw [tiled.freeBlocks, tiled.usedBlocks]
    exact ⟨tiled.freeBlocks.symm ▸ tiled.freeListed.ordered, tiled.usedBlocks.symm ▸ tiled.usedListed.ordered,
      all.symm ▸ tiled.tiles.apart, all.symm ▸ tiled.tiles.inside, all.symm ▸ tiled.tiles.covered,
      tiled.freeBlocks.symm ▸ merged, tiled.usedBlocks.symm ▸ long⟩

/-- A block that was served is as long as it was requested, and the others are as they were. -/
theorem Tracks.allocate {run : StringRun} (tracks : Tracks finshHeap (some run)) (globalVariable : VariableTable)
    {size : ℕ} (small : size + 12 ≤ 2 ^ 32) : Tracks finshHeap (run.call (.allocate globalVariable size)) := by
  obtain ⟨used, sound, long⟩ := tracks
  obtain ⟨ptr, heap', kept, allocates, subset, served, -⟩ := sound.heapAllocate globalVariable small
  have keptLong : ∀ b ∈ kept, run.requested (b.addr + 8) ≤ b.len := by
    rcases subset with rfl | rfl
    · exact long
    · exact fun b member => long b (List.mem_of_mem_filter member)
  rw [call, allocates]
  change Tracks finshHeap (some ⟨heap', if ptr = 0 then run.requested else Function.update run.requested ptr size⟩)
  cases served with
  | none sound' => exact ⟨kept, sound', by rwa [if_pos rfl]⟩
  | @block front back b whole enough sound' =>
    refine ⟨front ++ b :: back, sound', ?_⟩
    dsimp only
    rw [if_neg (Nat.succ_ne_zero _)]
    intro x member
    rcases eq_or_ne x b with rfl | ne
    · rw [Function.update_self]
      exact enough
    · have old : x ∈ kept := by
        rw [whole]
        exact (mem_middle.mp member).resolve_left ne
      have apart : x.addr ≠ b.addr := by
        obtain ⟨free, tiled, -⟩ := sound'
        have moved : (front ++ b :: back).Perm (b :: (front ++ back)) := List.perm_middle
        have placed := (tiled.tiles.perm List.perm_append_comm).placed.perm moved
        exact placed.ne x (whole ▸ old)
      rw [Function.update_of_ne (by omega)]
      exact keptLong x old

theorem Tracks.step {run : Option StringRun} (tracks : Tracks finshHeap run) (event : StringCall)
    (allowed : Live run event ∧ Small event) : Tracks finshHeap (step run event) := by
  cases run with
  | none => exact tracks
  | some run =>
    cases event with
    | allocate globalVariable size => exact tracks.allocate globalVariable allowed.2
    | free ptr =>
      obtain ⟨used, sound, long⟩ := tracks
      obtain ⟨b, member, rfl⟩ : ∃ b ∈ used, ptr = b.addr + 8 := by
        obtain ⟨free, tiled, -⟩ := sound
        rw [← tiled.usedBlocks]
        exact allowed.1
      obtain ⟨front, back, rfl⟩ := List.append_of_mem member
      obtain ⟨heap', frees, sound', -⟩ := sound.heapFree
      change Tracks finshHeap (run.call (.free (b.addr + 8)))
      rw [call, frees]
      refine ⟨front ++ back, sound', fun x inside => long x (mem_middle.mpr (.inr inside))⟩
    | gc globalVariable =>
      obtain ⟨used, sound, long⟩ := tracks
      obtain ⟨heap', collects, sound', -⟩ := sound.heapGc globalVariable
      change Tracks finshHeap (run.call (.gc globalVariable))
      rw [call, collects]
      exact ⟨_, sound', fun b member => long b (List.mem_of_mem_filter member)⟩

theorem boot_tracks (low : 0 < finshHeap) (high : finshHeap + 128 ≤ 2 ^ 32) (bytes : ℕ → BitVec 8) :
    Tracks finshHeap (boot finshHeap bytes) := ⟨[], sound_init low high bytes, nofun⟩

/-- While no request wraps, the heap is well formed after every call. -/
theorem runs_wellFormed (finshHeap : ℕ) (bytes : ℕ → BitVec 8) (low : 0 < finshHeap) (high : finshHeap + 128 ≤ 2 ^ 32)
    (calls : List StringCall)
    (allowed : Run.Along step (fun run event => Live run event ∧ Small event) (boot finshHeap bytes) calls) :
    Run.Always step (WellFormed finshHeap) (boot finshHeap bytes) calls :=
  allowed.always (fun _ event tracks => tracks.step event) (fun _ tracks => tracks.wellFormed)
    (boot_tracks low high bytes)

/-- Two blocks, of which the first one is released and the other one is collected. -/
theorem runs_wellFormed_two :
    Run.Always step (WellFormed 0x1000) (boot 0x1000 fun _ => 0)
      [.allocate [] 5, .allocate [some 0x1008] 20, .free 0x1008, .gc [none]] := by
  refine runs_wellFormed 0x1000 _ (by decide) (by decide) _ ⟨⟨trivial, ?_⟩, ⟨trivial, ?_⟩, ⟨?_, trivial⟩,
    ⟨trivial, trivial⟩, trivial⟩
  · exact show 5 + 12 ≤ 2 ^ 32 by decide
  · exact show 20 + 12 ≤ 2 ^ 32 by decide
  · exact ⟨⟨0x1000, 8⟩, by decide +kernel, rfl⟩

/-- A request of nearly 2^32 bytes is rounded up to none, and served with a block of length 0. -/
theorem request_not_wellFormed :
    ¬ ∀ (finshHeap : ℕ) (bytes : ℕ → BitVec 8), 0 < finshHeap → finshHeap + 128 ≤ 2 ^ 32 →
      ∀ calls : List StringCall, (∀ event ∈ calls, Sized event) →
        Run.Along step Live (boot finshHeap bytes) calls →
          Run.Always step (WellFormed finshHeap) (boot finshHeap bytes) calls := by
  intro all
  have sized : ∀ event ∈ [StringCall.allocate [] 0xfffffffd], Sized event := by
    simp [Sized]
  have last := (all 0x1000 (fun _ => 0) (by decide) (by decide) _ sized ⟨trivial, trivial⟩).last
  have long : ∀ run ∈ Run.exec step (boot 0x1000 fun _ => 0) [.allocate [] 0xfffffffd],
      ∀ b ∈ run.heap.usedBlocks, run.requested (b.addr + 8) ≤ b.len := by
    intro run reached
    rw [Option.mem_def.mp reached] at last
    exact last.long
  revert long
  decide +kernel

end StringRun

end Finsh
