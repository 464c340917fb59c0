import ShdslBridge.Kernel.HeapResize
import ShdslBridge.Lib.Run

/-! # Runs of the heap calls

A run is any sequence of calls of `rt_malloc`, `rt_realloc` and `rt_free`, and of stores by the
owners of the blocks into their data areas. `live` records the pointers handed out and not released,
with the size that was asked for; a call on any other pointer is outside the contract and not part
of a run. A call that does not return leaves the heap as it is, and holds `heap_sem`; the runs here
go on without it, so they cover more than the code can do.
-/

namespace RtThread

open LittleEndian Memory

/-- The heap and the pointers in the hands of the callers, with the sizes asked for. -/
structure HeapRun where
  heap : Heap
  live : ℕ → Option ℕ

inductive HeapEvent
  | malloc (size : ℕ)
  | realloc (rmem : Option ℕ) (newsize : ℕ)
  | free (rmem : Option ℕ)
  | store (rmem offset : ℕ) (byte : BitVec 8)

/-- The offsets of the headers reached from `off` by `next`, up to `heap_end`. -/
def Heap.walk (heap : Heap) : ℕ → ℕ → List ℕ
  | 0, _ => []
  | fuel + 1, off => off :: if off = heap.heapEnd then [] else walk heap fuel (heap.next off)

/-- The offsets of the headers reached from 0 by `next`. -/
def Heap.chain (heap : Heap) : List ℕ := heap.walk (heap.heapEnd + 1) 0

def Heap.dataOf (heap : Heap) (rmem : ℕ) : List (BitVec 8) :=
  readAt heap.bytes rmem (heap.next (rmem - sizeofStructMem) - rmem)

def without {α : Type*} (map : ℕ → Option α) : Option ℕ → ℕ → Option α
  | none => map
  | some rmem => Function.update map rmem none

namespace HeapRun

/-- A null pointer or a pointer that was handed out. -/
def owns (run : HeapRun) : Option ℕ → Bool
  | none => true
  | some rmem => (run.live rmem).isSome

def answer (run : HeapRun) (released : Option ℕ) (size : ℕ) : Option (Heap × Option ℕ) → HeapRun
  | none => run
  | some (heap, none) => { run with heap }
  | some (heap, some rmem) => { heap, live := Function.update (without run.live released) rmem (some size) }

def step (run : HeapRun) : HeapEvent → HeapRun
  | .malloc size => run.answer none size (rtMalloc run.heap size)
  | .realloc rmem newsize =>
    if run.owns rmem then run.answer rmem newsize (rtRealloc run.heap rmem newsize) else run
  | .free rmem =>
    if run.owns rmem then { heap := rtFree run.heap rmem, live := without run.live rmem } else run
  | .store rmem offset byte =>
    if (run.live rmem).isSome ∧ offset < (run.heap.dataOf rmem).length then
      { run with heap := run.heap.overwrite (rmem + offset) [byte] }
    else run

/-- The state behind `rt_system_heap_init`. -/
def boot (heap : Heap) : HeapRun := { heap, live := fun _ => none }

end HeapRun

def HeapEvent.argument : HeapEvent → Option ℕ
  | malloc _ => none
  | realloc rmem _ => rmem
  | free rmem => rmem
  | store rmem _ _ => some rmem

/-- Rounding the size up to `RT_ALIGN_SIZE` does not wrap. -/
def HeapEvent.Small : HeapEvent → Prop
  | malloc size => size + 7 < 2 ^ 32
  | realloc _ newsize => newsize + 7 < 2 ^ 32
  | free _ => True
  | store _ _ _ => True

/-- The heap is well formed, seen from its headers and from the live pointers. -/
structure HeapRun.WellFormed (run : HeapRun) : Prop where
  ends : run.heap.chain.getLast? = some run.heap.heapEnd
  linked : run.heap.chain.IsChain fun mem behind => behind = run.heap.next mem ∧ mem < behind
  back : run.heap.chain.IsChain fun mem behind => behind ≠ run.heap.heapEnd → run.heap.prev behind = mem
  apart : run.heap.chain.IsChain fun mem behind => run.heap.used mem = 0 → run.heap.used behind ≠ 0
  account : run.heap.usedMem =
    ((run.heap.chain.filter fun mem => mem ≠ run.heap.heapEnd ∧ run.heap.used mem ≠ 0).map
      fun mem => run.heap.next mem - mem).sum
  header : ∀ rmem size, run.live rmem = some size →
    sizeofStructMem ≤ rmem ∧ rmem - sizeofStructMem ∈ run.heap.chain ∧
      run.heap.used (rmem - sizeofStructMem) ≠ 0 ∧ run.heap.magic (rmem - sizeofStructMem) = heapMagic
  aligned : ∀ rmem size, run.live rmem = some size → 8 ∣ run.heap.heapPtr + rmem
  large : ∀ rmem size, run.live rmem = some size → size ≤ (run.heap.dataOf rmem).length
  disjoint : ∀ rmem other size more, run.live rmem = some size → run.live other = some more → rmem ≠ other →
    rmem + (run.heap.dataOf rmem).length ≤ other ∨ other + (run.heap.dataOf other).length ≤ rmem

/-- The block that `rt_realloc` is called for keeps its first bytes, or stays as it is. -/
def HeapRun.ReallocKeeps (run : HeapRun) (rmem newsize : ℕ) : Prop :=
  match rtRealloc run.heap (some rmem) newsize with
  | none => True
  | some (heap, none) =>
    (run.step (.realloc (some rmem) newsize)).live rmem = run.live rmem ∧ heap.dataOf rmem = run.heap.dataOf rmem
  | some (heap, some nmem) =>
    (run.step (.realloc (some rmem) newsize)).live nmem = some newsize ∧
      (heap.dataOf nmem).take (min (run.heap.dataOf rmem).length newsize) =
        (run.heap.dataOf rmem).take (min (run.heap.dataOf rmem).length newsize)

/-- An event changes neither the extent nor the content of a live block other than its argument. -/
def HeapRun.Isolated (run : HeapRun) (event : HeapEvent) : Prop :=
  (∀ rmem, (run.live rmem).isSome → event.argument ≠ some rmem →
    (run.step event).live rmem = run.live rmem ∧ (run.step event).heap.dataOf rmem = run.heap.dataOf rmem) ∧
  ∀ rmem newsize, event = .realloc (some rmem) newsize → (run.live rmem).isSome → run.ReallocKeeps rmem newsize

/-! ## The headers reached -/

def offsets : ℕ → List Block → List ℕ
  | _, [] => []
  | off, block :: rest => off :: offsets (off + block.span) rest

variable {heap : Heap} {blocks : List Block} {prev off : ℕ} {run : HeapRun} {data : List (BitVec 8)} {event : HeapEvent}

theorem Chain.walk_eq {prev off fuel : ℕ} (chain : Chain heap prev off blocks)
    (total : off + extent blocks = heap.heapEnd) (enough : blocks.length < fuel) :
    heap.walk fuel off = offsets off blocks ++ [heap.heapEnd] := by
  induction blocks generalizing prev off fuel with
  | nil =>
    obtain ⟨rest, rfl⟩ : ∃ rest, fuel = rest + 1 := ⟨fuel - 1, by rw [List.length_nil] at enough; omega⟩
    rw [extent_nil, Nat.add_zero] at total
    rw [Heap.walk, if_pos total, total]
    rfl
  | cons block rest ih =>
    obtain ⟨stored, tail⟩ := chain
    have wide : 16 ≤ block.span := stored.wide
    rw [List.length_cons] at enough
    rw [extent_cons] at total
    obtain ⟨less, rfl⟩ : ∃ less, fuel = less + 1 := ⟨fuel - 1, by omega⟩
    rw [Heap.walk, if_neg (by omega), stored.next, ih tail (by omega) (by omega)]
    rfl

theorem Represents.chain_eq (inv : Represents heap blocks) : heap.chain = offsets 0 blocks ++ [heap.heapEnd] := by
  have total := inv.total
  have few := inv.chain.length_le
  exact inv.chain.walk_eq (by omega) (by omega)

theorem head_offsets {off heapEnd first : ℕ} (total : off + extent blocks = heapEnd)
    (head : first ∈ (offsets off blocks ++ [heapEnd]).head?) : first = off := by
  cases blocks with
  | nil =>
    rw [extent_nil, Nat.add_zero] at total
    exact (Option.some.inj head).symm.trans total.symm
  | cons block rest => exact (Option.some.inj head).symm

theorem Chain.linked (chain : Chain heap prev off blocks) (total : off + extent blocks = heap.heapEnd) :
    (offsets off blocks ++ [heap.heapEnd]).IsChain fun mem behind => behind = heap.next mem ∧ mem < behind := by
  induction blocks generalizing prev off with
  | nil => exact List.isChain_singleton _
  | cons block rest ih =>
    obtain ⟨stored, tail⟩ := chain
    have wide : 16 ≤ block.span := stored.wide
    rw [extent_cons, ← Nat.add_assoc] at total
    refine List.isChain_cons.mpr ⟨fun behind first => ?_, ih tail total⟩
    obtain rfl := head_offsets total first
    exact ⟨stored.next.symm, by omega⟩

theorem Chain.back (chain : Chain heap prev off blocks) (total : off + extent blocks = heap.heapEnd) :
    (offsets off blocks ++ [heap.heapEnd]).IsChain
      fun mem behind => behind ≠ heap.heapEnd → heap.prev behind = mem := by
  induction blocks generalizing prev off with
  | nil => exact List.isChain_singleton _
  | cons block rest ih =>
    obtain ⟨stored, tail⟩ := chain
    rw [extent_cons, ← Nat.add_assoc] at total
    refine List.isChain_cons.mpr ⟨fun behind first inside => ?_, ih tail total⟩
    obtain rfl := head_offsets total first
    cases rest with
    | nil => exact absurd total inside
    | cons later more => exact tail.1.prev

theorem Chain.apart (chain : Chain heap prev off blocks) (total : off + extent blocks = heap.heapEnd)
    (endUsed : heap.used heap.heapEnd = 1) (apart : Apart blocks) :
    (offsets off blocks ++ [heap.heapEnd]).IsChain
      fun mem behind => heap.used mem = 0 → heap.used behind ≠ 0 := by
  induction blocks generalizing prev off with
  | nil => exact List.isChain_singleton _
  | cons block rest ih =>
    obtain ⟨stored, tail⟩ := chain
    obtain ⟨pair, later⟩ := apart_cons.mp apart
    rw [extent_cons, ← Nat.add_assoc] at total
    refine List.isChain_cons.mpr ⟨fun behind first free => ?_, ih tail total later⟩
    obtain rfl := head_offsets total first
    rw [stored.used] at free
    cases rest with
    | nil =>
      rw [extent_nil, Nat.add_zero] at total
      rw [total, endUsed]
      exact Nat.one_ne_zero
    | cons next more =>
      rw [tail.1.used]
      exact pair next rfl free

theorem Chain.account (chain : Chain heap prev off blocks) (total : off + extent blocks = heap.heapEnd) :
    (((offsets off blocks ++ [heap.heapEnd]).filter fun mem => mem ≠ heap.heapEnd ∧ heap.used mem ≠ 0).map
      fun mem => heap.next mem - mem).sum = usedSpan blocks := by
  induction blocks generalizing prev off with
  | nil => simp [offsets, usedSpan]
  | cons block rest ih =>
    obtain ⟨stored, tail⟩ := chain
    have wide : 16 ≤ block.span := stored.wide
    have later := ih tail (by rw [extent_cons] at total; omega)
    rw [extent_cons] at total
    have inside : off ≠ heap.heapEnd := by omega
    rw [offsets, List.cons_append, List.filter_cons]
    cases block with
    | free span =>
      rw [if_neg (by simp [stored.used])]
      exact later
    | used content =>
      rw [if_pos (by simp [stored.used, inside]), List.map_cons, List.sum_cons, later, stored.next,
        Nat.add_sub_cancel_left]
      rfl

theorem Chain.dvd_extent (chain : Chain heap prev off blocks) : 8 ∣ extent blocks := by
  induction blocks generalizing prev off with
  | nil => exact Nat.dvd_zero 8
  | cons block rest ih =>
    rw [extent_cons]
    exact Nat.dvd_add chain.1.aligned (ih chain.2)

theorem mem_offsets {off : ℕ} {left right : List Block} {block : Block} :
    off + extent left ∈ offsets off (left ++ block :: right) := by
  induction left generalizing off with
  | nil => exact List.mem_cons_self ..
  | cons head rest ih =>
    rw [extent_cons, ← Nat.add_assoc]
    exact List.mem_cons_of_mem _ ih

theorem contentAt_disjoint {off rmem other : ℕ} {data more : List (BitVec 8)}
    (first : contentAt off blocks rmem = some data) (second : contentAt off blocks other = some more)
    (apart : rmem ≠ other) : rmem + data.length ≤ other ∨ other + more.length ≤ rmem := by
  obtain ⟨left, right, rfl, place⟩ := contentAt_split first
  rw [contentAt_append, Option.or_eq_some_iff] at second
  rcases second with before | ⟨_, behind⟩
  · have bounds := contentAt_bounds before
    exact .inr (by omega)
  · rw [contentAt, if_neg (by omega)] at behind
    have bounds := contentAt_bounds behind
    exact .inl (by omega)

/-! ## The invariant of a run -/

/-- The live pointers are the data areas of the used blocks. -/
structure Tracks (run : HeapRun) (blocks : List Block) : Prop where
  layout : Layout run.heap blocks
  live : ∀ rmem, (run.live rmem).isSome = (contentAt 0 blocks rmem).isSome

/-- The data areas are as large as was asked for. -/
def Roomy (run : HeapRun) (blocks : List Block) : Prop :=
  ∀ rmem size data, run.live rmem = some size → contentAt 0 blocks rmem = some data → size ≤ data.length

theorem Tracks.content (tracks : Tracks run blocks) {rmem : ℕ} (live : (run.live rmem).isSome) :
    ∃ data, contentAt 0 blocks rmem = some data := by
  rw [tracks.live] at live
  exact Option.isSome_iff_exists.mp live

theorem Represents.dataOf {rmem : ℕ} (inv : Represents heap blocks) (live : contentAt 0 blocks rmem = some data) :
    heap.dataOf rmem = data := by
  have ⟨_, _, next, read⟩ := inv.live live
  rw [Heap.dataOf, next, Nat.add_sub_cancel_left, read]

theorem Tracks.wellFormed (tracks : Tracks run blocks) (roomy : Roomy run blocks) : run.WellFormed := by
  have inv := tracks.layout.toRepresents
  have total : 0 + extent blocks = run.heap.heapEnd := by rw [Nat.zero_add, inv.total]
  have place (rmem size : ℕ) (live : run.live rmem = some size) :
      ∃ data, contentAt 0 blocks rmem = some data ∧ run.heap.dataOf rmem = data := by
    obtain ⟨data, found⟩ := tracks.content (live ▸ rfl : (run.live rmem).isSome)
    exact ⟨data, found, inv.dataOf found⟩
  constructor
  · rw [inv.chain_eq, List.getLast?_concat]
  · rw [inv.chain_eq]
    exact inv.chain.linked total
  · rw [inv.chain_eq]
    exact inv.chain.back total
  · rw [inv.chain_eq]
    exact inv.chain.apart total inv.endUsed tracks.layout.apart
  · rw [inv.chain_eq, inv.chain.account total]
    exact inv.usedMem
  · intro rmem size live
    obtain ⟨data, found, _⟩ := place rmem size live
    have ⟨low, used, _, _⟩ := inv.live found
    obtain ⟨left, right, rfl, rfl⟩ := contentAt_split found
    have ⟨stored, _, _, _, _, _, _, _⟩ := inv.held
    rw [Nat.zero_add, Nat.add_sub_cancel] at *
    refine ⟨low, ?_, by rw [used]; exact Nat.one_ne_zero, (stored.content data rfl).1⟩
    rw [inv.chain_eq]
    have member := @mem_offsets 0 left right (.used data)
    rw [Nat.zero_add] at member
    exact List.mem_append_left _ member
  · intro rmem size live
    obtain ⟨data, found, _⟩ := place rmem size live
    obtain ⟨left, right, rfl, rfl⟩ := contentAt_split found
    have ⟨_, front, _, _, _, _, _, _⟩ := inv.held
    refine Nat.dvd_add inv.aligned (Nat.dvd_add (Nat.dvd_add (Nat.dvd_zero 8) front.dvd_extent) ?_)
    decide
  · intro rmem size live
    obtain ⟨data, found, same⟩ := place rmem size live
    rw [same]
    exact roomy rmem size data live found
  · intro rmem other size more live another apart
    obtain ⟨data, found, same⟩ := place rmem size live
    obtain ⟨bytes, second, alike⟩ := place other more another
    rw [same, alike]
    exact contentAt_disjoint found second apart

/-- What an event has done to the blocks and the live pointers. -/
structure Kept (run next : HeapRun) (blocks others : List Block) (argument : Option ℕ) (event : Prop) : Prop where
  tracks : Tracks next others
  roomy : event → Roomy run blocks → Roomy next others
  frame : ∀ rmem, (run.live rmem).isSome → argument ≠ some rmem →
    next.live rmem = run.live rmem ∧ contentAt 0 others rmem = contentAt 0 blocks rmem

theorem without_apply {α : Type*} (map : ℕ → Option α) (released : Option ℕ) (rmem : ℕ) :
    without map released rmem = if released = some rmem then none else map rmem := by
  cases released with
  | none => simp [without]
  | some other => simp [without, Function.update_apply, eq_comm]

theorem answer_kept {blocks others : List Block} {released : Option ℕ} {size nmem : ℕ} {moved : List (BitVec 8)}
    {event : Prop} (tracks : Tracks run blocks)
    (turns : Turns run.heap heap others (Function.update (without (contentAt 0 blocks) released) nmem (some moved)))
    (fresh : released = some nmem ∨ contentAt 0 blocks nmem = none) (enough : event → size ≤ moved.length) :
    Kept run (run.answer released size (some (heap, some nmem))) blocks others released event := by
  refine ⟨⟨turns.layout, fun rmem => ?_⟩, ?_, ?_⟩
  · rw [turns.content]
    show (Function.update (without run.live released) nmem (some size) rmem).isSome = _
    rw [Function.update_apply, Function.update_apply, without_apply, without_apply]
    split
    · rfl
    · split
      · rfl
      · exact tracks.live rmem
  · intro small roomy rmem asked data live content
    rw [turns.content, Function.update_apply, without_apply] at content
    change Function.update (without run.live released) nmem (some size) rmem = some asked at live
    rw [Function.update_apply, without_apply] at live
    split at live
    next same =>
      rw [if_pos same] at content
      cases live
      cases content
      exact enough small
    next other =>
      rw [if_neg other] at content
      split at live
      next => cases live
      next kept =>
        rw [if_neg kept] at content
        exact roomy rmem asked data live content
  · intro rmem live other
    have apart : rmem ≠ nmem := by
      rintro rfl
      rcases fresh with same | absent
      · exact other same
      · rw [tracks.live, absent] at live
        cases live
    rw [turns.content]
    show Function.update (without run.live released) nmem (some size) rmem = _ ∧ _
    rw [Function.update_of_ne apart, Function.update_of_ne apart, without_apply, without_apply, if_neg other]
    exact ⟨rfl, if_neg other⟩

/-- A call that has changed neither the blocks nor the live pointers. -/
theorem Kept.refl {argument : Option ℕ} {event : Prop} (tracks : Tracks run blocks) :
    Kept run run blocks blocks argument event :=
  ⟨tracks, fun _ roomy => roomy, fun _ _ _ => ⟨rfl, rfl⟩⟩

theorem le_rtAlign {size : ℕ} (small : size + 7 < 2 ^ 32) : size ≤ rtAlign size := by
  rw [rtAlign, word32_of_lt small]
  omega

theorem rtAlign_le_roundedSize (size : ℕ) : rtAlign size ≤ roundedSize size := by
  rw [roundedSize]
  split
  next small => exact small.le
  next => rfl

/-- The event is an `rt_realloc` that makes a hole in front of `lfree`. -/
def HeapEvent.ShrinksBelow (run : HeapRun) : HeapEvent → Prop
  | realloc (some rmem) newsize => (run.live rmem).isSome ∧ RtThread.ShrinksBelow run.heap rmem newsize
  | _ => False

structure Stepped (run : HeapRun) (blocks others : List Block) (event : HeapEvent) : Prop where
  kept : Kept run (run.step event) blocks others event.argument event.Small
  lowest : Lowest run.heap blocks → (Lowest (run.step event).heap others ↔ ¬ event.ShrinksBelow run)

theorem Stepped.idle (tracks : Tracks run blocks) (same : run.step event = run) (above : ¬ event.ShrinksBelow run) :
    Stepped run blocks blocks event := by
  constructor
  · rw [same]
    exact Kept.refl tracks
  · intro lowest
    rw [same]
    exact iff_of_true lowest above

/-- A pointer that comes from `rt_malloc`. -/
theorem malloc_stepped {size asked nmem : ℕ} (tracks : Tracks run blocks)
    (call : rtMalloc run.heap size = some (heap, some nmem)) (isMalloc : event.argument = none)
    (result : run.step event = run.answer none asked (some (heap, some nmem)))
    (enough : event.Small → asked ≤ roundedSize size) : ∃ others, Stepped run blocks others event := by
  obtain ⟨others, data, turns, absent, large, lowest⟩ := rtMalloc_turns tracks.layout call
  have above : ¬ event.ShrinksBelow run := by
    rintro shrinks
    cases event with
    | realloc rmem newsize =>
      cases rmem with
      | none => exact shrinks
      | some rmem => cases isMalloc
    | _ => exact shrinks
  refine ⟨others, ?_, fun low => iff_of_true ?_ above⟩
  · rw [result, isMalloc]
    exact answer_kept tracks turns (.inr absent) fun small => (enough small).trans large
  · rw [result]
    exact lowest low

theorem step_malloc (tracks : Tracks run blocks) (size : ℕ) : ∃ others, Stepped run blocks others (.malloc size) := by
  cases call : rtMalloc run.heap size with
  | none => exact ⟨blocks, .idle tracks (by rw [HeapRun.step, call]; rfl) id⟩
  | some result =>
    obtain ⟨heap, nmem⟩ := result
    cases nmem with
    | none =>
      obtain ⟨rfl, _⟩ := rtMalloc_null call
      exact ⟨blocks, .idle tracks (by rw [HeapRun.step, call]; rfl) id⟩
    | some nmem =>
      refine malloc_stepped tracks call rfl (by rw [HeapRun.step, call]) fun small => ?_
      exact (le_rtAlign small).trans (rtAlign_le_roundedSize size)

theorem step_realloc_null (tracks : Tracks run blocks) (newsize : ℕ) :
    ∃ others, Stepped run blocks others (.realloc none newsize) := by
  have bound : run.heap.heapPtr + run.heap.heapEnd + 16 ≤ 2 ^ 32 := tracks.layout.bound
  have size : run.heap.heapEnd = run.heap.memSizeAligned + 16 := tracks.layout.size
  have unfolded : run.step (.realloc none newsize) =
      run.answer none newsize (if run.heap.memSizeAligned < rtAlign newsize then some (run.heap, none)
        else rtMalloc run.heap (rtAlign newsize)) := rfl
  split at unfolded
  next => exact ⟨blocks, .idle tracks unfolded id⟩
  next fits =>
    cases call : rtMalloc run.heap (rtAlign newsize) with
    | none => exact ⟨blocks, .idle tracks (by rw [unfolded, call]; rfl) id⟩
    | some result =>
      obtain ⟨heap, nmem⟩ := result
      cases nmem with
      | none =>
        obtain ⟨rfl, _⟩ := rtMalloc_null call
        exact ⟨blocks, .idle tracks (by rw [unfolded, call]; rfl) id⟩
      | some nmem =>
        refine malloc_stepped tracks call rfl (by rw [unfolded, call]) fun small => ?_
        exact (le_rtAlign small).trans (le_roundedSize (by omega))

theorem step_realloc {rmem newsize : ℕ} (tracks : Tracks run blocks) (live : (run.live rmem).isSome)
    (content : contentAt 0 blocks rmem = some data) :
    ∃ others, Stepped run blocks others (.realloc (some rmem) newsize) := by
  have inv := tracks.layout
  have unfolded : run.step (.realloc (some rmem) newsize) =
      run.answer (some rmem) newsize (rtRealloc run.heap (some rmem) newsize) := by
    rw [HeapRun.step, HeapRun.owns, if_pos live]
  have below := @Represents.shrinksBelow_iff _ _ _ _ newsize inv.toRepresents content
  cases call : rtRealloc run.heap (some rmem) newsize with
  | none =>
    refine ⟨blocks, .idle tracks (by rw [unfolded, call]; rfl) ?_⟩
    rintro ⟨_, shrinks⟩
    obtain ⟨fits, small, _⟩ := below.mp shrinks
    have returns := rtRealloc_of_shrinks inv content fits small
    rw [call] at returns
    cases returns
  | some result =>
    obtain ⟨heap, nmem⟩ := result
    have outcome := rtRealloc_cases inv content call
    cases nmem with
    | none =>
      cases outcome with
      | fails reason =>
        refine ⟨blocks, .idle tracks (by rw [unfolded, call]; rfl) ?_⟩
        rintro ⟨_, shrinks⟩
        obtain ⟨fits, small, _⟩ := below.mp shrinks
        rcases reason with large | large
        · omega
        · exact large small
    | some nmem =>
      obtain ⟨others, moved, turns, fresh, enough, _, lowest⟩ := outcome.turns inv content
      refine ⟨others, ?_, fun low => ?_⟩
      · rw [unfolded, call]
        refine answer_kept tracks turns ?_ fun small => (le_rtAlign small).trans enough
        exact fresh.imp_left fun same => congrArg some same.symm
      · rw [unfolded, call]
        refine (lowest low).trans (not_congr ?_)
        exact ⟨fun shrinks => ⟨live, shrinks⟩, fun shrinks => shrinks.2⟩

theorem step_free {rmem : ℕ} (tracks : Tracks run blocks) (live : (run.live rmem).isSome)
    (content : contentAt 0 blocks rmem = some data) : ∃ others, Stepped run blocks others (.free (some rmem)) := by
  obtain ⟨others, turns, lowest⟩ := rtFree_turns tracks.layout content
  have unfolded : run.step (.free (some rmem)) =
      { heap := rtFree run.heap (some rmem), live := Function.update run.live rmem none } := by
    rw [HeapRun.step, HeapRun.owns, if_pos live]
    rfl
  refine ⟨others, ?_, fun low => ?_⟩
  · rw [unfolded]
    refine ⟨⟨turns.layout, fun other => ?_⟩, ?_, ?_⟩
    · rw [turns.content]
      show (Function.update run.live rmem none other).isSome = _
      rw [Function.update_apply, Function.update_apply]
      split
      · rfl
      · exact tracks.live other
    · intro _ roomy other size bytes asked found
      rw [turns.content] at found
      change Function.update run.live rmem none other = some size at asked
      rw [Function.update_apply] at found asked
      split at asked
      next => cases asked
      next apart =>
        rw [if_neg apart] at found
        exact roomy other size bytes asked found
    · intro other _ apart
      have different : other ≠ rmem := fun same => apart (congrArg some same.symm)
      rw [turns.content, Function.update_of_ne different]
      exact ⟨Function.update_of_ne different .., rfl⟩
  · rw [unfolded]
    exact iff_of_true (lowest low) id

theorem step_store {rmem offset : ℕ} {byte : BitVec 8} (tracks : Tracks run blocks) (live : (run.live rmem).isSome)
    (content : contentAt 0 blocks rmem = some data) (inside : offset < data.length) :
    ∃ others, Stepped run blocks others (.store rmem offset byte) := by
  obtain ⟨others, turns, lowest⟩ := @overwrite_turns _ _ _ _ _ [byte] tracks.layout content inside
  have unfolded : run.step (.store rmem offset byte) =
      { run with heap := run.heap.overwrite (rmem + offset) [byte] } := by
    rw [HeapRun.step, if_pos ⟨live, by rwa [tracks.layout.toRepresents.dataOf content]⟩]
  have sameLength : (data.take offset ++ [byte] ++ data.drop (offset + [byte].length)).length = data.length := by
    simp
    omega
  refine ⟨others, ?_, fun low => ?_⟩
  · rw [unfolded]
    refine ⟨⟨turns.layout, fun other => ?_⟩, ?_, ?_⟩
    · rw [turns.content, Function.update_apply]
      split
      next same => rw [same, tracks.live, content]; rfl
      next => exact tracks.live other
    · intro _ roomy other size bytes asked found
      rw [turns.content, Function.update_apply] at found
      split at found
      next same =>
        cases found
        rw [sameLength]
        exact roomy rmem size data (same ▸ asked) content
      next => exact roomy other size bytes asked found
    · intro other _ apart
      have different : other ≠ rmem := fun same => apart (congrArg some same.symm)
      rw [turns.content, Function.update_of_ne different]
      exact ⟨rfl, rfl⟩
  · rw [unfolded]
    exact iff_of_true (lowest low) id

theorem Tracks.step (tracks : Tracks run blocks) (event : HeapEvent) : ∃ others, Stepped run blocks others event := by
  cases event with
  | malloc size => exact step_malloc tracks size
  | realloc rmem newsize =>
    cases rmem with
    | none => exact step_realloc_null tracks newsize
    | some rmem =>
      by_cases live : (run.live rmem).isSome
      · obtain ⟨data, content⟩ := tracks.content live
        exact step_realloc tracks live content
      · refine ⟨blocks, .idle tracks ?_ fun shrinks => live shrinks.1⟩
        rw [HeapRun.step, HeapRun.owns, if_neg live]
  | free rmem =>
    cases rmem with
    | none => exact ⟨blocks, .idle tracks rfl id⟩
    | some rmem =>
      by_cases live : (run.live rmem).isSome
      · obtain ⟨data, content⟩ := tracks.content live
        exact step_free tracks live content
      · refine ⟨blocks, .idle tracks ?_ id⟩
        rw [HeapRun.step, HeapRun.owns, if_neg live]
  | store rmem offset byte =>
    by_cases owned : (run.live rmem).isSome ∧ offset < (run.heap.dataOf rmem).length
    · obtain ⟨live, inside⟩ := owned
      obtain ⟨data, content⟩ := tracks.content live
      rw [tracks.layout.toRepresents.dataOf content] at inside
      exact step_store tracks live content inside
    · exact ⟨blocks, .idle tracks (by rw [HeapRun.step, if_neg owned]) id⟩

/-! ## Every run from `rt_system_heap_init` -/

/-- The two headers that `rt_system_heap_init` writes. -/
theorem initHeaders_represents (used : heap.usedMem = 0) (low : heap.lfree = 0)
    (size : heap.heapEnd = heap.memSizeAligned + sizeofStructMem)
    (bound : heap.heapPtr + heap.heapEnd + sizeofStructMem ≤ 2 ^ 32) (aligned : 8 ∣ heap.heapPtr)
    (alignedSize : 8 ∣ heap.memSizeAligned) : Represents heap.initHeaders [.free heap.heapEnd] := by
  have large : 16 ≤ heap.heapEnd := size ▸ Nat.le_add_left 16 _
  rw [sizeofStructMem] at bound
  have alignedEnd : 8 ∣ heap.heapEnd := size ▸ Nat.dvd_add alignedSize (by decide)
  have stored : (Block.free heap.heapEnd).Stored heap.initHeaders 0 0 := by
    refine ⟨?_, ?_, ?_, large, alignedEnd, by simp⟩
    all_goals
      refine (Heap.load_store_outside _ _ _ _ (by omega)).trans ?_
      refine (Heap.load_store_outside _ _ _ _ (by omega)).trans ?_
      refine (Heap.load_store_outside _ _ _ _ (by omega)).trans ?_
      refine (Heap.load_store_outside _ _ _ _ (by omega)).trans ?_
    · exact Heap.load_store _ _ _ _ (by decide)
    · refine (Heap.load_store_outside _ _ _ _ (by omega)).trans ?_
      refine (Heap.load_store_outside _ _ _ _ (by omega)).trans ?_
      exact (Heap.load_store _ _ _ _ (by omega)).trans (Nat.zero_add _).symm
    · refine (Heap.load_store_outside _ _ _ _ (by omega)).trans ?_
      exact Heap.load_store _ _ _ _ (by decide)
  have endUsed : heap.initHeaders.used heap.heapEnd = 1 := by
    refine (Heap.load_store_outside _ _ _ _ (by omega)).trans ?_
    refine (Heap.load_store_outside _ _ _ _ (by omega)).trans ?_
    exact Heap.load_store _ _ _ _ (by decide)
  have endNext : heap.initHeaders.next heap.heapEnd = heap.heapEnd := by
    refine (Heap.load_store_outside _ _ _ _ (by omega)).trans ?_
    exact Heap.load_store _ _ _ _ (by omega)
  have first : heap.initHeaders.lfree ∈ freeOffsets 0 [.free heap.heapEnd] := by
    show heap.lfree ∈ [0]
    rw [low]
    exact List.mem_singleton_self 0
  exact ⟨⟨stored, trivial⟩, extent_cons _ _, size, bound, aligned, endUsed, endNext, .inl first, used⟩

theorem rtSystemHeapInit_layout {content : ℕ → BitVec 8} {beginAddr endAddr : ℕ}
    (init : rtSystemHeapInit content beginAddr endAddr = some heap) :
    Layout heap [.free heap.heapEnd] ∧ Lowest heap [.free heap.heapEnd] := by
  rw [rtSystemHeapInit] at init
  simp only at init
  split at init
  next large =>
    obtain ⟨top, room⟩ := large
    have high : rtAlignDown endAddr < 2 ^ 32 := by
      have small : word32 endAddr < 2 ^ 32 := Nat.mod_lt _ (by decide)
      rw [rtAlignDown]
      omega
    have alignedBegin : 8 ∣ rtAlign beginAddr := Nat.dvd_mul_left 8 _
    have alignedEnd : 8 ∣ rtAlignDown endAddr := Nat.dvd_mul_left 8 _
    rw [sizeofStructMem] at top room init
    have represents := @initHeaders_represents
      { heapPtr := rtAlign beginAddr, bytes := fun i => content (rtAlign beginAddr + i)
        heapEnd := rtAlignDown endAddr - rtAlign beginAddr - 2 * 16 + 16, lfree := 0
        memSizeAligned := rtAlignDown endAddr - rtAlign beginAddr - 2 * 16, usedMem := 0, maxMem := 0 }
      rfl rfl rfl (by simp only [sizeofStructMem]; omega) alignedBegin (by dsimp only; omega)
    cases init
    refine ⟨⟨represents, List.isChain_singleton _, ?_⟩, fun mem _ => Nat.zero_le mem⟩
    rfl
  next => cases init

theorem Tracks.reallocKeeps {rmem newsize : ℕ} (tracks : Tracks run blocks) (live : (run.live rmem).isSome)
    (small : newsize + 7 < 2 ^ 32) : run.ReallocKeeps rmem newsize := by
  obtain ⟨data, content⟩ := tracks.content live
  have same := tracks.layout.toRepresents.dataOf content
  have unfolded : run.step (.realloc (some rmem) newsize) =
      run.answer (some rmem) newsize (rtRealloc run.heap (some rmem) newsize) := by
    rw [HeapRun.step, HeapRun.owns, if_pos live]
  rw [HeapRun.ReallocKeeps, unfolded]
  split
  next => trivial
  next heap call =>
    have outcome := rtRealloc_cases tracks.layout content call
    rw [call]
    cases outcome with
    | fails reason => exact ⟨rfl, rfl⟩
  next heap nmem call =>
    have outcome := rtRealloc_cases tracks.layout content call
    obtain ⟨others, moved, turns, _, _, copied, _⟩ := outcome.turns tracks.layout content
    have placed : contentAt 0 others nmem = some moved := by
      rw [turns.content, Function.update_self]
    have enough := le_rtAlign small
    rw [call, same, turns.layout.toRepresents.dataOf placed]
    refine ⟨Function.update_self .., ?_⟩
    have prefix_ := congrArg (List.take (min data.length newsize)) copied
    rwa [List.take_take, List.take_take, Nat.min_eq_left (by omega)] at prefix_

theorem Tracks.isolated (tracks : Tracks run blocks) (small : event.Small) : run.Isolated event := by
  constructor
  · intro rmem live apart
    obtain ⟨others, stepped⟩ := tracks.step event
    obtain ⟨data, content⟩ := tracks.content live
    obtain ⟨sameLive, sameContent⟩ := stepped.kept.frame rmem live apart
    refine ⟨sameLive, ?_⟩
    rw [tracks.layout.toRepresents.dataOf content]
    exact stepped.kept.tracks.layout.toRepresents.dataOf (sameContent.trans content)
  · rintro rmem newsize rfl live
    exact tracks.reallocKeeps live small

theorem boot_tracks {content : ℕ → BitVec 8} {beginAddr endAddr : ℕ}
    (init : rtSystemHeapInit content beginAddr endAddr = some heap) :
    Tracks (HeapRun.boot heap) [.free heap.heapEnd] :=
  ⟨(rtSystemHeapInit_layout init).1, fun _ => rfl⟩

/-- In every run the heap stays well formed, and every call leaves the blocks of the other callers
alone. -/
theorem heap_wellFormed (content : ℕ → BitVec 8) (beginAddr endAddr : ℕ) {heap : Heap}
    (init : rtSystemHeapInit content beginAddr endAddr = some heap) (events : List HeapEvent)
    (small : ∀ event ∈ events, event.Small) :
    Run.Always HeapRun.step HeapRun.WellFormed (.boot heap) events ∧
      Run.Along HeapRun.step HeapRun.Isolated (.boot heap) events := by
  let inv (run : HeapRun) : Prop := ∃ blocks, Tracks run blocks ∧ Roomy run blocks
  have start : inv (.boot heap) := ⟨_, boot_tracks init, fun _ _ _ live => by cases live⟩
  have keeps (run : HeapRun) (event : HeapEvent) (holds : inv run) (fits : event.Small) : inv (run.step event) := by
    obtain ⟨blocks, tracks, roomy⟩ := holds
    obtain ⟨others, stepped⟩ := tracks.step event
    exact ⟨others, stepped.kept.tracks, stepped.kept.roomy fits roomy⟩
  have along := @Run.along_of_forall _ _ HeapRun.step _ (HeapRun.boot heap) _ small
  constructor
  · refine along.always keeps (fun run holds => ?_) start
    obtain ⟨blocks, tracks, roomy⟩ := holds
    exact tracks.wellFormed roomy
  · refine along.along keeps (fun run event holds fits => ?_) start
    obtain ⟨blocks, tracks, _⟩ := holds
    exact tracks.isolated fits

/-- The theorem at work on 96 bytes: two blocks, one of them released. -/
theorem heap_wellFormed_twoBlocks :
    Run.Always HeapRun.step HeapRun.WellFormed (.boot ((rtSystemHeapInit (fun _ => 0) 4 100).get rfl))
        [.malloc 20, .malloc 8, .free (some 16)] ∧
      Run.Along HeapRun.step HeapRun.Isolated (.boot ((rtSystemHeapInit (fun _ => 0) 4 100).get rfl))
        [.malloc 20, .malloc 8, .free (some 16)] :=
  heap_wellFormed (fun _ => 0) 4 100 (Option.some_get _).symm _ (by simp [HeapEvent.Small])

end RtThread
