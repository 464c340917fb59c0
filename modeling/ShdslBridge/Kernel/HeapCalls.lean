import ShdslBridge.Kernel.HeapLayout

/-! # What the heap calls do to the blocks

Each call of the allocator is described once, as a change of the list of blocks that the heap
represents. A call keeps the content of every used block except its argument, and leaves no two
free neighbours.
-/

namespace RtThread

open LittleEndian Memory

/-! ## Free neighbours -/

theorem Apart.left {left right : List Block} (apart : Apart (left ++ right)) : Apart left :=
  List.IsChain.left_of_append apart

theorem apart_cons {block : Block} {rest : List Block} :
    Apart (block :: rest) ↔
      (∀ behind ∈ rest.head?, block.flag = 0 → behind.flag ≠ 0) ∧ Apart rest :=
  List.isChain_cons

theorem apart_split {left right : List Block} {block : Block} :
    Apart (left ++ block :: right) ↔ Apart (left ++ [block]) ∧ Apart (block :: right) :=
  List.isChain_split

/-- `Apart` looks at the flags only. -/
theorem apart_congr {blocks others : List Block} (same : blocks.map Block.flag = others.map Block.flag) :
    Apart blocks ↔ Apart others := by
  have flags (list : List Block) :
      Apart list ↔ (list.map Block.flag).IsChain fun flag behind => flag = 0 → behind ≠ 0 := by
    rw [List.isChain_map]
    rfl
  rw [flags, flags, same]

theorem apart_free (left right : List Block) (span other : ℕ) :
    Apart (left ++ .free span :: right) ↔ Apart (left ++ .free other :: right) :=
  apart_congr (by simp)

theorem apart_used {left right : List Block} {content : List (BitVec 8)} :
    Apart (left ++ .used content :: right) ↔ Apart left ∧ Apart right := by
  rw [apart_split]
  constructor
  · rintro ⟨front, behind⟩
    exact ⟨front.left, (apart_cons.mp behind).2⟩
  · rintro ⟨front, behind⟩
    refine ⟨List.IsChain.append front (List.isChain_singleton _) ?_, apart_cons.mpr ⟨by simp, behind⟩⟩
    intro block _ last member
    simp only [List.head?_cons, Option.mem_some_iff] at member
    simp [← member]

/-- What closing a hole keeps. -/
structure Plugs (heap other : Heap) (blocks others : List Block) : Prop where
  represents : Represents other others
  content : ∀ rmem, contentAt 0 others rmem = contentAt 0 blocks rmem
  lowest : Lowest heap blocks → Lowest other others
  heapPtr : other.heapPtr = heap.heapPtr
  memSizeAligned : other.memSizeAligned = heap.memSizeAligned

variable {heap : Heap} {span : ℕ}

theorem Plugs.refl {blocks : List Block} (inv : Represents heap blocks) :
    Plugs heap heap blocks blocks :=
  ⟨inv, fun _ => rfl, id, rfl, rfl⟩

theorem Plugs.trans {heap middle other : Heap} {blocks between others : List Block}
    (first : Plugs heap middle blocks between) (second : Plugs middle other between others) :
    Plugs heap other blocks others :=
  ⟨second.represents, fun rmem => (second.content rmem).trans (first.content rmem),
    fun lowest => second.lowest (first.lowest lowest), second.heapPtr.trans first.heapPtr,
    second.memSizeAligned.trans first.memSizeAligned⟩

theorem Represents.combine_plugs {left right : List Block} {span more : ℕ}
    (inv : Represents heap (left ++ .free span :: .free more :: right)) :
    Plugs heap (heap.combine (extent left) (extent left + span)) (left ++ .free span :: .free more :: right)
      (left ++ .free (span + more) :: right) := by
  have ⟨_, chainRight⟩ := (chain_append heap 0 0 left _).mp inv.chain
  have target : heap.next (extent left + span) = extent left + span + more := by
    rw [Nat.zero_add] at chainRight
    exact chainRight.2.1.next
  have wide : 16 ≤ span := chainRight.1.wide
  have equal := heap.combine_eq (Nat.add_le_add_left wide _) target
  refine ⟨inv.combine, contentAt_join 0 left right span more, ?_, by rw [equal]; rfl, by rw [equal]; rfl⟩
  intro lowest mem member
  have kept : mem ∈ freeOffsets 0 (left ++ .free span :: .free more :: right) := by
    simp only [freeOffsets_append, freeOffsets, Nat.zero_add, List.mem_append, List.mem_cons] at member ⊢
    rw [← Nat.add_assoc] at member
    rcases member with inLeft | here | inRight
    · exact .inl inLeft
    · exact .inr (.inl here)
    · exact .inr (.inr (.inr inRight))
  have first := lowest (extent left) (mem_freeOffsets.mpr ⟨left, span, _, rfl, by simp⟩)
  rw [equal]
  show (if heap.lfree = extent left + span then extent left else heap.lfree) ≤ mem
  rw [if_neg (by omega)]
  exact lowest mem kept

theorem plugForward_idle {left right : List Block} (inv : Represents heap (left ++ .free span :: right))
    (busy : ∀ block ∈ right.head?, block.flag = 1) : plugForward heap (extent left) = heap := by
  have ⟨_, stored, tail⟩ := (chain_append heap 0 0 left _).mp inv.chain
  have total := inv.total
  rw [Nat.zero_add] at stored tail
  have next : heap.next (extent left) = extent left + span := stored.next
  rw [plugForward, next]
  cases right with
  | nil =>
    have atEnd : extent left + span = heap.heapEnd := by simpa using total
    rw [if_neg (by omega)]
  | cons block rest =>
    have taken : heap.used (extent left + span) = 1 := tail.1.used.trans (busy block rfl)
    rw [if_neg (by omega)]

theorem plugForward_free {left right : List Block} {span more : ℕ}
    (inv : Represents heap (left ++ .free span :: .free more :: right)) :
    plugForward heap (extent left) = heap.combine (extent left) (extent left + span) := by
  have ⟨_, stored, behind, _⟩ := (chain_append heap 0 0 left _).mp inv.chain
  rw [Nat.zero_add] at stored behind
  have next : heap.next (extent left) = extent left + span := stored.next
  have unused : heap.used (extent left + span) = 0 := behind.used
  have wide : 16 ≤ span := stored.wide
  have wideBehind : 16 ≤ more := behind.wide
  have total : extent left + (span + (more + extent right)) = heap.heapEnd := by simpa using inv.total
  rw [plugForward, next, if_pos (by omega)]

theorem plugBackward_idle {left right : List Block} (inv : Represents heap (left ++ .free span :: right))
    (busy : ∀ block ∈ left.getLast?, block.flag = 1) : plugBackward heap (extent left) = heap := by
  obtain ⟨front, stored, -⟩ := (chain_append heap 0 0 left _).mp inv.chain
  rw [Nat.zero_add] at stored
  have back : heap.prev (extent left) = lastOffset 0 0 left := stored.prev
  rw [plugBackward, back]
  rcases List.eq_nil_or_concat' left with rfl | ⟨before, block, rfl⟩
  · rw [if_neg (by simp [lastOffset])]
  · obtain ⟨-, last, -⟩ := (chain_append heap 0 0 before _).mp front
    rw [Nat.zero_add] at last
    have taken : heap.used (extent before) = 1 := last.used.trans (busy block (by simp))
    rw [lastOffset_concat, Nat.zero_add, if_neg (by omega)]

theorem plugBackward_free {left right : List Block} {span more : ℕ}
    (inv : Represents heap (left ++ .free span :: .free more :: right)) :
    plugBackward heap (extent left + span) = heap.combine (extent left) (extent left + span) := by
  have ⟨_, stored, behind, _⟩ := (chain_append heap 0 0 left _).mp inv.chain
  rw [Nat.zero_add] at stored behind
  have back : heap.prev (extent left + span) = extent left := behind.prev
  have unused : heap.used (extent left) = 0 := stored.used
  have wide : 16 ≤ span := stored.wide
  rw [plugBackward, back, if_pos (by omega)]

theorem plugForward_plugs {left right : List Block} (inv : Represents heap (left ++ .free span :: right))
    (apart : Apart right) :
    ∃ wider rest, Plugs heap (plugForward heap (extent left)) (left ++ .free span :: right)
      (left ++ .free wider :: rest) ∧ Apart (.free wider :: rest) := by
  cases right with
  | nil =>
    rw [plugForward_idle inv (by simp)]
    exact ⟨span, [], Plugs.refl inv, List.isChain_singleton _⟩
  | cons block rest =>
    cases block with
    | used content =>
      rw [plugForward_idle inv (by simp)]
      exact ⟨span, _, Plugs.refl inv, apart_cons.mpr ⟨by simp, apart⟩⟩
    | free more =>
      rw [plugForward_free inv]
      exact ⟨span + more, rest, inv.combine_plugs, (apart_free [] rest more (span + more)).mp apart⟩

/-- The hole is swallowed by the block in front of it if that is free. -/
theorem plugBackward_plugs {left right : List Block} (inv : Represents heap (left ++ .free span :: right))
    (apartLeft : Apart left) (apartRight : Apart (.free span :: right)) :
    ∃ others, Plugs heap (plugBackward heap (extent left)) (left ++ .free span :: right) others ∧
      Apart others := by
  rcases List.eq_nil_or_concat' left with rfl | ⟨front, block, rfl⟩
  · rw [plugBackward_idle inv (by simp)]
    exact ⟨_, Plugs.refl inv, apartRight⟩
  · cases block with
    | used content =>
      rw [plugBackward_idle inv (by simp)]
      refine ⟨_, Plugs.refl inv, ?_⟩
      rw [List.append_assoc]
      exact apart_used.mpr ⟨apartLeft.left, apartRight⟩
    | free first =>
      rw [List.append_assoc] at inv ⊢
      rw [extent_append, extent_cons, extent_nil, Block.span, Nat.add_zero, plugBackward_free inv]
      refine ⟨_, inv.combine_plugs, apart_split.mpr ⟨?_, ?_⟩⟩
      · exact (apart_free front [] first (first + span)).mp apartLeft
      · exact (apart_free [] right span (first + span)).mp apartRight

/-- `plug_holes` behind a block that has become free. -/
theorem plugHoles_plugs {left right : List Block} (inv : Represents heap (left ++ .free span :: right))
    (apartLeft : Apart left) (apartRight : Apart right) :
    ∃ others, Plugs heap (plugHoles heap (extent left)) (left ++ .free span :: right) others ∧ Apart others := by
  obtain ⟨wider, rest, forward, apart⟩ := plugForward_plugs inv apartRight
  obtain ⟨others, backward, apartAll⟩ := plugBackward_plugs forward.represents apartLeft apart
  exact ⟨others, forward.trans backward, apartAll⟩

/-! ## Cutting a block -/

theorem word32_of_lt {number : ℕ} (fits : number < 2 ^ 32) : word32 number = number :=
  Nat.mod_eq_of_lt fits

theorem sub32_of_le {left right : ℕ} (le : right ≤ left) (fits : left < 2 ^ 32) :
    sub32 left right = left - right := by
  rw [sub32, word32, show left + 2 ^ 32 - right = left - right + 2 ^ 32 by omega, Nat.add_mod_right,
    Nat.mod_eq_of_lt (by omega)]

/-- `insertBlock` stores headers only. -/
theorem insertBlock_fields (heap : Heap) (mem mem2 : ℕ) :
    heap.insertBlock mem mem2 = { heap with bytes := (heap.insertBlock mem mem2).bytes } := by
  rw [Heap.insertBlock]
  split <;> rfl

/-- A block of `span + rest` bytes has been cut behind `span` bytes. -/
structure Cut (heap other : Heap) (mem span rest : ℕ) (right : List Block) : Prop where
  next : other.next mem = mem + span
  tail : Chain other mem (mem + span) (.free rest :: right)
  kept : ∀ i, i < mem + 4 ∨ mem + 8 ≤ i → i < mem + span ∨ mem + span + rest ≤ i →
    i < mem + span + rest + 8 ∨ mem + span + rest + 12 ≤ i → other.bytes i = heap.bytes i

theorem insertBlock_cut {mem span rest : ℕ} {right : List Block} (next : heap.next mem = mem + span + rest)
    (tail : Chain heap mem (mem + span + rest) right) (total : mem + span + rest + extent right = heap.heapEnd)
    (size : heap.heapEnd = heap.memSizeAligned + sizeofStructMem) (bound : heap.heapEnd < 2 ^ 32) (wide : 16 ≤ span)
    (wideRest : 16 ≤ rest) (aligned : 8 ∣ rest) : Cut heap (heap.insertBlock mem (mem + span)) mem span rest right := by
  generalize made : (((heap.setUsed (mem + span) 0).setNext (mem + span) (mem + span + rest)).setPrev
    (mem + span) mem).setNext mem (mem + span) = linked
  have sameNext : (heap.setUsed (mem + span) 0).next mem = mem + span + rest :=
    (Heap.load_store_outside _ _ _ _ (by omega)).trans next
  have newNext : linked.next (mem + span) = mem + span + rest := by
    rw [← made]
    refine (Heap.load_store_outside _ _ _ _ (by omega)).trans ?_
    refine (Heap.load_store_outside _ _ _ _ (by omega)).trans ?_
    exact Heap.load_store _ _ _ _ (by omega)
  have newUsed : linked.used (mem + span) = 0 := by
    rw [← made]
    refine (Heap.load_store_outside _ _ _ _ (by omega)).trans ?_
    refine (Heap.load_store_outside _ _ _ _ (by omega)).trans ?_
    refine (Heap.load_store_outside _ _ _ _ (by omega)).trans ?_
    exact Heap.load_store _ _ _ _ (by omega)
  have newPrev : linked.prev (mem + span) = mem := by
    rw [← made]
    refine (Heap.load_store_outside _ _ _ _ (by omega)).trans ?_
    exact Heap.load_store _ _ _ _ (by omega)
  have oldNext : linked.next mem = mem + span := by
    rw [← made]
    exact Heap.load_store _ _ _ _ (by omega)
  have kept (i : ℕ) (low : i < mem + 4 ∨ mem + 8 ≤ i) (high : i < mem + span ∨ mem + span + rest ≤ i) :
      linked.bytes i = heap.bytes i := by
    rw [← made]
    refine (Heap.store_outside _ _ _ _ low).trans ?_
    refine (Heap.store_outside _ _ _ _ (by omega)).trans ?_
    refine (Heap.store_outside _ _ _ _ (by omega)).trans ?_
    exact Heap.store_outside _ _ _ _ (by omega)
  have unfolded : heap.insertBlock mem (mem + span) =
      if mem + span + rest ≠ heap.heapEnd then linked.setPrev (mem + span + rest) (mem + span) else linked := by
    have sameEnd : word32 (linked.memSizeAligned + sizeofStructMem) = heap.heapEnd := by
      rw [size, ← made]
      exact word32_of_lt (size ▸ bound)
    rw [Heap.insertBlock]
    simp only [sameNext, made, newNext, sameEnd]
  have free : (Block.free rest).Stored linked mem (mem + span) :=
    ⟨newUsed, newNext, newPrev, wideRest, aligned, by simp⟩
  have tailKept : Chain linked mem (mem + span + rest) right :=
    tail.congr fun i above _ => kept i (by omega) (.inr above)
  rw [unfolded]
  split
  next inside =>
    refine ⟨(Heap.load_store_outside _ _ _ _ (by omega)).trans oldNext, ⟨?_, tailKept.relink (by omega)⟩, ?_⟩
    · exact free.congr fun i _ below => Heap.store_outside _ _ _ _ (by simp only [Block.span] at below; omega)
    · intro i low high far
      exact (Heap.store_outside _ _ _ _ far).trans (kept i low high)
  next atEnd =>
    have last : right = [] := by
      rcases tail.extent_cases with nil | wideTail
      · exact nil
      · simp only [sizeofStructMem] at wideTail
        omega
    refine ⟨oldNext, ⟨free, ?_⟩, fun i low high _ => kept i low high⟩
    rw [last]
    trivial

/-! ## A block changes hands -/

/-- The `used` and `magic` fields of one block are set, for a block whose links are in place. -/
theorem Chain.retag {left rest : List Block} {magic : ℕ} {block : Block} (chainLeft : Chain heap 0 0 left)
    (tail : Chain heap (extent left) (extent left + block.span) rest)
    (next : heap.next (extent left) = extent left + block.span) (prev : heap.prev (extent left) = lastOffset 0 0 left)
    (wide : 16 ≤ block.span) (aligned : 8 ∣ block.span)
    (content : ∀ content, block = .used content → magic = heapMagic ∧ readAt heap.bytes (extent left + sizeofStructMem) content.length = content)
    :
    Chain ((heap.setUsed (extent left) block.flag).setMagic (extent left) magic) 0 0 (left ++ block :: rest) := by
  have kept (i : ℕ) (outside : i < extent left ∨ extent left + 4 ≤ i) :
      ((heap.setUsed (extent left) block.flag).setMagic (extent left) magic).bytes i = heap.bytes i :=
    (Heap.store_outside _ _ _ _ (by omega)).trans (Heap.store_outside _ _ _ _ (by omega))
  have bit : block.flag < 2 := by cases block <;> simp
  rw [chain_append, Nat.zero_add]
  refine ⟨chainLeft.congr fun i _ below => kept i (by omega), ⟨?_, ?_, ?_, wide, aligned, ?_⟩,
    tail.congr fun i above _ => kept i (by omega)⟩
  · exact (Heap.load_store_outside _ _ _ _ (by omega)).trans (Heap.load_store _ _ _ _ (by omega))
  · exact (Heap.load_congr fun i above _ => kept i (by omega)).trans next
  · exact (Heap.load_congr fun i above _ => kept i (by omega)).trans prev
  · intro bytes isUsed
    obtain ⟨rfl, read⟩ := content bytes isUsed
    refine ⟨Heap.load_store _ _ _ _ (by decide), Eq.trans (readAt_congr fun i _ => kept _ ?_) read⟩
    simp only [sizeofStructMem]
    omega

/-- `takeBlock` leaves the bounds of the heap and `lfree`. -/
theorem takeBlock_fields (heap : Heap) (mem size : ℕ) :
    ∃ bytes usedMem maxMem, takeBlock heap mem size = { heap with bytes, usedMem, maxMem } := by
  rw [takeBlock]
  split
  next => rw [insertBlock_fields]; exact ⟨_, _, _, rfl⟩
  next => exact ⟨_, _, _, rfl⟩

theorem addUsed_bytes (heap : Heap) (amount : ℕ) : (heap.addUsed amount).bytes = heap.bytes := rfl

/-- The accounts of `rt_malloc` stay below the end of the heap. -/
theorem addUsed_usedMem {amount : ℕ} (fits : heap.usedMem + amount < 2 ^ 32) :
    (heap.addUsed amount).usedMem = heap.usedMem + amount :=
  word32_of_lt fits

/-- What the search has found, in numbers. -/
structure Found (heap : Heap) (left right : List Block) (span : ℕ) : Prop where
  stored : (Block.free span).Stored heap (lastOffset 0 0 left) (extent left)
  front : Chain heap 0 0 left
  tail : Chain heap (extent left) (extent left + span) right
  wide : 16 ≤ span
  total : extent left + span + extent right = heap.heapEnd
  behind : extent right = 0 ∨ 16 ≤ extent right
  bound : heap.heapEnd + 16 ≤ 2 ^ 32
  account : heap.usedMem = usedSpan left + usedSpan right
  room : heap.usedMem + span ≤ heap.heapEnd
  data : sub32 (heap.next (extent left)) (extent left + sizeofStructMem) = span - 16
  whole : sub32 (heap.next (extent left)) (extent left) = span

theorem Represents.found {left right : List Block} (inv : Represents heap (left ++ .free span :: right)) :
    Found heap left right span := by
  have ⟨chainLeft, stored, tail⟩ := (chain_append heap 0 0 left _).mp inv.chain
  rw [Nat.zero_add] at stored tail
  have next : heap.next (extent left) = extent left + span := stored.next
  have wide : 16 ≤ span := stored.wide
  have total : extent left + span + extent right = heap.heapEnd := by simpa [Nat.add_assoc] using inv.total
  have bound : heap.heapPtr + heap.heapEnd + 16 ≤ 2 ^ 32 := inv.bound
  have account : heap.usedMem = usedSpan left + usedSpan right := by
    simpa [usedSpan_append, usedSpan] using inv.usedMem
  have usedLeft := usedSpan_le_extent left
  have usedRight := usedSpan_le_extent right
  have behind : extent right = 0 ∨ 16 ≤ extent right :=
    tail.extent_cases.imp_left fun nil => by rw [nil]; rfl
  refine ⟨stored, chainLeft, tail, wide, total, behind, by omega, account, by omega, ?_, ?_⟩
  · rw [next, sub32_of_le (by simp only [sizeofStructMem]; omega) (by omega), sizeofStructMem]
    omega
  · rw [next, sub32_of_le (by omega) (by omega)]
    omega

/-- The found block is cut, and its first part becomes a used block. -/
theorem takeBlock_split {left right : List Block} {span size rest : ℕ}
    (inv : Represents heap (left ++ .free span :: right)) (large : 32 ≤ rest) (aligned : 8 ∣ size)
    (exact_ : 16 + size + rest = span) :
    ∃ content, content.length = size ∧ ∀ lfree,
      lfree ∈ freeOffsets 0 (left ++ .used content :: .free rest :: right) ∨ lfree = heap.heapEnd →
        Represents { takeBlock heap (extent left) size with lfree }
          (left ++ .used content :: .free rest :: right) := by
  have found := inv.found
  have ⟨stored, chainLeft, tail, _, total, behind, bound, account, room, data, _⟩ := found
  have alignedRest : 8 ∣ rest := by
    have whole : 8 ∣ span := stored.aligned
    omega
  have cut : Cut heap (heap.insertBlock (extent left) (extent left + (16 + size))) (extent left) (16 + size)
      rest right := by
    have sum : extent left + (16 + size) + rest = extent left + span := by omega
    refine insertBlock_cut ?_ ?_ (by omega) inv.size (by omega) (by omega) (by omega) alignedRest
    · rw [sum]
      exact stored.next
    · rwa [sum]
  generalize made : heap.insertBlock (extent left) (extent left + (16 + size)) = linked at cut
  have sameUsed : linked.usedMem = heap.usedMem := by rw [← made, insertBlock_fields]
  have sameEnd : linked.heapEnd = heap.heapEnd := by rw [← made, insertBlock_fields]
  have sameSize : linked.memSizeAligned = heap.memSizeAligned := by rw [← made, insertBlock_fields]
  have samePtr : linked.heapPtr = heap.heapPtr := by rw [← made, insertBlock_fields]
  have unfolded : takeBlock heap (extent left) size =
      ((linked.setUsed (extent left) 1).addUsed (size + 16)).setMagic (extent left) heapMagic := by
    rw [takeBlock, data, if_pos (by simp only [sizeofStructMem, minSizeAligned]; omega), ← made, Nat.add_assoc]
    rfl
  have chain : Chain ((linked.setUsed (extent left) 1).setMagic (extent left) heapMagic) 0 0
      (left ++ .used (readAt linked.bytes (extent left + 16) size) :: .free rest :: right) := by
    refine @Chain.retag _ _ _ _ (.used _) ?_ ?_ ?_ ?_ ?_ ?_ ?_
    · exact chainLeft.congr fun i _ below => cut.kept i (by omega) (by omega) (by omega)
    · simpa [sizeofStructMem] using cut.tail
    · simpa [sizeofStructMem] using cut.next
    · exact (Heap.load_congr fun i above below => cut.kept i (by omega) (by omega) (by omega)).trans stored.prev
    · simp [sizeofStructMem]
    · simp only [Block.span, sizeofStructMem, readAt_length]
      omega
    · rintro content same
      cases same
      exact ⟨rfl, by simp [sizeofStructMem]⟩
  have accounts : (takeBlock heap (extent left) size).usedMem = heap.usedMem + (size + 16) := by
    rw [unfolded, Heap.setMagic, Heap.store_usedMem, Heap.setUsed, addUsed_usedMem] <;>
      rw [Heap.store_usedMem, sameUsed]
    omega
  obtain ⟨bytes, usedMem, maxMem, equal⟩ := takeBlock_fields heap (extent left) size
  have sameBytes : bytes = ((linked.setUsed (extent left) 1).setMagic (extent left) heapMagic).bytes := by
    have both := congrArg Heap.bytes (equal.symm.trans unfolded)
    simpa only [Heap.setMagic, Heap.setUsed, Heap.store_bytes, addUsed_bytes] using both
  rw [equal] at accounts ⊢
  refine ⟨_, readAt_length linked.bytes (extent left + 16) size, fun lfree free => ?_⟩
  refine inv.edit (chain.congr fun i _ _ => congrFun sameBytes i) ?_ ?_ free ?_
  · simp [sizeofStructMem]
    omega
  · intro i above _
    rw [sameBytes]
    refine (Heap.store_outside _ _ _ _ (by omega)).trans ?_
    refine (Heap.store_outside _ _ _ _ (by omega)).trans ?_
    exact cut.kept i (by omega) (by omega) (by omega)
  · rw [accounts, account]
    simp only [usedSpan_append, usedSpan, readAt_length, sizeofStructMem]
    omega

theorem takeBlock_whole {left right : List Block} {span size : ℕ} (inv : Represents heap (left ++ .free span :: right))
    (small : span < 16 + size + 32) :
    ∃ content, content.length + 16 = span ∧ ∀ lfree,
      lfree ∈ freeOffsets 0 (left ++ .used content :: right) ∨ lfree = heap.heapEnd →
        Represents { takeBlock heap (extent left) size with lfree } (left ++ .used content :: right) := by
  have found := inv.found
  have ⟨stored, chainLeft, tail, wide, total, behind, bound, account, room, data, whole⟩ := found
  have unfolded : takeBlock heap (extent left) size =
      ((heap.setUsed (extent left) 1).addUsed span).setMagic (extent left) heapMagic := by
    rw [takeBlock, data, if_neg (by simp only [sizeofStructMem, minSizeAligned]; omega), whole]
  have sum : 16 + (span - 16) = span := by omega
  have chain : Chain ((heap.setUsed (extent left) 1).setMagic (extent left) heapMagic) 0 0
      (left ++ .used (readAt heap.bytes (extent left + 16) (span - 16)) :: right) := by
    refine @Chain.retag _ _ _ _ (.used _) chainLeft ?_ ?_ stored.prev ?_ ?_ ?_
    · simpa only [Block.span, readAt_length, sizeofStructMem, sum] using tail
    · simpa only [Block.span, readAt_length, sizeofStructMem, sum] using stored.next
    · simp [sizeofStructMem]
    · simpa only [Block.span, readAt_length, sizeofStructMem, sum] using stored.aligned
    · rintro content same
      cases same
      exact ⟨rfl, by simp [sizeofStructMem]⟩
  have accounts : (takeBlock heap (extent left) size).usedMem = heap.usedMem + span := by
    rw [unfolded, Heap.setMagic, Heap.store_usedMem, Heap.setUsed, addUsed_usedMem] <;>
      rw [Heap.store_usedMem]
    omega
  obtain ⟨bytes, usedMem, maxMem, equal⟩ := takeBlock_fields heap (extent left) size
  have sameBytes : bytes = ((heap.setUsed (extent left) 1).setMagic (extent left) heapMagic).bytes := by
    have both := congrArg Heap.bytes (equal.symm.trans unfolded)
    simpa only [Heap.setMagic, Heap.setUsed, Heap.store_bytes, addUsed_bytes] using both
  rw [equal] at accounts ⊢
  refine ⟨readAt heap.bytes (extent left + 16) (span - 16), ?_, fun lfree free => ?_⟩
  · rw [readAt_length, Nat.add_comm]
    exact sum
  refine inv.edit (chain.congr fun i _ _ => congrFun sameBytes i) ?_ ?_ free ?_
  · simp [sizeofStructMem, sum]
  · intro i above _
    rw [sameBytes]
    refine (Heap.store_outside _ _ _ _ (by omega)).trans ?_
    exact Heap.store_outside _ _ _ _ (by omega)
  · rw [accounts, account]
    simp only [usedSpan_append, usedSpan, readAt_length, sizeofStructMem, sum]
    omega

/-! ## The search -/

/-- What the search returns: a block that fits, in front of the bound, or nothing, and then every
block that fits starts at or behind the bound. -/
def FitResult (off size bound : ℕ) (blocks : List Block) : Option ℕ → Prop
  | some mem => ∃ left span right, blocks = left ++ .free span :: right ∧ mem = off + extent left ∧
      size + sizeofStructMem ≤ span ∧ mem < bound
  | none => ∀ left span right, blocks = left ++ .free span :: right → size + sizeofStructMem ≤ span →
      bound ≤ off + extent left

theorem FitResult.skip {off size bound : ℕ} {block : Block} {rest : List Block} {result : Option ℕ}
    (later : FitResult (off + block.span) size bound rest result)
    (unfit : ∀ span, block = .free span → span < size + sizeofStructMem) :
    FitResult off size bound (block :: rest) result := by
  cases result with
  | some mem =>
    obtain ⟨left, span, right, rfl, rfl, fit, inside⟩ := later
    exact ⟨block :: left, span, right, rfl, by simp [Nat.add_assoc], fit, inside⟩
  | none =>
    intro left span right split fit
    cases left with
    | nil =>
      have short := unfit span (List.cons.inj split).1
      omega
    | cons head front =>
      obtain ⟨rfl, rfl⟩ := List.cons.inj split
      simpa [Nat.add_assoc] using later front span right rfl fit

/-- The loop of `rt_malloc` on the blocks from an offset on. -/
theorem findFit_result {prev off size fuel : ℕ} {blocks : List Block} {result : Option ℕ}
    (chain : Chain heap prev off blocks) (total : off + extent blocks = heap.heapEnd) (bound : heap.heapEnd < 2 ^ 32)
    (endUsed : heap.used heap.heapEnd = 1) (endNext : heap.next heap.heapEnd = heap.heapEnd)
    (found : findFit heap size fuel off = some result) :
    FitResult off size (sub32 heap.memSizeAligned size) blocks result := by
  induction fuel generalizing prev off blocks with
  | zero => simp [findFit] at found
  | succ fuel ih =>
    rw [findFit] at found
    split at found
    next inside =>
      cases blocks with
      | nil =>
        have atEnd : off = heap.heapEnd := by simpa using total
        rw [atEnd, endUsed, if_neg (by omega), endNext] at found
        exact @ih off off [] (chain_nil heap off off) total (atEnd ▸ found)
      | cons block rest =>
        obtain ⟨stored, tail⟩ := chain
        have wide : 16 ≤ block.span := stored.wide
        rw [extent_cons] at total
        have data : sub32 (heap.next off) (off + sizeofStructMem) = block.span - 16 := by
          rw [stored.next, sizeofStructMem, sub32_of_le (by omega) (by omega)]
          omega
        rw [data, stored.used] at found
        cases block with
        | used content =>
          rw [if_neg (by simp), stored.next] at found
          exact (ih tail (by omega) found).skip (by simp)
        | free span =>
          simp only [Block.span, Block.flag, true_and] at found wide
          split at found
          next fit =>
            cases found
            exact ⟨[], span, rest, rfl, rfl, by simp only [sizeofStructMem]; omega, inside⟩
          next unfit =>
            rw [stored.next] at found
            refine (ih tail (by omega) found).skip fun other same => ?_
            cases same
            simp only [sizeofStructMem]
            omega
    next outside =>
      cases found
      intro left span right _ _
      omega

/-- With enough fuel the loop ends at the bound, which lies in front of the end of the heap. -/
theorem findFit_isSome {prev off size fuel : ℕ} {blocks : List Block} (chain : Chain heap prev off blocks)
    (total : off + extent blocks = heap.heapEnd) (bound : sub32 heap.memSizeAligned size ≤ heap.heapEnd)
    (enough : blocks.length < fuel) : (findFit heap size fuel off).isSome := by
  induction fuel generalizing prev off blocks with
  | zero => omega
  | succ fuel ih =>
    rw [findFit]
    split
    next inside =>
      cases blocks with
      | nil =>
        rw [extent_nil] at total
        omega
      | cons block rest =>
        obtain ⟨stored, tail⟩ := chain
        rw [extent_cons] at total
        rw [List.length_cons] at enough
        split
        next => rfl
        next =>
          rw [stored.next]
          exact ih tail (by omega) (by omega)
    next => rfl

/-- The loop that advances `lfree` stops at the first free block, or at the end of the heap. -/
theorem nextFree_eq {prev off fuel : ℕ} {blocks : List Block} (chain : Chain heap prev off blocks)
    (total : off + extent blocks = heap.heapEnd) (enough : blocks.length < fuel) :
    nextFree heap fuel off = some ((freeOffsets off blocks).headD heap.heapEnd) := by
  induction fuel generalizing prev off blocks with
  | zero => omega
  | succ fuel ih =>
    rw [nextFree]
    cases blocks with
    | nil =>
      have atEnd : off = heap.heapEnd := by simpa using total
      rw [if_neg (by omega), atEnd]
      rfl
    | cons block rest =>
      obtain ⟨stored, tail⟩ := chain
      have wide : 16 ≤ block.span := stored.wide
      rw [extent_cons] at total
      rw [List.length_cons] at enough
      rw [stored.used]
      cases block with
      | free span =>
        rw [if_neg (by simp)]
        rfl
      | used content =>
        rw [if_pos ⟨by simp, by omega⟩, stored.next, ih tail (by omega) (by omega)]
        rw [freeOffsets, Block.span, Nat.add_assoc]

theorem Chain.length_le {prev off : ℕ} {blocks : List Block} (chain : Chain heap prev off blocks) :
    blocks.length ≤ extent blocks := by
  induction blocks generalizing prev off with
  | nil => rfl
  | cons block rest ih =>
    have wide : 16 ≤ block.span := chain.1.wide
    have later := ih chain.2
    rw [List.length_cons, extent_cons]
    omega

/-! ## `rt_malloc` -/

/-- What stands in the place of a found block of `span` bytes: a used block of `len` bytes, and a
free rest if there is one. -/
inductive Rest (size span : ℕ) (right : List Block) : ℕ → List Block → Prop
  | split (rest : ℕ) (exact_ : 16 + size + rest = span) : Rest size span right size (.free rest :: right)
  | whole (len : ℕ) (fit : size ≤ len) (exact_ : len + 16 = span) : Rest size span right len right

namespace Rest

variable {size span len : ℕ} {right rest : List Block}

theorem fit (cut : Rest size span right len rest) : size ≤ len := by
  cases cut with
  | split rest exact_ => exact le_rfl
  | whole len fit exact_ => exact fit

theorem content (cut : Rest size span right len rest) (off : ℕ) (left : List Block) (rmem : ℕ) :
    contentAt off (left ++ .free (sizeofStructMem + len) :: rest) rmem =
      contentAt off (left ++ .free span :: right) rmem := by
  cases cut with
  | split rest exact_ => rw [← contentAt_join, sizeofStructMem, exact_]
  | whole len fit exact_ => rw [sizeofStructMem, Nat.add_comm, exact_]

theorem apart (cut : Rest size span right len rest) {left : List Block}
    (apart : Apart (left ++ .free span :: right)) {content : List (BitVec 8)} :
    Apart (left ++ .used content :: rest) := by
  have ⟨front, behind⟩ := apart_split.mp apart
  refine apart_used.mpr ⟨front.left, ?_⟩
  cases cut with
  | split rest exact_ => exact (apart_free [] right span rest).mp behind
  | whole len fit exact_ => exact (apart_cons.mp behind).2

/-- The free blocks behind the used one are those from before, and at most one more. -/
theorem mem_freeOffsets (cut : Rest size span right len rest) {off mem : ℕ}
    (member : mem ∈ freeOffsets (off + sizeofStructMem + len) rest) :
    off < mem ∧ (mem ∈ freeOffsets (off + span) right ∨ mem = off + sizeofStructMem + len) := by
  obtain ⟨left, other, behind, _, place⟩ := RtThread.mem_freeOffsets.mp member
  refine ⟨by rw [place, sizeofStructMem]; omega, ?_⟩
  cases cut with
  | split rest exact_ =>
    rw [freeOffsets, sizeofStructMem, Nat.add_assoc off, Nat.add_assoc off, exact_] at member
    rcases List.mem_cons.mp member with here | later
    · exact .inr (by rw [here, sizeofStructMem, Nat.add_assoc])
    · exact .inl later
  | whole len fit exact_ =>
    rw [sizeofStructMem, Nat.add_assoc, Nat.add_comm 16, exact_] at member
    exact .inl member

theorem freeOffsets_subset (cut : Rest size span right len rest) {off mem : ℕ}
    (member : mem ∈ freeOffsets (off + span) right) : mem ∈ freeOffsets (off + sizeofStructMem + len) rest := by
  cases cut with
  | split rest exact_ =>
    rw [freeOffsets, sizeofStructMem, Nat.add_assoc off, Nat.add_assoc off, exact_]
    exact List.mem_cons_of_mem _ member
  | whole len fit exact_ => rwa [sizeofStructMem, Nat.add_assoc, Nat.add_comm 16, exact_]

end Rest

theorem takeBlock_represents {heap : Heap} {left right : List Block} {span size : ℕ}
    (inv : Represents heap (left ++ .free span :: right)) (aligned : 8 ∣ size)
    (fit : size + sizeofStructMem ≤ span) :
    ∃ content rest, Rest size span right content.length rest ∧
      ∀ lfree, lfree ∈ freeOffsets 0 (left ++ .used content :: rest) ∨ lfree = heap.heapEnd →
        Represents { takeBlock heap (extent left) size with lfree } (left ++ .used content :: rest) := by
  rw [sizeofStructMem] at fit
  by_cases large : 16 + size + 32 ≤ span
  · obtain ⟨content, len, represents⟩ := takeBlock_split inv (show 32 ≤ span - 16 - size by omega) aligned (by omega)
    refine ⟨content, _, ?_, represents⟩
    rw [len]
    exact .split _ (by omega)
  · obtain ⟨content, len, represents⟩ := takeBlock_whole inv (show span < 16 + size + 32 by omega)
    exact ⟨content, right, .whole _ (by omega) len, represents⟩

/-- The invariant of the allocator. An empty used block never touches the end of the heap: its data
area would start at `heap_end`, and `rt_free` would not accept it. -/
structure Layout (heap : Heap) (blocks : List Block) : Prop extends Represents heap blocks where
  apart : Apart blocks
  inside : contentAt 0 blocks heap.heapEnd = none

/-- What a call has done: the heap behind it and the data areas that it holds. -/
structure Turns (heap other : Heap) (others : List Block) (content : ℕ → Option (List (BitVec 8))) : Prop where
  layout : Layout other others
  content : contentAt 0 others = content
  heapPtr : other.heapPtr = heap.heapPtr
  memSizeAligned : other.memSizeAligned = heap.memSizeAligned

variable {blocks : List Block}

/-- `lfree` cuts the list of blocks. -/
theorem Represents.lfree_split {heap : Heap} (inv : Represents heap blocks) :
    ∃ left right, blocks = left ++ right ∧ heap.lfree = extent left := by
  rcases inv.lfree with free | atEnd
  · obtain ⟨left, span, right, rfl, place⟩ := mem_freeOffsets.mp free
    exact ⟨left, _, rfl, by rw [place, Nat.zero_add]⟩
  · exact ⟨blocks, [], by simp, by rw [atEnd, inv.total]⟩

theorem headD_freeOffsets (off : ℕ) (blocks : List Block) (default : ℕ) :
    (freeOffsets off blocks).headD default ∈ freeOffsets off blocks ∨
      (freeOffsets off blocks).headD default = default := by
  cases freeOffsets off blocks with
  | nil => exact .inr rfl
  | cons first rest => exact .inl (List.mem_cons_self ..)

theorem headD_freeOffsets_le {off mem : ℕ} (default : ℕ) (member : mem ∈ freeOffsets off blocks) :
    (freeOffsets off blocks).headD default ≤ mem := by
  induction blocks generalizing off with
  | nil => simp [freeOffsets] at member
  | cons block rest ih =>
    cases block with
    | free span =>
      obtain ⟨left, _, _, _, rfl⟩ := mem_freeOffsets.mp member
      exact Nat.le_add_right off _
    | used content => exact ih member

theorem roundedSize_facts (size : ℕ) : 8 ∣ roundedSize size ∧ 16 ≤ roundedSize size := by
  rw [roundedSize, minSizeAligned]
  split
  next => exact ⟨by omega, le_rfl⟩
  next large => exact ⟨Nat.dvd_mul_left 8 _, by omega⟩

/-- From a block of the chain on, the loop that advances `lfree` finds the next free block. -/
theorem nextFree_behind {heap : Heap} {left right : List Block} (chain : Chain heap 0 0 (left ++ right))
    (total : extent (left ++ right) = heap.heapEnd) : nextFree heap (heap.heapEnd + 1) (extent left) =
      some ((freeOffsets (extent left) right).headD heap.heapEnd) := by
  have ⟨_, tail⟩ := (chain_append _ 0 0 left _).mp chain
  have long := tail.length_le
  rw [Nat.zero_add] at tail
  rw [extent_append] at total
  exact nextFree_eq tail total (by omega)

/-- A block changes hands, and `lfree` moves on if it pointed to that block. -/
theorem takeBlock_turns {heap other : Heap} {left right : List Block} {span size : ℕ}
    (inv : Layout heap (left ++ .free span :: right)) (aligned : 8 ∣ size) (nonempty : 0 < size)
    (fit : size + sizeofStructMem ≤ span)
    (call : advanceLfree (takeBlock heap (extent left) size) (extent left) = some other) :
    ∃ others data,
      Turns heap other others (Function.update (contentAt 0 (left ++ .free span :: right))
        (extent left + sizeofStructMem) (some data)) ∧
      size ≤ data.length ∧
      (Lowest heap (left ++ .free span :: right) → Lowest other others) := by
  obtain ⟨data, rest, cut, represents⟩ := takeBlock_represents inv.toRepresents aligned fit
  obtain ⟨bytes, usedMem, maxMem, equal⟩ := takeBlock_fields heap (extent left) size
  rw [equal] at call represents
  have wide : 16 ≤ span := by rw [sizeofStructMem] at fit; omega
  have content : contentAt 0 (left ++ .used data :: rest) =
      Function.update (contentAt 0 (left ++ .free span :: right)) (extent left + sizeofStructMem) (some data) := by
    funext rmem
    rw [contentAt_used, cut.content, Function.update_apply, Nat.zero_add]
  have inside (lfree : ℕ) (free : lfree ∈ freeOffsets 0 (left ++ .used data :: rest) ∨ lfree = heap.heapEnd) :
      contentAt 0 (left ++ .used data :: rest) heap.heapEnd = none := by
    have bounds := @contentAt_bounds _ 0 _ _ (contentAt_used 0 left rest data _ |>.trans (if_pos rfl))
    have total : extent (left ++ .used data :: rest) = heap.heapEnd := (represents lfree free).total
    have enough := cut.fit
    rw [content, Function.update_of_ne (by omega)]
    exact inv.inside
  have kept (mem : ℕ) (other : mem ≠ extent left) (member : mem ∈ freeOffsets 0 (left ++ .free span :: right)) :
      mem ∈ freeOffsets 0 (left ++ .used data :: rest) := by
    rw [freeOffsets_append, freeOffsets, Nat.zero_add, List.mem_append, List.mem_cons] at member
    rw [freeOffsets_append, freeOffsets, Nat.zero_add, List.mem_append]
    rcases member with front | here | behind
    · exact .inl front
    · exact absurd here other
    · exact .inr (cut.freeOffsets_subset behind)
  have old (mem : ℕ) (member : mem ∈ freeOffsets 0 left) : mem ∈ freeOffsets 0 (left ++ .free span :: right) := by
    rw [freeOffsets_append]
    exact List.mem_append_left _ member
  have here : extent left ∈ freeOffsets 0 (left ++ .free span :: right) :=
    mem_freeOffsets.mpr ⟨left, span, right, rfl, by rw [Nat.zero_add]⟩
  have origin (mem : ℕ) (member : mem ∈ freeOffsets 0 (left ++ .used data :: rest)) :
      mem ∈ freeOffsets 0 left ∨ extent left < mem ∧ mem ∈ freeOffsets (extent left) (.used data :: rest) := by
    rw [freeOffsets_append, Nat.zero_add, List.mem_append] at member
    exact member.imp_right fun behind => ⟨(cut.mem_freeOffsets behind).1, behind⟩
  refine ⟨left ++ .used data :: rest, data, ?_⟩
  rw [advanceLfree] at call
  split at call
  next same =>
    have first : extent left = heap.lfree := same
    have start := represents heap.heapEnd (.inr rfl)
    have moved : nextFree { heap with bytes, usedMem, maxMem } (heap.heapEnd + 1) heap.lfree =
        some ((freeOffsets (extent left) (.used data :: rest)).headD heap.heapEnd) := by
      refine (congrArg (nextFree _ _) first.symm).trans ?_
      exact nextFree_behind (start.chain.congr fun _ _ _ => rfl) start.total
    rw [moved] at call
    cases call
    have free := headD_freeOffsets (extent left) (.used data :: rest) heap.heapEnd
    have placed : (freeOffsets (extent left) (.used data :: rest)).headD heap.heapEnd ∈
        freeOffsets 0 (left ++ .used data :: rest) ∨
          (freeOffsets (extent left) (.used data :: rest)).headD heap.heapEnd = heap.heapEnd := by
      refine free.imp_left fun member => ?_
      rw [freeOffsets_append, Nat.zero_add]
      exact List.mem_append_right _ member
    refine ⟨⟨⟨represents _ placed, cut.apart inv.apart, inside _ placed⟩, content, rfl, rfl⟩, cut.fit, ?_⟩
    intro lowest mem member
    rcases origin mem member with front | ⟨_, behind⟩
    · have above := lowest mem (old mem front)
      have below := (chain_append heap 0 0 left _).mp inv.chain |>.1.mem_freeOffsets_bounds front
      rw [sizeofStructMem] at below
      exact absurd first (by omega)
    · exact headD_freeOffsets_le heap.heapEnd behind
  next elsewhere =>
    cases call
    have free : heap.lfree ∈ freeOffsets 0 (left ++ .used data :: rest) ∨ heap.lfree = heap.heapEnd :=
      inv.lfree.imp_left (kept heap.lfree (Ne.symm elsewhere))
    refine ⟨⟨⟨represents heap.lfree free, cut.apart inv.apart, inside _ free⟩, content, rfl, rfl⟩, cut.fit, ?_⟩
    intro lowest mem member
    show heap.lfree ≤ mem
    rcases origin mem member with front | ⟨behind, _⟩
    · exact lowest mem (old mem front)
    · exact (lowest _ here).trans behind.le

/-- The loop that advances `lfree` ends. -/
theorem advanceLfree_isSome {heap : Heap} {left right : List Block} {span size : ℕ}
    (inv : Represents heap (left ++ .free span :: right)) (aligned : 8 ∣ size) (fit : size + sizeofStructMem ≤ span) :
    (advanceLfree (takeBlock heap (extent left) size) (extent left)).isSome := by
  obtain ⟨data, rest, -, represents⟩ := takeBlock_represents inv aligned fit
  obtain ⟨bytes, usedMem, maxMem, equal⟩ := takeBlock_fields heap (extent left) size
  have start := represents heap.heapEnd (.inr rfl)
  rw [equal] at start ⊢
  rw [advanceLfree]
  split
  next same =>
    have moved : nextFree { heap with bytes, usedMem, maxMem } (heap.heapEnd + 1) (extent left) =
        some ((freeOffsets (extent left) (.used data :: rest)).headD heap.heapEnd) :=
      nextFree_behind (start.chain.congr fun _ _ _ => rfl) start.total
    rw [Option.isSome_map]
    exact Option.isSome_of_eq_some ((congrArg (nextFree _ _) same.symm).trans moved)
  next => rfl

/-- The search of `rt_malloc` on a whole heap. -/
theorem Represents.search {heap : Heap} {size : ℕ} {result : Option ℕ} (inv : Represents heap blocks)
    (found : findFit heap size (heap.heapEnd + 1) heap.lfree = some result) :
    ∃ left right, blocks = left ++ right ∧ heap.lfree = extent left ∧
      FitResult (extent left) size (sub32 heap.memSizeAligned size) right result := by
  obtain ⟨left, right, rfl, place⟩ := inv.lfree_split
  have ⟨_, chain⟩ := (chain_append heap 0 0 left right).mp inv.chain
  have total := inv.total
  have bound := inv.bound
  rw [Nat.zero_add] at chain
  rw [extent_append] at total
  rw [sizeofStructMem] at bound
  rw [place] at found
  exact ⟨left, right, rfl, place, findFit_result chain total (by omega) inv.endUsed inv.endNext found⟩

/-- A call of `rt_malloc` that returns a pointer. -/
theorem rtMalloc_turns {heap other : Heap} {size rmem : ℕ} (inv : Layout heap blocks)
    (call : rtMalloc heap size = some (other, some rmem)) :
    ∃ others data,
      Turns heap other others (Function.update (contentAt 0 blocks) rmem (some data)) ∧
      contentAt 0 blocks rmem = none ∧ roundedSize size ≤ data.length ∧
      (Lowest heap blocks → Lowest other others) := by
  rw [rtMalloc] at call
  split at call
  next => cases call
  next =>
    split at call
    next => cases call
    next =>
      split at call
      next => cases call
      next => cases call
      next mem found =>
        obtain ⟨before, _, rfl, _, between, span, right, rfl, rfl, fit, _⟩ :=
          inv.search found
        rw [← List.append_assoc] at inv ⊢
        rw [← extent_append] at call
        obtain ⟨taken, advanced, returned⟩ := Option.map_eq_some_iff.mp call
        cases returned
        have wide : 16 ≤ span := by
          rw [sizeofStructMem] at fit
          omega
        obtain ⟨others, data, turns, enough, lowest⟩ :=
          takeBlock_turns inv (roundedSize_facts size).1 (by have := (roundedSize_facts size).2; omega) fit advanced
        have fresh := contentAt_free 0 (before ++ between) right (by omega : 0 < span)
        rw [Nat.zero_add] at fresh
        exact ⟨others, data, turns, fresh, enough, lowest⟩

/-- A call of `rt_malloc` that returns a null pointer changes nothing. -/
theorem rtMalloc_null {heap other : Heap} {size : ℕ} (call : rtMalloc heap size = some (other, none)) :
    other = heap ∧ (size = 0 ∨ heap.memSizeAligned < rtAlign size ∨
      findFit heap (roundedSize size) (heap.heapEnd + 1) heap.lfree = some none) := by
  rw [rtMalloc] at call
  split at call
  next empty =>
    cases call
    exact ⟨rfl, .inl empty⟩
  next =>
    split at call
    next large =>
      cases call
      exact ⟨rfl, .inr (.inl large)⟩
    next =>
      split at call
      next => cases call
      next found =>
        cases call
        exact ⟨rfl, .inr (.inr found)⟩
      next mem found =>
        obtain ⟨taken, _, returned⟩ := Option.map_eq_some_iff.mp call
        cases returned

end RtThread
