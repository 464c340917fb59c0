import ShdslBridge.Kernel.HeapCalls

/-! # Releasing and resizing blocks

`rt_free` turns a used block into a hole and plugs it, `rt_realloc` either cuts a hole off the end
of its block or moves the content to a new block. The data areas of all other blocks stay as they
are.
-/

namespace RtThread

open LittleEndian Memory

variable {heap : Heap} {left right : List Block} {data : List (BitVec 8)} {blocks : List Block} {rmem newsize : ℕ}

theorem subUsed_eq {amount : ℕ} (le : amount ≤ heap.usedMem) (fits : heap.usedMem < 2 ^ 32) :
    heap.subUsed amount = { heap with usedMem := heap.usedMem - amount } := by
  rw [Heap.subUsed, sub32_of_le le fits]

/-- What is known about a used block in its place. -/
structure Held (heap : Heap) (left right : List Block) (data : List (BitVec 8)) : Prop where
  stored : (Block.used data).Stored heap (lastOffset 0 0 left) (extent left)
  front : Chain heap 0 0 left
  tail : Chain heap (extent left) (extent left + (16 + data.length)) right
  total : extent left + (16 + data.length) + extent right = heap.heapEnd
  behind : extent right = 0 ∨ 16 ≤ extent right
  bound : heap.heapEnd + 16 ≤ 2 ^ 32
  account : heap.usedMem = usedSpan left + (16 + data.length) + usedSpan right
  room : heap.usedMem ≤ heap.heapEnd

theorem Represents.held (inv : Represents heap (left ++ .used data :: right)) : Held heap left right data := by
  have ⟨front, stored, tail⟩ := (chain_append heap 0 0 left _).mp inv.chain
  rw [Nat.zero_add] at stored tail
  have total : extent left + (16 + data.length) + extent right = heap.heapEnd := by
    simpa [Nat.add_assoc, sizeofStructMem] using inv.total
  have bound : heap.heapPtr + heap.heapEnd + 16 ≤ 2 ^ 32 := inv.bound
  have account : heap.usedMem = usedSpan left + (16 + data.length) + usedSpan right := by
    simpa [usedSpan_append, usedSpan, Nat.add_assoc, sizeofStructMem] using inv.usedMem
  have usedLeft := usedSpan_le_extent left
  have usedRight := usedSpan_le_extent right
  have behind : extent right = 0 ∨ 16 ≤ extent right :=
    tail.extent_cases.imp_left fun nil => by rw [nil]; rfl
  exact ⟨stored, front, tail, total, behind, by omega, account, by omega⟩

/-- Both fields that tell a used block from a free one have been cleared. -/
theorem clear_represents (inv : Represents heap (left ++ .used data :: right)) {lfree : ℕ}
    (free : lfree = extent left ∨ lfree = heap.lfree) :
    Represents
      { heap with
        bytes := ((heap.setUsed (extent left) 0).setMagic (extent left) 0).bytes
        lfree
        usedMem := heap.usedMem - (16 + data.length) }
      (left ++ .free (16 + data.length) :: right) := by
  have held := inv.held
  have ⟨stored, front, tail, total, _, bound, account, room⟩ := held
  have chain : Chain ((heap.setUsed (extent left) 0).setMagic (extent left) 0) 0 0
      (left ++ .free (16 + data.length) :: right) :=
    @Chain.retag _ _ _ _ (.free _) front tail stored.next stored.prev (Nat.le_add_right 16 _) stored.aligned (by simp)
  refine inv.edit (chain.congr fun _ _ _ => rfl) ?_ ?_ ?_ ?_
  · simp [sizeofStructMem]
  · intro i above _
    refine (Heap.store_outside _ _ _ _ (by omega)).trans ?_
    exact Heap.store_outside _ _ _ _ (by omega)
  · rcases free with rfl | rfl
    · exact .inl (mem_freeOffsets.mpr ⟨left, _, right, rfl, by rw [Nat.zero_add]⟩)
    · refine inv.lfree.imp_left fun member => ?_
      simp only [freeOffsets_append, freeOffsets, Nat.zero_add, List.mem_append, List.mem_cons] at member ⊢
      rw [sizeofStructMem, Nat.add_assoc] at member
      exact member.imp_right .inr
  · simp only [usedSpan_append, usedSpan]
    omega

/-- `rt_free` up to `plug_holes`. -/
theorem rtFree_eq (inv : Represents heap (left ++ .used data :: right))
    (inside : extent left + sizeofStructMem < heap.heapEnd) :
    rtFree heap (some (extent left + sizeofStructMem)) =
      plugHoles
        { heap with
          bytes := ((heap.setUsed (extent left) 0).setMagic (extent left) 0).bytes
          lfree := if extent left < heap.lfree then extent left else heap.lfree
          usedMem := heap.usedMem - (16 + data.length) } (extent left) := by
  have held := inv.held
  have ⟨stored, _, _, total, _, bound, account, room⟩ := held
  generalize cleared : (heap.setUsed (extent left) 0).setMagic (extent left) 0 = hole
  have next : hole.next (extent left) = extent left + (16 + data.length) := by
    rw [← cleared]
    refine (Heap.load_store_outside _ _ _ _ (by omega)).trans ?_
    exact (Heap.load_store_outside _ _ _ _ (by omega)).trans stored.next
  have fields : hole = { heap with bytes := hole.bytes } := by rw [← cleared]; rfl
  have lowered : (if extent left < hole.lfree then { hole with lfree := extent left } else hole) =
      { heap with
        bytes := hole.bytes
        lfree := if extent left < heap.lfree then extent left else heap.lfree } := by
    rw [fields]
    split <;> rfl
  have span : sub32 (hole.next (extent left)) (extent left) = 16 + data.length := by
    rw [next, sub32_of_le (by omega) (by omega)]
    omega
  have sameNext : ({ heap with
        bytes := hole.bytes
        lfree := if extent left < heap.lfree then extent left else heap.lfree } : Heap).next (extent left) =
      hole.next (extent left) := rfl
  simp only [rtFree, if_neg (Nat.not_le.mpr inside), Nat.add_sub_cancel, cleared, lowered, sameNext, span]
  rw [subUsed_eq]
  · show 16 + data.length ≤ heap.usedMem
    omega
  · show heap.usedMem < 2 ^ 32
    omega

/-- `rt_free` of a used block. -/
theorem rtFree_turns {rmem : ℕ} (inv : Layout heap blocks) (live : contentAt 0 blocks rmem = some data) :
    ∃ others, Turns heap (rtFree heap (some rmem)) others (Function.update (contentAt 0 blocks) rmem none) ∧
      (Lowest heap blocks → Lowest (rtFree heap (some rmem)) others) := by
  have bounds := contentAt_bounds live
  have notEnd : rmem ≠ heap.heapEnd := by
    rintro rfl
    rw [inv.inside] at live
    cases live
  have total := inv.total
  obtain ⟨left, right, rfl, rfl⟩ := contentAt_split live
  rw [Nat.zero_add] at live notEnd bounds ⊢
  rw [rtFree_eq inv.toRepresents (by omega)]
  generalize lowered : (if extent left < heap.lfree then extent left else heap.lfree) = lfree
  have choice : lfree = extent left ∨ lfree = heap.lfree := by
    rw [← lowered]
    split
    next => exact .inl rfl
    next => exact .inr rfl
  have hole := clear_represents inv.toRepresents choice
  have ⟨apartLeft, apartRight⟩ := apart_used.mp inv.apart
  obtain ⟨others, plugs, apart⟩ := plugHoles_plugs hole apartLeft apartRight
  have content : contentAt 0 others =
      Function.update (contentAt 0 (left ++ .used data :: right)) (extent left + sizeofStructMem) none := by
    funext rmem
    rw [plugs.content, Function.update_apply, contentAt_used, Nat.zero_add]
    split
    next here =>
      have fresh := contentAt_free 0 left right (by omega : 0 < 16 + data.length)
      rwa [Nat.zero_add, ← here] at fresh
    next => rfl
  have sameEnd : (plugHoles { heap with
        bytes := ((heap.setUsed (extent left) 0).setMagic (extent left) 0).bytes
        lfree
        usedMem := heap.usedMem - (16 + data.length) } (extent left)).heapEnd = heap.heapEnd := by
    rw [plugs.represents.size, plugs.memSizeAligned, inv.size]
  refine ⟨others, ⟨⟨plugs.represents, apart, ?_⟩, content, plugs.heapPtr, plugs.memSizeAligned⟩, ?_⟩
  · rw [sameEnd, content, Function.update_of_ne notEnd.symm]
    exact inv.inside
  · intro lowest
    apply plugs.lowest
    intro mem member
    show lfree ≤ mem
    simp only [freeOffsets_append, freeOffsets, Nat.zero_add, List.mem_append, List.mem_cons] at member
    have kept (other : mem ≠ extent left) : heap.lfree ≤ mem := by
      apply lowest
      simp only [freeOffsets_append, freeOffsets, Nat.zero_add, List.mem_append]
      rw [sizeofStructMem, Nat.add_assoc]
      exact member.imp_right fun either => either.resolve_left other
    rw [← lowered]
    by_cases here : mem = extent left
    · split <;> omega
    · have low := kept here
      split <;> omega

theorem overwrite_turns {rmem offset : ℕ} {data cells : List (BitVec 8)} (inv : Layout heap blocks)
    (live : contentAt 0 blocks rmem = some data) (fits : offset + cells.length ≤ data.length) :
    ∃ others, Turns heap (heap.overwrite (rmem + offset) cells) others
        (Function.update (contentAt 0 blocks) rmem
          (some (data.take offset ++ cells ++ data.drop (offset + cells.length)))) ∧
      (Lowest heap blocks → Lowest (heap.overwrite (rmem + offset) cells) others) := by
  have total := inv.total
  obtain ⟨left, right, rfl, rfl⟩ := contentAt_split live
  rw [Nat.zero_add] at live ⊢
  generalize edited : data.take offset ++ cells ++ data.drop (offset + cells.length) = other
  have sameLength : other.length = data.length := by
    rw [← edited]
    simp
    omega
  have ⟨stored, front, tail, _, behind, bound, account, room⟩ := inv.held
  generalize made : heap.overwrite (extent left + sizeofStructMem + offset) cells = written
  have outside (i : ℕ) (away : i < extent left + 16 ∨ extent left + (16 + data.length) ≤ i) :
      written.bytes i = heap.bytes i := by
    rw [← made]
    apply writeAt_outside
    rw [sizeofStructMem]
    omega
  obtain ⟨magic, read⟩ := stored.content data rfl
  have newRead : readAt written.bytes (extent left + sizeofStructMem) data.length = other := by
    rw [← edited, ← read, readAt_length, ← made]
    exact readAt_writeAt_within heap.bytes _ offset cells (by omega)
  have newStored : (Block.used other).Stored written (lastOffset 0 0 left) (extent left) := by
    refine ⟨?_, ?_, ?_, Nat.le_add_right _ _, ?_, ?_⟩
    · exact (Heap.load_congr fun i _ _ => outside i (by omega)).trans stored.used
    · refine (Heap.load_congr fun i _ _ => outside i (by omega)).trans ?_
      rw [Block.span, sameLength]
      exact stored.next
    · exact (Heap.load_congr fun i _ _ => outside i (by omega)).trans stored.prev
    · rw [Block.span, sameLength]
      exact stored.aligned
    · rintro content same
      cases same
      refine ⟨(Heap.load_congr fun i _ _ => outside i (by omega)).trans magic, ?_⟩
      rw [sameLength, newRead]
  have chain : Chain written 0 0 (left ++ .used other :: right) := by
    rw [chain_append, Nat.zero_add]
    refine ⟨front.congr fun i _ below => outside i (by omega), newStored, ?_⟩
    rw [Block.span, sameLength, sizeofStructMem]
    exact tail.congr fun i above _ => outside i (.inr above)
  have sameFree : freeOffsets 0 (left ++ .used other :: right) = freeOffsets 0 (left ++ .used data :: right) := by
    rw [freeOffsets_append, freeOffsets_append, freeOffsets, freeOffsets, sameLength]
  have content : contentAt 0 (left ++ .used other :: right) =
      Function.update (contentAt 0 (left ++ .used data :: right)) (extent left + sizeofStructMem) (some other) := by
    funext rmem
    rw [Function.update_apply, contentAt_used, contentAt_used, sameLength, Nat.zero_add]
    split <;> rfl
  have represents : Represents written (left ++ .used other :: right) := by
    rw [← made] at chain outside ⊢
    refine inv.toRepresents.edit (chain.congr fun _ _ _ => rfl) ?_ (fun i above _ => outside i (by omega)) ?_ ?_
    · simp [sameLength]
    · rw [sameFree]
      exact inv.lfree
    · rw [account, usedSpan_append, usedSpan, sameLength, sizeofStructMem, Nat.add_assoc]
  have sameEnd : written.heapEnd = heap.heapEnd := by rw [← made]; rfl
  refine ⟨_, ⟨⟨represents, ?_, ?_⟩, content, by rw [← made]; rfl, by rw [← made]; rfl⟩, ?_⟩
  · exact apart_used.mpr (apart_used.mp inv.apart)
  · have notEnd : heap.heapEnd ≠ extent left + sizeofStructMem := by
      intro same
      rw [← same, inv.inside] at live
      cases live
    rw [sameEnd, content, Function.update_of_ne notEnd]
    exact inv.inside
  · intro lowest mem member
    rw [sameFree] at member
    rw [← made]
    exact lowest mem member

/-! ## `rt_realloc` in place -/

/-- The size that `rt_realloc` is asked for leaves room for a hole behind the block. -/
def Shrinks (newsize len : ℕ) : Prop := newsize + sizeofStructMem + minSize < len

theorem shrink_represents {newsize : ℕ} (inv : Represents heap (left ++ .used data :: right)) (aligned : 8 ∣ newsize)
    (small : newsize + sizeofStructMem + minSize < data.length) :
    ∃ bytes,
      ((heap.subUsed (data.length - newsize)).setMagic (extent left + sizeofStructMem + newsize)
          heapMagic).insertBlock (extent left) (extent left + sizeofStructMem + newsize) =
        { heap with bytes, usedMem := heap.usedMem - (data.length - newsize) } ∧
      Represents { heap with bytes, usedMem := heap.usedMem - (data.length - newsize) }
        (left ++ .used (data.take newsize) :: .free (data.length - newsize) :: right) := by
  have ⟨stored, front, tail, total, behind, bound, account, room⟩ := inv.held
  obtain ⟨rest, rests⟩ : ∃ rest, data.length = newsize + rest := ⟨data.length - newsize, by omega⟩
  have alignedWhole : 8 ∣ 16 + data.length := stored.aligned
  have cutOff : data.length - newsize = rest := by omega
  simp only [sizeofStructMem, minSize, cutOff] at small ⊢
  rw [subUsed_eq (by omega) (by omega)]
  generalize tagged : ({ heap with usedMem := heap.usedMem - rest } : Heap).setMagic (extent left + 16 + newsize)
    heapMagic = marked
  have markedKept (i : ℕ) (away : i < extent left + 16 + newsize ∨ extent left + 16 + newsize + 2 ≤ i) :
      marked.bytes i = heap.bytes i := by
    rw [← tagged]
    exact Heap.store_outside _ _ _ _ away
  have fields : marked = { heap with bytes := marked.bytes, usedMem := heap.usedMem - rest } := by
    rw [← tagged]
    rfl
  have sum : extent left + (16 + newsize) + rest = extent left + (16 + data.length) := by omega
  have cut : Cut marked (marked.insertBlock (extent left) (extent left + (16 + newsize))) (extent left)
      (16 + newsize) rest right := by
    refine insertBlock_cut ?_ ?_ ?_ ?_ ?_ (by omega) (by omega) (by omega)
    · rw [sum]
      exact (Heap.load_congr fun i _ _ => markedKept i (by omega)).trans stored.next
    · rw [sum]
      exact tail.congr fun i _ _ => markedKept i (by omega)
    · rw [fields]
      show _ = heap.heapEnd
      omega
    · rw [fields]
      exact inv.size
    · rw [fields]
      show heap.heapEnd < 2 ^ 32
      omega
  have cutFields := insertBlock_fields marked (extent left) (extent left + (16 + newsize))
  rw [Nat.add_assoc (extent left) 16 newsize]
  generalize marked.insertBlock (extent left) (extent left + (16 + newsize)) = linked at cut cutFields ⊢
  rw [fields] at cutFields
  have kept (i : ℕ) (low : i < extent left + 4 ∨ extent left + 8 ≤ i)
      (high : i < extent left + (16 + newsize) ∨ extent left + (16 + data.length) ≤ i)
      (far : i < extent left + (16 + data.length) + 8 ∨ extent left + (16 + data.length) + 12 ≤ i) :
      linked.bytes i = heap.bytes i :=
    (cut.kept i low (by omega) (by omega)).trans (markedKept i (by omega))
  obtain ⟨magic, read⟩ := stored.content data rfl
  have newLength : (data.take newsize).length = newsize := by
    rw [List.length_take]
    omega
  have newStored : (Block.used (data.take newsize)).Stored linked (lastOffset 0 0 left) (extent left) := by
    refine ⟨?_, ?_, ?_, Nat.le_add_right _ _, ?_, ?_⟩
    · exact (Heap.load_congr fun i _ _ => kept i (by omega) (by omega) (by omega)).trans stored.used
    · rw [Block.span, newLength]
      exact cut.next
    · exact (Heap.load_congr fun i _ _ => kept i (by omega) (by omega) (by omega)).trans stored.prev
    · rw [Block.span, newLength, sizeofStructMem]
      omega
    · rintro content same
      cases same
      refine ⟨(Heap.load_congr fun i _ _ => kept i (by omega) (by omega) (by omega)).trans magic, ?_⟩
      rw [newLength, ← read, take_readAt, Nat.min_eq_left (by omega)]
      exact readAt_congr fun i inside => kept _ (by simp only [sizeofStructMem]; omega)
        (by simp only [sizeofStructMem]; omega) (by simp only [sizeofStructMem]; omega)
  have chain : Chain linked 0 0 (left ++ .used (data.take newsize) :: .free rest :: right) := by
    rw [chain_append, Nat.zero_add]
    refine ⟨front.congr fun i _ below => kept i (by omega) (by omega) (by omega), newStored, ?_⟩
    rw [Block.span, newLength, sizeofStructMem]
    exact cut.tail
  refine ⟨linked.bytes, cutFields, ?_⟩
  refine inv.edit (chain.congr fun _ _ _ => rfl) ?_ ?_ ?_ ?_
  · simp only [extent_append, extent_cons, Block.span, newLength, sizeofStructMem]
    omega
  · intro i above _
    exact kept i (by omega) (by omega) (by omega)
  · refine inv.lfree.imp_left fun member => ?_
    simp only [freeOffsets_append, freeOffsets, Nat.zero_add, List.mem_append, List.mem_cons, newLength,
      sizeofStructMem] at member ⊢
    rw [show extent left + 16 + newsize + rest = extent left + 16 + data.length by omega]
    exact member.imp_right .inr
  · simp only [usedSpan_append, usedSpan, newLength, sizeofStructMem]
    omega

/-- A hole behind a used block: `plug_holes` looks forward only. -/
theorem plugHoles_behind_used {content : List (BitVec 8)} {span : ℕ}
    (inv : Represents heap (left ++ .used content :: .free span :: right)) :
    plugHoles heap (extent left + (16 + content.length)) =
      plugForward heap (extent left + (16 + content.length)) := by
  have offset : extent left + (16 + content.length) = extent (left ++ [Block.used content]) := by
    simp [sizeofStructMem]
  have hole : Represents heap ((left ++ [Block.used content]) ++ .free span :: right) := by
    rwa [List.append_assoc]
  rw [plugHoles, offset]
  cases right with
  | nil =>
    rw [plugForward_idle hole (by simp), plugBackward_idle hole (by simp)]
  | cons block rest =>
    cases block with
    | used other => rw [plugForward_idle hole (by simp), plugBackward_idle hole (by simp)]
    | free more =>
      rw [plugForward_free hole]
      exact plugBackward_idle hole.combine (by simp)

theorem mem_freeOffsets_used {mem : ℕ} :
    mem ∈ freeOffsets 0 (left ++ .used data :: right) ↔
      mem ∈ freeOffsets 0 left ∨ mem ∈ freeOffsets (extent left + (16 + data.length)) right := by
  rw [freeOffsets_append, freeOffsets, Nat.zero_add, sizeofStructMem, Nat.add_assoc, List.mem_append]

/-- Where `lfree` can point, seen from a used block. -/
theorem Represents.lfree_sides (inv : Represents heap (left ++ .used data :: right)) :
    heap.lfree ∈ freeOffsets 0 left ∧ heap.lfree < extent left ∨
      extent left + (16 + data.length) ≤ heap.lfree := by
  have ⟨_, front, _, total, _, _, _, _⟩ := inv.held
  rcases inv.lfree with member | atEnd
  · rcases mem_freeOffsets_used.mp member with before | behind
    · have bounds := front.mem_freeOffsets_bounds before
      rw [sizeofStructMem] at bounds
      exact .inl ⟨before, by omega⟩
    · obtain ⟨_, _, _, _, place⟩ := mem_freeOffsets.mp behind
      exact .inr (by omega)
  · exact .inr (by omega)

theorem contentAt_shrunk {rest : ℕ} (rests : data.length = newsize + rest) :
    contentAt 0 (left ++ .used (data.take newsize) :: .free rest :: right) =
      Function.update (contentAt 0 (left ++ .used data :: right)) (extent left + sizeofStructMem)
        (some (data.take newsize)) := by
  have newLength : (data.take newsize).length = newsize := by
    rw [List.length_take]
    omega
  funext rmem
  rw [Function.update_apply, contentAt_used, contentAt_used, newLength, ← contentAt_join, Nat.zero_add, rests,
    Nat.add_assoc]
  split <;> rfl

theorem mem_freeOffsets_shrunk {rest mem : ℕ} (rests : data.length = newsize + rest) :
    mem ∈ freeOffsets 0 (left ++ .used (data.take newsize) :: .free rest :: right) ↔
      mem ∈ freeOffsets 0 left ∨ mem = extent left + (16 + newsize) ∨
        mem ∈ freeOffsets (extent left + (16 + data.length)) right := by
  have newLength : (data.take newsize).length = newsize := by
    rw [List.length_take]
    omega
  rw [mem_freeOffsets_used, newLength, freeOffsets, List.mem_cons, Nat.add_assoc, Nat.add_assoc, ← rests]

/-- The hole behind a shrunk block is joined with the one behind it: `lfree` moves with it. -/
theorem Layout.lowest_shrunk {rest more : ℕ} (inv : Layout heap (left ++ .used data :: .free more :: right))
    (rests : data.length = newsize + rest) (bytes : ℕ → BitVec 8) (usedMem : ℕ)
    (old : Lowest heap (left ++ .used data :: .free more :: right)) :
    Lowest (Heap.combine { heap with bytes, usedMem } (extent left + (16 + newsize))
        (extent left + (16 + newsize) + rest))
      (left ++ .used (data.take newsize) :: .free (rest + more) :: right) := by
  obtain ⟨-, front, -⟩ := inv.held
  have newLength : (data.take newsize).length = newsize := by
    rw [List.length_take]
    omega
  have sum : extent left + (16 + newsize) + rest = extent left + (16 + data.length) := by omega
  have oldFree (mem : ℕ) (member : mem ∈ freeOffsets 0 left ∨
      mem ∈ freeOffsets (extent left + (16 + data.length)) (.free more :: right)) :
      mem ∈ freeOffsets 0 (left ++ .used data :: .free more :: right) := mem_freeOffsets_used.mpr member
  have low := old _ (oldFree _ (.inr (List.mem_cons_self ..)))
  intro mem member
  rw [mem_freeOffsets_used, newLength, freeOffsets, List.mem_cons, ← Nat.add_assoc _ rest, sum] at member
  rw [Heap.combine_lfree, sum]
  show (if heap.lfree = extent left + (16 + data.length) then extent left + (16 + newsize) else heap.lfree) ≤ mem
  rcases inv.lfree_sides with ⟨_, before⟩ | after
  · rw [if_neg (by omega)]
    rcases member with inLeft | here | inRight
    · exact old mem (oldFree mem (.inl inLeft))
    · omega
    · exact old mem (oldFree mem (.inr (List.mem_cons_of_mem _ inRight)))
  · rw [if_pos (by omega)]
    rcases member with inLeft | here | inRight
    · have bounds := front.mem_freeOffsets_bounds inLeft
      have first := old mem (oldFree mem (.inl inLeft))
      rw [sizeofStructMem] at bounds
      omega
    · omega
    · obtain ⟨_, _, _, _, place⟩ := mem_freeOffsets.mp inRight
      omega

/-- `rt_realloc` that shrinks a block in place. `lfree` stays lowest unless the block lies in front
of it and the new hole is not joined with the next one. -/
theorem shrink_turns {newsize : ℕ} (inv : Layout heap (left ++ .used data :: right)) (aligned : 8 ∣ newsize)
    (small : Shrinks newsize data.length) :
    ∃ others,
      Turns heap (shrink heap (extent left) data.length newsize) others
        (Function.update (contentAt 0 (left ++ .used data :: right)) (extent left + sizeofStructMem)
          (some (data.take newsize))) ∧
      (Lowest heap (left ++ .used data :: right) →
        (Lowest (shrink heap (extent left) data.length newsize) others ↔
          ¬ (extent left < heap.lfree ∧ heap.used (extent left + (16 + data.length)) ≠ 0))) := by
  obtain ⟨bytes, equal, represents⟩ := shrink_represents inv.toRepresents aligned small
  simp only [Shrinks, sizeofStructMem, minSize] at small
  obtain ⟨stored, front, tail, total, -, -, -, -⟩ := inv.held
  have newLength : (data.take newsize).length = newsize := by
    rw [List.length_take]
    omega
  have unfolded : shrink heap (extent left) data.length newsize =
      plugForward { heap with bytes, usedMem := heap.usedMem - (data.length - newsize) }
        (extent left + (16 + newsize)) := by
    have behind := plugHoles_behind_used represents
    rw [newLength] at behind
    rw [← behind, ← equal, shrink, Nat.add_assoc (extent left)]
    rfl
  obtain ⟨rest, rests⟩ : ∃ rest, data.length = newsize + rest := ⟨data.length - newsize, by omega⟩
  have cutOff : data.length - newsize = rest := by omega
  rw [cutOff] at unfolded represents
  have content := @contentAt_shrunk left right data newsize rest rests
  have notEnd : heap.heapEnd ≠ extent left + sizeofStructMem := by
    rw [sizeofStructMem]
    omega
  obtain ⟨apartLeft, apartRight⟩ := apart_used.mp inv.apart
  have sides := inv.lfree_sides
  have hole : Represents { heap with bytes, usedMem := heap.usedMem - rest }
      ((left ++ [Block.used (data.take newsize)]) ++ .free rest :: right) := by
    rwa [List.append_assoc]
  have offset : extent left + (16 + newsize) = extent (left ++ [Block.used (data.take newsize)]) := by
    simp [sizeofStructMem, newLength]
  have sum : extent left + (16 + newsize) + rest = extent left + (16 + data.length) := by omega
  have newFree (mem : ℕ) := @mem_freeOffsets_shrunk left right data newsize rest mem rests
  have oldFree (mem : ℕ) (member : mem ∈ freeOffsets 0 left ∨
      mem ∈ freeOffsets (extent left + (16 + data.length)) right) :
      mem ∈ freeOffsets 0 (left ++ .used data :: right) := mem_freeOffsets_used.mpr member
  have idle (busy : ∀ block ∈ right.head?, block.flag = 1)
      (taken : heap.used (extent left + (16 + data.length)) = 1) :
      ∃ others,
        Turns heap { heap with bytes, usedMem := heap.usedMem - rest } others
          (Function.update (contentAt 0 (left ++ .used data :: right)) (extent left + sizeofStructMem)
            (some (data.take newsize))) ∧
        (Lowest heap (left ++ .used data :: right) →
          (Lowest { heap with bytes, usedMem := heap.usedMem - rest } others ↔
            ¬ (extent left < heap.lfree ∧ heap.used (extent left + (16 + data.length)) ≠ 0))) := by
    refine ⟨_, ⟨⟨represents, ?_, ?_⟩, content, rfl, rfl⟩, fun lowest => ⟨?_, ?_⟩⟩
    · exact apart_used.mpr ⟨apartLeft, apart_cons.mpr
        ⟨fun block first _ => by rw [busy block first]; omega, apartRight⟩⟩
    · rw [content, Function.update_of_ne notEnd]
      exact inv.inside
    · rintro still ⟨before, _⟩
      have below : heap.lfree ≤ extent left + (16 + newsize) := still _ ((newFree _).mpr (.inr (.inl rfl)))
      omega
    · intro allowed mem member
      show heap.lfree ≤ mem
      rcases (newFree mem).mp member with before | here | behind
      · exact lowest mem (oldFree mem (.inl before))
      · omega
      · exact lowest mem (oldFree mem (.inr behind))
  rw [unfolded, offset]
  cases right with
  | nil =>
    rw [plugForward_idle hole (by simp)]
    refine idle (by simp) ?_
    rw [extent_nil, Nat.add_zero] at total
    rw [total]
    exact inv.endUsed
  | cons block behind =>
    cases block with
    | used other =>
      rw [plugForward_idle hole (by simp)]
      exact idle (by simp) tail.1.used
    | free more =>
      have unused : heap.used (extent left + (16 + data.length)) = 0 := tail.1.used
      have plugs := hole.combine_plugs
      have lowest := inv.lowest_shrunk rests bytes (heap.usedMem - rest)
      rw [offset] at lowest
      rw [plugForward_free hole]
      refine ⟨_, ⟨⟨plugs.represents, ?_, ?_⟩, ?_, plugs.heapPtr, plugs.memSizeAligned⟩, fun old => ?_⟩
      · rw [List.append_assoc]
        exact apart_used.mpr ⟨apartLeft, (apart_free [] behind more (rest + more)).mp apartRight⟩
      · have sameEnd : ({ heap with bytes, usedMem := heap.usedMem - rest } : Heap).memSizeAligned +
            sizeofStructMem = heap.heapEnd := inv.size.symm
        rw [plugs.content, List.append_assoc, List.singleton_append, content, plugs.represents.size,
          plugs.memSizeAligned, sameEnd, Function.update_of_ne notEnd]
        exact inv.inside
      · funext rmem
        rw [plugs.content, List.append_assoc, List.singleton_append, content]
      · rw [List.append_assoc]
        exact ⟨fun _ both => both.2 unused, fun _ => lowest old⟩

/-! ## `rt_realloc` -/

theorem Turns.trans {heap middle other : Heap} {between others : List Block}
    {first second : ℕ → Option (List (BitVec 8))} (one : Turns heap middle between first)
    (two : Turns middle other others second) : Turns heap other others second :=
  ⟨two.layout, two.content, two.heapPtr.trans one.heapPtr, two.memSizeAligned.trans one.memSizeAligned⟩

theorem Turns.congr {heap other : Heap} {others : List Block} {content same : ℕ → Option (List (BitVec 8))}
    (turns : Turns heap other others content) (equal : content = same) : Turns heap other others same :=
  equal ▸ turns

theorem Represents.live {rmem : ℕ} (inv : Represents heap blocks) (live : contentAt 0 blocks rmem = some data) :
    sizeofStructMem ≤ rmem ∧ heap.used (rmem - sizeofStructMem) = 1 ∧
      heap.next (rmem - sizeofStructMem) = rmem + data.length ∧
      readAt heap.bytes rmem data.length = data := by
  obtain ⟨left, right, rfl, rfl⟩ := contentAt_split live
  have ⟨stored, _, _, _, _, _, _, _⟩ := inv.held
  rw [Nat.zero_add, Nat.add_sub_cancel]
  have next : heap.next (extent left) = extent left + (sizeofStructMem + data.length) := stored.next
  exact ⟨Nat.le_add_left _ _, stored.used, by rw [next, Nat.add_assoc], (stored.content data rfl).2⟩

theorem rtAlign_idem {size : ℕ} (bound : rtAlign size + 7 < 2 ^ 32) : rtAlign (rtAlign size) = rtAlign size := by
  obtain ⟨count, counts⟩ : ∃ count, rtAlign size = 8 * count := ⟨word32 (size + 7) / 8, Nat.mul_comm _ _⟩
  rw [counts] at bound ⊢
  rw [rtAlign, word32_of_lt bound]
  omega

theorem le_roundedSize {size : ℕ} (bound : rtAlign size + 7 < 2 ^ 32) : rtAlign size ≤ roundedSize (rtAlign size) := by
  rw [roundedSize, rtAlign_idem bound, minSizeAligned]
  split <;> omega

/-- What `rt_realloc` does with a used block. -/
inductive Realloc (heap : Heap) (rmem newsize : ℕ) (data : List (BitVec 8)) : Heap → Option ℕ → Prop
  | fails (reason : heap.memSizeAligned < newsize ∨ ¬ Shrinks newsize data.length) :
      Realloc heap rmem newsize data heap none
  | same (exact_ : data.length = newsize) : Realloc heap rmem newsize data heap (some rmem)
  | shrinks (fits : newsize ≤ heap.memSizeAligned) (small : Shrinks newsize data.length) :
      Realloc heap rmem newsize data (shrink heap (rmem - sizeofStructMem) data.length newsize) (some rmem)
  | moves (middle : Heap) (nmem : ℕ) (fits : newsize ≤ heap.memSizeAligned)
      (large : ¬ Shrinks newsize data.length) (taken : rtMalloc heap newsize = some (middle, some nmem)) :
      Realloc heap rmem newsize data
        (rtFree (middle.overwrite nmem (readAt middle.bytes rmem (min data.length newsize))) (some rmem)) (some nmem)

/-- `rt_realloc` makes a hole in front of `lfree` and does not lower `lfree`. -/
def ShrinksBelow (heap : Heap) (rmem newsize : ℕ) : Prop :=
  rtAlign newsize ≤ heap.memSizeAligned ∧ Shrinks (rtAlign newsize) (heap.next (rmem - sizeofStructMem) - rmem) ∧
    rmem - sizeofStructMem < heap.lfree ∧ heap.used (heap.next (rmem - sizeofStructMem)) ≠ 0

/-- The data size that `rt_realloc` computes for a used block. -/
theorem Represents.live_size {rmem : ℕ} (inv : Represents heap blocks) (live : contentAt 0 blocks rmem = some data) :
    sub32 (heap.next (rmem - sizeofStructMem)) (rmem - sizeofStructMem + sizeofStructMem) = data.length := by
  have ⟨low, _, next, _⟩ := inv.live live
  have bounds := contentAt_bounds live
  have total := inv.total
  have bound : heap.heapPtr + heap.heapEnd + 16 ≤ 2 ^ 32 := inv.bound
  rw [next, Nat.sub_add_cancel low, sub32_of_le (by omega) (by omega)]
  omega

theorem Layout.live_lt {rmem : ℕ} (inv : Layout heap blocks) (live : contentAt 0 blocks rmem = some data) :
    rmem < heap.heapEnd := by
  have bounds := contentAt_bounds live
  have total := inv.total
  have notEnd : rmem ≠ heap.heapEnd := by
    rintro rfl
    rw [inv.inside] at live
    cases live
  omega

theorem rtRealloc_cases {heap other : Heap} {result : Option ℕ} (inv : Layout heap blocks)
    (live : contentAt 0 blocks rmem = some data) (call : rtRealloc heap (some rmem) newsize = some (other, result)) :
    Realloc heap rmem (rtAlign newsize) data other result := by
  have inside := inv.live_lt live
  rw [rtRealloc] at call
  simp only [inv.toRepresents.live_size live] at call
  split at call
  next large =>
    cases call
    exact .fails (.inl large)
  next fits =>
    rw [if_neg (by omega)] at call
    split at call
    next same =>
      cases call
      exact .same same
    next =>
      split at call
      next small =>
        cases call
        exact .shrinks (by omega) small
      next large =>
        obtain ⟨⟨middle, nmem⟩, taken, returned⟩ := Option.map_eq_some_iff.mp call
        cases nmem with
        | none =>
          cases returned
          rw [(rtMalloc_null taken).1]
          exact .fails (.inr large)
        | some nmem =>
          cases returned
          exact .moves middle nmem (by omega) large taken

theorem rtRealloc_of_shrinks (inv : Layout heap blocks) (live : contentAt 0 blocks rmem = some data)
    (fits : rtAlign newsize ≤ heap.memSizeAligned) (small : Shrinks (rtAlign newsize) data.length) :
    (rtRealloc heap (some rmem) newsize).isSome := by
  have inside := inv.live_lt live
  rw [Shrinks] at small
  rw [rtRealloc]
  simp only [inv.toRepresents.live_size live]
  rw [if_neg (by omega), if_neg (by omega), if_pos small]
  split <;> rfl

theorem moves_turns {heap middle : Heap} {rmem newsize nmem : ℕ} (inv : Layout heap blocks)
    (live : contentAt 0 blocks rmem = some data) (fits : rtAlign newsize ≤ heap.memSizeAligned)
    (taken : rtMalloc heap (rtAlign newsize) = some (middle, some nmem)) :
    ∃ others moved,
      Turns heap (rtFree (middle.overwrite nmem (readAt middle.bytes rmem (min data.length (rtAlign newsize))))
          (some rmem)) others
        (Function.update (Function.update (contentAt 0 blocks) rmem none) nmem (some moved)) ∧
      contentAt 0 blocks nmem = none ∧ rtAlign newsize ≤ moved.length ∧
      moved.take (min data.length (rtAlign newsize)) = data.take (min data.length (rtAlign newsize)) ∧
      (Lowest heap blocks →
        Lowest (rtFree (middle.overwrite nmem (readAt middle.bytes rmem (min data.length (rtAlign newsize))))
          (some rmem)) others) := by
  have bound : heap.heapPtr + heap.heapEnd + 16 ≤ 2 ^ 32 := inv.bound
  have size : heap.heapEnd = heap.memSizeAligned + 16 := inv.size
  obtain ⟨between, fresh, turns, absent, enough, lowTaken⟩ := rtMalloc_turns inv taken
  have apart : nmem ≠ rmem := by
    rintro rfl
    rw [absent] at live
    cases live
  have large := le_roundedSize (show rtAlign newsize + 7 < 2 ^ 32 by omega)
  have kept : contentAt 0 between rmem = some data := by
    rw [turns.content, Function.update_of_ne apart.symm, live]
  have placed : contentAt 0 between nmem = some fresh := by
    rw [turns.content, Function.update_self]
  have copied : readAt middle.bytes rmem (min data.length (rtAlign newsize)) =
      data.take (min data.length (rtAlign newsize)) := by
    have ⟨_, _, _, read⟩ := turns.layout.toRepresents.live kept
    rw [← read, take_readAt, readAt_length, Nat.min_eq_left (Nat.min_le_left _ _)]
  have copiedLength : (data.take (min data.length (rtAlign newsize))).length =
      min data.length (rtAlign newsize) := by
    rw [List.length_take]
    omega
  obtain ⟨filled, overwritten, lowFilled⟩ := @overwrite_turns _ _ _ 0 _
    (data.take (min data.length (rtAlign newsize))) turns.layout placed (by omega)
  rw [List.take_zero, List.nil_append, Nat.zero_add, copiedLength] at overwritten
  generalize written : data.take (min data.length (rtAlign newsize)) ++
    fresh.drop (min data.length (rtAlign newsize)) = moved at overwritten
  have keptStill : contentAt 0 filled rmem = some data := by
    rw [overwritten.content, Function.update_of_ne apart.symm, kept]
  obtain ⟨others, freed, lowFreed⟩ := rtFree_turns overwritten.layout keptStill
  rw [copied]
  refine ⟨others, moved, ?_, absent, ?_, ?_, fun lowest => lowFreed (lowFilled (lowTaken lowest))⟩
  · refine ((turns.trans overwritten).trans freed).congr ?_
    rw [overwritten.content, turns.content, Function.update_idem, Function.update_comm apart]
  · rw [← written, List.length_append, List.length_drop, copiedLength]
    omega
  · rw [← written, List.take_append_of_le_length copiedLength.ge, List.take_take, Nat.min_self]

theorem Represents.shrinksBelow_iff (inv : Represents heap blocks) (live : contentAt 0 blocks rmem = some data) :
    ShrinksBelow heap rmem newsize ↔
      rtAlign newsize ≤ heap.memSizeAligned ∧ Shrinks (rtAlign newsize) data.length ∧
        rmem - sizeofStructMem < heap.lfree ∧ heap.used (rmem + data.length) ≠ 0 := by
  have ⟨_, _, next, _⟩ := inv.live live
  rw [ShrinksBelow, next, Nat.add_sub_cancel_left]

/-- The content behind a successful `rt_realloc`: the first bytes of the block are kept. -/
theorem Realloc.turns {heap other : Heap} {rmem newsize nmem : ℕ} (inv : Layout heap blocks)
    (live : contentAt 0 blocks rmem = some data) (call : Realloc heap rmem (rtAlign newsize) data other (some nmem)) :
    ∃ others moved,
      Turns heap other others
        (Function.update (Function.update (contentAt 0 blocks) rmem none) nmem (some moved)) ∧
      (nmem = rmem ∨ contentAt 0 blocks nmem = none) ∧ rtAlign newsize ≤ moved.length ∧
      moved.take (min data.length (rtAlign newsize)) = data.take (min data.length (rtAlign newsize)) ∧
      (Lowest heap blocks → (Lowest other others ↔ ¬ ShrinksBelow heap rmem newsize)) := by
  have alignedSize : 8 ∣ rtAlign newsize := Nat.dvd_mul_left 8 _
  rw [inv.toRepresents.shrinksBelow_iff live]
  cases call with
  | same exact_ =>
    refine ⟨blocks, data, ⟨inv, ?_, rfl, rfl⟩, .inl rfl, exact_.ge, rfl, fun lowest => ?_⟩
    · rw [Function.update_idem, ← live, Function.update_eq_self]
    · refine iff_of_true lowest ?_
      rintro ⟨_, small, _⟩
      rw [Shrinks] at small
      omega
  | shrinks fits small =>
    obtain ⟨left, right, rfl, rfl⟩ := contentAt_split live
    rw [Nat.zero_add] at *
    obtain ⟨others, turns, lowest⟩ := shrink_turns inv alignedSize small
    rw [Nat.add_sub_cancel, Nat.add_assoc (extent left)]
    rw [Shrinks] at small
    have least : min data.length (rtAlign newsize) = rtAlign newsize := by omega
    refine ⟨others, data.take (rtAlign newsize), ?_, .inl rfl, ?_, ?_, fun old => (lowest old).trans ?_⟩
    · rw [Function.update_idem]
      exact turns
    · rw [List.length_take]
      omega
    · rw [least, List.take_take, Nat.min_self]
    · exact not_congr ⟨fun ⟨before, busy⟩ => ⟨fits, small, before, busy⟩, fun ⟨_, _, before, busy⟩ => ⟨before, busy⟩⟩
  | moves middle nmem fits large taken =>
    obtain ⟨others, moved, turns, absent, enough, copied, lowest⟩ := moves_turns inv live fits taken
    refine ⟨others, moved, turns, .inr absent, enough, copied, fun old => iff_of_true (lowest old) ?_⟩
    rintro ⟨_, small, _⟩
    exact large small

end RtThread
