import ShdslBridge.Finsh.StringBlocks
import Mathlib.Data.List.Pairwise

/-! # What the allocator of the string heap keeps

The free and the allocated blocks tile the array, the block at its end is free, and no two free blocks
touch. Each operation keeps this and the bytes behind the headers of the blocks that stay allocated.
-/

namespace Finsh

open LittleEndian Memory LinkedList

namespace StringHeap

open StringBlock

theorem mem_middle {front back : List StringBlock} {b x : StringBlock} :
    x ∈ front ++ b :: back ↔ x = b ∨ x ∈ front ++ back := List.perm_middle.mem_iff.trans List.mem_cons

/-- The blocks are as their headers say, and tile the array. -/
structure Tiles (finshHeap : ℕ) (heap : StringHeap) (all : List StringBlock) : Prop where
  low : 0 < finshHeap
  high : finshHeap + 128 ≤ 2 ^ 32
  stored : ∀ b ∈ all, heap.length b.addr = b.len
  inside : ∀ b ∈ all, finshHeap ≤ b.addr ∧ b.stop ≤ finshHeap + 128
  apart : all.Pairwise Apart
  covered : ∀ i, finshHeap ≤ i → i < finshHeap + 128 → ∃ b ∈ all, b.addr ≤ i ∧ i < b.stop

/-- The two lists share the blocks, and the last one is free. -/
structure Tiled (finshHeap : ℕ) (heap : StringHeap) (free used : List StringBlock) : Prop where
  tiles : Tiles finshHeap heap (free ++ used)
  freeListed : heap.Listed heap.freeList free
  usedListed : heap.Listed heap.allocateList used
  last : ∃ b ∈ free, b.stop = finshHeap + 128

/-- No two free blocks touch. -/
def Merged (free : List StringBlock) : Prop := ∀ x ∈ free, ∀ y ∈ free, x.stop ≠ y.addr

/-- The bytes behind the headers of the blocks are the same. -/
def SameData (heap heap' : StringHeap) (nodes : List StringBlock) : Prop :=
  ∀ b ∈ nodes, ∀ i, b.addr + 8 ≤ i → i < b.stop → heap'.bytes i = heap.bytes i

variable {finshHeap : ℕ} {heap heap' : StringHeap} {all nodes free used : List StringBlock}

theorem SameData.trans {other : StringHeap} (first : SameData heap heap' nodes) (second : SameData heap' other nodes) :
    SameData heap other nodes := fun b member i above below =>
  (second b member i above below).trans (first b member i above below)

theorem SameData.mono {fewer : List StringBlock} (same : SameData heap heap' nodes) (subset : fewer ⊆ nodes) :
    SameData heap heap' fewer := fun b member => same b (subset member)

namespace Tiles

theorem perm {other : List StringBlock} (tiles : Tiles finshHeap heap all) (perm : all.Perm other) :
    Tiles finshHeap heap other where
  low := tiles.low
  high := tiles.high
  stored b member := tiles.stored b (perm.mem_iff.mpr member)
  inside b member := tiles.inside b (perm.mem_iff.mpr member)
  apart := (perm.pairwise_iff fun {_ _} apart => apart.symm).mp tiles.apart
  covered i above below := by
    obtain ⟨b, member, within⟩ := tiles.covered i above below
    exact ⟨b, perm.mem_iff.mp member, within⟩

theorem apart_of_ne (tiles : Tiles finshHeap heap all) {x y : StringBlock} (left : x ∈ all) (right : y ∈ all)
    (ne : x ≠ y) : x.Apart y :=
  tiles.apart.forall left right ne

theorem relinks (tiles : Tiles finshHeap heap all) (relinks : Relinks heap heap' nodes) (subset : nodes ⊆ all) :
    Tiles finshHeap heap' all where
  low := tiles.low
  high := tiles.high
  stored b member := by
    rw [relinks.length fun x written => ?_, tiles.stored b member]
    rcases eq_or_ne x b with rfl | ne
    · exact .inl rfl
    · exact .inr (tiles.apart_of_ne (subset written) member ne)
  inside := tiles.inside
  apart := tiles.apart
  covered := tiles.covered

theorem congr (tiles : Tiles finshHeap heap all) (bytes : heap'.bytes = heap.bytes) : Tiles finshHeap heap' all where
  low := tiles.low
  high := tiles.high
  stored b member := by
    rw [length, bytes]
    exact tiles.stored b member
  inside := tiles.inside
  apart := tiles.apart
  covered := tiles.covered

theorem sameData (tiles : Tiles finshHeap heap all) (rewrites : Rewrites heap heap' nodes) (subset : nodes ⊆ all) :
    SameData heap heap' all := by
  intro b member i above below
  apply rewrites
  intro x written
  rcases eq_or_ne x b with rfl | ne
  · exact .inr above
  · have apart := tiles.apart_of_ne (subset written) member ne
    simp only [Apart, stop] at apart below
    omega

theorem placed (tiles : Tiles finshHeap heap (nodes ++ all)) : Placed nodes where
  apart := (List.pairwise_append.mp tiles.apart).1
  low b member := Nat.lt_of_lt_of_le tiles.low (tiles.inside b (List.mem_append_left _ member)).1
  high b member := by
    have inside := tiles.inside b (List.mem_append_left _ member)
    have high := tiles.high
    simp only [stop] at inside
    omega

theorem few (tiles : Tiles finshHeap heap (nodes ++ all)) (ordered : Ordered nodes) : nodes.length < rounds := by
  have bound := length_le ordered (List.pairwise_append.mp tiles.apart).1
    fun b member => tiles.inside b (List.mem_append_left _ member)
  rw [Nat.add_sub_cancel_left] at bound
  rw [rounds]
  omega

theorem across (tiles : Tiles finshHeap heap (nodes ++ all)) {x y : StringBlock} (left : x ∈ nodes) (right : y ∈ all) :
    x.Apart y :=
  (List.pairwise_append.mp tiles.apart).2.2 x left y right

variable {rest : List StringBlock} {b : StringBlock} {size : ℕ}

theorem absorb {p g : StringBlock} (tiles : Tiles finshHeap heap (p :: g :: rest)) (touch : p.stop = g.addr) (next : ℕ)
    :
    Tiles finshHeap (heap.absorb p.addr (g.len + 8) next) (p.join g :: rest) := by
  have stops := join_stop touch
  have insideP := tiles.inside p (by simp)
  have insideG := tiles.inside g (by simp)
  have high := tiles.high
  obtain ⟨apartP, tailApart⟩ := List.pairwise_cons.mp tiles.apart
  obtain ⟨apartG, restApart⟩ := List.pairwise_cons.mp tailApart
  have rewrites : Rewrites heap (heap.absorb p.addr (g.len + 8) next) [p] := absorb_rewrites _ _ _ _
  have fits : heap.length p.addr + (g.len + 8) < 2 ^ 32 := by
    rw [tiles.stored p (by simp)]
    simp only [stop] at insideP insideG touch
    omega
  refine ⟨tiles.low, high, ?_, ?_, ?_, ?_⟩
  · refine List.forall_mem_cons.mpr ⟨?_, fun b member => ?_⟩
    · rw [join_addr, StringHeap.absorb, length_setNext, length_setLength _ _ fits, tiles.stored p (by simp)]
      rfl
    · rw [rewrites.length fun x written => ?_, tiles.stored b (by simp [member])]
      rw [List.mem_singleton.mp written]
      exact apartP b (List.mem_cons_of_mem g member)
  · refine List.forall_mem_cons.mpr ⟨⟨insideP.1, stops ▸ insideG.2⟩, fun b member => ?_⟩
    exact tiles.inside b (by simp [member])
  · refine List.pairwise_cons.mpr ⟨fun y member => ?_, restApart⟩
    have clearP := apartP y (List.mem_cons_of_mem g member)
    have clearG := apartG y member
    simp only [Apart, stops, join_addr]
    simp only [Apart, stop] at clearP clearG touch ⊢
    omega
  · intro i above below
    obtain ⟨b, member, within⟩ := tiles.covered i above below
    rcases List.mem_cons.mp member with rfl | member
    · refine ⟨b.join g, List.mem_cons_self, within.1, ?_⟩
      rw [stops]
      simp only [stop] at within touch ⊢
      omega
    rcases List.mem_cons.mp member with rfl | member
    · refine ⟨p.join b, List.mem_cons_self, ?_, stops ▸ within.2⟩
      simp only [join_addr, stop] at within touch ⊢
      omega
    · exact ⟨b, List.mem_cons_of_mem _ member, within⟩

/-- `finsh_block_split` where nothing wraps. -/
theorem blockSplit_eq (tiles : Tiles finshHeap heap (b :: rest)) (fits : size + 8 ≤ b.len) :
    heap.blockSplit b.addr size =
      (((heap.setLength (b.upper size).addr (b.upper size).len).setLength b.addr size).setNext (b.upper size).addr
        (heap.next b.addr)).setNext b.addr (b.upper size).addr := by
  have inside := tiles.inside b List.mem_cons_self
  have high := tiles.high
  have stored := tiles.stored b List.mem_cons_self
  simp only [stop] at inside
  have address : (b.addr + 8 + size) % 2 ^ 32 = (b.upper size).addr := Nat.mod_eq_of_lt (by omega)
  have left : (b.len + (2 ^ 32 - 8) + (2 ^ 32 - size)) % 2 ^ 32 = (b.upper size).len := by
    simp only [StringBlock.upper]
    omega
  have apart : (b.upper size).addr + 8 ≤ b.addr ∨ b.addr + 8 ≤ (b.upper size).addr := by
    simp only [StringBlock.upper]
    omega
  simp only [blockSplit, address, stored, left]
  rw [next_setLength, next_setLength_apart _ _ apart]

/-- `finsh_block_split` writes the headers of the two parts. -/
theorem blockSplit_rewrites (tiles : Tiles finshHeap heap (b :: rest)) (fits : size + 8 ≤ b.len) :
    Rewrites heap (heap.blockSplit b.addr size) [b.lower size, b.upper size] := by
  have lower : b.lower size ∈ [b.lower size, b.upper size] := List.mem_cons_self
  have upper : b.upper size ∈ [b.lower size, b.upper size] := List.mem_cons_of_mem _ List.mem_cons_self
  rw [tiles.blockSplit_eq fits]
  exact (((rewrites_setLength upper _).trans (rewrites_setLength lower _)).trans (rewrites_setNext upper _)).trans
    (rewrites_setNext lower _)

theorem blockSplit_headers (tiles : Tiles finshHeap heap (b :: rest)) (fits : size + 8 ≤ b.len) :
    let heap' := heap.blockSplit b.addr size
    heap'.length b.addr = size ∧ heap'.next b.addr = (b.upper size).addr ∧
      heap'.length (b.upper size).addr = (b.upper size).len ∧ heap'.next (b.upper size).addr = heap.next b.addr := by
  have inside := tiles.inside b List.mem_cons_self
  have high := tiles.high
  have apart : (b.upper size).addr + 8 ≤ b.addr ∨ b.addr + 8 ≤ (b.upper size).addr :=
    .inr (Nat.le_add_right ..)
  simp only [stop] at inside
  have sizeFits : size < 2 ^ 32 := by omega
  have addrFits : (b.upper size).addr < 2 ^ 32 := by
    simp only [StringBlock.upper]
    omega
  have lenFits : (b.upper size).len < 2 ^ 32 := by
    simp only [StringBlock.upper]
    omega
  rw [tiles.blockSplit_eq fits]
  refine ⟨?_, next_setNext _ _ addrFits, ?_, ?_⟩
  · rw [length_setNext, length_setNext_apart _ _ apart, length_setLength _ _ sizeFits]
  · rw [length_setNext_apart _ _ apart.symm, length_setNext, length_setLength_apart _ _ apart.symm,
      length_setLength _ _ lenFits]
  · rw [next_setNext_apart _ _ apart.symm, next_setNext _ _ (next_lt _ _)]

theorem split (tiles : Tiles finshHeap heap (b :: rest)) (fits : size + 8 ≤ b.len) :
    Tiles finshHeap (heap.blockSplit b.addr size) (b.lower size :: b.upper size :: rest) := by
  have inside := tiles.inside b List.mem_cons_self
  have stops := upper_stop fits
  have rewrites := tiles.blockSplit_rewrites fits
  obtain ⟨lengthLower, -, lengthUpper, -⟩ := tiles.blockSplit_headers fits
  obtain ⟨apartB, restApart⟩ := List.pairwise_cons.mp tiles.apart
  refine ⟨tiles.low, tiles.high, ?_, ?_, ?_, ?_⟩
  · refine List.forall_mem_cons.mpr ⟨lengthLower, List.forall_mem_cons.mpr ⟨lengthUpper, ?_⟩⟩
    intro x member
    rw [rewrites.length fun y written => ?_, tiles.stored x (List.mem_cons_of_mem b member)]
    exact apart_of_cut fits (apartB x member) y written
  · refine List.forall_mem_cons.mpr ⟨⟨inside.1, ?_⟩, List.forall_mem_cons.mpr ⟨⟨?_, stops ▸ inside.2⟩, ?_⟩⟩
    · simp only [StringBlock.lower, stop] at inside ⊢
      omega
    · simp only [StringBlock.upper]
      omega
    · exact fun x member => tiles.inside x (List.mem_cons_of_mem b member)
  · refine List.pairwise_cons.mpr ⟨List.forall_mem_cons.mpr ⟨lower_apart_upper b size, fun x member => ?_⟩,
      List.pairwise_cons.mpr ⟨fun x member => ?_, restApart⟩⟩
    · exact apart_of_cut fits (apartB x member) _ (by simp)
    · exact apart_of_cut fits (apartB x member) _ (by simp)
  · intro i above below
    obtain ⟨x, member, within⟩ := tiles.covered i above below
    rcases List.mem_cons.mp member with rfl | member
    · rcases Nat.lt_or_ge i (x.upper size).addr with low | high
      · exact ⟨x.lower size, by simp, within.1, low⟩
      · exact ⟨x.upper size, by simp, high, stops ▸ within.2⟩
    · exact ⟨x, by simp [member], within⟩

end Tiles

end StringHeap

end Finsh
