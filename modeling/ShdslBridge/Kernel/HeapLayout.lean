import ShdslBridge.Kernel.Heap
import Mathlib.Algebra.BigOperators.Group.List.Basic
import Mathlib.Data.List.Chain

/-! # The blocks that a heap holds

A list of blocks is the abstract value of the heap: a free block is its extent, a used block is the
content of its data area. `Chain` says that the headers in memory describe this list from an offset
on, and `Layout` adds the static variables and that no two free blocks are neighbours. What the
operations do to a heap is said about the list: two free blocks become one, a block is cut in two,
a block changes hands.
-/

namespace RtThread

open LittleEndian Memory

inductive Block
  | free (span : ℕ)
  | used (content : List (BitVec 8))

namespace Block

/-- The bytes from this header to the next one. -/
@[simp] def span : Block → ℕ
  | free span => span
  | used content => sizeofStructMem + content.length

/-- The `used` field. -/
@[simp] def flag : Block → ℕ
  | free _ => 0
  | used _ => 1

end Block

/-! ## Headers -/

namespace Heap

theorem load_store (heap : Heap) (address len number : ℕ) (fits : number < 256 ^ len) :
    (heap.store address len number).load address len = number :=
  readNat_writeNat heap.bytes address len number fits

theorem load_store_outside (heap : Heap) (address len number : ℕ) {other width : ℕ}
    (apart : other + width ≤ address ∨ address + len ≤ other) :
    (heap.store address len number).load other width = heap.load other width :=
  readNat_writeNat_outside heap.bytes address len number apart

theorem store_outside (heap : Heap) (address len number : ℕ) {i : ℕ}
    (outside : i < address ∨ address + len ≤ i) :
    (heap.store address len number).bytes i = heap.bytes i :=
  writeNat_outside heap.bytes address len number outside

@[simp] theorem store_bytes (heap : Heap) (address len number : ℕ) :
    (heap.store address len number).bytes = writeNat heap.bytes address len number := rfl

@[simp] theorem store_usedMem (heap : Heap) (address len number : ℕ) :
    (heap.store address len number).usedMem = heap.usedMem := rfl

theorem load_congr {heap other : Heap} {address len : ℕ}
    (agree : ∀ i, address ≤ i → i < address + len → other.bytes i = heap.bytes i) :
    other.load address len = heap.load address len :=
  readNat_congr agree

end Heap

/-- The header of a block and, if it is used, the bytes of its data area. -/
structure Block.Stored (heap : Heap) (prev off : ℕ) (block : Block) : Prop where
  used : heap.used off = block.flag
  next : heap.next off = off + block.span
  prev : heap.prev off = prev
  wide : sizeofStructMem ≤ block.span
  aligned : 8 ∣ block.span
  content : ∀ content, block = .used content →
    heap.magic off = heapMagic ∧ readAt heap.bytes (off + sizeofStructMem) content.length = content

/-- The blocks from an offset on, whose predecessor starts at `prev`. -/
def Chain (heap : Heap) : ℕ → ℕ → List Block → Prop
  | _, _, [] => True
  | prev, off, block :: rest => block.Stored heap prev off ∧ Chain heap off (off + block.span) rest

def extent (blocks : List Block) : ℕ := (blocks.map Block.span).sum

def lastOffset : ℕ → ℕ → List Block → ℕ
  | prev, _, [] => prev
  | _, off, block :: rest => lastOffset off (off + block.span) rest

@[simp] theorem extent_nil : extent [] = 0 := rfl

@[simp] theorem extent_cons (block : Block) (rest : List Block) :
    extent (block :: rest) = block.span + extent rest := by
  simp [extent]

@[simp] theorem extent_append (left right : List Block) :
    extent (left ++ right) = extent left + extent right := by
  simp [extent]

@[simp] theorem chain_nil (heap : Heap) (prev off : ℕ) : Chain heap prev off [] := trivial

@[simp] theorem chain_cons (heap : Heap) (prev off : ℕ) (block : Block) (rest : List Block) :
    Chain heap prev off (block :: rest) ↔
      block.Stored heap prev off ∧ Chain heap off (off + block.span) rest := Iff.rfl

theorem chain_append (heap : Heap) (prev off : ℕ) (left right : List Block) :
    Chain heap prev off (left ++ right) ↔
      Chain heap prev off left ∧ Chain heap (lastOffset prev off left) (off + extent left) right := by
  induction left generalizing prev off with
  | nil => simp [lastOffset]
  | cons block rest ih => simp [ih, lastOffset, and_assoc, Nat.add_assoc]

@[simp] theorem lastOffset_concat (prev off : ℕ) (left : List Block) (block : Block) :
    lastOffset prev off (left ++ [block]) = off + extent left := by
  induction left generalizing prev off with
  | nil => simp [lastOffset]
  | cons head rest ih => simp [ih, lastOffset, Nat.add_assoc]

variable {prev off : ℕ} {blocks : List Block} {heap : Heap}

theorem Block.Stored.congr {heap other : Heap} {block : Block} (stored : block.Stored heap prev off)
    (agree : ∀ i, off ≤ i → i < off + block.span → other.bytes i = heap.bytes i) : block.Stored other prev off := by
  have wide := stored.wide
  simp only [sizeofStructMem] at wide
  have field (at_ len : ℕ) (inside : at_ + len ≤ 16) :
      other.load (off + at_) len = heap.load (off + at_) len := by
    apply Heap.load_congr
    intro i above below
    exact agree i (by omega) (by omega)
  refine ⟨?_, ?_, ?_, stored.wide, stored.aligned, ?_⟩
  · exact (field 2 2 (by omega)).trans stored.used
  · exact (field 4 4 (by omega)).trans stored.next
  · exact (field 8 4 (by omega)).trans stored.prev
  · rintro content rfl
    obtain ⟨magic, bytes⟩ := stored.content content rfl
    refine ⟨(field 0 2 (by omega)).trans magic, Eq.trans (readAt_congr ?_) bytes⟩
    intro i inside
    simp only [span, sizeofStructMem] at agree ⊢
    exact agree _ (by omega) (by omega)

theorem Chain.congr {heap other : Heap} (chain : Chain heap prev off blocks)
    (agree : ∀ i, off ≤ i → i < off + extent blocks → other.bytes i = heap.bytes i) : Chain other prev off blocks := by
  induction blocks generalizing prev off with
  | nil => trivial
  | cons block rest ih =>
    rw [extent_cons] at agree
    refine ⟨chain.1.congr fun i above below => agree i above (by omega), ih chain.2 ?_⟩
    intro i above below
    exact agree i (by omega) (by omega)

theorem Chain.relink (chain : Chain heap prev off blocks) {behind : ℕ} (fits : behind < 2 ^ 32) :
    Chain (heap.setPrev off behind) behind off blocks := by
  cases blocks with
  | nil => trivial
  | cons block rest =>
    obtain ⟨stored, rest⟩ := chain
    have wide := stored.wide
    simp only [sizeofStructMem] at wide
    refine ⟨⟨?_, ?_, ?_, stored.wide, stored.aligned, ?_⟩, rest.congr ?_⟩
    · exact (heap.load_store_outside _ _ _ (by omega)).trans stored.used
    · exact (heap.load_store_outside _ _ _ (by omega)).trans stored.next
    · exact heap.load_store _ _ _ (by omega)
    · rintro content rfl
      obtain ⟨magic, bytes⟩ := stored.content content rfl
      refine ⟨(heap.load_store_outside _ _ _ (by omega)).trans magic, Eq.trans (readAt_congr ?_) bytes⟩
      intro i inside
      exact heap.store_outside _ _ _ (by simp only [sizeofStructMem]; omega)
    · intro i above below
      exact heap.store_outside _ _ _ (by omega)

def freeOffsets : ℕ → List Block → List ℕ
  | _, [] => []
  | off, .free span :: rest => off :: freeOffsets (off + span) rest
  | off, .used content :: rest => freeOffsets (off + sizeofStructMem + content.length) rest

/-- The content of the used block whose data area starts at `rmem`. -/
def contentAt : ℕ → List Block → ℕ → Option (List (BitVec 8))
  | _, [], _ => none
  | off, .free span :: rest, rmem => contentAt (off + span) rest rmem
  | off, .used content :: rest, rmem =>
    if rmem = off + sizeofStructMem then some content
    else contentAt (off + sizeofStructMem + content.length) rest rmem

def usedSpan : List Block → ℕ
  | [] => 0
  | .free _ :: rest => usedSpan rest
  | .used content :: rest => sizeofStructMem + content.length + usedSpan rest

theorem freeOffsets_append (off : ℕ) (left right : List Block) :
    freeOffsets off (left ++ right) = freeOffsets off left ++ freeOffsets (off + extent left) right := by
  induction left generalizing off with
  | nil => simp [freeOffsets]
  | cons block rest ih => cases block <;> simp [freeOffsets, ih, Nat.add_assoc]

theorem contentAt_append (off : ℕ) (left right : List Block) (rmem : ℕ) :
    contentAt off (left ++ right) rmem =
      (contentAt off left rmem).or (contentAt (off + extent left) right rmem) := by
  induction left generalizing off with
  | nil => simp [contentAt]
  | cons block rest ih =>
    cases block with
    | free span => simp [contentAt, ih, Nat.add_assoc]
    | used content =>
      by_cases here : rmem = off + sizeofStructMem
      · simp [contentAt, here]
      · simp [contentAt, here, ih, Nat.add_assoc]

theorem usedSpan_append (left right : List Block) :
    usedSpan (left ++ right) = usedSpan left + usedSpan right := by
  induction left with
  | nil => simp [usedSpan]
  | cons block rest ih => cases block <;> simp [usedSpan, ih, Nat.add_assoc]

theorem usedSpan_le_extent (blocks : List Block) : usedSpan blocks ≤ extent blocks := by
  induction blocks with
  | nil => rfl
  | cons block rest ih =>
    cases block with
    | free span => simp only [usedSpan, extent_cons, Block.span]; omega
    | used content => simp only [usedSpan, extent_cons, Block.span]; omega

theorem mem_freeOffsets {off mem : ℕ} :
    mem ∈ freeOffsets off blocks ↔
      ∃ left span right, blocks = left ++ .free span :: right ∧ mem = off + extent left := by
  constructor
  · intro member
    induction blocks generalizing off with
    | nil => simp [freeOffsets] at member
    | cons block rest ih =>
      cases block with
      | free span =>
        rcases List.mem_cons.mp member with rfl | later
        · exact ⟨[], span, rest, rfl, by simp⟩
        · obtain ⟨left, other, right, rfl, rfl⟩ := ih later
          exact ⟨.free span :: left, other, right, rfl, by simp [Nat.add_assoc]⟩
      | used content =>
        obtain ⟨left, other, right, rfl, rfl⟩ := ih member
        exact ⟨.used content :: left, other, right, rfl, by simp [Nat.add_assoc]⟩
  · rintro ⟨left, span, right, rfl, rfl⟩
    simp [freeOffsets_append, freeOffsets]

theorem contentAt_split {off rmem : ℕ} {content : List (BitVec 8)} (found : contentAt off blocks rmem = some content) :
    ∃ left right, blocks = left ++ .used content :: right ∧ rmem = off + extent left + sizeofStructMem := by
  induction blocks generalizing off with
  | nil => simp [contentAt] at found
  | cons block rest ih =>
    cases block with
    | free span =>
      obtain ⟨left, right, rfl, rfl⟩ := ih found
      exact ⟨.free span :: left, right, rfl, by simp [Nat.add_assoc]⟩
    | used other =>
      rw [contentAt] at found
      split at found
      next here => exact ⟨[], rest, by rw [Option.some.inj found]; rfl, by simpa using here⟩
      next =>
        obtain ⟨left, right, rfl, rfl⟩ := ih found
        exact ⟨.used other :: left, right, rfl, by simp [Nat.add_assoc]⟩

theorem contentAt_bounds {off rmem : ℕ} {content : List (BitVec 8)} (found : contentAt off blocks rmem = some content) :
    off + sizeofStructMem ≤ rmem ∧ rmem + content.length ≤ off + extent blocks := by
  obtain ⟨left, right, rfl, rfl⟩ := contentAt_split found
  simp only [extent_append, extent_cons, Block.span]
  omega

/-- No data area starts before the first or behind the last block of the list. -/
theorem contentAt_outside {off rmem : ℕ} (outside : rmem < off + sizeofStructMem ∨ off + extent blocks < rmem) :
    contentAt off blocks rmem = none := by
  cases found : contentAt off blocks rmem with
  | none => rfl
  | some content =>
    have bounds := contentAt_bounds found
    omega

theorem contentAt_used (off : ℕ) (left right : List Block) (content : List (BitVec 8)) (rmem : ℕ) :
    contentAt off (left ++ .used content :: right) rmem =
      if rmem = off + extent left + sizeofStructMem then some content
      else contentAt off (left ++ .free (sizeofStructMem + content.length) :: right) rmem := by
  rw [contentAt_append, contentAt_append, contentAt, contentAt]
  split
  next here => rw [contentAt_outside (.inr (by simp only [here, sizeofStructMem]; omega)), Option.none_or]
  next => rw [Nat.add_assoc]

theorem contentAt_join (off : ℕ) (left right : List Block) (span more : ℕ) (rmem : ℕ) :
    contentAt off (left ++ .free (span + more) :: right) rmem =
      contentAt off (left ++ .free span :: .free more :: right) rmem := by
  simp only [contentAt_append, contentAt, Nat.add_assoc]

theorem contentAt_free (off : ℕ) (left right : List Block) {span : ℕ} (wide : 0 < span) :
    contentAt off (left ++ .free span :: right) (off + extent left + sizeofStructMem) = none := by
  rw [contentAt_append, contentAt, contentAt_outside (.inr ?_), contentAt_outside (.inl ?_), Option.or_none]
  · omega
  · simp only [sizeofStructMem]
    omega

/-- What the heap is about: its blocks in memory, its bounds and its accounts. -/
structure Represents (heap : Heap) (blocks : List Block) : Prop where
  chain : Chain heap 0 0 blocks
  total : extent blocks = heap.heapEnd
  size : heap.heapEnd = heap.memSizeAligned + sizeofStructMem
  bound : heap.heapPtr + heap.heapEnd + sizeofStructMem ≤ 2 ^ 32
  aligned : 8 ∣ heap.heapPtr
  endUsed : heap.used heap.heapEnd = 1
  endNext : heap.next heap.heapEnd = heap.heapEnd
  lfree : heap.lfree ∈ freeOffsets 0 blocks ∨ heap.lfree = heap.heapEnd
  usedMem : heap.usedMem = usedSpan blocks

/-- No two neighbours are both free. -/
def Apart (blocks : List Block) : Prop :=
  blocks.IsChain fun block behind => block.flag = 0 → behind.flag ≠ 0

/-- `lfree` is not behind any free block. -/
def Lowest (heap : Heap) (blocks : List Block) : Prop :=
  ∀ mem ∈ freeOffsets 0 blocks, heap.lfree ≤ mem

/-- What one half of `plug_holes` stores. -/
theorem Heap.combine_eq (heap : Heap) {mem nmem target : ℕ} (behind : mem + sizeofStructMem ≤ nmem)
    (next : heap.next nmem = target) :
    heap.combine mem nmem =
      { (heap.setNext mem target).setPrev target mem with
        lfree := if heap.lfree = nmem then mem else heap.lfree } := by
  have same : (heap.setNext mem target).next nmem = target := by
    refine (heap.load_store_outside _ _ _ ?_).trans next
    simp only [sizeofStructMem] at behind
    omega
  rw [Heap.combine]
  split
  next here =>
    rw [show ({ heap with lfree := mem } : Heap).next nmem = target from next,
      show (({ heap with lfree := mem } : Heap).setNext mem target).next nmem = target from same]
    rfl
  next => rw [next, same]; rfl

theorem Heap.combine_lfree (heap : Heap) (mem nmem : ℕ) :
    (heap.combine mem nmem).lfree = if heap.lfree = nmem then mem else heap.lfree := by
  rw [Heap.combine]
  split <;> rfl

theorem Chain.mem_freeOffsets_bounds {prev off mem : ℕ} (chain : Chain heap prev off blocks)
    (member : mem ∈ freeOffsets off blocks) : off ≤ mem ∧ mem + sizeofStructMem ≤ off + extent blocks := by
  obtain ⟨left, span, right, rfl, rfl⟩ := mem_freeOffsets.mp member
  have wide := ((chain_append heap prev off left _).mp chain).2.1.wide
  simp only [extent_append, extent_cons, Block.span] at wide ⊢
  omega

theorem Chain.extent_cases (chain : Chain heap prev off blocks) : blocks = [] ∨ sizeofStructMem ≤ extent blocks := by
  cases blocks with
  | nil => exact .inl rfl
  | cons block rest =>
    have wide := chain.1.wide
    exact .inr (by rw [extent_cons]; omega)

theorem Chain.join {prev off span more : ℕ} {right : List Block} (fits : off + span + more < 2 ^ 32)
    (chain : Chain heap prev off (.free span :: .free more :: right)) :
    Chain ((heap.setNext off (off + span + more)).setPrev (off + span + more) off) prev off
      (.free (span + more) :: right) := by
  obtain ⟨stored, behind, chainRight⟩ := chain
  have wide : 16 ≤ span := stored.wide
  have wideBehind : 16 ≤ more := behind.wide
  refine ⟨⟨?_, ?_, ?_, ?_, Nat.dvd_add stored.aligned behind.aligned, by simp⟩, ?_⟩
  · refine (Heap.load_store_outside _ _ _ _ (by omega)).trans ?_
    exact (Heap.load_store_outside _ _ _ _ (by omega)).trans stored.used
  · refine (Heap.load_store_outside _ _ _ _ (by omega)).trans ?_
    exact (Heap.load_store _ _ _ _ fits).trans (Nat.add_assoc off span more)
  · refine (Heap.load_store_outside _ _ _ _ (by omega)).trans ?_
    exact (Heap.load_store_outside _ _ _ _ (by omega)).trans stored.prev
  · simp only [Block.span, sizeofStructMem]
    omega
  · have kept : Chain (heap.setNext off (off + span + more)) (off + span) (off + span + more) right := by
      refine chainRight.congr fun i above _ => ?_
      simp only [Block.span] at above
      exact heap.store_outside _ _ _ (by omega)
    have linked := kept.relink (show off < 2 ^ 32 by omega)
    rwa [Block.span, ← Nat.add_assoc]

/-- The headers have been rewritten, and the end block was not touched. -/
theorem Represents.edit {blocks others : List Block} (inv : Represents heap blocks) {bytes : ℕ → BitVec 8}
    {lfree usedMem maxMem : ℕ} (chain : Chain { heap with bytes } 0 0 others) (total : extent others = extent blocks)
    (kept : ∀ i, heap.heapEnd ≤ i → i < heap.heapEnd + 8 → bytes i = heap.bytes i)
    (free : lfree ∈ freeOffsets 0 others ∨ lfree = heap.heapEnd) (account : usedMem = usedSpan others) :
    Represents { heap with bytes, lfree, usedMem, maxMem } others := by
  have field (at_ len : ℕ) (inside : at_ + len ≤ 8) :
      ({ heap with bytes } : Heap).load (heap.heapEnd + at_) len = heap.load (heap.heapEnd + at_) len := by
    apply Heap.load_congr
    intro i above below
    exact kept i (by omega) (by omega)
  exact
    { chain := chain.congr fun _ _ _ => rfl
      total := total.trans inv.total
      size := inv.size
      bound := inv.bound
      aligned := inv.aligned
      endUsed := (field 2 2 (by omega)).trans inv.endUsed
      endNext := (field 4 4 (by omega)).trans inv.endNext
      lfree := free
      usedMem := account }

theorem Represents.combine {left right : List Block} {span more : ℕ}
    (inv : Represents heap (left ++ .free span :: .free more :: right)) :
    Represents (heap.combine (extent left) (extent left + span)) (left ++ .free (span + more) :: right) := by
  have ⟨chainLeft, chainRight⟩ := (chain_append heap 0 0 left _).mp inv.chain
  rw [Nat.zero_add] at chainRight
  have wide : 16 ≤ span := chainRight.1.wide
  have wideBehind : 16 ≤ more := chainRight.2.1.wide
  have target : heap.next (extent left + span) = extent left + span + more := chainRight.2.1.next
  have total : extent left + (span + (more + extent right)) = heap.heapEnd := by simpa using inv.total
  have bound : heap.heapPtr + heap.heapEnd + 16 ≤ 2 ^ 32 := inv.bound
  have room : extent right = 0 ∨ 16 ≤ extent right :=
    chainRight.2.2.extent_cases.imp_left fun nil => by rw [nil]; rfl
  rw [heap.combine_eq (Nat.add_le_add_left wide _) target]
  refine inv.edit ?_ ?_ ?_ ?_ ?_
  · rw [chain_append, Nat.zero_add]
    refine ⟨chainLeft.congr fun i _ below => ?_, chainRight.join (by omega)⟩
    rw [Nat.zero_add] at below
    exact (Heap.store_outside _ _ _ _ (by omega)).trans (Heap.store_outside _ _ _ _ (by omega))
  · simp [Nat.add_assoc]
  · intro i above below
    exact (Heap.store_outside _ _ _ _ (by omega)).trans (Heap.store_outside _ _ _ _ (by omega))
  · have lfree := inv.lfree
    simp only [freeOffsets_append, freeOffsets, Nat.zero_add, List.mem_append, List.mem_cons] at lfree ⊢
    split
    next => exact .inl (.inr (.inl rfl))
    next other =>
      rw [Nat.add_assoc] at lfree
      rcases lfree with (inLeft | here | swallowed | inRight) | atEnd
      · exact .inl (.inl inLeft)
      · exact .inl (.inr (.inl here))
      · exact absurd swallowed other
      · exact .inl (.inr (.inr inRight))
      · exact .inr atEnd
  · have account := inv.usedMem
    simp only [usedSpan_append, usedSpan] at account ⊢
    exact account

end RtThread
