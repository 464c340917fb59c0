import ShdslBridge.Kernel.HeapCalls
import ShdslBridge.Kernel.MemPool
import ShdslBridge.Lib.LinkedList

/-! # No block of a memory pool is lost, shared or handed out twice

The free blocks are a list through the words in front of them, and the word in front of a block
that is handed out names the pool. The two kinds of blocks partition the pool as long as no
release believes the counter of the waiting threads about an empty list: such a release takes the
pool itself for a thread and clears a word behind its structure, where the next block may be.
-/

namespace RtThread

open LittleEndian LinkedList Memory

variable {τ : Type*} [DecidableEq τ]

namespace RtMempool

def blocks (mp : RtMempool τ) : List ℕ :=
  (List.range mp.blockTotalCount).map fun offset => mp.startAddress + offset * mp.stride

/-- The pool lies in the address space, behind the null pointer. -/
structure Placed (mp : RtMempool τ) : Prop where
  address : mp.address < 2 ^ 32
  given : 0 < mp.startAddress
  memory : mp.startAddress + mp.blockTotalCount * mp.stride ≤ 2 ^ 32
  oneBlock : 0 < mp.blockTotalCount

omit [DecidableEq τ]

theorem mem_blocks {mp : RtMempool τ} {block : ℕ} :
    block ∈ mp.blocks ↔ ∃ offset < mp.blockTotalCount, mp.startAddress + offset * mp.stride = block := by
  simp [blocks]

/-- Blocks at different offsets are apart, with the pointers in front of them. -/
theorem apart_of_lt (mp : RtMempool τ) {left right : ℕ} (less : left < right) :
    mp.startAddress + left * mp.stride + mp.stride ≤ mp.startAddress + right * mp.stride := by
  have scaled : (left + 1) * mp.stride ≤ right * mp.stride := Nat.mul_le_mul_right mp.stride less
  rw [Nat.add_mul, Nat.one_mul] at scaled
  omega

theorem apart_of_ne {mp : RtMempool τ} {block other : ℕ} (member : block ∈ mp.blocks) (member' : other ∈ mp.blocks)
    (ne : block ≠ other) : block + mp.stride ≤ other ∨ other + mp.stride ≤ block := by
  obtain ⟨left, -, rfl⟩ := mem_blocks.mp member
  obtain ⟨right, -, rfl⟩ := mem_blocks.mp member'
  rcases Nat.lt_trichotomy left right with less | same | more
  · exact .inl (mp.apart_of_lt less)
  · exact absurd (by rw [same]) ne
  · exact .inr (mp.apart_of_lt more)

theorem blocks_nodup (mp : RtMempool τ) : mp.blocks.Nodup := by
  refine (List.nodup_map_iff_inj_on List.nodup_range).mpr ?_
  intro left _ right _ same
  have wide : 0 < mp.stride := Nat.succ_pos _
  exact Nat.eq_of_mul_eq_mul_right wide (Nat.add_left_cancel same)

namespace Placed

variable {mp : RtMempool τ}

theorem fits (placed : mp.Placed) {offset : ℕ} (inside : offset < mp.blockTotalCount) :
    mp.startAddress + offset * mp.stride + mp.stride ≤ 2 ^ 32 :=
  (mp.apart_of_lt inside).trans placed.memory

theorem blockAddress (placed : mp.Placed) {offset : ℕ} (inside : offset < mp.blockTotalCount) :
    mp.blockAddress offset = mp.startAddress + offset * mp.stride := by
  have wide : 0 < mp.stride := Nat.succ_pos _
  have room := placed.fits inside
  exact word32_of_lt (by omega)

theorem block_pos (placed : mp.Placed) {block : ℕ} (member : block ∈ mp.blocks) : 0 < block := by
  obtain ⟨offset, -, rfl⟩ := mem_blocks.mp member
  have given := placed.given
  omega

theorem block_lt (placed : mp.Placed) {block : ℕ} (member : block ∈ mp.blocks) : block < 2 ^ 32 := by
  obtain ⟨offset, inside, rfl⟩ := mem_blocks.mp member
  have wide : 0 < mp.stride := Nat.succ_pos _
  have room := placed.fits inside
  omega

end Placed

def pointer (word : ℕ) : Option ℕ := if word = 0 then none else some word

def link (bytes : ℕ → BitVec 8) (block : ℕ) : Option ℕ := pointer (readNat bytes block 4)

theorem pointer_pos {word : ℕ} (pos : 0 < word) : pointer word = some word := by
  simp [pointer, Nat.ne_of_gt pos]

/-- A store in front of one block leaves the pointers in front of the others. -/
theorem readNat_other {mp : RtMempool τ} {block other : ℕ} (member : block ∈ mp.blocks)
    (member' : other ∈ mp.blocks) (ne : other ≠ block) (bytes : ℕ → BitVec 8) (number : ℕ) :
    readNat (writeNat bytes block 4 number) other 4 = readNat bytes other 4 := by
  apply readNat_writeNat_outside
  have apart := apart_of_ne member member' ne.symm
  simp only [stride] at apart
  omega

/-- After `count` passes of the loop the first `count` blocks are linked to the next one. -/
theorem readNat_linkLoop {mp : RtMempool τ} (placed : mp.Placed) (bytes : ℕ → BitVec 8) {count : ℕ}
    (within : count ≤ mp.blockTotalCount) {offset : ℕ} (passed : offset < count) :
    readNat ((List.range count).foldl
        (fun bytes offset => writeNat bytes (mp.blockAddress offset) 4 (mp.blockAddress (offset + 1))) bytes)
      (mp.startAddress + offset * mp.stride) 4 = mp.blockAddress (offset + 1) := by
  induction count with
  | zero => exact absurd passed (Nat.not_lt_zero _)
  | succ count ih =>
    rw [List.range_succ, List.foldl_append, List.foldl_cons, List.foldl_nil, placed.blockAddress within]
    rcases Nat.lt_succ_iff_lt_or_eq.mp passed with before | rfl
    · have other := mp.apart_of_lt before
      have outside : mp.startAddress + offset * mp.stride + 4 ≤ mp.startAddress + count * mp.stride := by
        simp only [stride] at other ⊢
        omega
      rw [readNat_writeNat_outside _ _ _ _ (.inl outside)]
      exact ih (by omega) before
    · exact readNat_writeNat _ _ _ _ (Nat.mod_lt _ (by decide))

theorem linked_linkBlocks {mp : RtMempool τ} (placed : mp.Placed) (bytes : ℕ → BitVec 8) :
    Linked (link (mp.linkBlocks bytes)) (pointer mp.startAddress) mp.blocks := by
  obtain ⟨count, total⟩ : ∃ count, mp.blockTotalCount = count + 1 :=
    Nat.exists_eq_succ_of_ne_zero (Nat.ne_of_gt placed.oneBlock)
  have small : count + 1 < 2 ^ 32 := by
    have room := placed.fits (show count < mp.blockTotalCount by omega)
    have scaled : count * 4 ≤ count * mp.stride := Nat.mul_le_mul_left count (Nat.le_add_left 4 mp.blockSize)
    have given := placed.given
    simp only [stride] at room scaled
    omega
  have lastOffset : mp.blockAddress (sub32 mp.blockTotalCount 1) = mp.startAddress + count * mp.stride := by
    rw [total, sub32_of_le (by omega) small, Nat.add_sub_cancel]
    exact placed.blockAddress (by omega)
  have first : pointer mp.startAddress = some (mp.startAddress + 0 * mp.stride) := by
    rw [Nat.zero_mul, Nat.add_zero, pointer_pos placed.given]
  rw [first, blocks, total, List.range_eq_range']
  apply linked_range' fun offset => mp.startAddress + offset * mp.stride
  · intro offset _ before
    have other := mp.apart_of_lt (show offset < count by omega)
    have next : mp.startAddress + (offset + 1) * mp.stride ∈ mp.blocks :=
      mem_blocks.mpr ⟨offset + 1, by omega, rfl⟩
    have outside : mp.startAddress + offset * mp.stride + 4 ≤ mp.startAddress + count * mp.stride := by
      simp only [stride] at other ⊢
      omega
    rw [link, linkBlocks, lastOffset, readNat_writeNat_outside _ _ _ _ (.inl outside),
      readNat_linkLoop placed bytes (Nat.le_refl _) (by omega), placed.blockAddress (by omega),
      pointer_pos (placed.block_pos next)]
  · rw [Nat.zero_add, link, linkBlocks, lastOffset, readNat_writeNat _ _ _ _ (by decide)]
    rfl

end RtMempool

omit [DecidableEq τ] in
/-- A set-up whose product of block count and stride does not wrap places the pool. -/
theorem MpSetUp.placed {mp : RtMempool τ} (setUp : MpSetUp mp)
    (noWrap : mp.blockTotalCount * mp.stride < 2 ^ 32) : mp.Placed := by
  cases setUp with
  | init address start size blockSize placed given memory oneBlock =>
    refine ⟨placed, given, ?_, oneBlock⟩
    have within := Nat.div_mul_le_self (rtAlignDown size) (rtAlign blockSize + 4)
    simp only [RtMempool.stride, rtMpInit]
    omega
  | create address start blockCount blockSize placed given memory oneBlock counted =>
    refine ⟨placed, given, ?_, oneBlock⟩
    simp only [RtMempool.stride, rtMpCreate] at noWrap ⊢
    rw [Nat.mul_comm] at noWrap
    rw [word32_of_lt noWrap] at memory
    rw [Nat.mul_comm]
    exact memory

namespace MpState

open RtMempool

/-- What a pool promises about its blocks. -/
structure BlocksOk (s : MpState τ) : Prop where
  /-- The free list and the blocks handed out are disjoint, together they are all blocks, and the
  counter is the length of the free list. -/
  partition : ∃ free, Linked (link s.bytes) (pointer s.mp.blockList) free ∧ (free ++ s.live).Nodup ∧
    (free ++ s.live).Perm s.mp.blocks ∧ s.mp.blockFreeCount = free.length
  owned : ∀ block ∈ s.live, s.header block = s.mp.address
  apart : s.live.Pairwise fun block other => block + s.mp.stride ≤ other ∨ other + s.mp.stride ≤ block

/-- The free list of a pool, beside the blocks that are handed out. -/
structure Split (s : MpState τ) (free : List ℕ) : Prop where
  placed : s.mp.Placed
  linked : Linked (link s.bytes) (pointer s.mp.blockList) free
  perm : (free ++ s.live).Perm s.mp.blocks
  counted : s.mp.blockFreeCount = free.length
  owned : ∀ block ∈ s.live, s.header block = s.mp.address

namespace Split

variable {s : MpState τ} {free : List ℕ}

omit [DecidableEq τ]

theorem nodup (split : Split s free) : (free ++ s.live).Nodup :=
  split.perm.nodup_iff.mpr s.mp.blocks_nodup

variable {block : ℕ}

theorem free_mem (split : Split s free) (member : block ∈ free) : block ∈ s.mp.blocks :=
  split.perm.mem_iff.mp (List.mem_append_left _ member)

theorem live_mem (split : Split s free) (member : block ∈ s.live) : block ∈ s.mp.blocks :=
  split.perm.mem_iff.mp (List.mem_append_right _ member)

theorem blocksOk (split : Split s free) : s.BlocksOk where
  partition := ⟨free, split.linked, split.nodup, split.perm, split.counted⟩
  owned := split.owned
  apart := by
    have distinct : s.live.Pairwise (· ≠ ·) := (List.nodup_append.mp split.nodup).2.1
    refine distinct.imp_of_mem ?_
    intro block other member member' ne
    exact apart_of_ne (split.live_mem member) (split.live_mem member') ne

theorem frame (split : Split s free) {other : MpState τ} (bytes : other.bytes = s.bytes) (live : other.live = s.live)
    {list : List τ} {count : ℕ}
    (pool : other.mp = { s.mp with suspendThread := list, suspendThreadCount := count }) : Split other free := by
  obtain ⟨_, _, _, _, _⟩ := other
  obtain rfl := bytes
  obtain rfl := live
  obtain rfl := pool
  obtain ⟨⟨address, given, memory, oneBlock⟩, linked, perm, counted, owned⟩ := split
  exact ⟨⟨address, given, memory, oneBlock⟩, linked, perm, counted, owned⟩

theorem takeBlock {rest : List ℕ} (split : Split s (block :: rest)) : Split s.takeBlock rest := by
  have member := split.free_mem List.mem_cons_self
  obtain ⟨head, linked⟩ := split.linked
  have nonNull : s.mp.blockList ≠ 0 := by
    intro null
    simp [pointer, null] at head
  obtain rfl : s.mp.blockList = block := by simpa [pointer, nonNull] using head
  have distinct := split.nodup
  obtain ⟨notLater, -⟩ := List.nodup_cons.mp distinct
  have counted := split.counted
  simp only [MpState.takeBlock, if_neg nonNull]
  refine ⟨⟨split.placed.address, split.placed.given, split.placed.memory, split.placed.oneBlock⟩, ?_, ?_, ?_, ?_⟩
  · apply linked.frame
    intro other later
    have ne : other ≠ s.mp.blockList := fun same => notLater (same ▸ List.mem_append_left _ later)
    rw [link, link, readNat_other member (split.free_mem (List.mem_cons_of_mem _ later)) ne]
  · exact List.perm_middle.trans split.perm
  · simp [counted]
  · intro other taken
    rcases List.mem_cons.mp taken with rfl | before
    · exact readNat_writeNat _ _ _ _ split.placed.address
    · have ne : other ≠ s.mp.blockList := fun same => notLater (same ▸ List.mem_append_right _ before)
      rw [header, readNat_other member (split.live_mem before) ne]
      exact split.owned other before

theorem leave [DecidableEq τ] (split : Split s free) (caller : Option τ) (code : RtErr) :
    Split (s.leave caller code) free := by
  cases caller with
  | none => exact split
  | some thread => exact split.frame rfl rfl rfl

theorem wait [DecidableEq τ] (split : Split s free) (caller : Option τ) (time : BitVec 32) :
    Split (s.wait caller time) free := by
  cases caller with
  | none => exact split
  | some thread => exact split.frame rfl rfl rfl

theorem allocPass [DecidableEq τ] (split : Split s free) (caller : Option τ) (time : BitVec 32) :
    ∃ rest, Split (s.allocPass caller time) rest := by
  unfold MpState.allocPass
  split_ifs with empty
  · exact ⟨free, split.leave caller .etimeout⟩
  · exact ⟨free, split.wait caller time⟩
  · cases free with
    | nil => exact absurd split.counted empty
    | cons block rest =>
      cases caller with
      | none => exact ⟨rest, split.takeBlock⟩
      | some thread => exact ⟨rest, split.takeBlock.frame rfl rfl rfl⟩

theorem resumeAlloc [DecidableEq τ] (split : Split s free) (thread : τ) (time elapsed : BitVec 32) :
    ∃ rest, Split (s.resumeAlloc thread time elapsed) rest := by
  unfold MpState.resumeAlloc
  split_ifs
  · exact ⟨free, split.frame rfl rfl rfl⟩
  · exact split.allocPass (some thread) _

theorem blockList_lt (split : Split s free) : s.mp.blockList < 2 ^ 32 := by
  rcases Nat.eq_zero_or_pos s.mp.blockList with null | pos
  · rw [null]
    decide
  · obtain ⟨rest, rfl, -⟩ := (pointer_pos pos ▸ split.linked).cases_some
    exact split.placed.block_lt (split.free_mem List.mem_cons_self)

theorem giveBack (split : Split s free) (member : block ∈ s.live) :
    Split { s with
      mp := { s.mp with blockFreeCount := s.mp.blockFreeCount + 1, blockList := block }
      bytes := writeNat s.bytes block 4 s.mp.blockList
      live := s.live.erase block } (block :: free) := by
  have inPool := split.live_mem member
  have distinct := split.nodup
  have notFree : block ∉ free := fun free => List.disjoint_of_nodup_append distinct free member
  have liveDistinct : s.live.Nodup := (List.nodup_append.mp distinct).2.1
  refine ⟨⟨split.placed.address, split.placed.given, split.placed.memory, split.placed.oneBlock⟩, ?_, ?_, ?_, ?_⟩
  · refine ⟨pointer_pos (split.placed.block_pos inPool), ?_⟩
    rw [link, readNat_writeNat _ _ _ _ split.blockList_lt]
    apply split.linked.frame
    intro other later
    have ne : other ≠ block := fun same => notFree (same ▸ later)
    rw [link, link, readNat_other inPool (split.free_mem later) ne]
  · have moved : (free ++ s.live).Perm (block :: (free ++ s.live.erase block)) :=
      ((List.perm_cons_erase member).append_left free).trans List.perm_middle
    exact moved.symm.trans split.perm
  · simp [split.counted]
  · intro other still
    obtain ⟨ne, before⟩ := liveDistinct.mem_erase_iff.mp still
    change readNat (writeNat s.bytes block 4 s.mp.blockList) other 4 = s.mp.address
    rw [readNat_other inPool (split.live_mem before) ne]
    exact split.owned other before

theorem rtMpFree [DecidableEq τ] (split : Split s free) (member : block ∈ s.live)
    (found : 0 < s.mp.suspendThreadCount → s.mp.suspendThread ≠ []) : Split (s.rtMpFree block) (block :: free) := by
  have back := split.giveBack member
  unfold MpState.rtMpFree
  rcases Nat.eq_zero_or_pos s.mp.suspendThreadCount with nobody | several
  · simp only [nobody, Nat.lt_irrefl, if_false]
    exact back.frame rfl rfl rfl
  · obtain ⟨thread, rest, queue⟩ := List.exists_cons_of_ne_nil (found several)
    simp only [several, if_true, MpState.resumeFirst, queue]
    exact back.frame rfl rfl rfl

theorem write (split : Split s free) {block offset : ℕ} (member : block ∈ s.live)
    (inside : offset < s.mp.blockSize) (byte : BitVec 8) :
    Split { s with bytes := Function.update s.bytes (block + 4 + offset) byte } free := by
  have kept : ∀ other ∈ s.mp.blocks,
      readNat (Function.update s.bytes (block + 4 + offset) byte) other 4 = readNat s.bytes other 4 := by
    intro other inPool
    apply readNat_congr
    intro i above below
    apply Function.update_of_ne
    rcases eq_or_ne other block with rfl | ne
    · omega
    · have apart := apart_of_ne inPool (split.live_mem member) ne
      simp only [stride] at apart
      omega
  refine ⟨split.placed, ?_, split.perm, split.counted, ?_⟩
  · apply split.linked.frame
    intro other later
    rw [link, link, kept other (split.free_mem later)]
  · intro other taken
    rw [header, kept other (split.live_mem taken)]
    exact split.owned other taken

theorem step [DecidableEq τ] (split : Split s free) {event : MpEvent τ} (finds : s.ResumesLinked event) :
    ∃ rest, Split (s.step event) rest := by
  cases event with
  | alloc caller time =>
    cases caller with
    | none => exact split.allocPass none time
    | some thread =>
      rw [MpState.step]
      split_ifs
      · exact split.allocPass (some thread) time
      · exact ⟨free, split⟩
  | free block =>
    rw [MpState.step]
    split_ifs with can
    · exact ⟨block :: free, split.rtMpFree can.1 (finds can)⟩
    · exact ⟨free, split⟩
  | write block offset byte =>
    rw [MpState.step]
    split_ifs with can
    · exact ⟨free, split.write can.1 can.2 byte⟩
    · exact ⟨free, split⟩
  | timeout thread =>
    rw [MpState.step]
    split_ifs
    · exact ⟨free, split.frame rfl rfl rfl⟩
    · exact ⟨free, split⟩
  | wake thread elapsed =>
    rw [MpState.step]
    split
    · exact ⟨free, split⟩
    · split_ifs
      · exact split.resumeAlloc thread _ elapsed
      · exact ⟨free, split⟩

end Split

omit [DecidableEq τ] in
theorem split_start {mp : RtMempool τ} (placed : mp.Placed) (full : mp.blockFreeCount = mp.blockTotalCount)
    (first : mp.blockList = mp.startAddress) (bytes : ℕ → BitVec 8) (threads : τ → Thread) :
    Split (start mp bytes threads) mp.blocks where
  placed := placed
  linked := by
    simp only [start, first]
    exact linked_linkBlocks placed bytes
  perm := List.Perm.of_eq (List.append_nil mp.blocks)
  counted := full.trans (by rw [blocks, List.length_map, List.length_range])
  owned := fun _ member => absurd member List.not_mem_nil

end MpState

omit [DecidableEq τ] in
theorem MpSetUp.full {mp : RtMempool τ} (setUp : MpSetUp mp) :
    mp.blockFreeCount = mp.blockTotalCount ∧ mp.blockList = mp.startAddress := by
  cases setUp with
  | init => exact ⟨rfl, rfl⟩
  | create => exact ⟨rfl, rfl⟩

namespace MpState

/-- In every run whose releases find a thread in the list whenever one is counted, the free list
and the blocks handed out partition the pool in every state. -/
theorem blocksOk_of_resumesLinked {mp : RtMempool τ} (setUp : MpSetUp mp)
    (noWrap : mp.blockTotalCount * mp.stride < 2 ^ 32) (bytes : ℕ → BitVec 8) (threads : τ → Thread)
    {events : List (MpEvent τ)} (finds : Run.Along step ResumesLinked (start mp bytes threads) events) :
    Run.Always step BlocksOk (start mp bytes threads) events := by
  have first : ∃ free, Split (start mp bytes threads) free :=
    ⟨_, split_start (setUp.placed noWrap) setUp.full.1 setUp.full.2 bytes threads⟩
  have keeps : ∀ (s : MpState τ) (event : MpEvent τ), (∃ free, Split s free) → s.ResumesLinked event →
      ∃ free, Split (s.step event) free := by
    rintro s event ⟨free, split⟩ finds
    exact split.step finds
  refine finds.always keeps ?_ first
  rintro s ⟨free, split⟩
  exact split.blocksOk

/-- The waiter of the small pool gets the block that is given back. -/
theorem blocksOk_handedOver : Run.Always step BlocksOk smallPool
    [.alloc (some false) 0, .alloc (some false) 0, .alloc (some true) 5, .free 0x2000003c, .wake true 2] :=
  blocksOk_of_resumesLinked (.init 0x20000000 0x2000003c 24 8 (by decide) (by decide) (by decide) (by decide))
    (by decide) (fun _ => 0) _ (by simp only [Run.along_cons, Run.along_nil, ResumesLinked]; decide)

/-- After the wait that expired, the release of the first block clears the pointer in front of the
second one, which is still handed out. -/
theorem expiredWait_not_blocksOk :
    ¬ Run.Always step BlocksOk smallPool (expiredWait ++ [.free 0x2000003c]) := by
  intro always
  have last := always.last
  have live : 0x20000048 ∈ (Run.exec step smallPool (expiredWait ++ [.free 0x2000003c])).live := by decide
  have owned := last.owned 0x20000048 live
  revert owned
  decide

end MpState
end RtThread
