import ShdslBridge.Driver.Mpi
import ShdslBridge.Lib.Ring

/-! # The ring of receive blocks

The MPI and the SCI interrupt fill the same ring, and one read call drains it. `RingInv` describes
the ring by the number of blocks between the cursors: the blocks outside are empty, and a ring
without a free block has its full flag set. The flag may also be set when it should not be, because
only the next stored block clears it; then a read of an empty ring takes a block all the same.
-/

namespace Pef24628e

open Ring

/-- `count` blocks are occupied, starting at the read pointer; the others hold no bytes. -/
structure RingInv (pDev : Dev) (count : ℕ) : Prop where
  bound : count ≤ recFifoBlkNum
  write : pDev.pRxFifoWrite = slot pDev.pRxFifoRead count
  flagged : count = recFifoBlkNum → pDev.bRxFifoFull = true
  free : ∀ i, count ≤ i → i < recFifoBlkNum → (pDev.rxFifo (slot pDev.pRxFifoRead i)).nBytes = 0

/-- Filling the block under the write pointer and advancing it, with the full flag set when the
cursors meet. -/
structure BlkStored (blk : RxFifo) (source target : Dev) : Prop where
  rxFifo : target.rxFifo = Function.update source.rxFifo source.pRxFifoWrite blk
  write : target.pRxFifoWrite = source.pRxFifoWrite + 1
  read : target.pRxFifoRead = source.pRxFifoRead
  full : target.bRxFifoFull = decide (source.pRxFifoWrite + 1 = source.pRxFifoRead)

namespace RingInv

variable {pDev target : Dev} {count : ℕ}

theorem congr (inv : RingInv pDev count) (rxFifo : target.rxFifo = pDev.rxFifo)
    (write : target.pRxFifoWrite = pDev.pRxFifoWrite) (read : target.pRxFifoRead = pDev.pRxFifoRead)
    (full : target.bRxFifoFull = pDev.bRxFifoFull) : RingInv target count where
  bound := inv.bound
  write := by rw [write, read, inv.write]
  flagged := fun whole => full.trans (inv.flagged whole)
  free := by
    rw [rxFifo, read]
    exact inv.free

/-- The block under the write pointer of a ring with space is empty. -/
theorem writeBlk_empty (inv : RingInv pDev count) (space : count < recFifoBlkNum) :
    pDev.writeBlk.nBytes = 0 := by
  rw [Dev.writeBlk, inv.write]
  exact inv.free count le_rfl space

/-- Advancing the write pointer reaches the read pointer exactly when the ring is full then. -/
theorem meet_iff (inv : RingInv pDev count) (space : count < recFifoBlkNum) :
    pDev.pRxFifoWrite + 1 = pDev.pRxFifoRead ↔ count + 1 = recFifoBlkNum := by
  rw [inv.write, ← slot_succ, slot_eq_self_iff _ space]
  simp

theorem store {blk : RxFifo} (inv : RingInv pDev count) (space : count < recFifoBlkNum)
    (stored : BlkStored blk pDev target) : RingInv target (count + 1) where
  bound := space
  write := by rw [stored.write, stored.read, inv.write, slot_succ]
  flagged := fun whole => stored.full.trans (decide_eq_true ((inv.meet_iff space).mpr whole))
  free := by
    intro i behind inside
    have other : slot pDev.pRxFifoRead i ≠ slot pDev.pRxFifoRead count := fun same =>
      absurd (slot_injective _ inside space same) (by omega)
    rw [stored.rxFifo, stored.read, inv.write, Function.update_of_ne other]
    exact inv.free i (by omega) inside

/-- Dropping what was collected in the block under the write pointer. -/
theorem discard {blk : RxFifo} (inv : RingInv pDev count) (empty : blk.nBytes = 0) :
    RingInv (pDev.setWriteBlk blk) count where
  bound := inv.bound
  write := inv.write
  flagged := inv.flagged
  free := by
    intro i behind inside
    simp only [Dev.setWriteBlk, inv.write, Function.update_apply]
    split_ifs
    · exact empty
    · exact inv.free i behind inside

theorem hasData_of_pos (inv : RingInv pDev count) (pos : count ≠ 0) : pDev.rxFifoHasData = true := by
  simp only [Dev.rxFifoHasData, Bool.or_eq_true, bne_iff_ne, ne_eq]
  by_cases whole : count = recFifoBlkNum
  · exact .inr (inv.flagged whole)
  · left
    rw [inv.write, slot_eq_self_iff _ inv.bound]
    tauto

theorem hasData_empty (inv : RingInv pDev 0) : pDev.rxFifoHasData = pDev.bRxFifoFull := by
  simp [Dev.rxFifoHasData, inv.write]

theorem release (inv : RingInv pDev (count + 1)) : RingInv (releaseBlk pDev) count where
  bound := (Nat.le_succ count).trans inv.bound
  write := by
    simp only [releaseBlk, nextBlk_eq]
    rw [inv.write, slot_next]
  flagged := fun whole => absurd inv.bound (by omega)
  free := by
    intro i behind inside
    simp only [releaseBlk, nextBlk_eq, slot_next]
    by_cases last : i + 1 = recFifoBlkNum
    · simp [last]
    · have bound : i + 1 < recFifoBlkNum := by omega
      have other : slot pDev.pRxFifoRead (i + 1) ≠ pDev.pRxFifoRead := fun same =>
        absurd ((slot_eq_self_iff _ bound.le).mp same) (by omega)
      rw [Function.update_of_ne other]
      exact inv.free (i + 1) (by omega) bound

/-- A read that takes a block of an empty ring leaves all blocks but one between the cursors. They
are empty, like the one outside. -/
theorem release_empty (inv : RingInv pDev 0) : RingInv (releaseBlk pDev) (recFifoBlkNum - 1) where
  bound := Nat.sub_le ..
  write := by
    simp only [releaseBlk, nextBlk_eq, slot_next]
    rw [inv.write, slot_zero]
    exact (slot_size _).symm
  flagged := fun whole => absurd whole (by decide)
  free := by
    intro i behind inside
    have last : i + 1 = recFifoBlkNum := by
      simp only [recFifoBlkNum] at behind inside ⊢
      omega
    simp [releaseBlk, nextBlk_eq, slot_next, last]

end RingInv

/-- Enabling the receive interrupts writes the two enable registers only. -/
theorem reenableRx_eq (pDev : Dev) : reenableRx pDev =
    { pDev with sciInten := (reenableRx pDev).sciInten, mpiEintEn := (reenableRx pDev).mpiEintEn } := by
  unfold reenableRx
  split_ifs <;> rfl

end Pef24628e
