import ShdslBridge.Driver.RxRing

/-! # Reassembly of received SCI frames

The hardware delivers a frame as full blocks of 64 bytes, each announced by the receive pool full
interrupt, and a last block of at most 64 bytes with the receive message end interrupt.
`receiveFrame` runs the two handlers over a frame, and `receiveFrame_collected` states what the
frame analysis sees: a receive block with exactly the bytes of the frame.
-/

namespace Pef24628e

open Memory

/-- The registers at the end of a frame: the length of the whole frame, in twelve bits. -/
def reportReg (total : ℕ) : MpiReg :=
  { sciReportH := BitVec.ofNat 8 (total / 256), sciReportL := BitVec.ofNat 8 (total % 256) }

/-- The first `blocks` full blocks of a frame. -/
def receiveFull (frame : List Byte) : ℕ → Dev → Dev
  | 0, pDev => pDev
  | blocks + 1, pDev => (sciRpfInt (frame.drop (sciFifoSize * blocks)) (receiveFull frame blocks pDev)).2

def fullBlocks (total : ℕ) : ℕ := (total - 1) / sciFifoSize

def receiveFrame (frame : List Byte) (pDev : Dev) : Dev :=
  let blocks := fullBlocks frame.length
  sciRmeInt (reportReg frame.length) (frame.drop (sciFifoSize * blocks)) (receiveFull frame blocks pDev)

/-- Between two interrupts of a frame: the block under the write pointer holds the bytes so far, and
nothing else has changed but the receiver state and the log of register writes. -/
structure Collected (bytes : List Byte) (source target : Dev) : Prop where
  same : ∃ blk sciRxState written, target = { source.setWriteBlk blk with sciRxState, written }
  bytes : blkMsg target.writeBlk = bytes
  silent : ingress target.written = ingress source.written

namespace Collected

variable {bytes : List Byte} {source target : Dev}

theorem length (collected : Collected bytes source target) : target.writeBlk.nBytes = bytes.length := by
  rw [← collected.bytes, blkMsg, readAt_length]

theorem write (collected : Collected bytes source target) : target.pRxFifoWrite = source.pRxFifoWrite := by
  obtain ⟨_, _, _, rfl⟩ := collected.same
  rfl

theorem rxFifo (collected : Collected bytes source target) :
    target.rxFifo = Function.update source.rxFifo source.pRxFifoWrite target.writeBlk := by
  obtain ⟨_, _, _, rfl⟩ := collected.same
  simp [Dev.setWriteBlk, Dev.writeBlk]

end Collected

theorem setWriteBlk_writeBlk (pDev : Dev) (blk : RxFifo) : (pDev.setWriteBlk blk).writeBlk = blk := by
  simp [Dev.setWriteBlk, Dev.writeBlk]

theorem Collected.start (pDev : Dev) (empty : pDev.writeBlk.nBytes = 0) : Collected [] pDev pDev where
  same := ⟨pDev.writeBlk, pDev.sciRxState, pDev.written, by simp [Dev.setWriteBlk, Dev.writeBlk]⟩
  bytes := by simp [blkMsg, empty]
  silent := rfl

theorem Collected.append {bytes more : List Byte} {source target : Dev} {state : SciRxState}
    {written : List (Reg × Byte)} (collected : Collected bytes source target)
    (silent : ingress written = ingress target.written) :
    Collected (bytes ++ more) source
      { target.setWriteBlk ⟨writeAt target.writeBlk.pData target.writeBlk.nBytes more,
          target.writeBlk.nBytes + more.length, true⟩ with sciRxState := state, written := written } where
  same := by
    have outside (blk : RxFifo) : { target.setWriteBlk blk with sciRxState := state, written := written } =
        { source.setWriteBlk blk with sciRxState := state, written := written } := by
      obtain ⟨_, _, _, rfl⟩ := collected.same
      simp [Dev.setWriteBlk]
    exact ⟨_, state, written, outside _⟩
  bytes := by
    have block : ∀ blk, Dev.writeBlk { target.setWriteBlk blk with sciRxState := state, written := written } =
        blk := fun blk => setWriteBlk_writeBlk target blk
    rw [block, blkMsg, readAt_writeAt_append]
    rw [← collected.bytes, blkMsg]
  silent := silent.trans collected.silent

theorem Collected.rpf {bytes block : List Byte} {source target : Dev} (collected : Collected bytes source target)
    (space : bytes.length + 1 + sciFifoSize < msgSize) (enough : sciFifoSize ≤ block.length) :
    Collected (bytes ++ block.take sciFifoSize) source (sciRpfInt block target).2 := by
  have room : target.writeBlk.nBytes + 1 + sciFifoSize < msgSize := by rwa [collected.length]
  have size : (block.take sciFifoSize).length = sciFifoSize := by
    rw [List.length_take, Nat.min_eq_left enough]
  simp only [sciRpfInt, if_pos room, regRead_eq_take block enough]
  have appended := @Collected.append _ (block.take sciFifoSize) _ _ .active
    (target.written ++ [(Reg.sciInt, sciInterruptRpf)] ++ [(.sciCtrlL, sciCtrlRmc)]) collected
    (by simp [ingress])
  rw [size] at appended
  exact appended

theorem receiveFull_collected (frame : List Byte) {blocks : ℕ} (pDev : Dev) (empty : pDev.writeBlk.nBytes = 0)
    (enough : sciFifoSize * blocks ≤ frame.length) (few : blocks ≤ 2) :
    Collected (frame.take (sciFifoSize * blocks)) pDev (receiveFull frame blocks pDev) := by
  induction blocks with
  | zero => exact Collected.start pDev empty
  | succ blocks ih =>
    simp only [sciFifoSize] at enough ih ⊢
    have collected := ih (by omega) (by omega)
    have step := @Collected.rpf _ (frame.drop (64 * blocks)) _ _ collected
      (by simp only [List.length_take, sciFifoSize, msgSize]; omega)
      (by simp only [List.length_drop, sciFifoSize]; omega)
    have split : frame.take (64 * (blocks + 1)) =
        frame.take (64 * blocks) ++ (frame.drop (64 * blocks)).take 64 := by
      rw [Nat.mul_succ, List.take_add]
    rw [split]
    exact step

/-- From the reported length of the whole frame the driver computes the length of its last block. -/
theorem sciReportLen_eq {total : ℕ} (pos : 0 < total) (bound : total < 4096) :
    sciReportLen (reportReg total) = total - sciFifoSize * fullBlocks total := by
  have high : (BitVec.ofNat 8 (total / 256) &&& 0x0F).toNat = total / 256 := by
    rw [BitVec.toNat_and, BitVec.toNat_ofNat, Nat.mod_eq_of_lt (by omega)]
    exact (Nat.and_two_pow_sub_one_eq_mod _ 4).trans (Nat.mod_eq_of_lt (by omega))
  have low : (BitVec.ofNat 8 (total % 256)).toNat = total % 256 := by
    rw [BitVec.toNat_ofNat]
    omega
  simp only [sciReportLen, reportReg, high, low, fullBlocks, sciFifoSize]
  split_ifs <;> omega

theorem rmeBlk_of_fits (frame : List Byte) (pDev : Dev) (empty : pDev.writeBlk.nBytes = 0) (pos : 0 < frame.length)
    (fits : frame.length + 1 < msgSize) :
    let front := receiveFull frame (fullBlocks frame.length) pDev
    let last := frame.drop (sciFifoSize * fullBlocks frame.length)
    Collected (frame.take (sciFifoSize * fullBlocks frame.length)) pDev front ∧
      rmeBlk (reportReg frame.length) last front.writeBlk = some
        ⟨writeAt front.writeBlk.pData front.writeBlk.nBytes last, front.writeBlk.nBytes + last.length, true⟩ := by
  intro front last
  simp only [msgSize] at fits
  have blocks : sciFifoSize * fullBlocks frame.length ≤ frame.length ∧ fullBlocks frame.length ≤ 2 := by
    simp only [fullBlocks, sciFifoSize]
    omega
  have collected := receiveFull_collected frame pDev empty blocks.1 blocks.2
  have size : sciReportLen (reportReg frame.length) = last.length := by
    rw [sciReportLen_eq pos (by omega), List.length_drop]
  have room : front.writeBlk.nBytes + 1 + last.length < msgSize := by
    have sizes := congrArg List.length (List.take_append_drop (sciFifoSize * fullBlocks frame.length) frame)
    rw [List.length_append] at sizes
    change _ + last.length = frame.length at sizes
    rw [collected.length]
    simp only [msgSize]
    omega
  refine ⟨collected, ?_⟩
  simp only [rmeBlk, size, if_pos room, regRead_all]

/-- A frame that fits a block, received into an empty block, reaches the frame analysis whole. -/
theorem receiveFrame_collected (frame : List Byte) (pDev : Dev) (empty : pDev.writeBlk.nBytes = 0)
    (pos : 0 < frame.length) (fits : frame.length + 1 < msgSize) :
    ∃ target, Collected frame pDev target ∧
      receiveFrame frame pDev = sciRmeFinish (sciFrameEnd target).1 (sciFrameEnd target).2 := by
  obtain ⟨collected, block⟩ := rmeBlk_of_fits frame pDev empty pos fits
  set front := receiveFull frame (fullBlocks frame.length) pDev with front_eq
  set last := frame.drop (sciFifoSize * fullBlocks frame.length) with last_eq
  have whole : frame.take (sciFifoSize * fullBlocks frame.length) ++ last = frame := List.take_append_drop ..
  refine ⟨_, whole ▸ @Collected.append _ last _ _ .active _ collected rfl, ?_⟩
  simp only [receiveFrame, sciRmeInt, ← front_eq, ← last_eq, block]
  rfl

/-- The FIFO step for a delivered frame: the write pointer advances, and a ring that this fills is
marked and its interrupts disabled. -/
structure FrameStored (source target : Dev) : Prop where
  rxFifo : target.rxFifo = source.rxFifo
  write : target.pRxFifoWrite = source.pRxFifoWrite + 1
  read : target.pRxFifoRead = source.pRxFifoRead
  full : target.bRxFifoFull = decide (source.pRxFifoWrite + 1 = source.pRxFifoRead)
  activeIf : target.activeIf = source.activeIf
  sciInten : target.sciInten = if source.pRxFifoWrite + 1 = source.pRxFifoRead
    then bfld source.sciInten (sciInterruptRpf ||| sciInterruptRme) 0 else source.sciInten
  silent : ingress target.written = ingress source.written

theorem sciStoreFrame_stored (pDev : Dev) : FrameStored pDev (sciStoreFrame pDev) := by
  unfold sciStoreFrame
  simp only [nextBlk_eq]
  by_cases meet : pDev.pRxFifoWrite + 1 = pDev.pRxFifoRead
  · simp only [if_pos meet]
    exact ⟨rfl, rfl, rfl, by simp [meet], rfl, by simp [meet], rfl⟩
  · simp only [if_neg meet]
    exact ⟨rfl, rfl, rfl, by simp [meet], rfl, by simp [meet], rfl⟩

/-- The end of the receive interrupt writes registers and notes the wake-up. -/
theorem sciRmeFinish_eq (wakeUp : Bool) (pDev : Dev) : ∃ written bNeedWakeUp,
    sciRmeFinish wakeUp pDev = { pDev with written, bNeedWakeUp, sciRxState := .idle } ∧
      ingress written = ingress pDev.written := by
  unfold sciRmeFinish regSet
  by_cases failed : pDev.sciRxState = .error
  · simp only [if_pos failed]
    exact ⟨_, _, rfl, by simp [ingress]⟩
  · simp only [if_neg failed]
    exact ⟨_, _, rfl, by simp [ingress]⟩

theorem FrameStored.finish {source target : Dev} (stored : FrameStored source target) (wakeUp : Bool) :
    FrameStored source (sciRmeFinish wakeUp target) := by
  obtain ⟨written, bNeedWakeUp, finish, silent⟩ := sciRmeFinish_eq wakeUp target
  rw [finish]
  exact { stored with silent := silent.trans stored.silent }

end Pef24628e
