import ShdslBridge.Driver.Reassembly

/-! # Frames that do not fit a receive block

A full block that does not fit puts the receiver into `SCI_RX_ERROR`, documented as "discard until
frame end", and empties the receive block. Neither handler looks at the state, so the next block of the
same frame is collected again from the start of the receive block: every third full block is dropped,
and the end of a long frame reaches the frame analysis as if it were a frame of its own.
`reassembled_iff` states for which lengths the frame arrives whole or is discarded.
-/

namespace Pef24628e

open Memory

/-- The receive block that `sciRmeInt` hands to the frame analysis at the end of a frame; `none` when
the frame is discarded. -/
def analysedBlk (frame : List Byte) (pDev : Dev) : Option RxFifo :=
  let blocks := fullBlocks frame.length
  rmeBlk (reportReg frame.length) (frame.drop (sciFifoSize * blocks)) (receiveFull frame blocks pDev).writeBlk

theorem receiveFrame_eq (frame : List Byte) (pDev : Dev) :
    receiveFrame frame pDev =
      let front := receiveFull frame (fullBlocks frame.length) pDev
      match analysedBlk frame pDev with
      | some blk =>
        let ended := sciFrameEnd { front.setWriteBlk blk with sciRxState := .active }
        sciRmeFinish ended.1 ended.2
      | none =>
        sciRmeFinish false { front.setWriteBlk { front.writeBlk with nBytes := 0 } with sciRxState := .error } :=
  rfl

/-- A frame that fits a receive block is analysed whole, and a longer one not at all. -/
def Reassembled (frame : List Byte) (pDev : Dev) : Prop :=
  if frame.length ≤ msgSize - 2 then ∃ blk, analysedBlk frame pDev = some blk ∧ blkMsg blk = frame
  else analysedBlk frame pDev = none

/-- The length of a frame fits a receive block; or two full blocks were collected behind the last one that
was dropped, and the last block is too long for the two bytes left. -/
def LengthHandled (total : ℕ) : Prop :=
  total ≤ msgSize - 2 ∨ fullBlocks total % 3 = 2 ∧ 2 < total - sciFifoSize * fullBlocks total ∧ total % 4096 ≠ 0

theorem receiveFull_nBytes (frame : List Byte) {pDev : Dev} (empty : pDev.writeBlk.nBytes = 0) (blocks : ℕ) :
    (receiveFull frame blocks pDev).writeBlk.nBytes = sciFifoSize * (blocks % 3) := by
  induction blocks with
  | zero => exact empty
  | succ blocks ih =>
    rw [receiveFull, sciRpfInt]
    dsimp only [regSet]
    rw [ih]
    by_cases room : sciFifoSize * (blocks % 3) + 1 + sciFifoSize < msgSize
    · rw [if_pos room]
      change (Dev.setWriteBlk _ _).writeBlk.nBytes = _
      rw [setWriteBlk_writeBlk]
      change 64 * (blocks % 3) + 1 + 64 < 132 at room
      change 64 * (blocks % 3) + 64 = 64 * ((blocks + 1) % 3)
      omega
    · rw [if_neg room]
      change (Dev.setWriteBlk _ _).writeBlk.nBytes = _
      rw [setWriteBlk_writeBlk]
      change ¬ 64 * (blocks % 3) + 1 + 64 < 132 at room
      change 0 = 64 * ((blocks + 1) % 3)
      omega

/-- The length of the last block, also where the reported length has lost its upper bits. -/
theorem sciReportLen_mod {total : ℕ} (pos : 0 < total) :
    sciReportLen (reportReg total) = if total % 4096 = 0 then 0 else total - sciFifoSize * fullBlocks total := by
  have high : (BitVec.ofNat 8 (total / 256) &&& 0x0F).toNat = total / 256 % 16 := by
    rw [BitVec.toNat_and, BitVec.toNat_ofNat]
    refine (Nat.and_two_pow_sub_one_eq_mod _ 4).trans ?_
    omega
  have low : (BitVec.ofNat 8 (total % 256)).toNat = total % 256 := by
    rw [BitVec.toNat_ofNat]
    omega
  simp only [sciReportLen, reportReg, high, low, fullBlocks, sciFifoSize]
  split_ifs <;> omega

theorem analysedBlk_eq_none_iff {frame : List Byte} (nonempty : frame ≠ []) {pDev : Dev}
    (empty : pDev.writeBlk.nBytes = 0) :
    analysedBlk frame pDev = none ↔ fullBlocks frame.length % 3 = 2 ∧
      2 < frame.length - sciFifoSize * fullBlocks frame.length ∧ frame.length % 4096 ≠ 0 := by
  have pos : 0 < frame.length := List.length_pos_of_ne_nil nonempty
  have last : 0 < frame.length - 64 * ((frame.length - 1) / 64) ∧
      frame.length - 64 * ((frame.length - 1) / 64) ≤ 64 := by omega
  rw [analysedBlk, rmeBlk, receiveFull_nBytes frame empty, sciReportLen_mod pos]
  by_cases room : sciFifoSize * (fullBlocks frame.length % 3) + 1 +
      (if frame.length % 4096 = 0 then 0 else frame.length - sciFifoSize * fullBlocks frame.length) < msgSize
  · rw [if_pos room]
    refine iff_of_false (by rintro ⟨⟩) ?_
    rintro ⟨two, long, wrapped⟩
    rw [two, if_neg wrapped] at room
    change 64 * 2 + 1 + (frame.length - sciFifoSize * fullBlocks frame.length) < 132 at room
    omega
  · rw [if_neg room]
    refine iff_of_true rfl ?_
    change ¬ 64 * (fullBlocks frame.length % 3) + 1 +
      (if frame.length % 4096 = 0 then 0 else frame.length - 64 * ((frame.length - 1) / 64)) < 132 at room
    change _ ∧ 2 < frame.length - 64 * ((frame.length - 1) / 64) ∧ _
    split_ifs at room with wrapped
    · omega
    · omega

/-- A frame that fits a receive block reaches the frame analysis whole. -/
theorem analysedBlk_of_fits {frame : List Byte} {pDev : Dev} (empty : pDev.writeBlk.nBytes = 0)
    (fits : frame.length + 1 < msgSize) (nonempty : frame ≠ []) :
    ∃ blk, analysedBlk frame pDev = some blk ∧ blkMsg blk = frame := by
  obtain ⟨collected, block⟩ := rmeBlk_of_fits frame pDev empty (List.length_pos_of_ne_nil nonempty) fits
  refine ⟨_, block, ?_⟩
  rw [blkMsg, readAt_writeAt_append]
  change blkMsg (Dev.writeBlk _) ++ _ = frame
  rw [collected.bytes, List.take_append_drop]

/-- A frame of any length is received whole or discarded whole exactly when it fits a receive block, or
when what was collected of it at its end does not. -/
theorem reassembled_iff {frame : List Byte} (nonempty : frame ≠ []) {pDev : Dev} (empty : pDev.writeBlk.nBytes = 0) :
    Reassembled frame pDev ↔ LengthHandled frame.length := by
  rw [Reassembled, LengthHandled]
  by_cases fits : frame.length ≤ msgSize - 2
  · rw [if_pos fits]
    refine iff_of_true (analysedBlk_of_fits empty ?_ nonempty) (Or.inl fits)
    change frame.length ≤ 130 at fits
    change frame.length + 1 < 132
    omega
  · rw [if_neg fits, analysedBlk_eq_none_iff nonempty empty]
    exact (or_iff_right fits).symm

/-- A frame of two blocks. -/
theorem reassembled_iff_twoBlocks :
    Reassembled (List.replicate 100 0xF1) Dev.zeroed ↔ LengthHandled (List.replicate 100 (0xF1 : Byte)).length :=
  reassembled_iff (List.cons_ne_nil _ _) rfl

/-- Three full blocks in front of what looks like a transport message. -/
def longFrame : List Byte := List.replicate 192 0 ++ [0xF1, 0xF3, 0x08, 0x00, 0x40, 0x34, 0xFF, 0xFF]

/-- The end of a frame of 200 bytes is analysed. -/
theorem longFrame_not_reassembled : ¬ Reassembled longFrame Dev.zeroed := by
  have length : longFrame.length = 200 := by
    rw [longFrame, List.length_append, List.length_replicate]
    rfl
  have nonempty : longFrame ≠ [] := List.ne_nil_of_length_pos (by omega)
  rw [Reassembled, length, if_neg (by decide), analysedBlk_eq_none_iff nonempty rfl, length]
  decide

end Pef24628e
