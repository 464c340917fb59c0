import ShdslBridge.Driver.Reassembly

/-! # What the frame analysis depends on

A receive block keeps the bytes of earlier frames behind its `nBytes`. The frame analysis reads the
address bytes and the status byte at fixed positions without a look at `nBytes`; only the values of the
AUX and RAMSHELL answers and the length of a transport message are guarded. `frameOnly_iff` states for
which blocks the analysis depends on the received bytes alone.
-/

namespace Pef24628e

def Dev.withBytes (pDev : Dev) (pData : ℕ → Byte) : Dev := pDev.setWriteBlk { pDev.writeBlk with pData }

/-- Two analyses give the same result, the same changes and the same register writes. -/
structure SameOutcome (left right : Bool × Dev) : Prop where
  result : right.1 = left.1
  txErr : right.2.txErr = left.2.txErr
  bTxAckReceived : right.2.bTxAckReceived = left.2.bTxAckReceived
  lastRsValue : right.2.lastRsValue = left.2.lastRsValue
  lastAuxValue : right.2.lastAuxValue = left.2.lastAuxValue
  transpData : right.2.transpData = left.2.transpData
  txFifo : right.2.txFifo = left.2.txFifo
  written : right.2.written = left.2.written

/-- The analysis does not depend on what is in the receive block behind the frame. -/
def FrameOnly (pDev : Dev) : Prop :=
  ∀ pData : ℕ → Byte, (∀ i < pDev.writeBlk.nBytes, pData i = pDev.writeBlk.pData i) →
    SameOutcome (sciProcessFrame pDev) (sciProcessFrame (pDev.withBytes pData))

/-- The sources whose frames the analysis acts on. -/
def ActedOn (source : Byte) : Prop :=
  source = adrRamshell ∨ source = adrAux ∨ source = adrIdcRamshell ∨ source = adrIdcCtrlr

instance (source : Byte) : Decidable (ActedOn source) := inferInstanceAs (Decidable (_ ∨ _))

/-- The frame has the bytes that decide: it is not acted on by one of its address bytes, or it has a
status byte. -/
def HeaderReceived (blk : RxFifo) : Prop :=
  3 ≤ blk.nBytes ∨ 1 ≤ blk.nBytes ∧ ¬ ActedOn (blk.pData 0 &&& 0x0F) ∨
    2 ≤ blk.nBytes ∧ blk.pData 1 ≠ adrHost ∧ blk.pData 1 ≠ 0xFF

instance (blk : RxFifo) : Decidable (HeaderReceived blk) := inferInstanceAs (Decidable (_ ∨ _))

theorem withBytes_writeBlk (pDev : Dev) (pData : ℕ → Byte) :
    (pDev.withBytes pData).writeBlk = { pDev.writeBlk with pData } := setWriteBlk_writeBlk _ _

/-- The header of a transport frame comes from the third byte alone. -/
theorem tpGetHeader_masked (h0 h1 : Byte) : tpGetHeader h0 (h1 &&& ~~~0x0F) = h0 >>> 1 := by
  have low : (h1 &&& ~~~0x0F) &&& 1 = (0 : Byte) := by
    rw [BitVec.and_assoc, show (~~~0x0F &&& 1 : Byte) = 0 by decide]
    exact BitVec.and_zero
  rw [tpGetHeader, low]
  simp

theorem sciProcessFrame_ignored {pDev : Dev}
    (ignored : pDev.writeBlk.pData 1 ≠ adrHost ∧ pDev.writeBlk.pData 1 ≠ 0xFF ∨
      ¬ ActedOn (pDev.writeBlk.pData 0 &&& 0x0F)) : sciProcessFrame pDev = (false, pDev) := by
  rw [sciProcessFrame]
  rcases ignored with wrongHost | other
  · rw [if_pos wrongHost]
  · obtain ⟨notRamshell, notAux, notIdcRamshell, notIdc⟩ :
        pDev.writeBlk.pData 0 &&& 0x0F ≠ adrRamshell ∧ pDev.writeBlk.pData 0 &&& 0x0F ≠ adrAux ∧
          pDev.writeBlk.pData 0 &&& 0x0F ≠ adrIdcRamshell ∧ pDev.writeBlk.pData 0 &&& 0x0F ≠ adrIdcCtrlr := by
      simpa only [ActedOn, not_or] using other
    rw [if_neg (not_or.mpr ⟨notRamshell, not_or.mpr ⟨notAux, notIdcRamshell⟩⟩), if_neg notIdc, ite_self, ite_self]

/-! ### Frames with a status byte -/

section

variable (pDev : Dev) (pData : ℕ → Byte)

theorem unchanged_withBytes : SameOutcome (false, pDev) (false, pDev.withBytes pData) :=
  ⟨rfl, rfl, rfl, rfl, rfl, rfl, rfl, rfl⟩

theorem sendTpAck_withBytes (odd nak : Bool) :
    SameOutcome (sendTpAck odd nak pDev) (sendTpAck odd nak (pDev.withBytes pData)) := by
  by_cases mpi : pDev.activeIf = .mpi
  · have same : (pDev.withBytes pData).activeIf = .mpi := mpi
    rw [sendTpAck_eq odd nak mpi, sendTpAck_eq odd nak same]
    exact ⟨rfl, rfl, rfl, rfl, rfl, rfl, rfl, rfl⟩
  · have same : (pDev.withBytes pData).activeIf ≠ .mpi := mpi
    rw [sendTpAck, sendTpAck, if_neg mpi, if_neg same]
    exact ⟨rfl, rfl, rfl, rfl, rfl, rfl, rfl, rfl⟩

variable {pDev pData} (same : ∀ i < pDev.writeBlk.nBytes, pData i = pDev.writeBlk.pData i)
  (status : 3 ≤ pDev.writeBlk.nBytes)

include same status

theorem processRsAck_withBytes :
    SameOutcome (false, processRsAck pDev) (false, processRsAck (pDev.withBytes pData)) := by
  rw [processRsAck, processRsAck, withBytes_writeBlk]
  have source : pData 0 = pDev.writeBlk.pData 0 := same 0 (by omega)
  have rsta : pData 2 = pDev.writeBlk.pData 2 := same 2 (by omega)
  simp only [source, rsta]
  by_cases refused : pDev.writeBlk.pData 2 &&& 0xF0 ≠ validRsta
  · rw [if_pos refused, if_pos refused]
    exact ⟨rfl, rfl, rfl, rfl, rfl, rfl, rfl, rfl⟩
  · rw [if_neg refused, if_neg refused]
    refine ⟨rfl, rfl, rfl, ?_, ?_, rfl, rfl, rfl⟩
    · dsimp only
      by_cases long : pDev.writeBlk.nBytes > 6
      · rw [if_pos long, if_pos long, same 3 (by omega), same 4 (by omega), same 5 (by omega), same 6 (by omega)]
      · rw [if_neg long, if_neg long]
        rfl
    · dsimp only
      by_cases value : pDev.writeBlk.nBytes ≥ 4
      · rw [if_pos value, if_pos value, same 3 (by omega)]
        rfl
      · rw [if_neg value, if_neg value]
        rfl

theorem processTp_withBytes : SameOutcome (processTp pDev) (processTp (pDev.withBytes pData)) := by
  rw [processTp, processTp, withBytes_writeBlk]
  have status : pData 2 = pDev.writeBlk.pData 2 := same 2 (by omega)
  simp only [tpGetHeader_masked, status]
  split_ifs
  · have acked := sendTpAck_withBytes pDev pData (oddOf (pDev.writeBlk.pData 2)) true
    exact { acked with result := rfl }
  · exact sendTpAck_withBytes pDev pData _ _
  · exact ⟨rfl, rfl, rfl, rfl, rfl, rfl, rfl, rfl⟩
  · exact ⟨rfl, rfl, rfl, rfl, rfl, rfl, rfl, rfl⟩
  · exact ⟨rfl, rfl, rfl, rfl, rfl, rfl, rfl, rfl⟩
  · exact unchanged_withBytes pDev pData

theorem sciProcessFrame_withBytes :
    SameOutcome (sciProcessFrame pDev) (sciProcessFrame (pDev.withBytes pData)) := by
  rw [sciProcessFrame, sciProcessFrame, withBytes_writeBlk]
  have source : pData 0 = pDev.writeBlk.pData 0 := same 0 (by omega)
  have host : pData 1 = pDev.writeBlk.pData 1 := same 1 (by omega)
  simp only [source, host]
  split_ifs
  · exact unchanged_withBytes pDev pData
  · exact unchanged_withBytes pDev pData
  · exact processRsAck_withBytes same status
  · exact processTp_withBytes same status
  · exact unchanged_withBytes pDev pData

end

theorem frameOnly_of_headerReceived {pDev : Dev} (received : HeaderReceived pDev.writeBlk) : FrameOnly pDev := by
  intro pData same
  have ignored : pDev.writeBlk.pData 1 ≠ adrHost ∧ pDev.writeBlk.pData 1 ≠ 0xFF ∧ pData 1 = pDev.writeBlk.pData 1 ∨
      ¬ ActedOn (pDev.writeBlk.pData 0 &&& 0x0F) ∧ pData 0 = pDev.writeBlk.pData 0 →
      SameOutcome (sciProcessFrame pDev) (sciProcessFrame (pDev.withBytes pData)) := by
    intro short
    have other : sciProcessFrame (pDev.withBytes pData) = (false, pDev.withBytes pData) := by
      refine sciProcessFrame_ignored ?_
      rw [withBytes_writeBlk]
      dsimp only
      rcases short with ⟨notHost, notAll, byte⟩ | ⟨notActed, byte⟩
      · exact Or.inl (byte ▸ ⟨notHost, notAll⟩)
      · exact Or.inr (byte ▸ notActed)
    have own : sciProcessFrame pDev = (false, pDev) :=
      sciProcessFrame_ignored (short.imp (fun host => ⟨host.1, host.2.1⟩) And.left)
    rw [own, other]
    exact unchanged_withBytes pDev pData
  rcases received with status | ⟨source, notActed⟩ | ⟨host, wrong⟩
  · exact sciProcessFrame_withBytes same status
  · exact ignored (Or.inr ⟨notActed, same 0 (by omega)⟩)
  · exact ignored (Or.inl ⟨wrong.1, wrong.2, same 1 (by omega)⟩)

/-! ### Shorter frames -/

def leftovers (blk : RxFifo) (status : Byte) (i : ℕ) : Byte :=
  if i < blk.nBytes then blk.pData i
  else match i with
    | 0 => adrRamshell
    | 1 => adrHost
    | _ => status

/-- The error flag behind an answer of the RAMSHELL or the AUX interface is its status. -/
theorem txErr_of_rs {pDev : Dev} (host : pDev.writeBlk.pData 1 = adrHost ∨ pDev.writeBlk.pData 1 = 0xFF)
    (source : pDev.writeBlk.pData 0 &&& 0x0F = adrRamshell ∨ pDev.writeBlk.pData 0 &&& 0x0F = adrAux ∨
      pDev.writeBlk.pData 0 &&& 0x0F = adrIdcRamshell) :
    (sciProcessFrame pDev).2.txErr = decide (pDev.writeBlk.pData 2 &&& 0xF0 ≠ validRsta) := by
  have toHost : ¬ (pDev.writeBlk.pData 1 ≠ adrHost ∧ pDev.writeBlk.pData 1 ≠ 0xFF) := by
    rintro ⟨notHost, notAll⟩
    exact host.elim notHost notAll
  have notPamdsl : isPamdsl (pDev.writeBlk.pData 0 &&& 0x0F) = false := by
    rcases source with equal | equal | equal <;> rw [equal] <;> decide
  rw [sciProcessFrame, if_neg toHost, notPamdsl, if_neg Bool.false_ne_true, if_pos source, processRsAck]
  by_cases refused : pDev.writeBlk.pData 2 &&& 0xF0 ≠ validRsta
  · rw [if_pos refused]
    exact (decide_eq_true refused).symm
  · rw [if_neg refused]
    exact (decide_eq_false refused).symm

/-- The error flag behind an acknowledgement of the transport protocol is its sign. -/
theorem txErr_of_tp {pDev : Dev} (host : pDev.writeBlk.pData 1 = adrHost ∨ pDev.writeBlk.pData 1 = 0xFF)
    (source : pDev.writeBlk.pData 0 &&& 0x0F = adrIdcCtrlr) {negative : Bool}
    (header : pDev.writeBlk.pData 2 >>> 1 = if negative then tpNegAck else tpPosAck) :
    (sciProcessFrame pDev).2.txErr = negative := by
  have toHost : ¬ (pDev.writeBlk.pData 1 ≠ adrHost ∧ pDev.writeBlk.pData 1 ≠ 0xFF) := by
    rintro ⟨notHost, notAll⟩
    exact host.elim notHost notAll
  rw [sciProcessFrame, if_neg toHost, source, if_neg (by decide), if_neg (by decide), if_pos rfl, processTp,
    tpGetHeader_masked, header]
  cases negative <;> rfl

/-- Where the status byte is missing, two leftovers of it tell the analysis apart. -/
theorem headerReceived_of_frameOnly {pDev : Dev} (frameOnly : FrameOnly pDev) : HeaderReceived pDev.writeBlk := by
  by_contra missing
  obtain ⟨noStatus, acts, toHost⟩ := by
    simpa only [HeaderReceived, not_or, not_and, not_le, not_not, ne_eq] using missing
  obtain ⟨target, states⟩ : ∃ target : Byte → Dev,
      target = fun status => pDev.withBytes (leftovers pDev.writeBlk status) := ⟨_, rfl⟩
  have bytes (status : Byte) : (target status).writeBlk.pData = leftovers pDev.writeBlk status := by
    rw [states, withBytes_writeBlk]
  have same (left right : Byte) :
      (sciProcessFrame (target left)).2.txErr = (sciProcessFrame (target right)).2.txErr := by
    have own (status : Byte) : SameOutcome (sciProcessFrame pDev) (sciProcessFrame (target status)) := by
      rw [states]
      exact frameOnly _ fun i inside => if_pos inside
    exact (own left).txErr.trans (own right).txErr.symm
  have host (status : Byte) : (target status).writeBlk.pData 1 = adrHost ∨ (target status).writeBlk.pData 1 = 0xFF := by
    rw [bytes, leftovers]
    split_ifs with inside
    · by_cases own : pDev.writeBlk.pData 1 = adrHost
      · exact Or.inl own
      · exact Or.inr (toHost inside own)
    · exact Or.inl rfl
  have third (status : Byte) : (target status).writeBlk.pData 2 = status := by
    have outside : ¬ 2 < pDev.writeBlk.nBytes := by omega
    rw [bytes]
    exact if_neg outside
  have source (status : Byte) : (target status).writeBlk.pData 0 = (target 0).writeBlk.pData 0 := by
    rw [bytes, bytes, leftovers, leftovers]
  have acted : ActedOn ((target 0).writeBlk.pData 0 &&& 0x0F) := by
    rw [bytes, leftovers]
    split_ifs with inside
    · exact acts inside
    · exact Or.inl (by decide)
  by_cases idc : (target 0).writeBlk.pData 0 &&& 0x0F = adrIdcCtrlr
  · have positive : (sciProcessFrame (target 0x88)).2.txErr = false :=
      txErr_of_tp (host _) (source _ ▸ idc) (by rw [third]; decide)
    have negative : (sciProcessFrame (target 0x8E)).2.txErr = true :=
      txErr_of_tp (host _) (source _ ▸ idc) (by rw [third]; decide)
    exact Bool.false_ne_true (positive.symm.trans ((same _ _).trans negative))
  · have answer (status : Byte) : (target status).writeBlk.pData 0 &&& 0x0F = adrRamshell ∨
        (target status).writeBlk.pData 0 &&& 0x0F = adrAux ∨
          (target status).writeBlk.pData 0 &&& 0x0F = adrIdcRamshell := by
      rw [source]
      exact acted.imp_right (Or.imp_right fun last => last.resolve_right idc)
    have accepted := txErr_of_rs (host 0xA0) (answer 0xA0)
    have refused := txErr_of_rs (host 0) (answer 0)
    rw [third] at accepted refused
    have equal := accepted.symm.trans ((same _ _).trans refused)
    exact absurd equal (by decide)

/-- The analysis of a receive block depends on the received bytes alone exactly when they decide. -/
theorem frameOnly_iff (pDev : Dev) : FrameOnly pDev ↔ HeaderReceived pDev.writeBlk :=
  ⟨headerReceived_of_frameOnly, frameOnly_of_headerReceived⟩

def oneByte : Dev := Dev.zeroed.setWriteBlk ⟨fun _ => adrRamshell, 1, true⟩

/-- What the frame of one byte is taken for depends on what is behind it. -/
theorem oneByte_not_frameOnly : ¬ FrameOnly oneByte := by
  intro frameOnly
  exact absurd (headerReceived_of_frameOnly frameOnly) (by decide +kernel)

end Pef24628e
