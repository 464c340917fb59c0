import ShdslBridge.Driver.Transmit
import Mathlib.Data.List.Chain

/-! # Repeated transmissions and the shared transmit buffer

A transport acknowledgement is written into the one transmit buffer, over the first four bytes of
the frame that is waiting for its own acknowledgement. The repetition of that frame starts with the
header of the acknowledgement. `attempts_repeat_iff` states when this happens: the attempts of a
frame all send the same bytes exactly when no transport message is completed during the wait of an
attempt that is followed by another one, and the hardware takes equally many bytes each time.
-/

namespace Pef24628e

open Memory

/-- A block that the frame analysis answers with a transport acknowledgement. -/
def isTpMessage (blk : RxFifo) : Bool :=
  let header := tpGetHeader (blk.pData 2) (blk.pData 3 &&& ~~~0x0F)
  (blk.pData 1 == adrHost || blk.pData 1 == 0xFF) && blk.pData 0 &&& 0x0F == adrIdcCtrlr &&
    (header == tpAckMsg || header == tpNfcMsg)

theorem isTpMessage_iff (blk : RxFifo) : isTpMessage blk = true ↔
    (blk.pData 1 = adrHost ∨ blk.pData 1 = 0xFF) ∧ blk.pData 0 &&& 0x0F = adrIdcCtrlr ∧
      (tpGetHeader (blk.pData 2) (blk.pData 3 &&& ~~~0x0F) = tpAckMsg ∨
        tpGetHeader (blk.pData 2) (blk.pData 3 &&& ~~~0x0F) = tpNfcMsg) := by
  simp only [isTpMessage, Bool.and_eq_true, Bool.or_eq_true, beq_iff_eq, and_assoc]

def completesTpMessage (reg : MpiReg) (pDev : Dev) : Bool :=
  let ista := reg.sciInt &&& pDev.sciInten
  let front := sciServeRpf ista reg.sciEgress (sciServeXpr ista (sciServeXdu ista pDev))
  pDev.ucReg && (reg.mpiEint &&& pDev.mpiEintEn) &&& mpiMpintIntsci != 0 && ista &&& sciInterruptRme != 0 &&
    (rmeBlk reg front.1 front.2.writeBlk).any isTpMessage

/-- A transport message is completed while the driver waits for the acknowledgement. -/
def awaitAnswers : List MpiReg → Dev → Bool
  | [], _ => false
  | reg :: rounds, pDev =>
    if pDev.bTxAckReceived then false
    else
      completesTpMessage reg pDev ||
        ((intHandler reg pDev).uStatistics &&& statXdu == 0 && awaitAnswers rounds (intHandler reg pDev))

def Attempt.answers (attempt : Attempt) : Bool :=
  attempt.sent.1 && awaitAnswers (attempt.io.rounds.take txPollingRounds) attempt.sent.2

/-- Bytes that the hardware takes of `nBytes`: the bursts up to the first one behind which the
transmit pool does not become ready. -/
def burstTotal (xprReady : ℕ → Bool) : ℕ → ℕ → ℕ → ℕ
  | 0, _, _ => 0
  | fuel + 1, burst, nBytes =>
    let len := min nBytes sciFifoSize
    if !xprReady burst then len
    else if nBytes - len ≠ 0 then len + burstTotal xprReady fuel (burst + 1) (nBytes - len)
    else len

def Attempt.taken (attempt : Attempt) : ℕ :=
  if attempt.dev.ucReg then
    burstTotal attempt.io.xprReady (burstFuel attempt.dev) 0 attempt.dev.txFifo.nBytes
  else 0

/-! ### The bytes in the transmit buffer -/

/-- The bytes in the transmit buffer, and what their sending depends on, are unchanged. -/
structure TxKept (source target : Dev) : Prop where
  pData : target.txFifo.pData = source.txFifo.pData
  nDevAddress : target.nDevAddress = source.nDevAddress
  activeIf : target.activeIf = source.activeIf
  mapped : target.ucReg = source.ucReg

/-- A transport acknowledgement has replaced the first four bytes of the transmit buffer. -/
structure TxAcked (source target : Dev) : Prop where
  pData : ∃ odd nak, target.txFifo.pData = writeAt source.txFifo.pData 0 (tpAckFrame source.nDevAddress odd nak)
  nDevAddress : target.nDevAddress = source.nDevAddress
  activeIf : target.activeIf = source.activeIf
  mapped : target.ucReg = source.ucReg

/-- The effect of a step on the transmit buffer, given whether the step sends an acknowledgement. -/
def TxEffect (acked : Bool) (source target : Dev) : Prop :=
  if acked then TxAcked source target else TxKept source target

theorem TxKept.refl (pDev : Dev) : TxKept pDev pDev := ⟨rfl, rfl, rfl, rfl⟩

variable {first second third : Dev}

theorem TxKept.trans (left : TxKept first second) (right : TxKept second third) :
    TxKept first third :=
  ⟨right.pData.trans left.pData, right.nDevAddress.trans left.nDevAddress,
    right.activeIf.trans left.activeIf, right.mapped.trans left.mapped⟩

theorem TxKept.acked (left : TxKept first second) (right : TxAcked second third) : TxAcked first third := by
  obtain ⟨odd, nak, pData⟩ := right.pData
  refine ⟨⟨odd, nak, ?_⟩, right.nDevAddress.trans left.nDevAddress,
    right.activeIf.trans left.activeIf, right.mapped.trans left.mapped⟩
  rw [pData, left.pData, left.nDevAddress]

theorem TxAcked.kept (left : TxAcked first second) (right : TxKept second third) : TxAcked first third := by
  obtain ⟨odd, nak, pData⟩ := left.pData
  exact ⟨⟨odd, nak, right.pData.trans pData⟩, right.nDevAddress.trans left.nDevAddress,
    right.activeIf.trans left.activeIf, right.mapped.trans left.mapped⟩

theorem TxAcked.again (left : TxAcked first second) (right : TxAcked second third) : TxAcked first third := by
  obtain ⟨_, _, earlier⟩ := left.pData
  obtain ⟨odd, nak, later⟩ := right.pData
  refine ⟨⟨odd, nak, ?_⟩, right.nDevAddress.trans left.nDevAddress,
    right.activeIf.trans left.activeIf, right.mapped.trans left.mapped⟩
  rw [later, earlier, left.nDevAddress]
  exact writeAt_writeAt _ _ rfl

theorem TxEffect.trans {early late : Bool} (left : TxEffect early first second) (right : TxEffect late second third) :
    TxEffect (early || late) first third := by
  cases early <;> cases late
  · exact TxKept.trans left right
  · exact TxKept.acked left right
  · exact TxAcked.kept left right
  · exact TxAcked.again left right

theorem TxEffect.kept {acked : Bool} (left : TxEffect acked first second) (right : TxKept second third) :
    TxEffect acked first third := by
  have both := @TxEffect.trans _ _ _ _ false left right
  rwa [Bool.or_false] at both

theorem TxKept.effect {acked : Bool} (left : TxKept first second) (right : TxEffect acked second third) :
    TxEffect acked first third :=
  @TxEffect.trans _ _ _ false _ left right

/-! ### What the interrupt handler does to the transmit buffer -/

theorem regSet_kept (reg : Reg) (value : Byte) (pDev : Dev) : TxKept pDev (regSet reg value pDev) :=
  ⟨rfl, rfl, rfl, rfl⟩

theorem sciXprInt_kept (pDev : Dev) : TxKept pDev (sciXprInt pDev) := by
  unfold sciXprInt
  dsimp only
  split_ifs <;> exact ⟨rfl, rfl, rfl, rfl⟩

theorem sciServeXdu_kept (ista : Byte) (pDev : Dev) : TxKept pDev (sciServeXdu ista pDev) := by
  unfold sciServeXdu
  split_ifs <;> exact ⟨rfl, rfl, rfl, rfl⟩

theorem sciServeXpr_kept (ista : Byte) (pDev : Dev) : TxKept pDev (sciServeXpr ista pDev) := by
  unfold sciServeXpr
  split_ifs
  · exact (sciXprInt_kept pDev).trans (regSet_kept ..)
  · exact TxKept.refl pDev

theorem sciServeRpf_kept (ista : Byte) (egress : List Byte) (pDev : Dev) :
    TxKept pDev (sciServeRpf ista egress pDev).2 := by
  unfold sciServeRpf sciRpfInt
  by_cases raised : ista &&& sciInterruptRpf ≠ 0
  · simp only [if_pos raised]
    by_cases room : pDev.writeBlk.nBytes + 1 + sciFifoSize < msgSize
    · simp only [if_pos room]
      exact ⟨rfl, rfl, rfl, rfl⟩
    · simp only [if_neg room]
      exact ⟨rfl, rfl, rfl, rfl⟩
  · simp only [if_neg raised]
    exact TxKept.refl pDev

theorem sciServeRfo_kept (ista : Byte) (pDev : Dev) : TxKept pDev (sciServeRfo ista pDev) := by
  unfold sciServeRfo
  split_ifs <;> exact ⟨rfl, rfl, rfl, rfl⟩

theorem sciServeXdov_kept (ista : Byte) (pDev : Dev) : TxKept pDev (sciServeXdov ista pDev) := by
  unfold sciServeXdov
  split_ifs <;> exact ⟨rfl, rfl, rfl, rfl⟩

theorem sciStoreFrame_kept (pDev : Dev) : TxKept pDev (sciStoreFrame pDev) := by
  unfold sciStoreFrame
  dsimp only
  split_ifs <;> exact ⟨rfl, rfl, rfl, rfl⟩

theorem sciRmeFinish_kept (wakeUp : Bool) (pDev : Dev) : TxKept pDev (sciRmeFinish wakeUp pDev) := by
  unfold sciRmeFinish regSet
  by_cases failed : pDev.sciRxState = .error
  · simp only [if_pos failed]
    exact ⟨rfl, rfl, rfl, rfl⟩
  · simp only [if_neg failed]
    exact ⟨rfl, rfl, rfl, rfl⟩

theorem setWriteBlk_kept (blk : RxFifo) (pDev : Dev) : TxKept pDev (pDev.setWriteBlk blk) :=
  ⟨rfl, rfl, rfl, rfl⟩

theorem updateStatistics_kept (b0 b1 b2 b3 : Byte) (pDev : Dev) :
    TxKept pDev (updateStatistics b0 b1 b2 b3 pDev) := by
  rw [updateStatistics_eq]
  exact ⟨rfl, rfl, rfl, rfl⟩

theorem mpiStoreMsg_kept (pDev : Dev) : TxKept pDev (mpiStoreMsg pDev) := by
  unfold mpiStoreMsg
  dsimp only
  split_ifs <;> exact ⟨rfl, rfl, rfl, rfl⟩

theorem mpiRxInt_kept (reg : MpiReg) (pDev : Dev) : TxKept pDev (mpiRxInt reg pDev) := by
  unfold mpiRxInt
  dsimp only
  split_ifs
  · exact TxKept.refl pDev
  · exact ((setWriteBlk_kept ..).trans (updateStatistics_kept ..)).trans (mpiStoreMsg_kept _)
  · exact ((setWriteBlk_kept ..).trans (updateStatistics_kept ..)).trans (mpiStoreMsg_kept _)

theorem sendTpAck_acked (odd nak : Bool) (pDev : Dev) : TxAcked pDev (sendTpAck odd nak pDev).2 := by
  unfold sendTpAck
  dsimp only
  split_ifs
  · have kept := sciXprInt_kept { pDev with
      txFifo := ⟨writeAt pDev.txFifo.pData 0 (tpAckFrame pDev.nDevAddress odd nak), 4, 0⟩ }
    exact ⟨⟨odd, nak, kept.pData⟩, kept.nDevAddress, kept.activeIf, kept.mapped⟩
  · have kept := sciXprInt_kept { pDev with
      txFifo := ⟨writeAt pDev.txFifo.pData 0 (tpAckFrame pDev.nDevAddress odd nak), 4, 0⟩ }
    exact ⟨⟨odd, nak, kept.pData⟩, kept.nDevAddress, kept.activeIf, kept.mapped⟩
  · exact ⟨⟨odd, nak, rfl⟩, rfl, rfl, rfl⟩

theorem processRsAck_kept (pDev : Dev) : TxKept pDev (processRsAck pDev) := by
  unfold processRsAck
  dsimp only
  split_ifs <;> exact ⟨rfl, rfl, rfl, rfl⟩

/-- The frame analysis writes an acknowledgement exactly for a transport message. -/
theorem sciProcessFrame_effect (pDev : Dev) :
    TxEffect (isTpMessage pDev.writeBlk) pDev (sciProcessFrame pDev).2 := by
  unfold sciProcessFrame
  dsimp only
  by_cases wrongHost : pDev.writeBlk.pData 1 ≠ adrHost ∧ pDev.writeBlk.pData 1 ≠ 0xFF
  · have other : isTpMessage pDev.writeBlk = false := Bool.eq_false_iff.mpr fun message =>
      ((isTpMessage_iff _).mp message).1.elim wrongHost.1 wrongHost.2
    rw [if_pos wrongHost, other]
    exact TxKept.refl pDev
  rw [if_neg wrongHost]
  by_cases idc : pDev.writeBlk.pData 0 &&& 0x0F = adrIdcCtrlr
  · have notPamdsl : isPamdsl adrIdcCtrlr = false := by decide
    have notRs : ¬ (adrIdcCtrlr = adrRamshell ∨ adrIdcCtrlr = adrAux ∨ adrIdcCtrlr = adrIdcRamshell) := by decide
    rw [idc, notPamdsl, if_neg Bool.false_ne_true, if_neg notRs, if_pos rfl]
    have toHost : pDev.writeBlk.pData 1 = adrHost ∨ pDev.writeBlk.pData 1 = 0xFF := by
      by_contra neither
      exact wrongHost (not_or.mp neither)
    unfold processTp
    dsimp only
    by_cases message : tpGetHeader (pDev.writeBlk.pData 2) (pDev.writeBlk.pData 3 &&& ~~~0x0F) = tpAckMsg ∨
        tpGetHeader (pDev.writeBlk.pData 2) (pDev.writeBlk.pData 3 &&& ~~~0x0F) = tpNfcMsg
    · have isMessage : isTpMessage pDev.writeBlk = true := (isTpMessage_iff _).mpr ⟨toHost, idc, message⟩
      rw [if_pos message, isMessage]
      split_ifs
      · exact sendTpAck_acked ..
      · exact sendTpAck_acked ..
    · have other : isTpMessage pDev.writeBlk = false := Bool.eq_false_iff.mpr fun isMessage =>
        message ((isTpMessage_iff _).mp isMessage).2.2
      rw [if_neg message, other]
      split_ifs <;> exact ⟨rfl, rfl, rfl, rfl⟩
  · have other : isTpMessage pDev.writeBlk = false := Bool.eq_false_iff.mpr fun isMessage =>
      idc ((isTpMessage_iff _).mp isMessage).2.1
    rw [other]
    split_ifs
    · exact TxKept.refl pDev
    · exact processRsAck_kept pDev
    · exact TxKept.refl pDev

/-- The receive message end interrupt, given the complete block if its bytes fit. -/
theorem sciRmeInt_effect (reg : MpiReg) (egress : List Byte) (pDev : Dev) :
    TxEffect ((rmeBlk reg egress pDev.writeBlk).any isTpMessage) pDev (sciRmeInt reg egress pDev) := by
  unfold sciRmeInt
  cases block : rmeBlk reg egress pDev.writeBlk with
  | none =>
    have dropped : TxKept pDev
        { pDev.setWriteBlk { pDev.writeBlk with nBytes := 0 } with sciRxState := .error } := ⟨rfl, rfl, rfl, rfl⟩
    exact dropped.trans (sciRmeFinish_kept ..)
  | some blk =>
    have analysed := sciProcessFrame_effect { pDev.setWriteBlk blk with sciRxState := .active }
    have same : Dev.writeBlk { pDev.setWriteBlk blk with sciRxState := .active } = blk := by
      simp [Dev.setWriteBlk, Dev.writeBlk]
    rw [same] at analysed
    have start : TxKept pDev { pDev.setWriteBlk blk with sciRxState := .active } := ⟨rfl, rfl, rfl, rfl⟩
    have ended (next : Dev) (deliver : Bool) : TxKept next
        (if deliver then sciStoreFrame next else next.setWriteBlk { next.writeBlk with nBytes := 0 }) := by
      cases deliver
      · exact setWriteBlk_kept ..
      · exact sciStoreFrame_kept next
    exact (start.effect (analysed.kept (ended _ _))).kept (sciRmeFinish_kept _ _)

theorem sciIntHandler_effect (reg : MpiReg) {pDev : Dev} (mapped : pDev.ucReg = true) :
    let ista := reg.sciInt &&& pDev.sciInten
    let front := sciServeRpf ista reg.sciEgress (sciServeXpr ista (sciServeXdu ista pDev))
    TxEffect (ista &&& sciInterruptRme != 0 && (rmeBlk reg front.1 front.2.writeBlk).any isTpMessage) pDev
      (sciIntHandler reg pDev) := by
  intro ista front
  have start : TxKept pDev front.2 :=
    ((sciServeXdu_kept ista pDev).trans (sciServeXpr_kept ista _)).trans (sciServeRpf_kept ista _ _)
  have finish (next : Dev) : TxKept next (sciServeXdov ista (sciServeRfo ista next)) :=
    (sciServeRfo_kept ista next).trans (sciServeXdov_kept ista _)
  simp only [sciIntHandler, mapped, Bool.not_true, Bool.false_eq_true, if_false]
  change TxEffect _ pDev (sciServeXdov ista (sciServeRfo ista
    (if ista &&& sciInterruptRme ≠ 0 then sciRmeInt reg front.1 front.2 else front.2)))
  by_cases raised : ista &&& sciInterruptRme = 0
  · simp only [raised, ne_eq, not_true_eq_false, if_false, bne_self_eq_false, Bool.false_and]
    exact start.trans (finish _)
  · simp only [ne_eq, raised, not_false_eq_true, if_true, bne_iff_ne.mpr raised, Bool.true_and]
    exact (start.effect (sciRmeInt_effect reg front.1 front.2)).kept (finish _)

/-- A run of the interrupt handler touches the bytes in the transmit buffer exactly when it completes
a transport message. -/
theorem intHandler_effect (reg : MpiReg) (pDev : Dev) :
    TxEffect (completesTpMessage reg pDev) pDev (intHandler reg pDev) := by
  unfold intHandler completesTpMessage
  cases mapped : pDev.ucReg with
  | false => exact TxKept.refl pDev
  | true =>
    set ista := reg.mpiEint &&& pDev.mpiEintEn with ista_eq
    by_cases idle : ista = 0
    · have noSci : ista &&& mpiMpintIntsci = 0 := by rw [idle]; decide
      simp only [Bool.not_true, Bool.false_eq_true, if_false, if_pos idle, noSci, bne_self_eq_false,
        Bool.true_and, Bool.false_and]
      exact TxKept.refl pDev
    have idc (next : Dev) : TxKept next
        (regSet .mpiEint ista (if ista &&& mpiMpintIntidc ≠ 0 then mpiRxInt reg next else next)) := by
      split_ifs
      · exact (mpiRxInt_kept reg next).trans (regSet_kept ..)
      · exact regSet_kept ..
    simp only [Bool.not_true, Bool.false_eq_true, if_false, if_neg idle, Bool.true_and]
    by_cases sci : ista &&& mpiMpintIntsci = 0
    · simp only [sci, ne_eq, not_true_eq_false, if_false, bne_self_eq_false, Bool.false_and]
      exact idc pDev
    · simp only [ne_eq, sci, not_false_eq_true, if_true, bne_iff_ne.mpr sci, Bool.true_and]
      exact (sciIntHandler_effect reg mapped).kept (idc _)

/-! ### One transmission attempt -/

/-- The wait for the acknowledgement touches the transmit buffer exactly when a transport message is
completed in it. -/
theorem awaitAck_effect (rounds : List MpiReg) (pDev : Dev) :
    TxEffect (awaitAnswers rounds pDev) pDev (awaitAck rounds pDev) := by
  induction rounds generalizing pDev with
  | nil => exact TxKept.refl pDev
  | cons reg rounds ih =>
    unfold awaitAnswers awaitAck
    have round := intHandler_effect reg pDev
    by_cases received : pDev.bTxAckReceived = true
    · simp only [received, if_true]
      exact TxKept.refl pDev
    · simp only [received, Bool.false_eq_true, if_false]
      by_cases underrun : (intHandler reg pDev).uStatistics &&& statXdu = 0
      · simp only [underrun, ne_eq, not_true_eq_false, if_false, beq_self_eq_true, Bool.true_and]
        exact round.trans (ih _)
      · simp only [ne_eq, underrun, not_false_eq_true, if_true, beq_eq_false_iff_ne.mpr underrun,
          Bool.false_and, Bool.or_false]
        exact round.kept ⟨rfl, rfl, rfl, rfl⟩

theorem sciXprInt_burst (pDev : Dev) :
    ingress (sciXprInt pDev).written = ingress pDev.written ++
        readAt pDev.txFifo.pData pDev.txFifo.nSent (min pDev.txFifo.nBytes sciFifoSize) ∧
      (sciXprInt pDev).txFifo.nBytes = pDev.txFifo.nBytes - min pDev.txFifo.nBytes sciFifoSize ∧
      (sciXprInt pDev).txFifo.nSent = pDev.txFifo.nSent + min pDev.txFifo.nBytes sciFifoSize := by
  simp only [sciXprInt, burst_len]
  by_cases none : min pDev.txFifo.nBytes sciFifoSize = 0
  · simp [none]
  · rw [if_neg none]
    refine ⟨?_, rfl, rfl⟩
    have command (value : Byte) : ingress [(Reg.sciCtrlH, value)] = [] := rfl
    simp only [ingress_append, ingress_bytes, command, List.append_nil]

/-- The bursts of a transmission send a prefix of the buffer, and leave its bytes alone. -/
theorem sendBursts_sent (xprReady : ℕ → Bool) (fuel burst : ℕ) (pDev : Dev) :
    TxKept pDev (sendBursts xprReady fuel burst pDev).2 ∧
      ingress (sendBursts xprReady fuel burst pDev).2.written = ingress pDev.written ++
        readAt pDev.txFifo.pData pDev.txFifo.nSent (burstTotal xprReady fuel burst pDev.txFifo.nBytes) := by
  induction fuel generalizing burst pDev with
  | zero => exact ⟨TxKept.refl pDev, by simp [sendBursts, burstTotal]⟩
  | succ fuel ih =>
    unfold sendBursts burstTotal
    obtain ⟨bytes, rest, sent⟩ := sciXprInt_burst pDev
    have kept : TxKept pDev (regSet .sciInt sciInterruptXpr (sciXprInt pDev)) :=
      (sciXprInt_kept pDev).trans (regSet_kept ..)
    have log : ingress (regSet .sciInt sciInterruptXpr (sciXprInt pDev)).written = _ :=
      (ingress_regSet (by decide) ..).trans bytes
    cases xprReady burst with
    | false => exact ⟨kept, log⟩
    | true =>
      simp only [Bool.not_true, Bool.false_eq_true, if_false]
      have left : (regSet .sciInt sciInterruptXpr (sciXprInt pDev)).txFifo.nBytes = _ := rest
      rw [left]
      by_cases done : pDev.txFifo.nBytes - min pDev.txFifo.nBytes sciFifoSize = 0
      · simp only [done, ne_eq, not_true_eq_false, if_false]
        exact ⟨kept, log⟩
      · simp only [ne_eq, done, not_false_eq_true, if_true]
        obtain ⟨keptRest, logRest⟩ := ih (burst + 1) (regSet .sciInt sciInterruptXpr (sciXprInt pDev))
        refine ⟨kept.trans keptRest, ?_⟩
        have from_ : (regSet .sciInt sciInterruptXpr (sciXprInt pDev)).txFifo.nSent = _ := sent
        rw [logRest, log, left, from_, kept.pData, List.append_assoc, ← readAt_add]

theorem burstTotal_header (xprReady : ℕ → Bool) (fuel : ℕ) {nBytes : ℕ} (header : 4 ≤ nBytes) :
    4 ≤ burstTotal xprReady (fuel + 1) 0 nBytes := by
  have first : 4 ≤ min nBytes sciFifoSize := by
    simp only [sciFifoSize]
    omega
  unfold burstTotal
  dsimp only
  split_ifs <;> omega

namespace Attempt

variable (attempt : Attempt)

/-- The bytes of an attempt are a prefix of the transmit buffer at its start. -/
theorem bytes_eq (fresh : attempt.dev.txFifo.nSent = 0) :
    attempt.bytes = readAt attempt.dev.txFifo.pData 0 attempt.taken := by
  unfold bytes sent taken
  cases mapped : attempt.dev.ucReg with
  | false => simp [txPollingStart, mapped]
  | true =>
    have spec := (sendBursts_sent attempt.io.xprReady (burstFuel (txPollingStart attempt.dev)) 0
      (txPollingStart attempt.dev)).2
    have start : (txPollingStart attempt.dev).ucReg = true := mapped
    simp only [start, if_true, spec]
    have log : ingress (txPollingStart attempt.dev).written = ingress attempt.dev.written := rfl
    rw [log, List.drop_left]
    have sent : (txPollingStart attempt.dev).txFifo.nSent = 0 := fresh
    rw [sent]
    rfl

theorem sent_kept : TxKept attempt.dev attempt.sent.2 := by
  have start : TxKept attempt.dev (txPollingStart attempt.dev) := ⟨rfl, rfl, rfl, rfl⟩
  unfold sent
  dsimp only
  split_ifs
  · exact start.trans (sendBursts_sent ..).1
  · exact start

/-- An attempt touches the transmit buffer exactly when it answers a transport message. -/
theorem effect : TxEffect attempt.answers attempt.dev (sciTxPolling attempt.io attempt.dev).2 := by
  rw [polling_eq, answers]
  cases attempt.sent.1 with
  | false => exact attempt.sent_kept
  | true => exact attempt.sent_kept.effect (awaitAck_effect ..)

end Attempt

/-! ### The attempts of one frame -/

/-- An attempt starts with the counters set for a frame of `nLength` bytes. -/
def Fresh (nLength : ℕ) (attempt : Attempt) : Prop :=
  attempt.dev.txFifo.nBytes = nLength ∧ attempt.dev.txFifo.nSent = 0

/-- The next attempt starts with the buffer that the previous one left. -/
def Follows (attempt next : Attempt) : Prop := TxEffect attempt.answers attempt.dev next.dev

def Repeats (attempts : List Attempt) : Prop :=
  ∀ first ∈ attempts.head?, ∀ attempt ∈ attempts, attempt.bytes = first.bytes

/-- The hardware takes equally many bytes in each attempt. -/
def EquallyTaken (attempts : List Attempt) : Prop :=
  ∀ first ∈ attempts.head?, ∀ attempt ∈ attempts, attempt.taken = first.taken

/-- No transport message is completed during the wait of an attempt that is followed by another. -/
def Undisturbed (attempts : List Attempt) : Prop :=
  ∀ attempt ∈ attempts.dropLast, attempt.answers = false

/-- A buffer that starts like a transport acknowledgement. -/
def StartsWithAck (pData : ℕ → Byte) : Prop :=
  ∃ nDevAddress odd nak, readAt pData 0 4 = tpAckFrame nDevAddress odd nak

theorem Follows.mapped {attempt next : Attempt} (follows : Follows attempt next) :
    next.dev.ucReg = attempt.dev.ucReg := by
  unfold Follows TxEffect at follows
  split_ifs at follows
  · exact follows.mapped
  · exact TxKept.mapped follows

variable {rest : List Attempt} {nLength : ℕ}

theorem pData_eq_of_undisturbed {first : Attempt} (chain : List.IsChain Follows (first :: rest))
    (undisturbed : Undisturbed (first :: rest)) :
    ∀ attempt ∈ first :: rest, attempt.dev.txFifo.pData = first.dev.txFifo.pData := by
  induction rest generalizing first with
  | nil => simp
  | cons next rest ih =>
    obtain ⟨follows, chain⟩ := List.isChain_cons_cons.mp chain
    have quiet : first.answers = false := undisturbed first (by simp)
    have kept : next.dev.txFifo.pData = first.dev.txFifo.pData := by
      rw [Follows, quiet] at follows
      exact TxKept.pData follows
    have tail := ih chain fun attempt member => undisturbed attempt (by
      rw [List.dropLast_cons_cons]
      exact List.mem_cons_of_mem _ member)
    intro attempt member
    rcases List.mem_cons.mp member with rfl | later
    · rfl
    · exact (tail attempt later).trans kept

/-- Behind a disturbed attempt the buffer starts with an acknowledgement. -/
theorem undisturbed_of_header {first : Attempt} (chain : List.IsChain Follows (first :: rest))
    (header : ∀ attempt ∈ first :: rest, ¬ StartsWithAck attempt.dev.txFifo.pData) : Undisturbed (first :: rest) := by
  induction rest generalizing first with
  | nil => simp [Undisturbed]
  | cons next rest ih =>
    obtain ⟨follows, chain⟩ := List.isChain_cons_cons.mp chain
    have tail := ih chain fun attempt member => header attempt (List.mem_cons_of_mem _ member)
    intro attempt member
    rw [List.dropLast_cons_cons] at member
    rcases List.mem_cons.mp member with rfl | later
    · by_contra answers
      rw [Follows, Bool.not_eq_false _ |>.mp answers] at follows
      obtain ⟨odd, nak, pData⟩ := TxAcked.pData follows
      refine header next (by simp) ⟨attempt.dev.nDevAddress, odd, nak, ?_⟩
      rw [pData]
      exact readAt_writeAt _ 0 (tpAckFrame attempt.dev.nDevAddress odd nak)
    · exact tail attempt later

theorem mapped_eq_of_chain {first : Attempt} (chain : List.IsChain Follows (first :: rest)) :
    ∀ attempt ∈ first :: rest, attempt.dev.ucReg = first.dev.ucReg := by
  induction rest generalizing first with
  | nil => simp
  | cons next rest ih =>
    obtain ⟨follows, chain⟩ := List.isChain_cons_cons.mp chain
    intro attempt member
    rcases List.mem_cons.mp member with rfl | later
    · rfl
    · exact (ih chain attempt later).trans follows.mapped

/-- The attempts of a frame: each follows the one before, starts with the frame's length, and the
first one starts with the buffer as prepared. -/
structure Launched (nLength : ℕ) (prepared : Dev) (attempts : List Attempt) : Prop where
  chain : List.IsChain Follows attempts
  fresh : ∀ attempt ∈ attempts, Fresh nLength attempt
  start : ∀ first ∈ attempts.head?, TxKept prepared first.dev

/-- The attempts of a frame, whose header is not that of an acknowledgement, all send the same bytes
exactly when no attempt but the last is disturbed and the hardware takes equally many bytes in all. -/
theorem Launched.repeats_iff {prepared : Dev} {attempts : List Attempt} (launched : Launched nLength prepared attempts)
    (header : 4 ≤ nLength) (own : ¬ StartsWithAck prepared.txFifo.pData) :
    Repeats attempts ↔ EquallyTaken attempts ∧ Undisturbed attempts := by
  cases attempts with
  | nil => simp [Repeats, EquallyTaken, Undisturbed]
  | cons first rest =>
    have bytes (attempt : Attempt) (member : attempt ∈ first :: rest) :
        attempt.bytes = readAt attempt.dev.txFifo.pData 0 attempt.taken :=
      attempt.bytes_eq (launched.fresh attempt member).2
    have mapped := mapped_eq_of_chain launched.chain
    cases reachable : first.dev.ucReg with
    | false =>
      have idle (attempt : Attempt) (member : attempt ∈ first :: rest) :
          attempt.taken = 0 ∧ attempt.answers = false := by
        have unmapped := (mapped attempt member).trans reachable
        exact ⟨by simp [Attempt.taken, unmapped], by simp [Attempt.answers, Attempt.sent, txPollingStart, unmapped]⟩
      have same : Repeats (first :: rest) := by
        intro head isHead attempt member
        obtain rfl : first = head := by simpa using isHead
        rw [bytes attempt member, bytes first (by simp), (idle attempt member).1, (idle first (by simp)).1]
        rfl
      refine iff_of_true same ⟨?_, fun attempt member => (idle attempt (List.dropLast_subset _ member)).2⟩
      intro head isHead attempt member
      obtain rfl : first = head := by simpa using isHead
      rw [(idle attempt member).1, (idle first (by simp)).1]
    | true =>
      have long (attempt : Attempt) (member : attempt ∈ first :: rest) : 4 ≤ attempt.taken := by
        rw [Attempt.taken, if_pos ((mapped attempt member).trans reachable), (launched.fresh attempt member).1]
        exact burstTotal_header _ _ header
      have front (attempt : Attempt) (member : attempt ∈ first :: rest) :
          attempt.bytes.take 4 = readAt attempt.dev.txFifo.pData 0 4 := by
        obtain ⟨more, split⟩ := Nat.exists_eq_add_of_le (long attempt member)
        rw [bytes attempt member, split, readAt_add]
        exact List.take_left' (readAt_length ..)
      have firstOwn : ¬ StartsWithAck first.dev.txFifo.pData := by
        rw [(launched.start first (by simp)).pData]
        exact own
      constructor
      · intro repeats
        have same (attempt : Attempt) (member : attempt ∈ first :: rest) : attempt.bytes = first.bytes :=
          repeats first (by simp) attempt member
        refine ⟨?_, undisturbed_of_header launched.chain ?_⟩
        · intro head isHead attempt member
          obtain rfl : first = head := by simpa using isHead
          have lengths := congrArg List.length (same attempt member)
          simpa [bytes attempt member, bytes first (by simp)] using lengths
        · rintro attempt member ⟨nDevAddress, odd, nak, ack⟩
          refine firstOwn ⟨nDevAddress, odd, nak, ?_⟩
          rw [← front first (by simp), ← same attempt member, front attempt member, ack]
      · rintro ⟨taken, undisturbed⟩ head isHead attempt member
        obtain rfl : first = head := by simpa using isHead
        rw [bytes attempt member, bytes first (by simp), taken first (by simp) attempt member,
          pData_eq_of_undisturbed launched.chain undisturbed attempt member]

/-! ### The four send functions -/

theorem Launched.nil (nLength : ℕ) (prepared : Dev) : Launched nLength prepared [] :=
  ⟨List.IsChain.nil, by simp, by simp⟩

/-- Preparing an attempt leaves the bytes in the transmit buffer alone. -/
theorem Launched.prepare {source prepared : Dev} {attempts : List Attempt}
    (launched : Launched nLength prepared attempts) (kept : TxKept source prepared) :
    Launched nLength source attempts :=
  { launched with start := fun first member => kept.trans (launched.start first member) }

theorem Launched.cons {attempt : Attempt} {attempts : List Attempt} (fresh : Fresh nLength attempt)
    (launched : Launched nLength (sciTxPolling attempt.io attempt.dev).2 attempts) :
    Launched nLength attempt.dev (attempt :: attempts) where
  chain := List.isChain_cons.mpr
    ⟨fun next isNext => attempt.effect.kept (launched.start next isNext), launched.chain⟩
  fresh := by
    intro next member
    rcases List.mem_cons.mp member with rfl | later
    · exact fresh
    · exact launched.fresh next later
  start := by
    intro first isFirst
    obtain rfl : attempt = first := by simpa using isFirst
    exact TxKept.refl _

theorem retryPolling_launched (nLength : ℕ) (io : ℕ → Polling) (retry round : ℕ) (pDev : Dev)
    (counters : pDev.txFifo.nBytes = nLength ∧ pDev.txFifo.nSent = 0) :
    Launched nLength pDev (retryPolling nLength io retry round pDev).1 := by
  induction retry generalizing round pDev with
  | zero => exact Launched.nil ..
  | succ retry ih =>
    unfold retryPolling
    have rest := ih (round + 1) (setTxLength nLength (sciTxPolling (io round) pDev).2) ⟨rfl, rfl⟩
    have kept : TxKept (sciTxPolling (io round) pDev).2 (setTxLength nLength (sciTxPolling (io round) pDev).2) :=
      ⟨rfl, rfl, rfl, rfl⟩
    dsimp only
    split_ifs
    · exact @Launched.cons _ ⟨pDev, io round⟩ _ counters (Launched.nil ..)
    · exact @Launched.cons _ ⟨pDev, io round⟩ _ counters (rest.prepare kept)

theorem sendPrepared_launched (nLength : ℕ) (io : ℕ → Polling) (pDev : Dev) :
    Launched nLength pDev (sendPrepared nLength io pDev).1 := by
  unfold sendPrepared
  dsimp only
  split_ifs
  · exact (retryPolling_launched nLength io 3 0 _ ⟨rfl, rfl⟩).prepare ⟨rfl, rfl, rfl, rfl⟩
  · exact Launched.nil ..
  · exact Launched.nil ..

theorem mpiTx_kept (mailboxFree : Bool) (pDev : Dev) : TxKept pDev (mpiTx mailboxFree pDev) := by
  unfold mpiTx
  dsimp only
  split_ifs <;> exact ⟨rfl, rfl, rfl, rfl⟩

theorem toggleOddEven_kept (pDev : Dev) : TxKept pDev (toggleOddEven pDev) := by
  unfold toggleOddEven
  split_ifs <;> exact ⟨rfl, rfl, rfl, rfl⟩

theorem idcMsgLoop_launched (nLength : ℕ) (io : ℕ → Polling) (fuel repetitions : ℕ) (pDev : Dev) :
    Launched nLength pDev (idcMsgLoop nLength io fuel repetitions pDev).attempts := by
  induction fuel generalizing repetitions pDev with
  | zero => exact Launched.nil ..
  | succ fuel ih =>
    unfold idcMsgLoop
    dsimp only
    have start : TxKept pDev (beginAttempt nLength pDev) := ⟨rfl, rfl, rfl, rfl⟩
    have counters : (beginAttempt nLength pDev).txFifo.nBytes = nLength ∧
        (beginAttempt nLength pDev).txFifo.nSent = 0 := ⟨rfl, rfl⟩
    generalize beginAttempt nLength pDev = prepared at start counters
    by_cases bridge : prepared.bSendIdcViaSciBridge = true
    · simp only [if_pos bridge]
      by_cases polling : prepared.irqVector = 0
      · simp only [if_pos polling]
        have next := (ih (repetitions + 1) (toggleOddEven (sciTxPolling (io repetitions) prepared).2)).prepare
          (toggleOddEven_kept _)
        refine Launched.prepare ?_ start
        split_ifs
        · exact @Launched.cons _ ⟨prepared, io repetitions⟩ _ counters (Launched.nil ..)
        · exact @Launched.cons _ ⟨prepared, io repetitions⟩ _ counters next
        · exact @Launched.cons _ ⟨prepared, io repetitions⟩ _ counters (Launched.nil ..)
      · simp only [if_neg polling]
        have kept := (start.trans (sciXprInt_kept prepared)).trans (toggleOddEven_kept _)
        have next := (ih (repetitions + 1) (toggleOddEven (sciXprInt prepared))).prepare kept
        split_ifs
        · exact Launched.nil ..
        · exact next
        · exact Launched.nil ..
    · simp only [if_neg bridge]
      have next := (ih (repetitions + 1) (mpiTx (io repetitions).mailboxFree prepared)).prepare
        (start.trans (mpiTx_kept ..))
      split_ifs
      · exact Launched.nil ..
      · exact next
      · exact Launched.nil ..

/-- A frame to send: one constructor for each of the four send functions, with its arguments. -/
inductive Request
  | idcMsg (pSrc : List Byte)
  | rsMsg (opcd : Byte) (param : BitVec 32) (pSrc : ℕ → Byte) (nLength : ℕ)
  | idcRsMsg (opcd : Byte) (param : BitVec 32) (pSrc : ℕ → Byte) (nLength : ℕ)
  | auxMsg (reg param : Byte)

def Request.attempts (io : ℕ → Polling) (pDev : Dev) : Request → List Attempt
  | idcMsg pSrc => (sendIdcMsg pSrc io pDev).attempts
  | rsMsg opcd param pSrc nLength => (sendRsMsg opcd param pSrc nLength io pDev).1
  | idcRsMsg opcd param pSrc nLength => (sendIdcRsMsg opcd param pSrc nLength io pDev).1
  | auxMsg reg param => (sendAuxMsg reg param io pDev).1

/-- A buffer whose second byte does not name the IDC controller is not an acknowledgement. -/
theorem not_ack_of_address {pData : ℕ → Byte} (other : pData 1 &&& 0x0F ≠ adrIdcCtrlr) :
    ¬ StartsWithAck pData := by
  rintro ⟨nDevAddress, odd, nak, ack⟩
  have second : pData 1 = adrDevice nDevAddress ||| adrIdcCtrlr := by
    have bytes := congrArg (·[1]?) ack
    simpa [readAt, tpAckFrame] using bytes
  have controller : (adrDevice nDevAddress ||| adrIdcCtrlr) &&& 0x0F = adrIdcCtrlr := by
    generalize nDevAddress = address
    revert address
    decide
  exact other (second ▸ controller)

/-- A buffer with the transport header of a message is not an acknowledgement. -/
theorem not_ack_of_header {pData : ℕ → Byte} {flag : Bool} (message : pData 2 = 0x08 ||| oddBit flag) :
    ¬ StartsWithAck pData := by
  rintro ⟨nDevAddress, odd, nak, ack⟩
  have third : pData 2 = (if nak then 0x8E else 0x88) ||| oddBit odd := by
    have bytes := congrArg (·[2]?) ack
    simpa [readAt, tpAckFrame] using bytes
  rw [message] at third
  revert third
  cases flag <;> cases odd <;> cases nak <;> decide

theorem address_low (nDevAddress address : Byte) :
    (adrDevice nDevAddress ||| address) &&& 0x0F = address &&& 0x0F := by
  have low : adrDevice nDevAddress &&& 0x0F = 0 := by
    revert nDevAddress
    decide
  rw [BitVec.and_comm, BitVec.and_or_distrib_left, BitVec.and_comm, low, BitVec.and_comm]
  exact BitVec.zero_or

theorem Repeats.nil_iff : Repeats [] ↔ EquallyTaken [] ∧ Undisturbed [] := by
  simp [Repeats, EquallyTaken, Undisturbed]

/-- A frame prepared with a header that names another receiver than the IDC controller. -/
theorem sendPrepared_repeats_iff (nLength : ℕ) (io : ℕ → Polling) (pDev : Dev) (header : 4 ≤ nLength)
    (other : pDev.txFifo.pData 1 &&& 0x0F ≠ adrIdcCtrlr) :
    Repeats (sendPrepared nLength io pDev).1 ↔
      EquallyTaken (sendPrepared nLength io pDev).1 ∧ Undisturbed (sendPrepared nLength io pDev).1 :=
  (sendPrepared_launched nLength io pDev).repeats_iff header (not_ack_of_address other)

theorem sendRamshell_repeats_iff (address opcd : Byte) (param : BitVec 32) (pSrc : ℕ → Byte) (nLength : ℕ)
    (io : ℕ → Polling) (pDev : Dev) (other : address &&& 0x0F ≠ adrIdcCtrlr) :
    Repeats (sendRamshell address opcd param pSrc nLength io pDev).1 ↔
      EquallyTaken (sendRamshell address opcd param pSrc nLength io pDev).1 ∧
        Undisturbed (sendRamshell address opcd param pSrc nLength io pDev).1 := by
  unfold sendRamshell
  dsimp only
  split_ifs
  · exact Repeats.nil_iff
  · exact Repeats.nil_iff
  · refine sendPrepared_repeats_iff _ io _ (by omega) ?_
    change (adrDevice pDev.nDevAddress ||| address) &&& 0x0F ≠ adrIdcCtrlr
    rwa [address_low]

theorem sendAuxMsg_repeats_iff (reg param : Byte) (io : ℕ → Polling) (pDev : Dev) :
    Repeats (sendAuxMsg reg param io pDev).1 ↔
      EquallyTaken (sendAuxMsg reg param io pDev).1 ∧ Undisturbed (sendAuxMsg reg param io pDev).1 := by
  unfold sendAuxMsg
  dsimp only
  split_ifs
  · exact Repeats.nil_iff
  · refine sendPrepared_repeats_iff _ io _ le_rfl ?_
    change (adrDevice pDev.nDevAddress ||| adrAux) &&& 0x0F ≠ adrIdcCtrlr
    rw [address_low]
    decide

theorem idcMsgLoop_mailbox (nLength : ℕ) (io : ℕ → Polling) (fuel repetitions : ℕ) (pDev : Dev)
    (mailbox : pDev.bSendIdcViaSciBridge = false) :
    (idcMsgLoop nLength io fuel repetitions pDev).attempts = [] := by
  induction fuel generalizing repetitions pDev with
  | zero => rfl
  | succ fuel ih =>
    have still (next : Dev) (mailboxFree : Bool) (same : next.bSendIdcViaSciBridge = false) :
        (mpiTx mailboxFree next).bSendIdcViaSciBridge = false := by
      unfold mpiTx
      dsimp only
      split_ifs <;> exact same
    have begun : (beginAttempt nLength pDev).bSendIdcViaSciBridge = false := mailbox
    have next := ih (repetitions + 1) (mpiTx (io repetitions).mailboxFree (beginAttempt nLength pDev))
      (still _ _ begun)
    unfold idcMsgLoop
    simp only [begun, Bool.false_eq_true, if_false]
    split_ifs
    · rfl
    · exact next
    · rfl

theorem sendIdcMsg_repeats_iff (pSrc : List Byte) (io : ℕ → Polling) (pDev : Dev) :
    Repeats (sendIdcMsg pSrc io pDev).attempts ↔
      EquallyTaken (sendIdcMsg pSrc io pDev).attempts ∧ Undisturbed (sendIdcMsg pSrc io pDev).attempts := by
  unfold sendIdcMsg
  dsimp only
  split_ifs
  · exact Repeats.nil_iff
  · exact Repeats.nil_iff
  · exact Repeats.nil_iff
  · exact (idcMsgLoop_launched _ io _ 0 _).repeats_iff (by omega) (not_ack_of_header rfl)
  · exact Repeats.nil_iff
  · rw [idcMsgLoop_mailbox _ io _ 0 _ (by simp_all)]
    exact Repeats.nil_iff
  · exact Repeats.nil_iff

/-- The attempts of a frame all send the same bytes exactly when no transport message is completed
during the wait of an attempt that is followed by another one, and the hardware takes equally many
bytes in each attempt. -/
theorem request_repeats_iff (request : Request) (io : ℕ → Polling) (pDev : Dev) :
    Repeats (request.attempts io pDev) ↔
      EquallyTaken (request.attempts io pDev) ∧ Undisturbed (request.attempts io pDev) := by
  cases request with
  | idcMsg pSrc => exact sendIdcMsg_repeats_iff pSrc io pDev
  | rsMsg opcd param pSrc nLength =>
    exact sendRamshell_repeats_iff adrRamshell opcd param pSrc nLength io pDev (by decide)
  | idcRsMsg opcd param pSrc nLength =>
    exact sendRamshell_repeats_iff adrIdcRamshell opcd param pSrc nLength io pDev (by decide)
  | auxMsg reg param => exact sendAuxMsg_repeats_iff reg param io pDev

/-- A driver after initialisation, with the device address of the MPI interface. -/
def readyDev : Dev :=
  (mpiInit ⟨0x60000000, 4⟩ (some fun _ => 0) { Dev.zeroed with nDevAddress := 0x0F }).2

/-- The device sends a message of its own in the first attempt, and never answers. -/
def crossingMessage (repetitions : ℕ) : Polling where
  xprReady := fun _ => true
  mailboxFree := true
  rounds := if repetitions = 0 then
    [{ mpiEint := mpiMpintIntsci, sciInt := sciInterruptRme, sciReportL := 8,
       sciEgress := [0xF1, 0xF3, 0x08, 0x00, 0x40, 0x34, 0xFF, 0xFF] }] else []

/-- The second and third attempt carry the header of the acknowledgement in front of the payload. -/
theorem crossingMessage_bytes :
    ((Request.idcMsg [0x10, 0x00, 0xFF, 0xFF]).attempts crossingMessage readyDev).map Attempt.bytes =
      [[0xF3, 0xF1, 0x08, 0x00, 0x10, 0x00, 0xFF, 0xFF],
       [0xF3, 0xF1, 0x88, 0x00, 0x10, 0x00, 0xFF, 0xFF],
       [0xF3, 0xF1, 0x88, 0x00, 0x10, 0x00, 0xFF, 0xFF]] := by
  decide +kernel

theorem crossingMessage_not_repeats :
    ¬ Repeats ((Request.idcMsg [0x10, 0x00, 0xFF, 0xFF]).attempts crossingMessage readyDev) := by
  have bytes := crossingMessage_bytes
  generalize (Request.idcMsg [0x10, 0x00, 0xFF, 0xFF]).attempts crossingMessage readyDev = attempts at bytes
  obtain ⟨first, rest, rfl, firstBytes, restBytes⟩ := List.map_eq_cons_iff.mp bytes
  obtain ⟨second, rest, rfl, secondBytes, -⟩ := List.map_eq_cons_iff.mp restBytes
  intro repeats
  have same := repeats first rfl second (by simp)
  rw [firstBytes, secondBytes] at same
  exact absurd same (by decide)

end Pef24628e
