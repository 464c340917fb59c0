import ShdslBridge.Driver.Device

/-! # SCI side of the driver: interrupts, frame analysis, transport acknowledgements

The SCI bridge carries HDLC frames. Received blocks are collected in the receive block under the
write pointer and, at the end of the frame, analysed by `sciProcessFrame`; only a frame for which
it answers true stays in the FIFO. Everything sent, a frame of the driver as well as a transport
acknowledgement, goes through the one transmit buffer and leaves it in bursts of 64 bytes.
-/

namespace Pef24628e

open Memory

def adrHost : Byte := 0xF3
def adrRamshell : Byte := 0x05
def adrAux : Byte := 0x09
def adrIdcCtrlr : Byte := 0x01
def adrIdcRamshell : Byte := 0x08

/-- `PEF24628E_ADR_DEVICE`. -/
def adrDevice (dev : Byte) : Byte := (dev <<< 4) &&& 0xF0

/-- `PEF24628E_VALID_RSTA`: `RSTA_CRC | RSTA_VFR`; the negated mask of the macro is 0. -/
def validRsta : Byte := 0xA0

def tpAckMsg : Byte := 0x04
def tpNfcMsg : Byte := 0x84
def tpPosAck : Byte := 0x44
def tpNegAck : Byte := 0x47
def tpResAck : Byte := 0x03

/-- `PEF24628E_TP_GET_HEADER`. -/
def tpGetHeader (h0 h1 : Byte) : Byte := (h0 >>> 1) ||| ((h1 &&& 1) <<< 7)

def sciInterruptXdov : Byte := 0x40
def sciInterruptXpr : Byte := 0x20
def sciInterruptXdu : Byte := 0x08
def sciInterruptRpf : Byte := 0x04
def sciInterruptRme : Byte := 0x02
def sciInterruptRfo : Byte := 0x01
def sciInterruptAll : Byte := 0xFF

def sciCtrlRmc : Byte := 0x10
def sciCtrlRres : Byte := 0x02
def sciCtrlXres : Byte := 0x01
def sciCtrlHighXme : Byte := 0x80
def sciCtrlHighXtf : Byte := 0x40

/-- The transmit underrun flag in `uStatistics`. -/
def statXdu : BitVec 32 := 0x80000000

/-- `Pef24628e_Sci_XprInt`: writes the next burst of the transmit buffer to `SCI_INGRESS`. -/
def sciXprInt (pDev : Dev) : Dev :=
  let tx := pDev.txFifo
  let len := if tx.nBytes > sciFifoSize then sciFifoSize else tx.nBytes
  if len = 0 then pDev
  else
    let rest := tx.nBytes - len
    let burst := (readAt tx.pData tx.nSent len).map fun byte => (Reg.sciIngress, byte)
    let command := if rest ≠ 0 then sciCtrlHighXtf else sciCtrlHighXtf ||| sciCtrlHighXme
    { pDev with
      txFifo := { tx with nSent := tx.nSent + len, nBytes := rest }
      written := pDev.written ++ burst ++ [(.sciCtrlH, command)] }

theorem burst_len (nBytes : ℕ) : (if nBytes > sciFifoSize then sciFifoSize else nBytes) = min nBytes sciFifoSize := by
  split <;> omega

def oddBit (odd : Bool) : Byte := if odd then 1 else 0

def oddOf (byte : Byte) : Bool := byte &&& 1 != 0

/-- The frame of a transport acknowledgement, `0x88` or `0x8E` with the odd/even flag. -/
def tpAckFrame (nDevAddress : Byte) (odd nak : Bool) : List Byte :=
  [adrHost, adrDevice nDevAddress ||| adrIdcCtrlr, (if nak then 0x8E else 0x88) ||| oddBit odd, 0]

/-- `Pef24628e_Send_TP_Ack`. A repeated odd/even flag is only traced: the `return` of that branch is
commented out in the source. -/
def sendTpAck (odd nak : Bool) (pDev : Dev) : Bool × Dev :=
  let pDev := { pDev with
    txFifo := ⟨writeAt pDev.txFifo.pData 0 (tpAckFrame pDev.nDevAddress odd nak), 4, 0⟩ }
  if pDev.activeIf = .mpi then
    let pDev := sciXprInt pDev
    (true, if nak then pDev
      else { pDev with transpData := { pDev.transpData with rxOddEven := some odd } })
  else (false, pDev)

/-- In MPI mode an acknowledgement is sent at once, in one burst: its four bytes go to the device and
stay in the transmit buffer, over the bytes that were there. -/
theorem sendTpAck_eq (odd nak : Bool) {pDev : Dev} (mpi : pDev.activeIf = .mpi) :
    sendTpAck odd nak pDev =
      (true, { pDev with
        txFifo := ⟨writeAt pDev.txFifo.pData 0 (tpAckFrame pDev.nDevAddress odd nak), 0, 4⟩
        transpData := if nak then pDev.transpData else { pDev.transpData with rxOddEven := some odd }
        written := pDev.written ++
          (tpAckFrame pDev.nDevAddress odd nak).map (fun byte => (Reg.sciIngress, byte)) ++
          [(.sciCtrlH, sciCtrlHighXtf ||| sciCtrlHighXme)] }) := by
  have burst := readAt_writeAt pDev.txFifo.pData 0 (tpAckFrame pDev.nDevAddress odd nak)
  have size : (tpAckFrame pDev.nDevAddress odd nak).length = 4 := rfl
  rw [size] at burst
  cases nak <;> simp [sendTpAck, mpi, sciXprInt, sciFifoSize, burst]

/-- Little endian value of four bytes, as stored into `last_rs_value`. -/
def littleEndian (b0 b1 b2 b3 : Byte) : BitVec 32 :=
  b0.setWidth 32 ||| (b1.setWidth 32 <<< 8) ||| (b2.setWidth 32 <<< 16) ||| (b3.setWidth 32 <<< 24)

/-- The RAMSHELL and AUX answers of `Pef24628e_Sci_Process_Frame`. -/
def processRsAck (pDev : Dev) : Dev :=
  let blk := pDev.writeBlk
  if blk.pData 2 &&& 0xF0 ≠ validRsta then { pDev with txErr := true, bTxAckReceived := true }
  else
    { pDev with
      txErr := false
      bTxAckReceived := true
      lastAuxValue :=
        if blk.pData 0 &&& 0x0F = adrAux then
          if blk.nBytes ≥ 4 then (blk.pData 3).setWidth 32 else 0
        else pDev.lastAuxValue
      lastRsValue :=
        if blk.nBytes > 6 then littleEndian (blk.pData 3) (blk.pData 4) (blk.pData 5) (blk.pData 6)
        else pDev.lastRsValue }

/-- The transport protocol frames of `Pef24628e_Sci_Process_Frame`. -/
def processTp (pDev : Dev) : Bool × Dev :=
  let blk := pDev.writeBlk
  let header := tpGetHeader (blk.pData 2) (blk.pData 3 &&& ~~~0x0F)
  let odd := oddOf (blk.pData 2)
  if header = tpAckMsg ∨ header = tpNfcMsg then
    if blk.nBytes < 8 then (false, (sendTpAck odd true pDev).2) else sendTpAck odd false pDev
  else if header = tpPosAck then
    (false, { pDev with
      txErr := false
      bTxAckReceived := true
      transpData := { pDev.transpData with txLastAckOddEven := some odd } })
  else if header = tpNegAck then (false, { pDev with txErr := true, bTxAckReceived := true })
  else if header = tpResAck then
    (false, { pDev with transpData := { pDev.transpData with txOddEven := false, rxOddEven := none } })
  else (false, pDev)

def isPamdsl (source : Byte) : Bool :=
  source == 0x02 || source == 0x06 || source == 0x0A || source == 0x0E

/-- `Pef24628e_Sci_Process_Frame`: true means that the upper layer gets the frame. -/
def sciProcessFrame (pDev : Dev) : Bool × Dev :=
  let pData := pDev.writeBlk.pData
  let source := pData 0 &&& 0x0F
  if pData 1 ≠ adrHost ∧ pData 1 ≠ 0xFF then (false, pDev)
  else if isPamdsl source then (false, pDev)
  else if source = adrRamshell ∨ source = adrAux ∨ source = adrIdcRamshell then (false, processRsAck pDev)
  else if source = adrIdcCtrlr then processTp pDev
  else (false, pDev)

/-- `Pef24628e_Sci_RpfInt`. The receive complete command releases the 64 bytes, read or not, so what
the hardware presents next is returned with the new state. -/
def sciRpfInt (egress : List Byte) (pDev : Dev) : List Byte × Dev :=
  let blk := pDev.writeBlk
  let pDev :=
    if blk.nBytes + 1 + sciFifoSize < msgSize then
      let bytes := regRead egress sciFifoSize
      { pDev.setWriteBlk ⟨writeAt blk.pData blk.nBytes bytes, blk.nBytes + sciFifoSize, true⟩ with
        sciRxState := .active }
    else { pDev.setWriteBlk { blk with nBytes := 0 } with sciRxState := .error }
  (egress.drop sciFifoSize, pDev |> regSet .sciInt sciInterruptRpf |> regSet .sciCtrlL sciCtrlRmc)

/-- Bytes of the last block, from the total length that the hardware reports. -/
def sciReportLen (reg : MpiReg) : ℕ :=
  let len := (reg.sciReportH &&& 0x0F).toNat * 256 + reg.sciReportL.toNat
  if len ≥ sciFifoSize ∧ len % sciFifoSize = 0 then sciFifoSize else len % sciFifoSize

/-- The FIFO step of `Pef24628e_Sci_RmeInt` for a frame that the upper layer gets. -/
def sciStoreFrame (pDev : Dev) : Dev :=
  let pDev := { pDev with pRxFifoWrite := nextBlk pDev.pRxFifoWrite }
  if pDev.pRxFifoWrite = pDev.pRxFifoRead then
    { pDev with
      bRxFifoFull := true
      sciInten := bfld pDev.sciInten (sciInterruptRpf ||| sciInterruptRme) 0 }
  else { pDev with bRxFifoFull := false }

/-- The receive block once its last bytes are copied, if they fit. -/
def rmeBlk (reg : MpiReg) (egress : List Byte) (blk : RxFifo) : Option RxFifo :=
  let len := sciReportLen reg
  if blk.nBytes + 1 + len < msgSize then
    some ⟨writeAt blk.pData blk.nBytes (regRead egress len), blk.nBytes + len, true⟩
  else none

/-- The part of `Pef24628e_Sci_RmeInt` that has a complete frame analysed: the frame stays in the
FIFO when the upper layer gets it, and is dropped otherwise. -/
def sciFrameEnd (pDev : Dev) : Bool × Dev :=
  let (deliver, pDev) := sciProcessFrame pDev
  (deliver, if deliver then sciStoreFrame pDev else pDev.setWriteBlk { pDev.writeBlk with nBytes := 0 })

/-- The end of `Pef24628e_Sci_RmeInt`, common to complete and discarded frames. -/
def sciRmeFinish (wakeUp : Bool) (pDev : Dev) : Dev :=
  let pDev := pDev |> regSet .sciInt sciInterruptRme |> regSet .sciCtrlL sciCtrlRmc
  let pDev := if pDev.sciRxState = .error then regSet .sciCtrlL sciCtrlRres pDev else pDev
  { pDev with
    bNeedWakeUp := if wakeUp then false else pDev.bNeedWakeUp
    sciRxState := .idle }

/-- `Pef24628e_Sci_RmeInt`: takes the last block of a frame and has the frame analysed. -/
def sciRmeInt (reg : MpiReg) (egress : List Byte) (pDev : Dev) : Dev :=
  match rmeBlk reg egress pDev.writeBlk with
  | some blk =>
    let (wakeUp, pDev) := sciFrameEnd { pDev.setWriteBlk blk with sciRxState := .active }
    sciRmeFinish wakeUp pDev
  | none =>
    sciRmeFinish false
      { pDev.setWriteBlk { pDev.writeBlk with nBytes := 0 } with sciRxState := .error }

/-- The transmit reset shared by the underrun and the overflow interrupt. -/
def sciTxReset (pDev : Dev) : Dev :=
  let pDev := regSet .sciCtrlL sciCtrlXres pDev
  { pDev with txFifo := { pDev.txFifo with nBytes := 0, nSent := 0 } }

/-- The transmit data underrun branch of `Pef24628e_Sci_IntHandler`. -/
def sciServeXdu (ista : Byte) (pDev : Dev) : Dev :=
  if ista &&& sciInterruptXdu ≠ 0 then
    let pDev := sciTxReset pDev
    regSet .sciInt sciInterruptXdu { pDev with uStatistics := pDev.uStatistics ||| statXdu }
  else pDev

/-- The transmit pool ready branch of `Pef24628e_Sci_IntHandler`. -/
def sciServeXpr (ista : Byte) (pDev : Dev) : Dev :=
  if ista &&& sciInterruptXpr ≠ 0 then regSet .sciInt sciInterruptXpr (sciXprInt pDev) else pDev

/-- The receive pool full branch of `Pef24628e_Sci_IntHandler`. -/
def sciServeRpf (ista : Byte) (egress : List Byte) (pDev : Dev) : List Byte × Dev :=
  if ista &&& sciInterruptRpf ≠ 0 then sciRpfInt egress pDev else (egress, pDev)

/-- The receive FIFO overflow branch of `Pef24628e_Sci_IntHandler`. -/
def sciServeRfo (ista : Byte) (pDev : Dev) : Dev :=
  if ista &&& sciInterruptRfo ≠ 0 then
    let pDev := regSet .sciCtrlL sciCtrlRres pDev
    regSet .sciInt sciInterruptRfo (pDev.setWriteBlk { pDev.writeBlk with nBytes := 0 })
  else pDev

/-- The ingress FIFO overflow branch of `Pef24628e_Sci_IntHandler`. -/
def sciServeXdov (ista : Byte) (pDev : Dev) : Dev :=
  if ista &&& sciInterruptXdov ≠ 0 then regSet .sciInt sciInterruptXdov (sciTxReset pDev) else pDev

/-- `Pef24628e_Sci_IntHandler`. -/
def sciIntHandler (reg : MpiReg) (pDev : Dev) : Dev :=
  if !pDev.ucReg then pDev
  else
    let ista := reg.sciInt &&& pDev.sciInten
    let (egress, pDev) := sciServeRpf ista reg.sciEgress (sciServeXpr ista (sciServeXdu ista pDev))
    let pDev := if ista &&& sciInterruptRme ≠ 0 then sciRmeInt reg egress pDev else pDev
    sciServeXdov ista (sciServeRfo ista pDev)

end Pef24628e
