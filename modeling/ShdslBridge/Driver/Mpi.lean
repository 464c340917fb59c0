import ShdslBridge.Driver.Sci

/-! # MPI side of the driver: initialisation, receive interrupt, reading and polling

`mpiInit` prepares the device structure, `mpiRxInt` stores one message of the MPI mailbox in the
receive FIFO and `intHandler` dispatches the two interrupt sources. `getIdcMsg` and `pollCheck` are
the calls of the upper layer.
-/

namespace Pef24628e

open Memory

def mpiMpintIntidc : Byte := 0x01
def mpiMpintIntsci : Byte := 0x02
def mpiMpintenMpilev : Byte := 0x04
def mpiInterruptR : Byte := 0x01

/-- `PEF24628E_DEV_INIT_t`. -/
structure DevInit where
  regOffset : ℕ
  sciClock : ℕ

/-- The SCI clock setting: the four supported dividers, and 1/64 for any other value. -/
def sciClkcfg (sciClock : ℕ) : Byte :=
  0x80 ||| (if 1 ≤ sciClock ∧ sciClock ≤ 4 then BitVec.ofNat 8 sciClock else 0x04)

/-- `Pef24628e_MPI_Init`. The transmit buffer is the result of `malloc`. The byte counts of the
receive blocks are left as they are. -/
def mpiInit (cfg : DevInit) (malloc : Option (ℕ → Byte)) (pDev : Dev) : Bool × Dev :=
  let pDev := { pDev with ucReg := cfg.regOffset != 0 }
  if cfg.regOffset = 0 then (false, pDev)
  else
    let pDev := { pDev with pRxFifoWrite := 0, pRxFifoRead := 0, bRxFifoFull := false }
    match malloc with
    | none => (false, pDev)
    | some pData =>
      let pDev := { pDev with
        txFifo := ⟨pData, 0, 0⟩
        transpData := { pDev.transpData with txOddEven := false, rxOddEven := none } }
      let pDev := pDev |> regSet .sciCfgH 0x34 |> regSet .sciCfgL 0
        |> regSet .sciAcfg0 0xFF |> regSet .sciAcfg1 0xFF |> regSet .sciAcfg2 0xF3 |> regSet .sciAcfg3 0
        |> regSet .sciClkcfg (sciClkcfg cfg.sciClock)
      (true, { pDev with
        bInit := true
        bSendIdcViaSciBridge := true
        bNeedWakeUp := true
        mpiEintEn := mpiMpintIntsci ||| mpiMpintIntidc ||| mpiMpintenMpilev
        sciInten := sciInterruptAll })

/-- `GET_IDC_HEADER_MSGID`, on the first two bytes of a message. -/
def idcHeaderMsgId (b0 b1 : Byte) : BitVec 16 :=
  (b1.setWidth 16 <<< 3) ||| ((b0 &&& 0xE0) >>> 5).setWidth 16

/-- `GET_IDC_HEADER_TCID`, on the third and fourth byte of a message. -/
def idcHeaderTcId (b2 b3 : Byte) : BitVec 16 :=
  ((b3 &&& 0x07).setWidth 16 <<< 8) ||| b2.setWidth 16

/-- The acknowledge statistics of `Pef24628e_Mpi_RxInt`, on the first four bytes of a message. They
are kept once the firmware is downloaded. -/
def updateStatistics (b0 b1 b2 b3 : Byte) (pDev : Dev) : Dev :=
  let nMsgId := idcHeaderMsgId b0 b1
  let nTcId := idcHeaderTcId b2 b3
  if pDev.bFwDownloaded ∧ nMsgId &&& ~~~0x0600 = pDev.uLastCmdId ∧ nMsgId < 0x500 then
    { pDev with
      uStatistics :=
        if nTcId ≠ pDev.uLastCmdTcId then pDev.uStatistics ||| 4
        else if pDev.uStatistics &&& 1 = 0 then pDev.uStatistics ||| 2
        else pDev.uStatistics &&& ~~~1
      uLastAckId := nMsgId.setWidth 32 }
  else pDev

theorem updateStatistics_eq (b0 b1 b2 b3 : Byte) (pDev : Dev) :
    updateStatistics b0 b1 b2 b3 pDev =
      { pDev with
        uStatistics := (updateStatistics b0 b1 b2 b3 pDev).uStatistics
        uLastAckId := (updateStatistics b0 b1 b2 b3 pDev).uLastAckId } := by
  simp only [updateStatistics]
  by_cases isAck : pDev.bFwDownloaded ∧ idcHeaderMsgId b0 b1 &&& ~~~0x0600 = pDev.uLastCmdId ∧
      idcHeaderMsgId b0 b1 < 0x500
  · simp only [if_pos isAck]
  · simp only [if_neg isAck]

/-- The FIFO step at the end of `Pef24628e_Mpi_RxInt`. -/
def mpiStoreMsg (pDev : Dev) : Dev :=
  let pDev := { pDev with pRxFifoWrite := nextBlk pDev.pRxFifoWrite, bNeedWakeUp := false }
  if pDev.pRxFifoWrite = pDev.pRxFifoRead then
    { pDev with bRxFifoFull := true, mpiEintEn := bfld pDev.mpiEintEn mpiMpintIntidc 0 }
  else { pDev with bRxFifoFull := false }

/-- `Pef24628e_Mpi_RxInt`. A message that does not fit loses its tail; the branch of the source that
discards it is behind that limit and never taken. -/
def mpiRxInt (reg : MpiReg) (pDev : Dev) : Dev :=
  let len := 4 * (reg.mpiEfstat &&& 0x3F).toNat
  let blk := pDev.writeBlk
  if len = 0 then pDev
  else
    let len := if blk.nBytes + len > msgSize then msgSize - blk.nBytes else len
    let pData := writeAt blk.pData blk.nBytes (regRead reg.mpiEgress len)
    let pDev := pDev.setWriteBlk ⟨pData, blk.nBytes + len, false⟩
    let at_ (i : ℕ) : Byte := pData (blk.nBytes + i)
    mpiStoreMsg (updateStatistics (at_ 0) (at_ 1) (at_ 2) (at_ 3) pDev)

/-- `Pef24628e_IntHandler`. -/
def intHandler (reg : MpiReg) (pDev : Dev) : Dev :=
  if !pDev.ucReg then pDev
  else
    let ista := reg.mpiEint &&& pDev.mpiEintEn
    if ista = 0 then pDev
    else
      let pDev := if ista &&& mpiMpintIntsci ≠ 0 then sciIntHandler reg pDev else pDev
      let pDev := if ista &&& mpiMpintIntidc ≠ 0 then mpiRxInt reg pDev else pDev
      regSet .mpiEint ista pDev

/-- What a call of `Pef24628e_Get_IDC_Msg` leaves with its caller: the return value and the bytes
copied to the buffer. -/
structure ReadResult where
  nBytes : ℤ
  pDst : List Byte
  deriving DecidableEq

/-- The bytes that `Pef24628e_Get_IDC_Msg` hands over from a block: without the HDLC addresses and
the transport header when the block came over the SCI bridge. A bridged block of at most four bytes
is counted and not copied. -/
def readBlkData (blk : RxFifo) (nLength : ℕ) : ReadResult :=
  let nBytes := if blk.nBytes > nLength then nLength else blk.nBytes
  if blk.bSendIdcViaSciBridge then
    if nBytes > 4 then ⟨(nBytes - 4 : ℕ), readAt blk.pData 4 (nBytes - 4)⟩ else ⟨nBytes, []⟩
  else ⟨nBytes, readAt blk.pData 0 nBytes⟩

def releaseBlk (pDev : Dev) : Dev :=
  { pDev with
    rxFifo := Function.update pDev.rxFifo pDev.pRxFifoRead { pDev.readBlk with nBytes := 0 }
    pRxFifoRead := nextBlk pDev.pRxFifoRead }

/-- The interrupt enabling at the end of `Pef24628e_Get_IDC_Msg`. -/
def reenableRx (pDev : Dev) : Dev :=
  if pDev.activeIf ≠ .mpi then pDev
  else if pDev.bSendIdcViaSciBridge then
    let mask := sciInterruptRpf ||| sciInterruptRme
    { pDev with sciInten := bfld pDev.sciInten mask mask }
  else if pDev.mpiEintEn &&& mpiInterruptR = 0 then
    { pDev with mpiEintEn := bfld pDev.mpiEintEn mpiInterruptR mpiInterruptR }
  else pDev

/-- `Pef24628e_Get_IDC_Msg`. -/
def getIdcMsg (nLength : ℕ) (pDev : Dev) : ReadResult × Dev :=
  if !pDev.bInit then (⟨-1, []⟩, pDev)
  else if pDev.rxFifoHasData then (readBlkData pDev.readBlk nLength, reenableRx (releaseBlk pDev))
  else (⟨0, []⟩, reenableRx pDev)

/-- `Pef24628e_Poll_Check`. In polling mode it serves the interrupts first. -/
def pollCheck (reg : MpiReg) (pDev : Dev) : Bool × Dev :=
  if !pDev.bInit then (false, pDev)
  else
    match pDev.activeIf with
    | .sci => (false, pDev)
    | .mpi =>
      let pDev := if pDev.irqVector = 0 then intHandler reg pDev else pDev
      if pDev.rxFifoHasData then (true, pDev) else (false, { pDev with bNeedWakeUp := true })

end Pef24628e
