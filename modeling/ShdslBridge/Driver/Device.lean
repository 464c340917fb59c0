import ShdslBridge.Lib.Memory
import Mathlib.Algebra.GroupWithZero.Nat
import Mathlib.Data.Fin.Basic

/-! # Device data of the PEF24628E driver

The driver keeps one `PEF24628E_DEV_t` per chip: the receive FIFO of 20 blocks with its two cursors
and the full flag, the single transmit buffer, the odd/even bits of the transport protocol and the
statistics words. The register file is split by direction. What the driver can read is a snapshot
`MpiReg` that the hardware supplies for one call, and what it writes is appended to a log, apart
from the two interrupt enable registers, which the driver reads back.
-/

namespace Pef24628e

open Memory

abbrev Byte := BitVec 8

/-- `PEF24628E_MSG_SIZE`: bytes in one receive block and in the transmit buffer. -/
def msgSize : ℕ := 132

/-- `PEF24628E_REC_FIFO_BLK_NUM`: blocks in the receive FIFO. -/
def recFifoBlkNum : ℕ := 20

/-- `PEF24628E_SCI_FIFO_SIZE`: bytes the SCI hardware FIFO takes at once. -/
def sciFifoSize : ℕ := 64

/-- `DL_BLK_SIZE`: longest data part of a RAMSHELL message. -/
def dlBlkSize : ℕ := 56

/-- `SEND_MSG_MAX_REP_NUMBER`. -/
def sendMsgMaxRepNumber : ℕ := 2

instance : NeZero recFifoBlkNum := ⟨by decide⟩

/-- `PEF24628E_IF_t`: the hardware message interface in use. -/
inductive If | sci | mpi
  deriving DecidableEq, Repr

/-- `SCI_RX_STATE_t`: states of the SCI receiver. -/
inductive SciRxState | idle | active | error
  deriving DecidableEq, Repr

/-- `PEF24628E_RX_FIFO_t`: one block of the receive FIFO. -/
structure RxFifo where
  pData : ℕ → Byte
  nBytes : ℕ
  bSendIdcViaSciBridge : Bool

/-- `PEF24628E_TX_FIFO_t`: the transmit buffer. -/
structure TxFifo where
  pData : ℕ → Byte
  nBytes : ℕ
  nSent : ℕ

/-- `PEF24628E_TRANSP_DATA_t`: the odd/even flags. The flag to send is 0 or 1; the other two are
also -1, for no frame so far, which is `none` here. -/
structure TranspData where
  txOddEven : Bool
  txLastAckOddEven : Option Bool
  rxOddEven : Option Bool
  deriving DecidableEq

/-- The registers that the driver writes and does not read back. -/
inductive Reg | sciIngress | sciCtrlL | sciCtrlH | sciInt | sciCfgH | sciCfgL
  | sciAcfg0 | sciAcfg1 | sciAcfg2 | sciAcfg3 | sciClkcfg | mpiEint | mpiIngress | mpiIint
  deriving DecidableEq, Repr

/-- The readable side of `PEF24628E_MPI_REG_t` during one call. The two egress registers are
FIFOs, and each read takes one byte. -/
structure MpiReg where
  mpiEint : Byte := 0
  mpiEfstat : Byte := 0
  mpiEgress : List Byte := []
  sciInt : Byte := 0
  sciReportH : Byte := 0
  sciReportL : Byte := 0
  sciEgress : List Byte := []

/-- `PEF24628E_DEV_t`, with the FIFO pointers as block indices. -/
structure Dev where
  activeIf : If
  bInit : Bool
  pRxFifoWrite : Fin recFifoBlkNum
  pRxFifoRead : Fin recFifoBlkNum
  bRxFifoFull : Bool
  rxFifo : Fin recFifoBlkNum → RxFifo
  sciRxState : SciRxState
  txFifo : TxFifo
  txErr : Bool
  bTxAckReceived : Bool
  bNeedWakeUp : Bool
  transpData : TranspData
  lastRsValue : BitVec 32
  lastAuxValue : BitVec 32
  nDevAddress : Byte
  bSendIdcViaSciBridge : Bool
  irqVector : ℤ
  ucReg : Bool
  uLastCmdId : BitVec 16
  uLastAckId : BitVec 32
  uLastCmdTcId : BitVec 16
  uStatistics : BitVec 32
  bFwDownloaded : Bool
  mpiEintEn : Byte
  sciInten : Byte
  /-- Every register write so far, oldest first. -/
  written : List (Reg × Byte)

/-- `REG_SET` of a register that the driver does not read back. -/
def regSet (reg : Reg) (value : Byte) (pDev : Dev) : Dev :=
  { pDev with written := pDev.written ++ [(reg, value)] }

/-- `REG_GET` of a FIFO register, repeated `len` times. An empty FIFO reads as 0. -/
def regRead (fifo : List Byte) (len : ℕ) : List Byte :=
  (List.range len).map fun i => fifo.getD i 0

/-- `BFLD`: replaces the bits under the mask. -/
def bfld (reg mask value : Byte) : Byte := (reg &&& ~~~mask) ||| (value &&& mask)

@[simp] theorem regRead_length (fifo : List Byte) (len : ℕ) : (regRead fifo len).length = len := by
  simp [regRead]

theorem regRead_eq_take (fifo : List Byte) {len : ℕ} (enough : len ≤ fifo.length) :
    regRead fifo len = fifo.take len := by
  apply List.ext_getElem (by simp [enough])
  intro i inside _
  simp only [regRead_length] at inside
  simp [regRead, show i < fifo.length by omega]

theorem regRead_all (fifo : List Byte) : regRead fifo fifo.length = fifo := by
  rw [regRead_eq_take fifo le_rfl, List.take_length]

theorem bfld_clear_self (reg mask : Byte) : bfld reg mask 0 &&& mask = 0 := by
  ext i
  simp [bfld]

/-- `++` on a FIFO pointer, back to the first block behind the last. -/
def nextBlk (blk : Fin recFifoBlkNum) : Fin recFifoBlkNum :=
  if inside : blk.val + 1 < recFifoBlkNum then ⟨blk.val + 1, inside⟩ else 0

theorem nextBlk_eq (blk : Fin recFifoBlkNum) : nextBlk blk = blk + 1 := by
  revert blk
  decide

theorem nextBlk_ne (blk : Fin recFifoBlkNum) : nextBlk blk ≠ blk := by
  revert blk
  decide

def Dev.setWriteBlk (pDev : Dev) (blk : RxFifo) : Dev :=
  { pDev with rxFifo := Function.update pDev.rxFifo pDev.pRxFifoWrite blk }

def Dev.writeBlk (pDev : Dev) : RxFifo := pDev.rxFifo pDev.pRxFifoWrite

def Dev.readBlk (pDev : Dev) : RxFifo := pDev.rxFifo pDev.pRxFifoRead

/-- The test for received data shared by reading and polling. -/
def Dev.rxFifoHasData (pDev : Dev) : Bool :=
  pDev.pRxFifoWrite != pDev.pRxFifoRead || pDev.bRxFifoFull

def blkMsg (blk : RxFifo) : List Byte := readAt blk.pData 0 blk.nBytes

theorem blkMsg_getElem {blk : RxFifo} {bytes : List Byte} (same : blkMsg blk = bytes) {i : ℕ}
    (inside : i < bytes.length) : blk.pData i = bytes[i] := by
  subst same
  simp [blkMsg, readAt]

/-- The bytes that a list of register writes sends to `SCI_INGRESS`. -/
def ingress (written : List (Reg × Byte)) : List Byte :=
  (written.filter fun entry => entry.1 = .sciIngress).map Prod.snd

@[simp] theorem ingress_append (left right : List (Reg × Byte)) :
    ingress (left ++ right) = ingress left ++ ingress right := by
  simp [ingress]

@[simp] theorem ingress_bytes (bytes : List Byte) :
    ingress (bytes.map fun byte => (Reg.sciIngress, byte)) = bytes := by
  simp [ingress, List.filter_map, Function.comp_def]

theorem ingress_regSet {reg : Reg} (other : reg ≠ .sciIngress) (value : Byte) (pDev : Dev) :
    ingress (regSet reg value pDev).written = ingress pDev.written := by
  simp [regSet, ingress, other]

/-- The device structure as allocated: every field cleared, the interface set to MPI. -/
def Dev.zeroed : Dev where
  activeIf := .mpi
  bInit := false
  pRxFifoWrite := 0
  pRxFifoRead := 0
  bRxFifoFull := false
  rxFifo := fun _ => ⟨fun _ => 0, 0, false⟩
  sciRxState := .idle
  txFifo := ⟨fun _ => 0, 0, 0⟩
  txErr := false
  bTxAckReceived := false
  bNeedWakeUp := false
  transpData := ⟨false, some false, some false⟩
  lastRsValue := 0
  lastAuxValue := 0
  nDevAddress := 0
  bSendIdcViaSciBridge := false
  irqVector := 0
  ucReg := false
  uLastCmdId := 0
  uLastAckId := 0
  uLastCmdTcId := 0
  uStatistics := 0
  bFwDownloaded := false
  mpiEintEn := 0
  sciInten := 0
  written := []

end Pef24628e
