import ShdslBridge.Driver.Transmit

/-! # Download of the controller firmware

`Pef24628e_IDC_Download` reads the layout of the image from its trailer, checks it, and writes the
three sections to the RAM of the controller in blocks of 56 bytes. A section need not end with a
block: the last block of the boot section runs over into the code RAM, which the code section then
overwrites.

The device behind the interface is given by what it does: for each operation on the interface,
whether the message was acknowledged, and the values that the device reported in the meantime.
-/

namespace Pef24628e

open Memory

/-- `PEF24628E_IDC_FwInfo_t`. -/
structure IdcFwInfo where
  pImage : BitVec 32
  imageSize : BitVec 32
  offsetDataStart : BitVec 32
  offsetCodeStart : BitVec 32
  offsetDataCrc : BitVec 32
  offsetCodeCrc : BitVec 32
  offsetBootCrc : BitVec 32
  offsetCode : BitVec 32
  offsetData : BitVec 32
  bootSize : BitVec 32
  codeSize : BitVec 32
  dataSize : BitVec 32

def idcFwInfo (pImage nLength offsetCode offsetData : BitVec 32) : IdcFwInfo where
  pImage
  imageSize := nLength
  offsetDataStart := nLength - 4
  offsetCodeStart := nLength - 8
  offsetDataCrc := nLength - 12
  offsetCodeCrc := nLength - 16
  offsetBootCrc := nLength - 20
  offsetCode
  offsetData
  bootSize := offsetCode
  codeSize := offsetData - offsetCode
  dataSize := nLength - 20 - offsetData

namespace IdcFwInfo

/-- `end`. -/
def end_ (info : IdcFwInfo) : BitVec 32 := info.imageSize + info.pImage

/-- The image passes all checks. -/
def Valid (info : IdcFwInfo) : Prop :=
  info.offsetDataStart ≤ info.imageSize ∧
  info.offsetCodeStart ≤ info.imageSize ∧
  info.offsetCode ≤ info.end_ ∧
  info.offsetData ≤ info.end_ ∧
  info.codeSize ≤ info.imageSize ∧
  info.dataSize ≤ info.imageSize

instance (info : IdcFwInfo) : Decidable info.Valid :=
  inferInstanceAs (Decidable (_ ∧ _ ∧ _ ∧ _ ∧ _ ∧ _))

/-- The sections follow one another, and their sizes are the true differences. -/
structure Ordered (info : IdcFwInfo) : Prop where
  code_le_data : info.offsetCode ≤ info.offsetData
  data_le : info.offsetData.toNat ≤ info.imageSize.toNat - 20
  boot : info.bootSize.toNat = info.offsetCode.toNat
  code : info.codeSize.toNat = info.offsetData.toNat - info.offsetCode.toNat
  data : info.dataSize.toNat = info.imageSize.toNat - 20 - info.offsetData.toNat
  sum : info.bootSize.toNat + info.codeSize.toNat + info.dataSize.toNat = info.imageSize.toNat - 20

end IdcFwInfo

section Layout

/-! ### The layout of the image -/

variable {pImage nLength offsetCode offsetData : BitVec 32}

theorem le_of_sub_le {size start stop : BitVec 32} (below : start.toNat + size.toNat < 2 ^ 32)
    (le : stop - start ≤ size) : start ≤ stop := by
  rw [BitVec.le_def, BitVec.toNat_sub] at le
  rw [BitVec.le_def]
  omega

theorem ordered_of_sizes (long : 24 ≤ nLength.toNat)
    (code : (idcFwInfo pImage nLength offsetCode offsetData).codeSize ≤ nLength)
    (data : (idcFwInfo pImage nLength offsetCode offsetData).dataSize ≤ nLength)
    (codeBelow : offsetCode.toNat + nLength.toNat < 2 ^ 32)
    (dataBelow : offsetData.toNat + 20 < 2 ^ 32) :
    (idcFwInfo pImage nLength offsetCode offsetData).Ordered := by
  have codeOrder : offsetCode ≤ offsetData := le_of_sub_le codeBelow code
  have trailer : (nLength - 20).toNat = nLength.toNat - 20 :=
    BitVec.toNat_sub_of_le (BitVec.le_def.mpr (le_trans (by decide) long))
  have dataOrder : offsetData ≤ nLength - 20 := by
    change nLength - 20 - offsetData ≤ nLength at data
    rw [BitVec.le_def, BitVec.toNat_sub, trailer] at data
    rw [BitVec.le_def, trailer]
    omega
  have codeSize : (idcFwInfo pImage nLength offsetCode offsetData).codeSize.toNat =
      offsetData.toNat - offsetCode.toNat := BitVec.toNat_sub_of_le codeOrder
  have dataSize : (idcFwInfo pImage nLength offsetCode offsetData).dataSize.toNat =
      nLength.toNat - 20 - offsetData.toNat := by
    rw [← trailer]
    exact BitVec.toNat_sub_of_le dataOrder
  rw [BitVec.le_def] at codeOrder dataOrder
  rw [trailer] at dataOrder
  refine ⟨codeOrder, dataOrder, rfl, codeSize, dataSize, ?_⟩
  rw [codeSize, dataSize]
  change offsetCode.toNat + _ + _ = nLength.toNat - 20
  omega

/-- An image that passes the checks has its sections in order. -/
theorem idcFwInfo_ordered (long : 24 ≤ nLength.toNat) (address : pImage.toNat + 2 * nLength.toNat < 2 ^ 32)
    (valid : (idcFwInfo pImage nLength offsetCode offsetData).Valid) :
    (idcFwInfo pImage nLength offsetCode offsetData).Ordered := by
  obtain ⟨-, -, codeEnd, dataEnd, code, data⟩ := valid
  have end_ : (idcFwInfo pImage nLength offsetCode offsetData).end_.toNat = nLength.toNat + pImage.toNat := by
    apply BitVec.toNat_add_of_lt
    change nLength.toNat + pImage.toNat < 2 ^ 32
    omega
  rw [BitVec.le_def, end_] at codeEnd dataEnd
  change offsetCode.toNat ≤ _ at codeEnd
  change offsetData.toNat ≤ _ at dataEnd
  exact ordered_of_sizes long code data (by omega) (by omega)

/-- An image of 100 bytes with 20 bytes of boot code, 40 bytes of code and 20 bytes of data. -/
theorem idcFwInfo_ordered_small : (idcFwInfo 0x20000000 100 20 60).Ordered :=
  idcFwInfo_ordered (by decide) (by decide) (by decide)

end Layout

/-! ### The download -/

def cmdWrRegIdcRsFwctrl : Byte := 0x01
def cmdWrRegIdcRsFwgp1 : Byte := 0x41
def cmdWrRegRsFwctrl : Byte := 0x01
def cmdWrRamRs : Byte := 0x03

def fwgp1Ifetch : BitVec 32 := 0x00000002
def fwgp1Mwait : BitVec 32 := 0x00000004

def fwctrlValid : BitVec 32 := 0x00000001
def fwctrlChk : BitVec 32 := 0x00000100
def fwctrlSwitch : BitVec 32 := 0x00010000

/-- The code RAM does not start at address 0. -/
def codeRamOffset : BitVec 32 := 0x8000

/-- The place of the image in the flash. -/
def idcFwOffset : ℕ := 0x32000

/-- The value of `last_rs_value` while the CRC is not known. -/
def rsValueUnknown : BitVec 32 := 0xDEADBEEF

/-- `GET_UINT32_FROM_IMAGE`. -/
def getUint32FromImage (p : ℕ → Byte) : BitVec 32 :=
  (p 3).setWidth 32 ||| ((p 2).setWidth 32 <<< 8) ||| ((p 1).setWidth 32 <<< 16) ||| ((p 0).setWidth 32 <<< 24)

/-- A RAMSHELL message. -/
structure RsMsg where
  opcd : Byte
  param : BitVec 32
  data : List Byte
  deriving DecidableEq

/-- What the download finds: the flash, the device structure, and for each operation on the interface
whether a message is acknowledged and which values the device reports until it ends. -/
structure Board where
  flash : ℕ → Byte
  bInit : Bool
  acked : ℕ → Bool
  reports : ℕ → List (BitVec 32)

structure Download where
  rxBuffer : ℕ → Byte
  lastRsValue : BitVec 32
  /-- The number of operations on the interface so far. -/
  ops : ℕ
  sent : List RsMsg
  /-- The values reported since `last_rs_value` was set to the value for an unknown CRC. -/
  reported : List (BitVec 32)
  /-- The values reported during each of the CRC checks that are over. -/
  checked : List (List (BitVec 32))

namespace Download

/-- `idc_fw_read`. -/
def idcFwRead (board : Board) (offset : BitVec 32) (len : ℕ) (run : Download) : Download :=
  { run with rxBuffer := writeAt run.rxBuffer 0 (readAt board.flash (idcFwOffset + offset.toNat) len) }

/-- The interrupt handler stores the last value that the device reports during an operation. -/
def operate (board : Board) (run : Download) : Download :=
  { run with
    ops := run.ops + 1
    lastRsValue := (board.reports run.ops).getLastD run.lastRsValue
    reported := run.reported ++ board.reports run.ops }

/-- `Pef24628e_Send_IDC_RS_Msg`. The download ends with an error if it returns `IFX_FALSE`. -/
def sendIdcRsMsg (board : Board) (opcd : Byte) (param : BitVec 32) (pSrc : ℕ → Byte) (nLength : ℕ)
    (run : Download) : Option Download :=
  if !board.bInit then none
  else if nLength > dlBlkSize then none
  else if board.acked run.ops then
    some { run.operate board with sent := run.sent ++ [⟨opcd, param, rsData pSrc nLength⟩] }
  else none

/-- A message without data. -/
def sendCommand (board : Board) (opcd : Byte) (param : BitVec 32) (run : Download) : Option Download :=
  run.sendIdcRsMsg board opcd param (fun _ => 0) 0

def sendBlocks (board : Board) (limit : BitVec 32) : ℕ → BitVec 32 → BitVec 32 → Download → Option Download
  | 0, _, _, _ => none
  | fuel + 1, adr, offset, run =>
    if adr < limit then
      let run := run.idcFwRead board offset dlBlkSize
      (run.sendIdcRsMsg board cmdWrRamRs (adr / 4) run.rxBuffer dlBlkSize).bind
        (sendBlocks board limit fuel (adr + 56) (offset + 56))
    else some run

/-- Enough rounds for a section that ends at `limit`. -/
def blockFuel (limit : BitVec 32) : ℕ := limit.toNat / 56 + 2

def awaitCrc (board : Board) (imgCrc : BitVec 32) : ℕ → Download → Option Download
  | 0, _ => none
  | counter + 1, run =>
    if counter = 0 then none
    else if imgCrc ≠ run.lastRsValue then awaitCrc board imgCrc counter (run.operate board)
    else some run

/-- A section is checked against the CRC at `offsetCrc`. -/
def checkCrc (board : Board) (offsetCrc command : BitVec 32) (run : Download) : Option Download := do
  let run := { run with lastRsValue := rsValueUnknown, reported := [] }
  let run := run.idcFwRead board offsetCrc 4
  let imgCrc := getUint32FromImage run.rxBuffer
  let run ← run.sendCommand board cmdWrRegRsFwctrl command
  let run ← run.awaitCrc board imgCrc 100
  if imgCrc ≠ run.lastRsValue then none
  else some { run with checked := run.checked ++ [run.reported] }

def readWord (board : Board) (offset : BitVec 32) (run : Download) : BitVec 32 × Download :=
  let run := run.idcFwRead board offset 4
  (getUint32FromImage run.rxBuffer, run)

/-- `Pef24628e_IDC_Download` behind its checks. -/
def sections (board : Board) (info : IdcFwInfo) (run : Download) : Option Download := do
  let run ← run.sendCommand board cmdWrRegIdcRsFwgp1 (fwgp1Ifetch ||| fwgp1Mwait)
  let run ← run.sendCommand board cmdWrRegIdcRsFwctrl 0
  let run ← run.sendBlocks board info.bootSize (blockFuel info.bootSize) 0 0
  let limit := codeRamOffset + info.codeSize
  let run ← run.sendBlocks board limit (blockFuel limit) codeRamOffset info.offsetCode
  let run ← run.checkCrc board info.offsetCodeCrc fwctrlChk
  let run ← run.sendCommand board cmdWrRegRsFwctrl fwctrlSwitch
  let run ← run.sendBlocks board info.dataSize (blockFuel info.dataSize) 0 info.offsetData
  let run ← run.checkCrc board info.offsetDataCrc (fwctrlChk ||| fwctrlSwitch)
  run.sendCommand board cmdWrRegRsFwctrl fwctrlValid

/-- `Pef24628e_IDC_Download`. There is no result if it returns `IFX_FALSE`. -/
def idcDownload (board : Board) (pImage nLength : BitVec 32) (run : Download) : Option Download :=
  if nLength < 24 then none
  else
    let (offsetCode, run) := run.readWord board (nLength - 8)
    let (offsetData, run) := run.readWord board (nLength - 4)
    let info := idcFwInfo pImage nLength offsetCode offsetData
    if info.Valid then run.sections board info else none

end Download

end Pef24628e
