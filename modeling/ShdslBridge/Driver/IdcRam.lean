import ShdslBridge.Driver.IdcDownload
import ShdslBridge.Driver.TransmitBounds

/-! # The image in the RAM of the controller

The device performs the messages of a download one after the other. Each of the three loops stores
its section from its first word on, and the words that the boot section runs over belong to the code
section, which is stored later. The CRC of a section has been reported by the device, unless it is
the value that `last_rs_value` is set to before.
-/

namespace Pef24628e

open Memory

/-! ### The RAM of the controller -/

/-- The RAM of the controller, as words of four bytes. -/
structure IdcRam where
  /-- The switch from the code RAM to the data RAM. -/
  switch : Bool
  codeRam : ℕ → List Byte
  dataRam : ℕ → List Byte

def words : List Byte → List (List Byte)
  | b0 :: b1 :: b2 :: b3 :: rest => [b0, b1, b2, b3] :: words rest
  | _ => []

def IdcRam.perform (ram : IdcRam) (msg : RsMsg) : IdcRam :=
  if msg.opcd = cmdWrRegRsFwctrl then { ram with switch := msg.param &&& fwctrlSwitch != 0 }
  else if msg.opcd = cmdWrRamRs then
    if ram.switch then { ram with dataRam := writeAt ram.dataRam msg.param.toNat (words msg.data) }
    else { ram with codeRam := writeAt ram.codeRam msg.param.toNat (words msg.data) }
  else ram

def flashWord (flash : ℕ → Byte) (offset : ℕ) : List Byte := (readAt flash (idcFwOffset + offset) 4).reverse

/-- `count` words of the image. -/
def flashWords (flash : ℕ → Byte) (offset count : ℕ) : List (List Byte) :=
  (List.range count).map fun i => flashWord flash (offset + 4 * i)

def flashUint32 (flash : ℕ → Byte) (offset : BitVec 32) : BitVec 32 :=
  getUint32FromImage fun i => flash (idcFwOffset + offset.toNat + i)

def trailerInfo (flash : ℕ → Byte) (pImage nLength : BitVec 32) : IdcFwInfo :=
  idcFwInfo pImage nLength (flashUint32 flash (nLength - 8)) (flashUint32 flash (nLength - 4))

/-- The RAM holds the sections of the image. -/
structure Holds (flash : ℕ → Byte) (info : IdcFwInfo) (ram : IdcRam) : Prop where
  boot : ∀ w < info.bootSize.toNat / 4, ram.codeRam w = flashWord flash (4 * w)
  code : ∀ w < info.codeSize.toNat / 4,
    ram.codeRam (codeRamOffset.toNat / 4 + w) = flashWord flash (info.offsetCode.toNat + 4 * w)
  data : ∀ w < info.dataSize.toNat / 4, ram.dataRam w = flashWord flash (info.offsetData.toNat + 4 * w)

/-- Behind each of the two sections the device reported the CRC of the image. -/
def CrcReported (flash : ℕ → Byte) (info : IdcFwInfo) (run : Download) : Prop :=
  ∃ code data, run.checked = [code, data] ∧
    code.getLast? = some (flashUint32 flash info.offsetCodeCrc) ∧
    data.getLast? = some (flashUint32 flash info.offsetDataCrc)

section Blocks

/-! ### Blocks -/

variable {board : Board}

@[simp] theorem flashWords_length (flash : ℕ → Byte) (offset count : ℕ) :
    (flashWords flash offset count).length = count := by
  rw [flashWords, List.length_map, List.length_range]

theorem flashWords_add (flash : ℕ → Byte) (offset left right : ℕ) : flashWords flash offset (left + right) =
    flashWords flash offset left ++ flashWords flash (offset + 4 * left) right := by
  simp only [flashWords, List.range_add, List.map_append, List.map_map, Function.comp_def, Nat.mul_add,
    Nat.add_assoc]

theorem words_swapWords (flash : ℕ → Byte) (offset count : ℕ) :
    words (swapWords (readAt flash (idcFwOffset + offset) (4 * count))) = flashWords flash offset count := by
  induction count generalizing offset with
  | zero => rfl
  | succ count ih =>
    have front : readAt flash (idcFwOffset + offset) (4 * (count + 1)) =
        readAt flash (idcFwOffset + offset) 4 ++ readAt flash (idcFwOffset + (offset + 4)) (4 * count) := by
      rw [Nat.mul_succ, Nat.add_comm (4 * count), readAt_add, Nat.add_assoc]
    have first : words (swapWords (readAt flash (idcFwOffset + offset) 4 ++
        readAt flash (idcFwOffset + (offset + 4)) (4 * count))) = flashWord flash offset ::
          words (swapWords (readAt flash (idcFwOffset + (offset + 4)) (4 * count))) := rfl
    rw [front, first, ih, Nat.add_comm count, flashWords_add]
    rfl

def blockMsg (flash : ℕ → Byte) (adr offset : BitVec 32) : RsMsg :=
  ⟨cmdWrRamRs, adr / 4, swapWords (readAt flash (idcFwOffset + offset.toNat) 56)⟩

/-- The messages for `count` blocks. -/
def blockMsgs (flash : ℕ → Byte) : ℕ → BitVec 32 → BitVec 32 → List RsMsg
  | 0, _, _ => []
  | count + 1, adr, offset => blockMsg flash adr offset :: blockMsgs flash count (adr + 56) (offset + 56)

/-- The number of blocks from `adr` up to `limit`. -/
def blockCount (limit adr : BitVec 32) : ℕ := (limit.toNat - adr.toNat + 55) / 56

theorem blockCount_succ {limit adr : BitVec 32} (room : limit.toNat + 56 ≤ 2 ^ 32) (more : adr < limit) :
    blockCount limit adr = blockCount limit (adr + 56) + 1 := by
  rw [BitVec.lt_def] at more
  have next : (adr + 56).toNat = adr.toNat + 56 := BitVec.toNat_add_of_lt (by
    change adr.toNat + 56 < 2 ^ 32
    omega)
  rw [blockCount, blockCount, next]
  omega

theorem blockCount_eq_zero {limit adr : BitVec 32} (done : ¬ adr < limit) : blockCount limit adr = 0 := by
  rw [BitVec.lt_def] at done
  rw [blockCount]
  omega

theorem rsData_rxBuffer (run : Download) (offset : BitVec 32) :
    rsData (run.idcFwRead board offset dlBlkSize).rxBuffer dlBlkSize =
      swapWords (readAt board.flash (idcFwOffset + offset.toNat) 56) := by
  have block := readAt_writeAt run.rxBuffer 0 (readAt board.flash (idcFwOffset + offset.toNat) 56)
  rw [readAt_length] at block
  exact congrArg swapWords block

theorem sendIdcRsMsg_eq_some {opcd : Byte} {param : BitVec 32} {pSrc : ℕ → Byte} {nLength : ℕ}
    {run after : Download}
    (sent : run.sendIdcRsMsg board opcd param pSrc nLength = some after) :
    after = { run.operate board with sent := run.sent ++ [⟨opcd, param, rsData pSrc nLength⟩] } := by
  rw [Download.sendIdcRsMsg] at sent
  split_ifs at sent
  cases sent
  rfl

theorem sendIdcRsMsg_of_acked (init : board.bInit = true) (acked : ∀ n, board.acked n = true) (opcd : Byte)
    (param : BitVec 32) (pSrc : ℕ → Byte) {nLength : ℕ} (fits : nLength ≤ dlBlkSize) (run : Download) :
    run.sendIdcRsMsg board opcd param pSrc nLength =
      some { run.operate board with sent := run.sent ++ [⟨opcd, param, rsData pSrc nLength⟩] } := by
  rw [Download.sendIdcRsMsg, init, if_neg (by decide), if_neg (Nat.not_lt.mpr fits), if_pos (acked _)]

/-- What the loop over the blocks of a section leaves behind. -/
structure BlocksSent (board : Board) (msgs : List RsMsg) (run after : Download) : Prop where
  sent : after.sent = run.sent ++ msgs
  checked : after.checked = run.checked
  ops : after.ops = run.ops + msgs.length

theorem sendBlocks_sent {limit : BitVec 32} (room : limit.toNat + 56 ≤ 2 ^ 32) (fuel : ℕ) (adr offset : BitVec 32)
    {run after : Download} (done : run.sendBlocks board limit fuel adr offset = some after) :
    BlocksSent board (blockMsgs board.flash (blockCount limit adr) adr offset) run after := by
  induction fuel generalizing adr offset run with
  | zero => cases done
  | succ fuel ih =>
    rw [Download.sendBlocks] at done
    split_ifs at done with more
    · obtain ⟨next, sent, rest⟩ := Option.bind_eq_some_iff.mp done
      obtain ⟨restSent, restChecked, restOps⟩ := ih _ _ rest
      rw [sendIdcRsMsg_eq_some sent, rsData_rxBuffer] at restSent
      rw [sendIdcRsMsg_eq_some sent] at restChecked restOps
      rw [blockCount_succ room more, blockMsgs]
      refine ⟨?_, restChecked, ?_⟩
      · rw [restSent, List.append_assoc]
        rfl
      · rw [restOps, List.length_cons, Nat.add_comm _ 1, ← Nat.add_assoc]
        rfl
    · cases done
      rw [blockCount_eq_zero more]
      exact ⟨(List.append_nil _).symm, rfl, rfl⟩

theorem sendBlocks_isSome {limit : BitVec 32} (room : limit.toNat + 56 ≤ 2 ^ 32) (init : board.bInit = true)
    (acked : ∀ n, board.acked n = true) {fuel : ℕ} {adr : BitVec 32} (enough : blockCount limit adr < fuel)
    (offset : BitVec 32) (run : Download) : ∃ after, run.sendBlocks board limit fuel adr offset = some after := by
  induction fuel generalizing adr offset run with
  | zero => cases enough
  | succ fuel ih =>
    rw [Download.sendBlocks]
    split_ifs with more
    · rw [blockCount_succ room more] at enough
      simp only [sendIdcRsMsg_of_acked init acked _ _ _ le_rfl, Option.bind_some]
      exact ih (by omega) _ _
    · exact ⟨run, rfl⟩

theorem blockCount_lt_blockFuel (limit adr : BitVec 32) : blockCount limit adr < Download.blockFuel limit := by
  rw [blockCount, Download.blockFuel]
  omega

def IdcRam.store (ram : IdcRam) (start : ℕ) (cells : List (List Byte)) : IdcRam :=
  if ram.switch then { ram with dataRam := writeAt ram.dataRam start cells }
  else { ram with codeRam := writeAt ram.codeRam start cells }

theorem store_append (ram : IdcRam) (start : ℕ) (cells other : List (List Byte)) :
    (ram.store start cells).store (start + cells.length) other = ram.store start (cells ++ other) := by
  obtain ⟨switch, codeRam, dataRam⟩ := ram
  cases switch
  · simp only [IdcRam.store, Bool.false_eq_true, if_false, writeAt_append]
  · simp only [IdcRam.store, if_true, writeAt_append]

theorem store_nil (ram : IdcRam) (start : ℕ) : ram.store start [] = ram := by
  rw [IdcRam.store, writeAt_nil, writeAt_nil, ite_self]

theorem perform_blockMsg (flash : ℕ → Byte) (adr offset : BitVec 32) (ram : IdcRam) :
    ram.perform (blockMsg flash adr offset) = ram.store (adr.toNat / 4) (flashWords flash offset.toNat 14) := by
  rw [← words_swapWords]
  have param : (adr / 4).toNat = adr.toNat / 4 := BitVec.toNat_udiv
  rw [← param]
  rfl

theorem perform_blockMsgs (flash : ℕ → Byte) {count : ℕ} {adr offset : BitVec 32} (aligned : 4 ∣ adr.toNat)
    (adrRoom : adr.toNat + 56 * count < 2 ^ 32) (offsetRoom : offset.toNat + 56 * count < 2 ^ 32) (ram : IdcRam) :
    (blockMsgs flash count adr offset).foldl IdcRam.perform ram =
      ram.store (adr.toNat / 4) (flashWords flash offset.toNat (14 * count)) := by
  induction count generalizing adr offset ram with
  | zero => exact (store_nil ram _).symm
  | succ count ih =>
    have nextAdr : (adr + 56).toNat = adr.toNat + 56 := BitVec.toNat_add_of_lt (by
      change adr.toNat + 56 < 2 ^ 32
      omega)
    have nextOffset : (offset + 56).toNat = offset.toNat + 56 := BitVec.toNat_add_of_lt (by
      change offset.toNat + 56 < 2 ^ 32
      omega)
    have start : (adr.toNat + 56) / 4 = adr.toNat / 4 + (flashWords flash offset.toNat 14).length := by
      rw [flashWords_length]
      omega
    rw [blockMsgs, List.foldl_cons, perform_blockMsg, ih (by omega) (by omega) (by omega), nextAdr, nextOffset,
      start, store_append, Nat.mul_succ, Nat.add_comm (14 * count), flashWords_add]

end Blocks

section Checks

/-! ### The CRC checks -/

variable {board : Board}

theorem getUint32_rxBuffer (run : Download) (offset : BitVec 32) :
    getUint32FromImage (run.idcFwRead board offset 4).rxBuffer = flashUint32 board.flash offset := by
  have cell (i : ℕ) (inside : i < 4) : (run.idcFwRead board offset 4).rxBuffer i =
      board.flash (idcFwOffset + offset.toNat + i) := by
    have block := writeAt_inside run.rxBuffer 0 (readAt board.flash (idcFwOffset + offset.toNat) 4)
      (i := i) (by rw [readAt_length]; exact inside)
    rw [Nat.zero_add] at block
    refine block.trans ?_
    simp [readAt]
  rw [flashUint32, getUint32FromImage, cell 0 (by decide), cell 1 (by decide), cell 2 (by decide),
    cell 3 (by decide)]
  rfl

/-- `last_rs_value` is what was reported last. -/
def Tracks (run : Download) : Prop := run.lastRsValue = run.reported.getLastD rsValueUnknown

theorem Tracks.operate {run : Download} (tracks : Tracks run) : Tracks (run.operate board) := by
  change (board.reports run.ops).getLastD run.lastRsValue =
    (run.reported ++ board.reports run.ops).getLastD rsValueUnknown
  rw [tracks]
  rcases (board.reports run.ops).eq_nil_or_concat with silent | ⟨values, last, reports⟩
  · rw [silent, List.append_nil]
    rfl
  · rw [reports, List.concat_eq_append, ← List.append_assoc]
    simp

theorem Tracks.reported {run : Download} (tracks : Tracks run) {imgCrc : BitVec 32}
    (same : imgCrc = run.lastRsValue) (known : imgCrc ≠ rsValueUnknown) : run.reported.getLast? = some imgCrc := by
  rw [tracks] at same
  rcases run.reported.eq_nil_or_concat with silent | ⟨values, last, reports⟩
  · rw [silent] at same
    exact absurd same known
  · rw [reports, List.concat_eq_append] at same ⊢
    rw [List.getLast?_concat, same]
    simp

/-- The wait only listens. -/
structure Waits (run after : Download) : Prop where
  sent : after.sent = run.sent
  checked : after.checked = run.checked
  tracks : Tracks run → Tracks after

theorem awaitCrc_waits {imgCrc : BitVec 32} (counter : ℕ) {run after : Download}
    (done : run.awaitCrc board imgCrc counter = some after) : Waits run after := by
  induction counter generalizing run with
  | zero => cases done
  | succ counter ih =>
    rw [Download.awaitCrc] at done
    split_ifs at done with last differs
    · have rest := ih done
      exact ⟨rest.sent, rest.checked, fun tracks => rest.tracks tracks.operate⟩
    · cases done
      exact ⟨rfl, rfl, id⟩

/-- A check that succeeds sends one message. A CRC other than the initial value has been reported. -/
structure CheckDone (imgCrc command : BitVec 32) (run after : Download) : Prop where
  sent : after.sent = run.sent ++ [⟨cmdWrRegRsFwctrl, command, []⟩]
  checked : ∃ reported, after.checked = run.checked ++ [reported] ∧
    (imgCrc ≠ rsValueUnknown → reported.getLast? = some imgCrc)

theorem checkCrc_done {offsetCrc command : BitVec 32} {run after : Download}
    (done : run.checkCrc board offsetCrc command = some after) :
    CheckDone (flashUint32 board.flash offsetCrc) command run after := by
  simp only [Download.checkCrc, getUint32_rxBuffer] at done
  obtain ⟨started, sent, done⟩ := Option.bind_eq_some_iff.mp done
  obtain ⟨waited, waits, done⟩ := Option.bind_eq_some_iff.mp done
  split_ifs at done with differs
  · cases done
    have waits := awaitCrc_waits 100 waits
    have start := sendIdcRsMsg_eq_some sent
    have tracks : Tracks waited := by
      apply waits.tracks
      rw [start]
      exact @Tracks.operate board { run with lastRsValue := rsValueUnknown, reported := [], rxBuffer := _ } rfl
    refine ⟨?_, waited.reported, ?_, fun known => tracks.reported (not_not.mp differs) known⟩
    · exact waits.sent.trans (by rw [start]; rfl)
    · exact congrArg (· ++ [waited.reported]) (waits.checked.trans (by rw [start]; rfl))

end Checks

section Sections

/-! ### The sections -/

variable {board : Board} {info : IdcFwInfo}

/-- All messages of a download. -/
def sectionMsgs (flash : ℕ → Byte) (info : IdcFwInfo) : List RsMsg :=
  [⟨cmdWrRegIdcRsFwgp1, fwgp1Ifetch ||| fwgp1Mwait, []⟩, ⟨cmdWrRegIdcRsFwctrl, 0, []⟩] ++
    blockMsgs flash (blockCount info.bootSize 0) 0 0 ++
    blockMsgs flash (blockCount (codeRamOffset + info.codeSize) codeRamOffset) codeRamOffset info.offsetCode ++
    [⟨cmdWrRegRsFwctrl, fwctrlChk, []⟩, ⟨cmdWrRegRsFwctrl, fwctrlSwitch, []⟩] ++
    blockMsgs flash (blockCount info.dataSize 0) 0 info.offsetData ++
    [⟨cmdWrRegRsFwctrl, fwctrlChk ||| fwctrlSwitch, []⟩, ⟨cmdWrRegRsFwctrl, fwctrlValid, []⟩]

/-- The sections end below the wrap of the addresses, with room for what the last block runs over. -/
structure Roomy (info : IdcFwInfo) : Prop where
  boot : info.bootSize ≤ codeRamOffset
  code : info.offsetCode.toNat + info.codeSize.toNat + 0x9000 ≤ 2 ^ 32
  data : info.offsetData.toNat + info.dataSize.toNat + 0x9000 ≤ 2 ^ 32

namespace Roomy

theorem boot_le (roomy : Roomy info) : info.bootSize.toNat ≤ 0x8000 := BitVec.le_def.mp roomy.boot

theorem limit (roomy : Roomy info) : (codeRamOffset + info.codeSize).toNat = 0x8000 + info.codeSize.toNat := by
  have room := roomy.code
  apply BitVec.toNat_add_of_lt
  change 0x8000 + info.codeSize.toNat < 2 ^ 32
  omega

theorem block_fits (roomy : Roomy info) : info.bootSize.toNat + 56 ≤ 2 ^ 32 ∧
    (codeRamOffset + info.codeSize).toNat + 56 ≤ 2 ^ 32 ∧ info.dataSize.toNat + 56 ≤ 2 ^ 32 := by
  have bootLe := roomy.boot_le
  have code := roomy.code
  have data := roomy.data
  rw [roomy.limit]
  omega

end Roomy

theorem blockCount_le (limit adr : BitVec 32) : 56 * blockCount limit adr ≤ limit.toNat - adr.toNat + 55 :=
  Nat.mul_div_le ..

theorem le_blockCount (limit adr : BitVec 32) : limit.toNat - adr.toNat ≤ 56 * blockCount limit adr := by
  rw [blockCount]
  omega

theorem sections_sent (roomy : Roomy info) {run after : Download} (done : run.sections board info = some after) :
    after.sent = run.sent ++ sectionMsgs board.flash info ∧
      ∃ code data, after.checked = run.checked ++ [code] ++ [data] ∧
        (flashUint32 board.flash info.offsetCodeCrc ≠ rsValueUnknown →
          code.getLast? = some (flashUint32 board.flash info.offsetCodeCrc)) ∧
        (flashUint32 board.flash info.offsetDataCrc ≠ rsValueUnknown →
          data.getLast? = some (flashUint32 board.flash info.offsetDataCrc)) := by
  obtain ⟨bootRoom, codeRoom, dataRoom⟩ := roomy.block_fits
  rw [Download.sections] at done
  obtain ⟨run1, fwgp1, done⟩ := Option.bind_eq_some_iff.mp done
  obtain ⟨run2, fwctrl, done⟩ := Option.bind_eq_some_iff.mp done
  obtain ⟨run3, boot, done⟩ := Option.bind_eq_some_iff.mp done
  obtain ⟨run4, code, done⟩ := Option.bind_eq_some_iff.mp done
  obtain ⟨run5, codeCheck, done⟩ := Option.bind_eq_some_iff.mp done
  obtain ⟨run6, switched, done⟩ := Option.bind_eq_some_iff.mp done
  obtain ⟨run7, data, done⟩ := Option.bind_eq_some_iff.mp done
  obtain ⟨run8, dataCheck, valid⟩ := Option.bind_eq_some_iff.mp done
  have fwgp1 := sendIdcRsMsg_eq_some fwgp1
  have fwctrl := sendIdcRsMsg_eq_some fwctrl
  have boot := sendBlocks_sent bootRoom _ _ _ boot
  have code := sendBlocks_sent codeRoom _ _ _ code
  have codeCheck := checkCrc_done codeCheck
  have switched := sendIdcRsMsg_eq_some switched
  have data := sendBlocks_sent dataRoom _ _ _ data
  have dataCheck := checkCrc_done dataCheck
  have valid := sendIdcRsMsg_eq_some valid
  obtain ⟨codeReports, codeChecked, codeKnown⟩ := codeCheck.checked
  obtain ⟨dataReports, dataChecked, dataKnown⟩ := dataCheck.checked
  have startChecked : run2.checked = run.checked := by rw [fwctrl, fwgp1]; rfl
  have startSent : run2.sent = run.sent ++ [⟨cmdWrRegIdcRsFwgp1, fwgp1Ifetch ||| fwgp1Mwait, []⟩,
      ⟨cmdWrRegIdcRsFwctrl, 0, []⟩] := by
    rw [fwctrl, fwgp1]
    exact List.append_assoc _ _ _
  have middleSent : run6.sent = run5.sent ++ [⟨cmdWrRegRsFwctrl, fwctrlSwitch, []⟩] := by rw [switched]; rfl
  have middleChecked : run6.checked = run5.checked := by rw [switched]; rfl
  have endSent : after.sent = run8.sent ++ [⟨cmdWrRegRsFwctrl, fwctrlValid, []⟩] := by rw [valid]; rfl
  have endChecked : after.checked = run8.checked := by rw [valid]; rfl
  refine ⟨?_, codeReports, dataReports, ?_, codeKnown, dataKnown⟩
  · rw [endSent, dataCheck.sent, data.sent, middleSent, codeCheck.sent, code.sent, boot.sent, startSent]
    simp only [sectionMsgs, List.append_assoc, List.cons_append, List.nil_append]
  · rw [endChecked, dataChecked, data.checked, middleChecked, codeChecked, code.checked, boot.checked,
      startChecked]

/-- The RAM behind all messages. The code section overwrites what the boot section runs over. -/
theorem perform_sectionMsgs (flash : ℕ → Byte) (roomy : Roomy info) (ram : IdcRam) :
    (sectionMsgs flash info).foldl IdcRam.perform ram =
      { switch := false
        codeRam := writeAt (writeAt ram.codeRam 0 (flashWords flash 0 (14 * blockCount info.bootSize 0)))
          (codeRamOffset.toNat / 4) (flashWords flash info.offsetCode.toNat
            (14 * blockCount (codeRamOffset + info.codeSize) codeRamOffset))
        dataRam := writeAt ram.dataRam 0 (flashWords flash info.offsetData.toNat
          (14 * blockCount info.dataSize 0)) } := by
  have bootLe := roomy.boot_le
  have codeLimit := roomy.limit
  have codeRoom := roomy.code
  have dataRoom := roomy.data
  have bootCount := blockCount_le info.bootSize 0
  have codeCount := blockCount_le (codeRamOffset + info.codeSize) codeRamOffset
  have dataCount := blockCount_le info.dataSize 0
  have zero : (0 : BitVec 32).toNat = 0 := rfl
  have base : codeRamOffset.toNat = 0x8000 := rfl
  rw [zero] at bootCount dataCount
  rw [codeLimit, base] at codeCount
  simp only [sectionMsgs, List.foldl_append, List.foldl_cons, List.foldl_nil]
  rw [perform_blockMsgs flash (by decide) (by rw [zero]; omega) (by omega),
    perform_blockMsgs flash (by decide) (by rw [base]; omega) (by omega),
    perform_blockMsgs flash (by decide) (by rw [zero]; omega) (by rw [zero]; omega)]
  rfl

theorem writeAt_flashWords (cells : ℕ → List Byte) (start : ℕ) (flash : ℕ → Byte) (offset : ℕ) {count w : ℕ}
    (inside : w < count) :
    writeAt cells start (flashWords flash offset count) (start + w) = flashWord flash (offset + 4 * w) := by
  rw [writeAt_inside _ _ _ (by rw [flashWords_length]; exact inside)]
  simp only [flashWords, List.getElem_map, List.getElem_range]

theorem holds_sectionMsgs (flash : ℕ → Byte) (roomy : Roomy info) (ram : IdcRam) :
    Holds flash info ((sectionMsgs flash info).foldl IdcRam.perform ram) := by
  have bootLe := roomy.boot_le
  have bootCount := le_blockCount info.bootSize 0
  have codeCount := le_blockCount (codeRamOffset + info.codeSize) codeRamOffset
  have dataCount := le_blockCount info.dataSize 0
  have zero : (0 : BitVec 32).toNat = 0 := rfl
  have base : codeRamOffset.toNat = 0x8000 := rfl
  rw [zero] at bootCount dataCount
  rw [roomy.limit, base] at codeCount
  rw [perform_sectionMsgs flash roomy ram]
  constructor
  · intro w inside
    have boot := writeAt_flashWords ram.codeRam 0 flash 0
      (show w < 14 * blockCount info.bootSize 0 by omega)
    rw [Nat.zero_add, Nat.zero_add] at boot
    rw [← boot]
    exact writeAt_outside _ _ _ (.inl (by rw [base]; omega))
  · intro w inside
    exact writeAt_flashWords _ _ flash _ (by omega)
  · intro w inside
    have data := writeAt_flashWords ram.dataRam 0 flash info.offsetData.toNat
      (show w < 14 * blockCount info.dataSize 0 by omega)
    rw [Nat.zero_add] at data
    exact data

end Sections

section Results

/-! ### The result of a download -/

variable {flash : ℕ → Byte} {pImage nLength : BitVec 32}

theorem readWord_eq (board : Board) (offset : BitVec 32) (run : Download) :
    run.readWord board offset = (flashUint32 board.flash offset, run.idcFwRead board offset 4) := by
  rw [Download.readWord, getUint32_rxBuffer]

/-- The download reads the trailer, checks the layout and goes on with the sections. -/
theorem idcDownload_eq (board : Board) (pImage nLength : BitVec 32) (run : Download) :
    run.idcDownload board pImage nLength =
      if 24 ≤ nLength ∧ (trailerInfo board.flash pImage nLength).Valid then
        ((run.idcFwRead board (nLength - 8) 4).idcFwRead board (nLength - 4) 4).sections board
          (trailerInfo board.flash pImage nLength)
      else none := by
  rw [Download.idcDownload]
  simp only [readWord_eq]
  by_cases short : nLength < 24
  · rw [if_pos short, if_neg fun accepted => BitVec.not_lt.mpr accepted.1 short]
  · have long : 24 ≤ nLength := BitVec.not_lt.mp short
    rw [if_neg short]
    change (if (trailerInfo board.flash pImage nLength).Valid then _ else none) = _
    by_cases valid : (trailerInfo board.flash pImage nLength).Valid
    · rw [if_pos valid, if_pos ⟨long, valid⟩]
      rfl
    · rw [if_neg valid, if_neg fun accepted => valid accepted.2]

/-- The sections of an image in the flash are in order and end below the wrap. -/
theorem roomy_of_inFlash (inFlash : idcFwOffset + nLength.toNat ≤ 2 ^ 32) (long : 24 ≤ nLength)
    (valid : (trailerInfo flash pImage nLength).Valid)
    (boot : (trailerInfo flash pImage nLength).bootSize ≤ codeRamOffset) :
    Roomy (trailerInfo flash pImage nLength) := by
  obtain ⟨-, -, -, -, code, data⟩ := valid
  have offset : idcFwOffset = 0x32000 := rfl
  rw [offset] at inFlash
  have bootLe : (flashUint32 flash (nLength - 8)).toNat ≤ 0x8000 := BitVec.le_def.mp boot
  have below : (flashUint32 flash (nLength - 8)).toNat + nLength.toNat < 2 ^ 32 := by omega
  have order : flashUint32 flash (nLength - 8) ≤ flashUint32 flash (nLength - 4) := le_of_sub_le below code
  have size : (flashUint32 flash (nLength - 4) - flashUint32 flash (nLength - 8)).toNat ≤ nLength.toNat :=
    BitVec.le_def.mp code
  rw [BitVec.toNat_sub_of_le order] at size
  have ordered : (trailerInfo flash pImage nLength).Ordered :=
    ordered_of_sizes (BitVec.le_def.mp long) code data below (by omega)
  have dataLe := ordered.data_le
  have codeSize := ordered.code
  have dataSize := ordered.data
  have codeLe := BitVec.le_def.mp ordered.code_le_data
  have imageSize : (trailerInfo flash pImage nLength).imageSize = nLength := rfl
  rw [imageSize] at dataLe dataSize
  exact ⟨boot, by omega, by omega⟩

/-- A download that ends with `IFX_TRUE` has the image in the RAM of the device, and the CRC of each of the two
sections reported by the device. -/
structure Faithful (board : Board) (info : IdcFwInfo) (ram : IdcRam) (after : Download) : Prop where
  holds : Holds board.flash info (after.sent.foldl IdcRam.perform ram)
  crc : CrcReported board.flash info after

/-- The download is faithful whatever the device does. -/
def AlwaysFaithful (flash : ℕ → Byte) (pImage nLength : BitVec 32) : Prop :=
  ∀ (board : Board) (run after : Download) (ram : IdcRam), board.flash = flash → run.sent = [] → run.checked = [] →
    run.idcDownload board pImage nLength = some after → Faithful board (trailerInfo flash pImage nLength) ram after

/-- No section has the CRC that stands for an unknown one. -/
def KnownCrcs (flash : ℕ → Byte) (info : IdcFwInfo) : Prop :=
  flashUint32 flash info.offsetCodeCrc ≠ rsValueUnknown ∧ flashUint32 flash info.offsetDataCrc ≠ rsValueUnknown

theorem alwaysFaithful_of_known (inFlash : idcFwOffset + nLength.toNat ≤ 2 ^ 32)
    (boot : (trailerInfo flash pImage nLength).bootSize ≤ codeRamOffset)
    (known : KnownCrcs flash (trailerInfo flash pImage nLength)) : AlwaysFaithful flash pImage nLength := by
  rintro board run after ram rfl noneSent noneChecked done
  rw [idcDownload_eq] at done
  split_ifs at done with accepted
  · obtain ⟨sent, code, data, checked, codeKnown, dataKnown⟩ :=
      sections_sent (roomy_of_inFlash inFlash accepted.1 accepted.2 boot) done
    constructor
    · rw [sent]
      change Holds _ _ ((run.sent ++ _).foldl _ _)
      rw [noneSent]
      exact holds_sectionMsgs board.flash (roomy_of_inFlash inFlash accepted.1 accepted.2 boot) ram
    · refine ⟨code, data, ?_, codeKnown known.1, dataKnown known.2⟩
      rw [checked]
      change run.checked ++ _ ++ _ = _
      rw [noneChecked]
      rfl

/-! ### A device that reports no CRC -/

def reportUnlessUnknown (crc : BitVec 32) : List (BitVec 32) := if crc = rsValueUnknown then [] else [crc]

theorem getLastD_reportUnlessUnknown (crc : BitVec 32) :
    (reportUnlessUnknown crc).getLastD rsValueUnknown = crc := by
  rw [reportUnlessUnknown]
  split_ifs with unknown
  · exact unknown.symm
  · rfl

/-- A device that acknowledges all messages, and reports a CRC only if the driver does not take it for granted. The
CRC of the code section is reported up to the operation `last`, that of the data section behind it. -/
def silentBoard (flash : ℕ → Byte) (info : IdcFwInfo) (last : ℕ) : Board where
  flash
  bInit := true
  acked _ := true
  reports n :=
    if n ≤ last then reportUnlessUnknown (flashUint32 flash info.offsetCodeCrc)
    else reportUnlessUnknown (flashUint32 flash info.offsetDataCrc)

theorem blockMsgs_length (flash : ℕ → Byte) (count : ℕ) (adr offset : BitVec 32) :
    (blockMsgs flash count adr offset).length = count := by
  induction count generalizing adr offset with
  | zero => rfl
  | succ count ih => rw [blockMsgs, List.length_cons, ih]

theorem awaitCrc_of_eq (board : Board) {imgCrc : BitVec 32} {run : Download} (same : imgCrc = run.lastRsValue) :
    run.awaitCrc board imgCrc 100 = some run := by
  rw [show (100 : ℕ) = 99 + 1 from rfl, Download.awaitCrc, if_neg (by decide), if_neg (not_not.mpr same)]

/-- A check passes when the CRC is what the driver has after the first operation. -/
theorem checkCrc_of_reports {board : Board} (init : board.bInit = true) (acked : ∀ n, board.acked n = true)
    {offsetCrc : BitVec 32} (command : BitVec 32) {run : Download}
    (reports : flashUint32 board.flash offsetCrc = (board.reports run.ops).getLastD rsValueUnknown) :
    ∃ after, run.checkCrc board offsetCrc command = some after ∧ after.ops = run.ops + 1 ∧
      after.checked = run.checked ++ [board.reports run.ops] := by
  rw [Download.checkCrc]
  simp only [getUint32_rxBuffer, Download.sendCommand, sendIdcRsMsg_of_acked init acked _ _ _ (Nat.zero_le _),
    Option.bind_eq_bind, Option.bind_some]
  rw [awaitCrc_of_eq board (by exact reports), Option.bind_some, if_neg (not_not.mpr (by exact reports))]
  exact ⟨_, rfl, rfl, rfl⟩

theorem sections_silentBoard (flash : ℕ → Byte) {info : IdcFwInfo} (roomy : Roomy info) {run : Download}
    (fresh : run.ops = 0) {last : ℕ}
    (atCheck : last = 2 + blockCount info.bootSize 0 + blockCount (codeRamOffset + info.codeSize) codeRamOffset) :
    ∃ after, run.sections (silentBoard flash info last) info = some after ∧
      after.checked = run.checked ++ [reportUnlessUnknown (flashUint32 flash info.offsetCodeCrc)] ++
        [reportUnlessUnknown (flashUint32 flash info.offsetDataCrc)] := by
  obtain ⟨bootRoom, codeRoom, dataRoom⟩ := roomy.block_fits
  have init : (silentBoard flash info last).bInit = true := rfl
  have acked : ∀ n, (silentBoard flash info last).acked n = true := fun _ => rfl
  have send (opcd : Byte) (param : BitVec 32) (run : Download) : ∃ after,
      run.sendCommand (silentBoard flash info last) opcd param = some after ∧
        after.ops = run.ops + 1 ∧ after.checked = run.checked :=
    ⟨_, sendIdcRsMsg_of_acked init acked opcd param _ (Nat.zero_le _) run, rfl, rfl⟩
  obtain ⟨run1, fwgp1, ops1, checked1⟩ := send cmdWrRegIdcRsFwgp1 (fwgp1Ifetch ||| fwgp1Mwait) run
  obtain ⟨run2, fwctrl, ops2, checked2⟩ := send cmdWrRegIdcRsFwctrl 0 run1
  obtain ⟨run3, bootDone⟩ := sendBlocks_isSome bootRoom init acked (blockCount_lt_blockFuel _ 0) 0 run2
  obtain ⟨-, checked3, ops3⟩ := sendBlocks_sent bootRoom _ _ _ bootDone
  obtain ⟨run4, codeDone⟩ := sendBlocks_isSome codeRoom init acked (blockCount_lt_blockFuel _ codeRamOffset)
    info.offsetCode run3
  obtain ⟨-, checked4, ops4⟩ := sendBlocks_sent codeRoom _ _ _ codeDone
  rw [blockMsgs_length] at ops3 ops4
  -- the code section is checked in the operation that the device reports its CRC for the last time
  have atLast : run4.ops = last := by omega
  have codeReports : (silentBoard flash info last).reports run4.ops =
      reportUnlessUnknown (flashUint32 flash info.offsetCodeCrc) := if_pos atLast.le
  obtain ⟨run5, codeCheck, ops5, checked5⟩ := checkCrc_of_reports init acked fwctrlChk
    (codeReports ▸ (getLastD_reportUnlessUnknown _).symm)
  obtain ⟨run6, switched, ops6, checked6⟩ := send cmdWrRegRsFwctrl fwctrlSwitch run5
  obtain ⟨run7, dataDone⟩ := sendBlocks_isSome dataRoom init acked (blockCount_lt_blockFuel _ 0)
    info.offsetData run6
  obtain ⟨-, checked7, ops7⟩ := sendBlocks_sent dataRoom _ _ _ dataDone
  have behind : ¬ run7.ops ≤ last := by omega
  have dataReports : (silentBoard flash info last).reports run7.ops =
      reportUnlessUnknown (flashUint32 flash info.offsetDataCrc) := if_neg behind
  obtain ⟨run8, dataCheck, -, checked8⟩ := checkCrc_of_reports init acked (fwctrlChk ||| fwctrlSwitch)
    (dataReports ▸ (getLastD_reportUnlessUnknown _).symm)
  obtain ⟨after, valid, -, checked9⟩ := send cmdWrRegRsFwctrl fwctrlValid run8
  refine ⟨after, ?_, ?_⟩
  · rw [Download.sections, fwgp1]
    simp only [Option.bind_eq_bind, Option.bind_some, fwctrl, bootDone, codeDone, codeCheck, switched, dataDone,
      dataCheck, valid]
  · rw [checked9, checked8, dataReports, checked7, checked6, checked5, codeReports, checked4, checked3, checked2,
      checked1]

theorem known_of_alwaysFaithful (inFlash : idcFwOffset + nLength.toNat ≤ 2 ^ 32)
    (boot : (trailerInfo flash pImage nLength).bootSize ≤ codeRamOffset)
    (accepted : 24 ≤ nLength ∧ (trailerInfo flash pImage nLength).Valid)
    (faithful : AlwaysFaithful flash pImage nLength) : KnownCrcs flash (trailerInfo flash pImage nLength) := by
  have roomy := roomy_of_inFlash inFlash accepted.1 accepted.2 boot
  let board := silentBoard flash (trailerInfo flash pImage nLength)
    (2 + blockCount (trailerInfo flash pImage nLength).bootSize 0 +
      blockCount (codeRamOffset + (trailerInfo flash pImage nLength).codeSize) codeRamOffset)
  let start : Download := ⟨fun _ => 0, 0, 0, [], [], []⟩
  obtain ⟨after, done, checked⟩ := @sections_silentBoard flash _ roomy
    ((start.idcFwRead board (nLength - 8) 4).idcFwRead board (nLength - 4) 4) rfl _ rfl
  have result : start.idcDownload board pImage nLength = some after := by
    rw [idcDownload_eq]
    exact (if_pos accepted).trans done
  obtain ⟨code, data, both, codeReported, dataReported⟩ :=
    (faithful board start after ⟨false, fun _ => [], fun _ => []⟩ rfl rfl rfl result).crc
  have reported : [code, data] =
      [reportUnlessUnknown (flashUint32 flash (trailerInfo flash pImage nLength).offsetCodeCrc),
        reportUnlessUnknown (flashUint32 flash (trailerInfo flash pImage nLength).offsetDataCrc)] :=
    both.symm.trans checked
  have known {crc : BitVec 32} (heard : (reportUnlessUnknown crc).getLast? = some crc) : crc ≠ rsValueUnknown := by
    intro unknown
    rw [reportUnlessUnknown, if_pos unknown] at heard
    cases heard
  cases reported
  exact ⟨known codeReported, known dataReported⟩

/-- The download of an image with its boot section below the code RAM is faithful exactly if the image
is rejected or neither CRC is the value that `last_rs_value` starts with. -/
theorem alwaysFaithful_iff (inFlash : idcFwOffset + nLength.toNat ≤ 2 ^ 32)
    (boot : (trailerInfo flash pImage nLength).bootSize ≤ codeRamOffset) :
    AlwaysFaithful flash pImage nLength ↔
      nLength < 24 ∨ ¬ (trailerInfo flash pImage nLength).Valid ∨
        KnownCrcs flash (trailerInfo flash pImage nLength) := by
  constructor
  · intro faithful
    by_cases accepted : 24 ≤ nLength ∧ (trailerInfo flash pImage nLength).Valid
    · exact .inr (.inr (known_of_alwaysFaithful inFlash boot accepted faithful))
    · rcases not_and_or.mp accepted with short | invalid
      · exact .inl (BitVec.not_le.mp short)
      · exact .inr (.inl invalid)
  · rintro (short | invalid | known)
    · intro board run after ram same noneSent noneChecked done
      rw [idcDownload_eq, if_neg fun accepted => BitVec.not_lt.mpr accepted.1 short] at done
      cases done
    · rintro board run after ram rfl noneSent noneChecked done
      rw [idcDownload_eq, if_neg fun accepted => invalid accepted.2] at done
      cases done
    · exact alwaysFaithful_of_known inFlash boot known

/-- An image of 24 bytes with a word of data. The CRC of its code section is the initial value. -/
def sentinelFlash (address : ℕ) : Byte :=
  [1, 2, 3, 4, 0, 0, 0, 0, 0xDE, 0xAD, 0xBE, 0xEF, 5, 6, 7, 8, 0, 0, 0, 0, 0, 0, 0, 0].getD
    (address - idcFwOffset) 0

theorem alwaysFaithful_iff_sentinelFlash :
    AlwaysFaithful sentinelFlash 0x20000000 24 ↔
      (24 : BitVec 32) < 24 ∨ ¬ (trailerInfo sentinelFlash 0x20000000 24).Valid ∨
        KnownCrcs sentinelFlash (trailerInfo sentinelFlash 0x20000000 24) :=
  alwaysFaithful_iff (by decide) (by decide)

/-- The download ends with `IFX_TRUE` although the device has not reported the CRC of the code section. -/
theorem sentinelCrc_not_alwaysFaithful : ¬ AlwaysFaithful sentinelFlash 0x20000000 24 := by
  intro faithful
  have known := known_of_alwaysFaithful (by decide) (by decide) (by decide) faithful
  exact known.1 (by decide)

end Results

end Pef24628e
