import ShdslBridge.Lib.Memory
import Mathlib.Algebra.Group.Nat.Defs
import Mathlib.Data.Nat.Basic

/-! # A W25Q flash chip and its driver

The chip has addresses of 24 bits. It collects the bytes that come while it is selected, and carries a command out when
the selection ends. Erasing sets the bytes of a sector, and programming clears bits in a page; both need that writing
has been enabled just before, and keep the chip busy for any number of reads of its status. A busy chip takes no other
command.

The driver reaches the chip through `rt_spi_send` and the two calls with a second message, for which the chip stays
selected. The bus is the driver's own in each of these calls, and `xfer` succeeds.
-/

namespace W25qxx

def cmdPp : BitVec 8 := 0x02
def cmdRead : BitVec 8 := 0x03
def cmdWrdi : BitVec 8 := 0x04
def cmdRdsr1 : BitVec 8 := 0x05
def cmdWren : BitVec 8 := 0x06
def cmdErase4k : BitVec 8 := 0x20

/-- `DUMMY`, which is also what an idle line reads as. -/
def dummy : BitVec 8 := 0xff

/-! ## The chip -/

/-- The chip: its bytes, whether writing is enabled, for how many reads of the status it is busy, and what has come
since it was selected. The operation `n` takes the time `delay n`. -/
structure Chip where
  memory : ℕ → BitVec 8
  writeEnable : Bool
  busy : ℕ
  frame : List (BitVec 8)
  operations : ℕ
  delay : ℕ → ℕ

def address (high middle low : BitVec 8) : ℕ := high.toNat * 2 ^ 16 + middle.toNat * 2 ^ 8 + low.toNat

def eraseSector (memory : ℕ → BitVec 8) (addr : ℕ) : ℕ → BitVec 8 := fun i =>
  if i / 4096 = addr / 4096 then 0xff else memory i

/-- Bytes are programmed into the page of an address, from the address on and around at the end of the page. -/
def programPage (memory : ℕ → BitVec 8) (addr : ℕ) (data : List (BitVec 8)) : ℕ → BitVec 8 := fun i =>
  if i / 256 = addr / 256 then memory i &&& data.getD ((i % 256 + 256 - addr % 256) % 256) 0xff else memory i

namespace Chip

def start (chip : Chip) (memory : ℕ → BitVec 8) : Chip :=
  { chip with
    memory
    writeEnable := false
    busy := chip.delay chip.operations
    operations := chip.operations + 1 }

def status (chip : Chip) : BitVec 8 :=
  (if chip.busy = 0 then 0 else 1) ||| if chip.writeEnable then 2 else 0

/-- The byte on the line while the next one comes. -/
def output (chip : Chip) : BitVec 8 :=
  if chip.frame.head? = some cmdRdsr1 then chip.status
  else if chip.busy ≠ 0 then dummy
  else
    match chip.frame with
    | command :: high :: middle :: low :: rest =>
      if command = cmdRead then chip.memory ((address high middle low + rest.length) % 2 ^ 24) else dummy
    | _ => dummy

/-- The end of the selection. -/
def release (chip : Chip) : Chip :=
  match chip.frame with
  | [] => chip
  | command :: rest =>
    if command = cmdRdsr1 then { chip with busy := chip.busy - 1 }
    else if chip.busy ≠ 0 then chip
    else if command = cmdWren then { chip with writeEnable := true }
    else if command = cmdWrdi then { chip with writeEnable := false }
    else if !chip.writeEnable then chip
    else
      match rest with
      | high :: middle :: low :: data =>
        if command = cmdErase4k then chip.start (eraseSector chip.memory (address high middle low))
        else if command = cmdPp then chip.start (programPage chip.memory (address high middle low) data)
        else chip
      | _ => chip

/-! ## The bus -/

/-- `ops->xfer` for a message: the bytes that come back, and the chip. -/
def xfer (chip : Chip) (sendBuf : List (BitVec 8)) (csTake csRelease : Bool) : List (BitVec 8) × Chip :=
  let chip := if csTake then { chip with frame := [] } else chip
  let received := (List.range sendBuf.length).map fun i => { chip with frame := chip.frame ++ sendBuf.take i }.output
  let chip := { chip with frame := chip.frame ++ sendBuf }
  (received, if csRelease then chip.release else chip)

/-- `rt_spi_send`. -/
def rtSpiSend (chip : Chip) (sendBuf : List (BitVec 8)) : Chip := (chip.xfer sendBuf true true).2

/-- `rt_spi_send_then_send`. -/
def rtSpiSendThenSend (chip : Chip) (sendBuf1 sendBuf2 : List (BitVec 8)) : Chip :=
  ((chip.xfer sendBuf1 true false).2.xfer sendBuf2 false true).2

/-- `rt_spi_send_then_recv`. -/
def rtSpiSendThenRecv (chip : Chip) (sendBuf : List (BitVec 8)) (recvLength : ℕ) : List (BitVec 8) × Chip :=
  (chip.xfer sendBuf true false).2.xfer (List.replicate recvLength dummy) false true

/-- `rt_spi_sendrecv8`. -/
def rtSpiSendrecv8 (chip : Chip) (data : BitVec 8) : BitVec 8 × Chip :=
  let (received, chip) := chip.rtSpiSendThenRecv [data] 1
  (received.headD 0, chip)

/-! ## The driver -/

/-- `w25qxx_read_status`. -/
def w25qxxReadStatus (chip : Chip) : BitVec 8 × Chip := chip.rtSpiSendrecv8 cmdRdsr1

theorem w25qxxReadStatus_eq (chip : Chip) :
    chip.w25qxxReadStatus = (chip.status, { chip with frame := [cmdRdsr1, dummy], busy := chip.busy - 1 }) := rfl

theorem status_busy (chip : Chip) : chip.status &&& 1 ≠ 0 ↔ chip.busy ≠ 0 := by
  unfold status
  by_cases idle : chip.busy = 0
  · cases chip.writeEnable <;> simp [idle]
  · cases chip.writeEnable <;> simp [idle]

/-- `w25qxx_wait_busy`. -/
def w25qxxWaitBusy (chip : Chip) : Chip :=
  if _busy : chip.w25qxxReadStatus.1 &&& 1 ≠ 0 then w25qxxWaitBusy chip.w25qxxReadStatus.2 else chip.w25qxxReadStatus.2
termination_by chip.busy
decreasing_by
  rw [w25qxxReadStatus_eq] at *
  exact Nat.sub_lt (Nat.pos_of_ne_zero (chip.status_busy.mp _busy)) Nat.one_pos

def addressBytes (addr : BitVec 32) : List (BitVec 8) :=
  [(addr >>> 16).setWidth 8, (addr >>> 8).setWidth 8, addr.setWidth 8]

/-- `w25qxx_read`: the bytes in the buffer, and the chip. -/
def w25qxxRead (chip : Chip) (offset : BitVec 32) (size : ℕ) : List (BitVec 8) × Chip :=
  let chip := chip.rtSpiSend [cmdWrdi]
  chip.rtSpiSendThenRecv (cmdRead :: addressBytes offset) size

/-- The loop of `w25qxx_page_write`, for the pages that are left. -/
def programPages (source : ℕ → BitVec 8) : ℕ → BitVec 32 → ℕ → Chip → Chip
  | 0, _, _, chip => chip
  | left + 1, pageAddr, buffer, chip =>
    let chip := chip.rtSpiSend [cmdWren]
    let chip := chip.rtSpiSendThenSend (cmdPp :: addressBytes pageAddr) (Memory.readAt source buffer 256)
    programPages source left (pageAddr + 256) (buffer + 256) chip.w25qxxWaitBusy

/-- `w25qxx_page_write`, which asserts that the address is the one of a page. `source` is the memory of the buffer. -/
def w25qxxPageWrite (source : ℕ → BitVec 8) (chip : Chip) (pageAddr : BitVec 32) (buffer : ℕ) : Option Chip :=
  if pageAddr &&& 0xff ≠ 0 then none
  else
    let chip := chip.rtSpiSend [cmdWren]
    let chip := chip.rtSpiSend (cmdErase4k :: addressBytes pageAddr)
    let chip := programPages source (4096 / 256) pageAddr buffer chip.w25qxxWaitBusy
    some (chip.rtSpiSend [cmdWrdi])

end Chip

/-- `struct rt_device_blk_geometry`, without the size for erasing. -/
structure Geometry where
  bytesPerSector : BitVec 32
  sectorCount : BitVec 32

/-- The geometry that `w25qxx_init` sets for the memory type and capacity of the chip, if it knows them. -/
def w25qxxGeometry (memoryTypeCapacity : BitVec 16) : Option Geometry :=
  if memoryTypeCapacity = 0x4018 then some ⟨4096, 4096⟩
  else if memoryTypeCapacity = 0x4017 then some ⟨4096, 2048⟩
  else if memoryTypeCapacity = 0x4016 then some ⟨4096, 1024⟩
  else if memoryTypeCapacity = 0x6016 then some ⟨4096, 1024⟩
  else if memoryTypeCapacity = 0x4015 then some ⟨4096, 512⟩
  else if memoryTypeCapacity = 0x6015 then some ⟨4096, 512⟩
  else if memoryTypeCapacity = 0x4014 then some ⟨4096, 256⟩
  else none

/-- The loop of `w25qxx_flash_write`, for the sectors that are left. -/
def writeSectors (geometry : Geometry) (source : ℕ → BitVec 8) (pos : BitVec 32) :
    ℕ → BitVec 32 → ℕ → Chip → Option Chip
  | 0, _, _, chip => some chip
  | block + 1, i, ptr, chip =>
    (chip.w25qxxPageWrite source ((pos + i) * geometry.bytesPerSector) ptr).bind
      (writeSectors geometry source pos block (i + 1) (ptr + 4096))

/-- `w25qxx_flash_write`. -/
def w25qxxFlashWrite (geometry : Geometry) (source : ℕ → BitVec 8) (chip : Chip) (pos : BitVec 32) (buffer : ℕ)
    (size : BitVec 32) : Option Chip :=
  writeSectors geometry source pos size.toNat 0 buffer chip

/-! ## One command -/

/-- The chip takes commands, and holds these bytes. -/
structure Chip.Ready (chip : Chip) (memory : ℕ → BitVec 8) : Prop where
  busy : chip.busy = 0
  memory : chip.memory = memory

namespace Chip

variable {chip : Chip} {memory : ℕ → BitVec 8}

theorem rtSpiSend_wren (idle : chip.busy = 0) :
    chip.rtSpiSend [cmdWren] = { chip with frame := [cmdWren], writeEnable := true } := by
  simp [rtSpiSend, xfer, release, idle, cmdWren, cmdRdsr1]

theorem rtSpiSend_wrdi (idle : chip.busy = 0) :
    chip.rtSpiSend [cmdWrdi] = { chip with frame := [cmdWrdi], writeEnable := false } := by
  simp [rtSpiSend, xfer, release, idle, cmdWrdi, cmdWren, cmdRdsr1]

theorem address_bytes (addr : BitVec 32) :
    address ((addr >>> 16).setWidth 8) ((addr >>> 8).setWidth 8) (addr.setWidth 8) = addr.toNat % 2 ^ 24 := by
  rw [address, BitVec.toNat_setWidth, BitVec.toNat_setWidth, BitVec.toNat_setWidth, BitVec.toNat_ushiftRight,
    BitVec.toNat_ushiftRight, Nat.shiftRight_eq_div_pow, Nat.shiftRight_eq_div_pow]
  omega

theorem erase_start (idle : chip.busy = 0) (addr : BitVec 32) :
    ∃ frame, (chip.rtSpiSend [cmdWren]).rtSpiSend (cmdErase4k :: addressBytes addr) =
      { chip with frame }.start (eraseSector chip.memory (addr.toNat % 2 ^ 24)) := by
  refine ⟨cmdErase4k :: addressBytes addr, ?_⟩
  rw [rtSpiSend_wren idle]
  simp [rtSpiSend, xfer, release, idle, start, cmdErase4k, cmdWrdi, cmdWren, cmdRdsr1, addressBytes, address_bytes]

theorem program_start (idle : chip.busy = 0) (addr : BitVec 32) (data : List (BitVec 8)) :
    ∃ frame, (chip.rtSpiSend [cmdWren]).rtSpiSendThenSend (cmdPp :: addressBytes addr) data =
      { chip with frame }.start (programPage chip.memory (addr.toNat % 2 ^ 24) data) := by
  refine ⟨cmdPp :: addressBytes addr ++ data, ?_⟩
  rw [rtSpiSend_wren idle]
  simp [rtSpiSendThenSend, xfer, release, idle, start, cmdErase4k, cmdPp, cmdWrdi, cmdWren, cmdRdsr1, addressBytes,
    address_bytes]

theorem w25qxxWaitBusy_ready (chip : Chip) : chip.w25qxxWaitBusy.Ready chip.memory := by
  induction waits : chip.busy generalizing chip with
  | zero =>
    rw [w25qxxWaitBusy, w25qxxReadStatus_eq, dif_neg fun busy => chip.status_busy.mp busy waits]
    exact ⟨by rw [waits], rfl⟩
  | succ time ih =>
    rw [w25qxxWaitBusy, w25qxxReadStatus_eq, dif_pos (chip.status_busy.mpr (by omega))]
    exact ih _ (by simp [waits])

theorem Ready.erase (ready : chip.Ready memory) (addr : BitVec 32) :
    (((chip.rtSpiSend [cmdWren]).rtSpiSend (cmdErase4k :: addressBytes addr)).w25qxxWaitBusy).Ready
      (eraseSector memory (addr.toNat % 2 ^ 24)) := by
  obtain ⟨frame, started⟩ := erase_start ready.busy addr
  rw [started, ← ready.memory]
  exact w25qxxWaitBusy_ready _

theorem Ready.program (ready : chip.Ready memory) (addr : BitVec 32) (data : List (BitVec 8)) :
    (((chip.rtSpiSend [cmdWren]).rtSpiSendThenSend (cmdPp :: addressBytes addr) data).w25qxxWaitBusy).Ready
      (programPage memory (addr.toNat % 2 ^ 24) data) := by
  obtain ⟨frame, started⟩ := program_start ready.busy addr data
  rw [started, ← ready.memory]
  exact w25qxxWaitBusy_ready _

theorem Ready.disable (ready : chip.Ready memory) : (chip.rtSpiSend [cmdWrdi]).Ready memory := by
  rw [rtSpiSend_wrdi ready.busy]
  exact ⟨ready.busy, ready.memory⟩

end Chip

/-! ## One sector -/

open Memory

theorem all_and (byte : BitVec 8) : 0xff &&& byte = byte := by
  revert byte
  decide +kernel

theorem programPage_erased {memory : ℕ → BitVec 8} {addr : ℕ} (aligned : addr % 256 = 0) {data : List (BitVec 8)}
    (page : data.length = 256) (erased : ∀ i, addr ≤ i → i < addr + 256 → memory i = 0xff) :
    programPage memory addr data = writeAt memory addr data := by
  funext i
  unfold programPage
  by_cases inside : i / 256 = addr / 256
  · obtain ⟨offset, rfl⟩ := Nat.exists_eq_add_of_le (show addr ≤ i by omega)
    have place : ((addr + offset) % 256 + 256 - addr % 256) % 256 = offset := by omega
    have less : offset < data.length := by omega
    rw [if_pos inside, place, erased _ (Nat.le_add_right ..) (by omega), writeAt_inside _ _ _ less,
      List.getD_eq_getElem?_getD, List.getElem?_eq_getElem less, Option.getD_some]
    exact all_and _
  · rw [if_neg inside, writeAt_outside _ _ _ (by omega)]

variable {source : ℕ → BitVec 8} {chip : Chip} {memory : ℕ → BitVec 8}

theorem programPages_ready (left : ℕ) (pageAddr : BitVec 32) (buffer : ℕ) (ready : chip.Ready memory)
    (aligned : pageAddr.toNat % 256 = 0) (room : pageAddr.toNat + 256 * left ≤ 2 ^ 24)
    (erased : ∀ i, pageAddr.toNat ≤ i → i < pageAddr.toNat + 256 * left → memory i = 0xff) :
    (chip.programPages source left pageAddr buffer).Ready
      (writeAt memory pageAddr.toNat (readAt source buffer (256 * left))) := by
  induction left generalizing pageAddr buffer chip memory with
  | zero => rwa [Nat.mul_zero, readAt_zero, writeAt_nil]
  | succ left ih =>
    have low : pageAddr.toNat % 2 ^ 24 = pageAddr.toNat := Nat.mod_eq_of_lt (by omega)
    have page := ready.program pageAddr (readAt source buffer 256)
    have blank : ∀ i, pageAddr.toNat ≤ i → i < pageAddr.toNat + 256 → memory i = 0xff := by
      intro i above below
      exact erased i above (Nat.lt_of_lt_of_le below
        (Nat.add_le_add_left (Nat.le_mul_of_pos_right 256 left.succ_pos) _))
    have whole := programPage_erased aligned (readAt_length source buffer 256) blank
    rw [low, whole] at page
    have behind : (pageAddr + 256).toNat = pageAddr.toNat + 256 := by
      rw [BitVec.toNat_add]
      exact Nat.mod_eq_of_lt (by simp; omega)
    have copied : readAt source buffer (256 * (left + 1)) =
        readAt source buffer 256 ++ readAt source (buffer + 256) (256 * left) := by
      rw [← readAt_add, Nat.mul_add, Nat.mul_one, Nat.add_comm]
    have rest := ih (pageAddr + 256) (buffer + 256) page (by rw [behind]; omega) (by rw [behind]; omega) fun i above
        below => by
      rw [behind] at above below
      rw [writeAt_outside _ _ _ (.inr (by rwa [readAt_length]))]
      exact erased i (Nat.le_trans (Nat.le_add_right ..) above) (by omega)
    have front := writeAt_append memory pageAddr.toNat (readAt source buffer 256)
      (readAt source (buffer + 256) (256 * left))
    rw [readAt_length] at front
    rw [behind, front] at rest
    rwa [copied]

theorem writeAt_eraseSector (memory : ℕ → BitVec 8) {addr : ℕ} (aligned : addr % 4096 = 0) {data : List (BitVec 8)}
    (sector : data.length = 4096) : writeAt (eraseSector memory addr) addr data = writeAt memory addr data := by
  funext i
  by_cases outside : i < addr ∨ addr + 4096 ≤ i
  · rw [writeAt_outside _ _ _ (by omega), writeAt_outside _ _ _ (by omega), eraseSector, if_neg (by omega)]
  · obtain ⟨offset, rfl⟩ := Nat.exists_eq_add_of_le (show addr ≤ i by omega)
    rw [writeAt_inside _ _ _ (by omega), writeAt_inside _ _ _ (by omega)]

/-- `w25qxx_page_write` replaces the bytes of its sector. -/
theorem w25qxxPageWrite_ready {pageAddr : BitVec 32} (buffer : ℕ) (ready : chip.Ready memory)
    (aligned : pageAddr.toNat % 4096 = 0) (room : pageAddr.toNat + 4096 ≤ 2 ^ 24) :
    ∃ after, chip.w25qxxPageWrite source pageAddr buffer = some after ∧
      after.Ready (writeAt memory pageAddr.toNat (readAt source buffer 4096)) := by
  have low : pageAddr.toNat % 2 ^ 24 = pageAddr.toNat := Nat.mod_eq_of_lt (by omega)
  have asserted : pageAddr &&& 0xff = 0 := by
    apply BitVec.eq_of_toNat_eq
    have masked : pageAddr.toNat &&& 0xff = pageAddr.toNat % 2 ^ 8 := Nat.and_two_pow_sub_one_eq_mod _ 8
    rw [BitVec.toNat_and]
    change pageAddr.toNat &&& 0xff = 0
    omega
  have erased := ready.erase pageAddr
  rw [low] at erased
  have pages := @programPages_ready source _ _ 16 pageAddr buffer erased (by omega) (by omega)
    fun i above below => if_pos (by omega)
  rw [writeAt_eraseSector memory aligned (readAt_length ..)] at pages
  refine ⟨_, if_neg (not_not.mpr asserted), ?_⟩
  exact pages.disable

/-! ## Whole writes, and what is read -/

/-- Every chip that is known has sectors of 4096 bytes, and no more of them than the address reaches. -/
theorem w25qxxGeometry_sectors {memoryTypeCapacity : BitVec 16} {geometry : Geometry}
    (known : w25qxxGeometry memoryTypeCapacity = some geometry) :
    geometry.bytesPerSector = 4096 ∧ geometry.sectorCount.toNat ≤ 4096 := by
  unfold w25qxxGeometry at known
  split_ifs at known
  all_goals
    obtain rfl := Option.some.inj known
    exact ⟨rfl, by decide⟩

theorem toNat_sector {pos i : BitVec 32} (room : pos.toNat + i.toNat < 4096) :
    ((pos + i) * 4096).toNat = (pos.toNat + i.toNat) * 4096 := by
  have sum : (pos + i).toNat = pos.toNat + i.toNat := by
    rw [BitVec.toNat_add]
    exact Nat.mod_eq_of_lt (by omega)
  rw [BitVec.toNat_mul, sum]
  exact Nat.mod_eq_of_lt (by simp; omega)

theorem writeSectors_ready {geometry : Geometry} (sector : geometry.bytesPerSector = 4096) (pos : BitVec 32)
    (block : ℕ) (i : BitVec 32) (ptr : ℕ) (ready : chip.Ready memory) (room : pos.toNat + i.toNat + block ≤ 4096) :
    ∃ after, writeSectors geometry source pos block i ptr chip = some after ∧
      after.Ready (writeAt memory ((pos.toNat + i.toNat) * 4096) (readAt source ptr (4096 * block))) := by
  induction block generalizing i ptr chip memory with
  | zero =>
    refine ⟨chip, rfl, ?_⟩
    rwa [Nat.mul_zero, readAt_zero, writeAt_nil]
  | succ block ih =>
    have place := toNat_sector (show pos.toNat + i.toNat < 4096 by omega)
    have next : (i + 1).toNat = i.toNat + 1 := by
      rw [BitVec.toNat_add]
      exact Nat.mod_eq_of_lt (by simp; omega)
    obtain ⟨first, wrote, written⟩ :=
      @w25qxxPageWrite_ready source _ _ _ ptr ready (by rw [place]; omega) (by rw [place]; omega)
    obtain ⟨after, rest, finished⟩ := ih (i + 1) (ptr + 4096) written (by omega)
    refine ⟨after, ?_, ?_⟩
    · rw [writeSectors, sector, wrote]
      exact rest
    · have behind : (pos.toNat + (i + 1).toNat) * 4096 = (pos.toNat + i.toNat) * 4096 + 4096 := by
        rw [next]
        omega
      have front := writeAt_append memory ((pos.toNat + i.toNat) * 4096) (readAt source ptr 4096)
        (readAt source (ptr + 4096) (4096 * block))
      rw [readAt_length] at front
      rw [place, behind, front, ← readAt_add, Nat.add_comm 4096, ← Nat.mul_succ] at finished
      exact finished

/-- `w25qxx_read` gives the bytes from its offset on. -/
theorem w25qxxRead_ready (ready : chip.Ready memory) (offset : BitVec 32) (size : ℕ)
    (inside : offset.toNat + size ≤ 2 ^ 24) : (chip.w25qxxRead offset size).1 = readAt memory offset.toNat size := by
  rw [Chip.w25qxxRead, Chip.rtSpiSend_wrdi ready.busy, readAt]
  change (List.range (List.replicate size dummy).length).map _ = _
  rw [List.length_replicate]
  apply List.map_congr_left
  intro i member
  have less : i < size := List.mem_range.mp member
  have low : (offset.toNat + i) % 2 ^ 24 = offset.toNat + i := Nat.mod_eq_of_lt (by omega)
  simp [Chip.output, Chip.xfer, ready.busy, ready.memory, Chip.addressBytes, cmdRead, cmdRdsr1, Chip.address_bytes,
    List.take_replicate, Nat.min_eq_left (Nat.le_of_lt less)]
  exact congrArg memory low

/-- A write to sectors of the chip makes them equal to the buffer and leaves the rest of the chip. Behind it, what is
read is what the chip holds. -/
theorem w25qxxFlashWrite_writes {memoryTypeCapacity : BitVec 16} {geometry : Geometry}
    (known : w25qxxGeometry memoryTypeCapacity = some geometry) (source : ℕ → BitVec 8) {chip : Chip}
    (idle : chip.busy = 0) (pos : BitVec 32) (buffer : ℕ) (size : BitVec 32)
    (inside : pos.toNat + size.toNat ≤ geometry.sectorCount.toNat) :
    ∃ after, w25qxxFlashWrite geometry source chip pos buffer size = some after ∧ after.busy = 0 ∧
      (∀ i < size.toNat * 4096, after.memory (pos.toNat * 4096 + i) = source (buffer + i)) ∧
      (∀ addr, addr < pos.toNat * 4096 ∨ (pos.toNat + size.toNat) * 4096 ≤ addr →
        after.memory addr = chip.memory addr) ∧
      ∀ (offset : BitVec 32) (count : ℕ), offset.toNat + count ≤ 2 ^ 24 →
        (after.w25qxxRead offset count).1 = readAt after.memory offset.toNat count := by
  obtain ⟨sector, count⟩ := w25qxxGeometry_sectors known
  obtain ⟨after, wrote, written⟩ := @writeSectors_ready source chip chip.memory geometry sector pos size.toNat 0 buffer
    ⟨idle, rfl⟩ (by simpa using Nat.le_trans inside count)
  rw [show (pos.toNat + (0 : BitVec 32).toNat) * 4096 = pos.toNat * 4096 from rfl] at written
  refine ⟨after, wrote, written.busy, fun i less => ?_, fun addr outside => ?_, fun offset count room => ?_⟩
  · have within : i < (readAt source buffer (4096 * size.toNat)).length := by
      rw [readAt_length]
      omega
    rw [written.memory, writeAt_inside _ _ _ within]
    simp [readAt]
  · rw [Nat.add_mul, Nat.mul_comm size.toNat] at outside
    rw [written.memory, writeAt_outside _ _ _ (by rwa [readAt_length])]
  · exact w25qxxRead_ready ⟨written.busy, rfl⟩ offset count room

/-- Two sectors of a chip of a megabyte, with a chip that takes longer for every operation. -/
theorem w25qxxFlashWrite_writes_two :
    ∃ after, w25qxxFlashWrite ⟨4096, 256⟩ (fun i => BitVec.ofNat 8 i) ⟨fun _ => 0, false, 0, [], 0, id⟩ 254 7 2 =
        some after ∧ after.busy = 0 ∧
      (∀ i < 2 * 4096, after.memory (254 * 4096 + i) = BitVec.ofNat 8 (7 + i)) ∧
      (∀ addr, addr < 254 * 4096 ∨ (254 + 2) * 4096 ≤ addr → after.memory addr = 0) ∧
      ∀ (offset : BitVec 32) (count : ℕ), offset.toNat + count ≤ 2 ^ 24 →
        (after.w25qxxRead offset count).1 = readAt after.memory offset.toNat count :=
  @w25qxxFlashWrite_writes 0x4014 ⟨4096, 256⟩ rfl (fun i => BitVec.ofNat 8 i)
    ⟨fun _ => 0, false, 0, [], 0, id⟩ rfl 254 7 2 (by decide)

/-- A call of `w25qxx_flash_write`. -/
structure SectorWrite where
  source : ℕ → BitVec 8
  pos : BitVec 32
  buffer : ℕ
  size : BitVec 32

def SectorWrite.apply (array : ℕ → BitVec 8) (call : SectorWrite) : ℕ → BitVec 8 :=
  writeAt array (call.pos.toNat * 4096) (readAt call.source call.buffer (4096 * call.size.toNat))

/-- In every run all writes return, and the chip reads as the array that they make. -/
theorem flashWrites_refine {memoryTypeCapacity : BitVec 16} {geometry : Geometry}
    (known : w25qxxGeometry memoryTypeCapacity = some geometry) {chip : Chip} (idle : chip.busy = 0)
    (calls : List SectorWrite)
    (inside : ∀ call ∈ calls, call.pos.toNat + call.size.toNat ≤ geometry.sectorCount.toNat) :
    ∃ after,
      calls.foldlM (fun chip call => w25qxxFlashWrite geometry call.source chip call.pos call.buffer call.size) chip =
        some after ∧
      ∀ (offset : BitVec 32) (count : ℕ), offset.toNat + count ≤ 2 ^ 24 →
        (after.w25qxxRead offset count).1 =
          readAt (calls.foldl SectorWrite.apply chip.memory) offset.toNat count := by
  obtain ⟨sector, few⟩ := w25qxxGeometry_sectors known
  have ready : chip.Ready chip.memory := ⟨idle, rfl⟩
  generalize chip.memory = memory at ready
  induction calls generalizing chip memory with
  | nil => exact ⟨chip, rfl, fun offset count room => w25qxxRead_ready ready offset count room⟩
  | cons call rest ih =>
    obtain ⟨first, others⟩ := List.forall_mem_cons.mp inside
    obtain ⟨next, wrote, written⟩ := @writeSectors_ready call.source chip memory geometry sector call.pos call.size.toNat 0
      call.buffer ready (Nat.le_trans first few)
    obtain ⟨after, ran, reads⟩ := ih written.busy others _ written
    refine ⟨after, ?_, reads⟩
    rw [List.foldlM_cons, w25qxxFlashWrite, wrote]
    exact ran

/-- The second write covers one of the two sectors of the first. -/
theorem flashWrites_refine_twice :
    ∃ after : Chip, [SectorWrite.mk (fun _ => 1) 3 0 2, ⟨fun _ => 2, 4, 0, 1⟩].foldlM
        (fun chip call => w25qxxFlashWrite ⟨4096, 256⟩ call.source chip call.pos call.buffer call.size)
        ⟨fun _ => 0, false, 0, [], 0, id⟩ = some after ∧
      ∀ (offset : BitVec 32) (count : ℕ), offset.toNat + count ≤ 2 ^ 24 → (after.w25qxxRead offset count).1 =
        readAt ([SectorWrite.mk (fun _ => 1) 3 0 2, ⟨fun _ => 2, 4, 0, 1⟩].foldl SectorWrite.apply fun _ => 0)
          offset.toNat count :=
  @flashWrites_refine 0x4014 _ rfl ⟨fun _ => 0, false, 0, [], 0, id⟩ rfl _ (by decide)

end W25qxx
