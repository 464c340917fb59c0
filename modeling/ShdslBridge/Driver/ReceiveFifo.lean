import ShdslBridge.Driver.RxRing
import ShdslBridge.Lib.Run

/-! # The receive FIFO as a queue of messages

The device offers messages in its MPI mailbox, the interrupt handler stores them in the ring of 20
receive blocks, and the upper layer polls and reads. `FifoState` adds to the driver state the
mailbox of the device and two logs, the messages accepted and the messages returned. A state is
`Correct` when every call that may come next behaves like a call on a queue.

`FifoInv` describes the ring by the number of stored messages. The full flag is only cleared by the
next arrival, so it can outlive the full ring: a read that empties a ring whose flag is still set
leaves a ring that looks full again. `fifo_correct_iff` states that this is the only failure.
-/

namespace Pef24628e

open Memory Ring Run

/-- A message as the MPI mailbox delivers it: 32-bit words, at least one, and no longer than a
receive block. -/
structure IdcMessage where
  bytes : List Byte
  nonempty : 0 < bytes.length
  words : bytes.length % 4 = 0
  fits : bytes.length ≤ msgSize

/-- The registers while the mailbox holds `egress`: the IDC interrupt is pending as long as there is
a message, the fill level counts its words and the FIFO register delivers its bytes. -/
def mailboxReg : List IdcMessage → MpiReg
  | [] => {}
  | message :: _ =>
    { mpiEint := mpiMpintIntidc
      mpiEfstat := BitVec.ofNat 8 (message.bytes.length / 4)
      mpiEgress := message.bytes }

/-- The driver, the mailbox of the device, and the logs of accepted and returned messages. -/
structure FifoState where
  dev : Dev
  egress : List IdcMessage
  accepted : List (List Byte)
  returned : List (List Byte)

def FifoState.unreturned (s : FifoState) : List (List Byte) := s.accepted.drop s.returned.length

inductive FifoEvent
  /-- The device puts a message into its mailbox. -/
  | present (message : IdcMessage)
  /-- The interrupt handler runs. -/
  | interrupt
  /-- The upper layer reads with a buffer that holds any message. -/
  | get (nLength : ℕ) (sufficient : msgSize ≤ nLength)
  | poll
  /-- `Pef24628e_IDC_Start` switches to the MPI mailbox. -/
  | startFirmware

/-- One run of the interrupt handler. The mailbox loses its first message, and the log of accepted
messages gains it, when the IDC interrupt is taken. -/
def serve (s : FifoState) : FifoState :=
  let dev := intHandler (mailboxReg s.egress) s.dev
  match s.egress with
  | [] => { s with dev }
  | message :: rest =>
    if s.dev.ucReg ∧ mpiMpintIntidc &&& s.dev.mpiEintEn ≠ 0 then
      { s with dev, egress := rest, accepted := s.accepted ++ [message.bytes] }
    else { s with dev }

/-- What `pollCheck` serves before it looks at the FIFO. -/
def pollServe (s : FifoState) : FifoState := if s.dev.irqVector = 0 then serve s else s

def fifoStep (s : FifoState) : FifoEvent → FifoState
  | .present message => { s with egress := s.egress ++ [message] }
  | .interrupt => serve s
  | .get nLength _ =>
    let (result, dev) := getIdcMsg nLength s.dev
    { s with dev, returned := if s.dev.rxFifoHasData then s.returned ++ [result.pDst] else s.returned }
  | .poll => { pollServe s with dev := (pollCheck (mailboxReg s.egress) s.dev).2 }
  | .startFirmware => { s with dev := { s.dev with bSendIdcViaSciBridge := false, bFwDownloaded := true } }

/-- The register base that the bring-up code hands to the driver. -/
def mpiBase : ℕ := 0x60000000

/-- The state after `mpiInit` on a cleared device structure, with an empty mailbox. -/
def fifoInit (sciClock : ℕ) (malloc : ℕ → Byte) : FifoState where
  dev := (mpiInit ⟨mpiBase, sciClock⟩ (some malloc) Dev.zeroed).2
  egress := []
  accepted := []
  returned := []

/-- What a read of the queue `pending` leaves with its caller. -/
def queueReply : List (List Byte) → ReadResult
  | [] => ⟨0, []⟩
  | message :: _ => ⟨message.length, message⟩

/-- Every call that may come next behaves like a call on the queue of unreturned messages. -/
structure Correct (s : FifoState) : Prop where
  order : s.returned <+: s.accepted
  reply : ∀ nLength, msgSize ≤ nLength → (getIdcMsg nLength s.dev).1 = queueReply s.unreturned
  entry : s.dev.rxFifoHasData = true ↔ s.unreturned ≠ []
  poll : (pollCheck (mailboxReg s.egress) s.dev).1 = true ↔ (pollServe s).unreturned ≠ []

/-- A read that takes the last message while the full flag is still set. -/
def DrainsFlagged (s : FifoState) : FifoEvent → Prop
  | .get _ _ => s.dev.bRxFifoFull = true ∧ nextBlk s.dev.pRxFifoRead = s.dev.pRxFifoWrite
  | _ => False

/-- A block as the MPI interrupt leaves it. -/
def MpiBlk (blk : RxFifo) : Prop := blk.bSendIdcViaSciBridge = false ∧ blk.nBytes ≤ msgSize

/-- The ring holds `count` messages. A full ring has its interrupt disabled, and an empty ring has its
full flag cleared; in between the flag may be stale. -/
structure FifoInv (s : FifoState) (count : ℕ) : Prop extends RingInv s.dev count where
  init : s.dev.bInit = true
  mpi : s.dev.activeIf = .mpi
  mapped : s.dev.ucReg = true
  disabled : count = recFifoBlkNum → s.dev.mpiEintEn &&& 1 = 0
  empty : count = 0 → s.dev.bRxFifoFull = false
  stored : ∀ blk ∈ window s.dev.rxFifo s.dev.pRxFifoRead count, MpiBlk blk
  content : s.accepted = s.returned ++ (window s.dev.rxFifo s.dev.pRxFifoRead count).map blkMsg

/-! ### What one call does to the ring -/

theorem efstat_len {len : ℕ} (words : len % 4 = 0) (fits : len ≤ msgSize) :
    4 * (BitVec.ofNat 8 (len / 4) &&& 0x3F).toNat = len := by
  have small : len / 4 < 2 ^ 6 := by
    simp only [msgSize] at fits
    omega
  have mask : (BitVec.ofNat 8 (len / 4) &&& 0x3F).toNat = len / 4 := by
    rw [BitVec.toNat_and, BitVec.toNat_ofNat, Nat.mod_eq_of_lt (by omega)]
    exact (Nat.and_two_pow_sub_one_eq_mod _ 6).trans (Nat.mod_eq_of_lt small)
  rw [mask]
  omega

/-- What the receive interrupt does with a message and an empty block: the message is stored, the
write pointer advances, and a ring that this fills is marked and its interrupt disabled. -/
structure MessageStored (message : IdcMessage) (source target : Dev) : Prop extends
    BlkStored ⟨writeAt source.writeBlk.pData 0 message.bytes, message.bytes.length, false⟩ source target where
  disabled : source.pRxFifoWrite + 1 = source.pRxFifoRead → target.mpiEintEn &&& 1 = 0
  init : target.bInit = source.bInit
  activeIf : target.activeIf = source.activeIf
  mapped : target.ucReg = source.ucReg

theorem mpiRxInt_stored (message : IdcMessage) (rest : List IdcMessage) (pDev : Dev)
    (free : pDev.writeBlk.nBytes = 0) :
    MessageStored message pDev (mpiRxInt (mailboxReg (message :: rest)) pDev) := by
  have len := efstat_len message.words message.fits
  have nonempty : ¬ message.bytes.length = 0 := message.nonempty.ne'
  have fits : ¬ message.bytes.length > msgSize := Nat.not_lt.mpr message.fits
  simp only [mpiRxInt, mailboxReg, len, free, Nat.zero_add, if_neg nonempty, if_neg fits, regRead_all]
  rw [updateStatistics_eq]
  simp only [mpiStoreMsg, Dev.setWriteBlk, nextBlk_eq]
  split_ifs with meet
  · exact ⟨⟨rfl, rfl, rfl, by simp [meet]⟩, fun _ => bfld_clear_self .., rfl, rfl, rfl⟩
  · exact ⟨⟨rfl, rfl, rfl, by simp [meet]⟩, fun same => absurd same meet, rfl, rfl, rfl⟩

theorem idc_only (enable : Byte) : (mpiMpintIntidc &&& enable) &&& mpiMpintIntsci = 0 ∧
    ((mpiMpintIntidc &&& enable) &&& mpiMpintIntidc = 0 ↔ mpiMpintIntidc &&& enable = 0) := by
  revert enable
  decide

theorem idc_disabled {enable : Byte} (disabled : enable &&& 1 = 0) : mpiMpintIntidc &&& enable = 0 := by
  rw [BitVec.and_comm]
  exact disabled

theorem idc_enabled {enable : Byte} (enabled : mpiMpintIntidc &&& enable ≠ 0) : enable &&& 1 ≠ 0 := by
  intro disabled
  exact enabled (idc_disabled disabled)

theorem intHandler_idle (pDev : Dev) : intHandler (mailboxReg []) pDev = pDev := by
  simp [intHandler, mailboxReg]

/-- While the IDC interrupt is disabled the handler leaves the driver alone. -/
theorem intHandler_disabled (message : IdcMessage) (rest : List IdcMessage) (pDev : Dev)
    (disabled : mpiMpintIntidc &&& pDev.mpiEintEn = 0) :
    intHandler (mailboxReg (message :: rest)) pDev = pDev := by
  simp [intHandler, mailboxReg, disabled]

/-- With the IDC interrupt enabled the handler stores the first message of the mailbox. -/
theorem intHandler_stored (message : IdcMessage) (rest : List IdcMessage) (pDev : Dev)
    (mapped : pDev.ucReg = true) (enabled : mpiMpintIntidc &&& pDev.mpiEintEn ≠ 0)
    (free : pDev.writeBlk.nBytes = 0) :
    MessageStored message pDev (intHandler (mailboxReg (message :: rest)) pDev) := by
  have bits := idc_only pDev.mpiEintEn
  have taken : ¬ (mpiMpintIntidc &&& pDev.mpiEintEn) &&& mpiMpintIntidc = 0 := fun none =>
    enabled (bits.2.mp none)
  have stored := mpiRxInt_stored message rest pDev free
  have handler : intHandler (mailboxReg (message :: rest)) pDev =
      regSet .mpiEint (mpiMpintIntidc &&& pDev.mpiEintEn) (mpiRxInt (mailboxReg (message :: rest)) pDev) := by
    simp only [intHandler, mapped, Bool.not_true, Bool.false_eq_true, ↓reduceIte]
    simp only [mailboxReg, if_neg enabled, bits.1, ne_eq, not_true_eq_false, ↓reduceIte, taken,
      not_false_eq_true]
  rw [handler]
  exact { stored with }

theorem fifoInit_inv (sciClock : ℕ) (malloc : ℕ → Byte) : FifoInv (fifoInit sciClock malloc) 0 where
  init := rfl
  mpi := rfl
  mapped := rfl
  bound := Nat.zero_le _
  write := rfl
  flagged := fun impossible => absurd impossible (by decide)
  disabled := fun impossible => absurd impossible (by decide)
  empty := fun _ => rfl
  free := fun _ _ _ => rfl
  stored := by simp
  content := rfl

theorem pollServe_dev (s : FifoState) : (pollServe s).dev =
    if s.dev.irqVector = 0 then intHandler (mailboxReg s.egress) s.dev else s.dev := by
  unfold pollServe
  by_cases polling : s.dev.irqVector = 0
  · rw [if_pos polling, if_pos polling]
    cases mailbox : s.egress with
    | nil => simp only [serve, mailbox]
    | cons message rest =>
      simp only [serve, mailbox]
      split_ifs <;> rfl
  · rw [if_neg polling, if_neg polling]

namespace FifoInv

variable {s : FifoState} {count : ℕ}

/-- The ring has a slot for the next message whenever its interrupt is enabled. -/
theorem space (inv : FifoInv s count) (enabled : mpiMpintIntidc &&& s.dev.mpiEintEn ≠ 0) :
    count < recFifoBlkNum := by
  rcases Nat.lt_or_ge count recFifoBlkNum with less | full
  · exact less
  · exact absurd (inv.disabled (Nat.le_antisymm inv.bound full)) (idc_enabled enabled)

theorem unreturned_eq (inv : FifoInv s count) :
    s.unreturned = (window s.dev.rxFifo s.dev.pRxFifoRead count).map blkMsg := by
  rw [FifoState.unreturned, inv.content, List.drop_left]

theorem unreturned_eq_nil_iff (inv : FifoInv s count) : s.unreturned = [] ↔ count = 0 := by
  rw [inv.unreturned_eq, List.map_eq_nil_iff, ← List.length_eq_zero_iff, window_length]

theorem hasData_iff (inv : FifoInv s count) : s.dev.rxFifoHasData = true ↔ count ≠ 0 := by
  constructor
  · rintro data rfl
    rw [inv.hasData_empty, inv.empty rfl] at data
    exact Bool.false_ne_true data
  · exact inv.hasData_of_pos

theorem stored_step {message : IdcMessage} {dev : Dev} {egress : List IdcMessage} (inv : FifoInv s count)
    (space : count < recFifoBlkNum) (stored : MessageStored message s.dev dev) :
    FifoInv { s with dev, egress, accepted := s.accepted ++ [message.bytes] } (count + 1) := by
  have ring : window dev.rxFifo dev.pRxFifoRead (count + 1) =
      window s.dev.rxFifo s.dev.pRxFifoRead count ++
        [⟨writeAt s.dev.writeBlk.pData 0 message.bytes, message.bytes.length, false⟩] := by
    rw [stored.rxFifo, stored.read, inv.write]
    exact window_push _ _ space _
  refine ⟨inv.store space stored.toBlkStored, ?_, ?_, ?_, ?_, ?_, ?_, ?_⟩
  · exact stored.init.trans inv.init
  · exact stored.activeIf.trans inv.mpi
  · exact stored.mapped.trans inv.mapped
  · intro whole
    exact stored.disabled ((inv.meet_iff space).mpr whole)
  · intro none
    exact absurd none (Nat.succ_ne_zero count)
  · intro blk member
    simp only [ring, List.mem_append, List.mem_singleton] at member
    rcases member with old | rfl
    · exact inv.stored blk old
    · exact ⟨rfl, message.fits⟩
  · simp only [ring, inv.content, List.map_append, List.map_singleton, List.append_assoc]
    simp only [blkMsg, readAt_writeAt]

/-- A run of the interrupt handler keeps the ring, with one message more if the interrupt is taken. -/
theorem serve (inv : FifoInv s count) : ∃ next, FifoInv (serve s) next := by
  cases mailbox : s.egress with
  | nil =>
    refine ⟨count, ?_⟩
    simp only [Pef24628e.serve, mailbox, intHandler_idle]
    exact { inv with }
  | cons message rest =>
    simp only [Pef24628e.serve, mailbox, inv.mapped, true_and]
    split_ifs with enabled
    · have space := inv.space enabled
      have stored := intHandler_stored message rest s.dev inv.mapped enabled (inv.writeBlk_empty space)
      exact ⟨count + 1, inv.stored_step space stored⟩
    · refine ⟨count, ?_⟩
      rw [intHandler_disabled message rest s.dev (not_not.mp enabled)]
      exact { inv with }

theorem pollServe (inv : FifoInv s count) : ∃ next, FifoInv (pollServe s) next := by
  rw [Pef24628e.pollServe]
  split_ifs
  · exact inv.serve
  · exact ⟨count, inv⟩

/-- Polling serves the interrupts and then answers from the cursors and the flag. -/
theorem pollCheck_eq (inv : FifoInv s count) : pollCheck (mailboxReg s.egress) s.dev =
    if (Pef24628e.pollServe s).dev.rxFifoHasData then (true, (Pef24628e.pollServe s).dev)
    else (false, { (Pef24628e.pollServe s).dev with bNeedWakeUp := true }) := by
  rw [pollServe_dev]
  simp only [pollCheck, inv.init, inv.mpi, Bool.not_true, Bool.false_eq_true, ↓reduceIte]

theorem get_empty (inv : FifoInv s 0) (nLength : ℕ) :
    getIdcMsg nLength s.dev = (⟨0, []⟩, reenableRx s.dev) := by
  have none : s.dev.rxFifoHasData = false := by
    simpa using inv.hasData_iff.not.mpr (by simp)
  simp [getIdcMsg, inv.init, none]

theorem get_head (inv : FifoInv s (count + 1)) {nLength : ℕ} (sufficient : msgSize ≤ nLength) :
    getIdcMsg nLength s.dev =
      (⟨(blkMsg s.dev.readBlk).length, blkMsg s.dev.readBlk⟩, reenableRx (releaseBlk s.dev)) := by
  have hasData : s.dev.rxFifoHasData = true := inv.hasData_iff.mpr (Nat.succ_ne_zero count)
  have head : s.dev.readBlk ∈ window s.dev.rxFifo s.dev.pRxFifoRead (count + 1) := by
    rw [window_pop]
    exact List.mem_cons_self
  obtain ⟨unbridged, fits⟩ := inv.stored _ head
  have uncut : ¬ s.dev.readBlk.nBytes > nLength := Nat.not_lt.mpr (fits.trans sufficient)
  simp [getIdcMsg, inv.init, hasData, readBlkData, unbridged, if_neg uncut, blkMsg]

/-- Releasing the oldest block drops its message, provided that a ring emptied by it does not keep
its full flag. -/
theorem release_head (inv : FifoInv s (count + 1)) (kept : count = 0 → s.dev.bRxFifoFull = false) :
    FifoInv { s with dev := releaseBlk s.dev, returned := s.returned ++ [blkMsg s.dev.readBlk] } count := by
  have ring : window (releaseBlk s.dev).rxFifo (releaseBlk s.dev).pRxFifoRead count =
      window s.dev.rxFifo (s.dev.pRxFifoRead + 1) count := by
    simp only [releaseBlk, nextBlk_eq]
    exact window_update_behind _ _ inv.bound _
  have split := window_pop s.dev.rxFifo s.dev.pRxFifoRead count
  refine ⟨inv.release, inv.init, inv.mpi, inv.mapped, ?_, kept, ?_, ?_⟩
  · intro whole
    exact absurd inv.bound (by omega)
  · intro blk member
    rw [ring] at member
    exact inv.stored blk (by simp [split, member])
  · rw [ring, inv.content, split, List.map_cons, List.append_assoc, List.singleton_append]
    rfl

/-- Enabling the receive interrupts again keeps the ring, once it is not full. -/
theorem reenable {dev : Dev} {returned : List (List Byte)}
    (inv : FifoInv { s with dev, returned } count) (space : count < recFifoBlkNum) :
    FifoInv { s with dev := reenableRx dev, returned } count := by
  rw [reenableRx_eq]
  exact { inv with disabled := fun whole => absurd whole space.ne }

/-- Every step keeps the ring, except a read that empties a ring with a stale full flag. -/
theorem step (inv : FifoInv s count) (event : FifoEvent) (healthy : ¬ DrainsFlagged s event) :
    ∃ next, FifoInv (fifoStep s event) next := by
  cases event with
  | present message => exact ⟨count, { inv with }⟩
  | interrupt => exact inv.serve
  | startFirmware => exact ⟨count, { inv with }⟩
  | poll =>
    obtain ⟨next, served⟩ := inv.pollServe
    refine ⟨next, ?_⟩
    simp only [fifoStep, inv.pollCheck_eq]
    split_ifs
    · exact served
    · exact { served with }
  | get nLength sufficient =>
    cases count with
    | zero =>
      have none : s.dev.rxFifoHasData = false := by
        simpa using inv.hasData_iff.not.mpr (by simp)
      simp only [fifoStep, inv.get_empty, none, Bool.false_eq_true, ↓reduceIte]
      exact ⟨0, inv.reenable (by decide)⟩
    | succ count =>
      have hasData : s.dev.rxFifoHasData = true := inv.hasData_iff.mpr (Nat.succ_ne_zero count)
      have kept : count = 0 → s.dev.bRxFifoFull = false := by
        rintro rfl
        have last : nextBlk s.dev.pRxFifoRead = s.dev.pRxFifoWrite := by
          rw [nextBlk_eq, inv.write, slot_succ, slot_zero]
        simpa [DrainsFlagged, last] using healthy
      simp only [fifoStep, inv.get_head sufficient, hasData, ↓reduceIte]
      exact ⟨count, (inv.release_head kept).reenable inv.bound⟩

/-- In a state with the invariant every call behaves like a call on the queue. -/
theorem correct (inv : FifoInv s count) : Correct s where
  order := ⟨_, inv.content.symm⟩
  reply := by
    intro nLength sufficient
    rw [inv.unreturned_eq]
    cases count with
    | zero => rw [inv.get_empty]; rfl
    | succ count =>
      rw [inv.get_head sufficient, window_pop]
      rfl
  entry := by rw [inv.hasData_iff, ne_eq, ne_eq, inv.unreturned_eq_nil_iff]
  poll := by
    obtain ⟨next, served⟩ := inv.pollServe
    rw [ne_eq, served.unreturned_eq_nil_iff, ← ne_eq, ← served.hasData_iff]
    rw [inv.pollCheck_eq]
    split_ifs with pending <;> simp [pending]

/-- A read that empties a ring with a stale full flag leaves a ring that still offers data. -/
theorem breaks (inv : FifoInv s count) (event : FifoEvent) (drains : DrainsFlagged s event) :
    ¬ Correct (fifoStep s event) := by
  cases event with
  | get nLength sufficient =>
    obtain ⟨flagged, last⟩ := drains
    intro correct
    have one : count = 1 := by
      have next : nextBlk s.dev.pRxFifoRead = slot s.dev.pRxFifoRead 1 := by
        rw [nextBlk_eq, slot_succ, slot_zero]
      rw [next, inv.write] at last
      rcases Nat.lt_or_ge count recFifoBlkNum with less | whole
      · exact (slot_injective _ (by decide) less last).symm
      · have meet : slot s.dev.pRxFifoRead 1 = s.dev.pRxFifoRead := by
          rw [last, Nat.le_antisymm inv.bound whole, slot_size]
        exact absurd ((slot_eq_self_iff _ (by decide)).mp meet) (by decide)
    subst one
    have hasData : s.dev.rxFifoHasData = true := inv.hasData_iff.mpr (by decide)
    have data : (fifoStep s (.get nLength sufficient)).dev.rxFifoHasData = true := by
      have full : (reenableRx (releaseBlk s.dev)).bRxFifoFull = true := by
        rw [reenableRx_eq]
        exact flagged
      simp [fifoStep, inv.get_head sufficient, Dev.rxFifoHasData, full]
    have none : (fifoStep s (.get nLength sufficient)).unreturned = [] := by
      simp [fifoStep, inv.get_head sufficient, hasData, FifoState.unreturned, inv.content, window_pop]
    exact correct.entry.mp data none
  | _ => exact drains.elim

end FifoInv

/-- In a run from the initialised driver every call behaves like a call on a queue exactly when no
read takes the last message while the full flag is still set. -/
theorem fifo_correct_iff (sciClock : ℕ) (malloc : ℕ → Byte) (events : List FifoEvent) :
    Always fifoStep Correct (fifoInit sciClock malloc) events ↔
      Along fifoStep (fun s event => ¬ DrainsFlagged s event) (fifoInit sciClock malloc) events := by
  refine @always_iff_along _ _ _ (fun s => ∃ count, FifoInv s count) _ _ ?_ ?_ ?_ _ ⟨0, fifoInit_inv ..⟩ events
  · rintro s event ⟨count, inv⟩ healthy
    exact inv.step event healthy
  · rintro s ⟨count, inv⟩
    exact inv.correct
  · rintro s event ⟨count, inv⟩ drains
    exact inv.breaks event (not_not.mp drains)

def pingMessage : IdcMessage := ⟨[0x40, 0x34, 0xFF, 0xFF], by decide, by decide, by decide⟩

def fillAndDrain : List FifoEvent :=
  .startFirmware :: (List.replicate 20 [.present pingMessage, .interrupt]).flatten ++
    List.replicate 20 (.get msgSize le_rfl)

/-- Behind the drained ring a poll still announces a message, and a read takes a block without one. -/
theorem fillAndDrain_not_correct : ¬ Always fifoStep Correct (fifoInit 4 fun _ => 0) fillAndDrain := by
  intro always
  have last := always.last
  have data : (exec fifoStep (fifoInit 4 fun _ => 0) fillAndDrain).dev.rxFifoHasData = true := by
    decide +kernel
  have none : (exec fifoStep (fifoInit 4 fun _ => 0) fillAndDrain).unreturned = [] := by
    decide +kernel
  exact last.entry.mp data none

end Pef24628e
