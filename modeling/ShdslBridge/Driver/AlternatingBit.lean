import ShdslBridge.Driver.Reassembly
import ShdslBridge.Lib.Run

/-! # The alternating bit protocol on the SCI bridge

The device sends its messages in transport frames with an odd/even bit. It repeats a frame with the
same bit until the driver's transport acknowledgement arrives, and flips the bit for the next one;
the channel may lose acknowledgements. `AbState` puts the driver, the sending side of the device and
the logs of sent and delivered messages together.

The driver does not use the bit of a received frame: every transport frame is delivered.
`delivered_eq_sent_iff` states the consequence: a run delivers what was sent exactly when the device
never has to repeat a frame.
-/

namespace Pef24628e

open Run

/-- A message of the device, without the odd/even bit: its address bytes, the second transport byte
and the payload. The frame is long enough to be a message and fits a receive block. -/
structure DeviceMsg where
  source : Byte
  host : Byte
  code : Byte
  payload : List Byte
  fromIdc : source &&& 0x0F = adrIdcCtrlr
  toHost : host = adrHost ∨ host = 0xFF
  long : 4 ≤ payload.length
  fits : payload.length + 5 < msgSize

def DeviceMsg.frame (message : DeviceMsg) (odd : Bool) : List Byte :=
  [message.source, message.host, 0x08 ||| oddBit odd, message.code] ++ message.payload

def resetFrame : List Byte := [adrIdcCtrlr, adrHost, 0x06, 0]

/-- The driver, the sending side of the device, and the logs of sent and delivered messages. A
message is pending from its first transmission until it is acknowledged. -/
structure AbState where
  dev : Dev
  odd : Bool
  pending : Option DeviceMsg
  sent : List DeviceMsg
  delivered : List DeviceMsg

inductive AbEvent
  /-- The device transmits: the pending message again, or else the next one. -/
  | transmit (next : DeviceMsg) (ackLost : Bool)
  /-- The device resets the transport protocol, between two messages. -/
  | reset
  /-- The upper layer reads a message. -/
  | read (nLength : ℕ)

/-- The receive interrupts of the SCI bridge are enabled. Otherwise a frame waits in the hardware. -/
def Listening (pDev : Dev) : Prop :=
  pDev.sciInten &&& (sciInterruptRpf ||| sciInterruptRme) = sciInterruptRpf ||| sciInterruptRme

instance (pDev : Dev) : Decidable (Listening pDev) := inferInstanceAs (Decidable (_ = _))

/-- The device transmits `message`. It is delivered when the driver keeps it in its receive FIFO, and
acknowledged when the driver answers with a positive acknowledgement of the same bit that is not
lost. -/
def abTransmit (message : DeviceMsg) (ackLost : Bool) (s : AbState) : AbState :=
  let dev := receiveFrame (message.frame s.odd) s.dev
  let answer := (ingress dev.written).drop (ingress s.dev.written).length
  let acked := !ackLost && answer == tpAckFrame s.dev.nDevAddress s.odd false
  { dev
    odd := if acked then !s.odd else s.odd
    pending := if acked then none else some message
    sent := if s.pending.isSome then s.sent else s.sent ++ [message]
    delivered := if dev.pRxFifoWrite ≠ s.dev.pRxFifoWrite then s.delivered ++ [message] else s.delivered }

def abStep (s : AbState) : AbEvent → AbState
  | .transmit next ackLost =>
    if Listening s.dev then abTransmit (s.pending.getD next) ackLost s else s
  | .reset =>
    if Listening s.dev ∧ s.pending = none then
      { s with dev := receiveFrame resetFrame s.dev, odd := false }
    else s
  | .read nLength => { s with dev := (getIdcMsg nLength s.dev).2 }

/-- The state after `mpiInit`, before the device has sent anything. -/
def abInit (regOffset sciClock : ℕ) (malloc : ℕ → Byte) : AbState where
  dev := (mpiInit ⟨regOffset, sciClock⟩ (some malloc) Dev.zeroed).2
  odd := false
  pending := none
  sent := []
  delivered := []

/-- The device repeats a message, because its acknowledgement was lost. -/
def Retransmits (s : AbState) : AbEvent → Prop
  | .transmit _ _ => Listening s.dev ∧ s.pending.isSome
  | _ => False

/-- While the driver listens its ring has space. -/
structure AbInv (s : AbState) (count : ℕ) : Prop extends RingInv s.dev count where
  mpi : s.dev.activeIf = .mpi
  deaf : count = recFifoBlkNum → s.dev.sciInten &&& (sciInterruptRpf ||| sciInterruptRme) = 0

/-! ### What the driver does with a frame of the device -/

theorem tpHeader_message (code : Byte) (odd : Bool) :
    tpGetHeader (0x08 ||| oddBit odd) (code &&& ~~~0x0F) = tpAckMsg ∧ oddOf (0x08 ||| oddBit odd) = odd := by
  have low : (code &&& ~~~0x0F) &&& 1 = 0 := by
    revert code
    decide
  simp only [tpGetHeader, low]
  cases odd <;> decide

/-- The frame analysis of a message: it is acknowledged with the bit of its frame, and delivered
whatever that bit is. -/
theorem sciProcessFrame_message (message : DeviceMsg) (odd : Bool) {pDev : Dev}
    (frame : blkMsg pDev.writeBlk = message.frame odd) :
    sciProcessFrame pDev = sendTpAck odd false pDev := by
  have byte (i : ℕ) (inside : i < 4) : pDev.writeBlk.pData i = (message.frame odd).get ⟨i, by
      simp only [DeviceMsg.frame, List.length_append, List.length_cons, List.length_nil]; omega⟩ :=
    blkMsg_getElem frame _
  have size : ¬ pDev.writeBlk.nBytes < 8 := by
    have total := congrArg List.length frame
    have long := message.long
    simp only [blkMsg, Memory.readAt_length, DeviceMsg.frame, List.length_append, List.length_cons,
      List.length_nil] at total
    omega
  have source : pDev.writeBlk.pData 0 = message.source := byte 0 (by decide)
  have host : pDev.writeBlk.pData 1 = message.host := byte 1 (by decide)
  have header : pDev.writeBlk.pData 2 = 0x08 ||| oddBit odd := byte 2 (by decide)
  have code : pDev.writeBlk.pData 3 = message.code := byte 3 (by decide)
  have accepted : ¬ (message.host ≠ adrHost ∧ message.host ≠ 0xFF) := by
    rcases message.toHost with same | same <;> simp [same]
  obtain ⟨isMessage, bit⟩ := tpHeader_message message.code odd
  simp only [sciProcessFrame, source, host, message.fromIdc, if_neg accepted]
  simp only [processTp, header, code, isMessage, bit, true_or, if_true, if_neg size]
  rfl

/-- Receiving a message frame: the message is stored in the FIFO, the interrupts are disabled when
this fills the ring, and the acknowledgement with the bit of the frame goes to the device. -/
structure FrameDelivered (odd : Bool) (source target : Dev) : Prop where
  stored : ∃ blk, BlkStored blk source target
  activeIf : target.activeIf = source.activeIf
  sciInten : target.sciInten = if source.pRxFifoWrite + 1 = source.pRxFifoRead
    then bfld source.sciInten (sciInterruptRpf ||| sciInterruptRme) 0 else source.sciInten
  answer : ingress target.written = ingress source.written ++ tpAckFrame source.nDevAddress odd false

theorem DeviceMsg.frame_length (message : DeviceMsg) (odd : Bool) :
    (message.frame odd).length = message.payload.length + 4 := by
  simp only [DeviceMsg.frame, List.length_append, List.length_cons, List.length_nil]
  omega

theorem receiveFrame_message (message : DeviceMsg) (odd : Bool) {pDev : Dev} (mpi : pDev.activeIf = .mpi)
    (empty : pDev.writeBlk.nBytes = 0) :
    FrameDelivered odd pDev (receiveFrame (message.frame odd) pDev) := by
  have length := message.frame_length odd
  have fits := message.fits
  obtain ⟨target, collected, received⟩ := receiveFrame_collected (message.frame odd) pDev empty
    (by omega) (by omega)
  have targetMpi : target.activeIf = .mpi := by
    obtain ⟨_, _, _, rfl⟩ := collected.same
    exact mpi
  have analysed := sciProcessFrame_message message odd collected.bytes
  rw [sendTpAck_eq odd false targetMpi] at analysed
  have ends : sciFrameEnd target = (true, sciStoreFrame (sciProcessFrame target).2) := by
    simp only [sciFrameEnd, analysed, if_true]
  have stored := (sciStoreFrame_stored (sciProcessFrame target).2).finish true
  rw [received, ends]
  have log := stored.silent
  rw [analysed] at stored log ⊢
  have read : target.pRxFifoRead = pDev.pRxFifoRead := by
    obtain ⟨_, _, _, rfl⟩ := collected.same
    rfl
  have inten : target.sciInten = pDev.sciInten := by
    obtain ⟨_, _, _, rfl⟩ := collected.same
    rfl
  have address : target.nDevAddress = pDev.nDevAddress := by
    obtain ⟨_, _, _, rfl⟩ := collected.same
    rfl
  constructor
  · refine ⟨target.writeBlk, stored.rxFifo.trans collected.rxFifo, ?_, stored.read.trans read, ?_⟩
    · rw [stored.write, ← collected.write]
    · rw [stored.full, ← collected.write, ← read]
  · rw [stored.activeIf, mpi]
    exact targetMpi
  · rw [stored.sciInten, ← collected.write, ← read, ← inten]
  · rw [log, ← collected.silent, ← address]
    simp [ingress, List.filter_map, Function.comp_def]

/-- Receiving the reset frame changes neither the ring nor the interrupt enable register. -/
theorem receiveFrame_reset {pDev : Dev} (empty : pDev.writeBlk.nBytes = 0) :
    ∃ blk target, receiveFrame resetFrame pDev = target ∧ blk.nBytes = 0 ∧
      target.rxFifo = (pDev.setWriteBlk blk).rxFifo ∧ target.pRxFifoWrite = pDev.pRxFifoWrite ∧
      target.pRxFifoRead = pDev.pRxFifoRead ∧ target.bRxFifoFull = pDev.bRxFifoFull ∧
      target.activeIf = pDev.activeIf ∧ target.sciInten = pDev.sciInten := by
  obtain ⟨target, collected, received⟩ := receiveFrame_collected resetFrame pDev empty (by decide) (by decide)
  have byte (i : ℕ) (inside : i < 4) : target.writeBlk.pData i = resetFrame[i] :=
    blkMsg_getElem collected.bytes inside
  have analysed : sciProcessFrame target = (false, { target with
      transpData := { target.transpData with txOddEven := false, rxOddEven := none } }) := by
    simp only [sciProcessFrame, byte 0 (by decide), byte 1 (by decide)]
    simp only [processTp, byte 2 (by decide), byte 3 (by decide)]
    rfl
  obtain ⟨written, bNeedWakeUp, finish, -⟩ := sciRmeFinish_eq (sciFrameEnd target).1 (sciFrameEnd target).2
  refine ⟨{ target.writeBlk with nBytes := 0 }, _, received.trans finish, rfl, ?_⟩
  simp only [sciFrameEnd, analysed, Bool.false_eq_true, if_false]
  obtain ⟨_, _, _, rfl⟩ := collected.same
  simp [Dev.setWriteBlk, Dev.writeBlk]

namespace AbInv

variable {s : AbState} {count : ℕ}

theorem space (inv : AbInv s count) (listening : Listening s.dev) : count < recFifoBlkNum := by
  rcases Nat.lt_or_ge count recFifoBlkNum with less | full
  · exact less
  · have deaf := inv.deaf (Nat.le_antisymm inv.bound full)
    rw [listening] at deaf
    exact absurd deaf (by decide)

/-- A transmission stores one more message and delivers it, whatever was sent before. -/
theorem transmit (inv : AbInv s count) (listening : Listening s.dev) (message : DeviceMsg) (ackLost : Bool) :
    AbInv (abTransmit message ackLost s) (count + 1) ∧
      (abTransmit message ackLost s).delivered = s.delivered ++ [message] := by
  have space := inv.space listening
  have received := receiveFrame_message message s.odd inv.mpi (inv.writeBlk_empty space)
  obtain ⟨blk, stored⟩ := received.stored
  refine ⟨⟨inv.store space stored, received.activeIf.trans inv.mpi, ?_⟩, ?_⟩
  · intro whole
    simp only [abTransmit]
    rw [received.sciInten, if_pos ((inv.meet_iff space).mpr whole)]
    exact bfld_clear_self ..
  · have moved : s.dev.pRxFifoWrite + 1 ≠ s.dev.pRxFifoWrite := by
      rw [← nextBlk_eq]
      exact nextBlk_ne _
    simp only [abTransmit, stored.write, if_pos moved]

theorem reset (inv : AbInv s count) (listening : Listening s.dev) :
    AbInv { s with dev := receiveFrame resetFrame s.dev, odd := false } count := by
  have space := inv.space listening
  obtain ⟨blk, target, received, empty, rxFifo, write, read, full, activeIf, sciInten⟩ :=
    receiveFrame_reset (inv.writeBlk_empty space)
  have ring : RingInv (s.dev.setWriteBlk blk) count := inv.discard empty
  rw [received]
  refine ⟨ring.congr rxFifo write read full, activeIf.trans inv.mpi, ?_⟩
  intro whole
  exact absurd whole space.ne

/-- A read leaves a ring with space, and takes no part in the protocol. -/
theorem read (inv : AbInv s count) (nLength : ℕ) :
    ∃ next, AbInv { s with dev := (getIdcMsg nLength s.dev).2 } next := by
  have enabled {pDev : Dev} {next : ℕ} (ring : RingInv pDev next) (mpi : pDev.activeIf = .mpi)
      (space : next < recFifoBlkNum) : AbInv { s with dev := reenableRx pDev } next := by
    rw [reenableRx_eq]
    exact ⟨ring.congr rfl rfl rfl rfl, mpi, fun whole => absurd whole space.ne⟩
  unfold getIdcMsg
  split_ifs with uninit data
  · exact ⟨count, { inv with }⟩
  · cases count with
    | zero => exact ⟨_, enabled inv.release_empty inv.mpi (by decide)⟩
    | succ count => exact ⟨_, enabled inv.release inv.mpi inv.bound⟩
  · have none : count = 0 := by
      by_contra pos
      exact data (inv.hasData_of_pos pos)
    subst none
    exact ⟨0, enabled inv.toRingInv inv.mpi (by decide)⟩

end AbInv

theorem abInit_inv (regOffset sciClock : ℕ) (malloc : ℕ → Byte) : AbInv (abInit regOffset sciClock malloc) 0 := by
  have notFull : ¬ 0 = recFifoBlkNum := by decide
  unfold abInit mpiInit
  split_ifs
  · exact ⟨⟨Nat.zero_le _, rfl, (absurd · notFull), fun _ _ _ => rfl⟩, rfl, (absurd · notFull)⟩
  · exact ⟨⟨Nat.zero_le _, rfl, (absurd · notFull), fun _ _ _ => rfl⟩, rfl, (absurd · notFull)⟩

/-- Every step keeps the ring. A step delivers what it sends, except a retransmission, which
delivers and sends nothing new. -/
theorem abStep_delivered {s : AbState} {count : ℕ} (inv : AbInv s count) (event : AbEvent) :
    (∃ next, AbInv (abStep s event) next) ∧
      ((¬ Retransmits s event ∧ ∃ new, (abStep s event).sent = s.sent ++ new ∧
          (abStep s event).delivered = s.delivered ++ new) ∨
        (Retransmits s event ∧ (abStep s event).sent = s.sent ∧
          ∃ message, (abStep s event).delivered = s.delivered ++ [message])) := by
  cases event with
  | transmit next ackLost =>
    by_cases listening : Listening s.dev
    · obtain ⟨kept, delivered⟩ := inv.transmit listening (s.pending.getD next) ackLost
      simp only [abStep, if_pos listening, delivered]
      refine ⟨⟨_, kept⟩, ?_⟩
      by_cases pending : s.pending.isSome
      · right
        exact ⟨⟨listening, pending⟩, by simp [abTransmit, pending], _, rfl⟩
      · left
        exact ⟨fun again => pending again.2, _, by simp [abTransmit, pending], rfl⟩
    · simp only [abStep, if_neg listening]
      exact ⟨⟨_, inv⟩, .inl ⟨fun again => listening again.1, [], by simp⟩⟩
  | reset =>
    simp only [abStep]
    split_ifs with idle
    · exact ⟨⟨_, inv.reset idle.1⟩, .inl ⟨id, [], by simp⟩⟩
    · exact ⟨⟨_, inv⟩, .inl ⟨id, [], by simp⟩⟩
  | read nLength => exact ⟨inv.read nLength, .inl ⟨id, [], by simp [abStep]⟩⟩

/-- A run delivers exactly the messages that the device sent, each once and in order, exactly when
the device never retransmits. -/
theorem delivered_eq_sent_iff (regOffset sciClock : ℕ) (malloc : ℕ → Byte) (events : List AbEvent) :
    Always abStep (fun s => s.delivered = s.sent) (abInit regOffset sciClock malloc) events ↔
      Along abStep (fun s event => ¬ Retransmits s event) (abInit regOffset sciClock malloc) events := by
  refine @always_iff_along _ _ _ (fun s => (∃ count, AbInv s count) ∧ s.delivered = s.sent) _ _ ?_ ?_ ?_ _
    ⟨⟨0, abInit_inv ..⟩, rfl⟩ events
  · rintro s event ⟨⟨count, inv⟩, same⟩ first
    obtain ⟨kept, ⟨-, new, sent, delivered⟩ | ⟨again, -⟩⟩ := abStep_delivered inv event
    · exact ⟨kept, by rw [sent, delivered, same]⟩
    · exact absurd again first
  · rintro s ⟨-, same⟩
    exact same
  · rintro s event ⟨⟨count, inv⟩, same⟩ again equal
    obtain ⟨-, ⟨first, -⟩ | ⟨-, sent, message, delivered⟩⟩ := abStep_delivered inv event
    · exact again first
    · rw [sent, delivered, same] at equal
      simpa using congrArg List.length equal

/-- A message of eight bytes with its transport header. -/
def pingDeviceMsg : DeviceMsg :=
  ⟨0xF1, adrHost, 0, [0x40, 0x34, 0xFF, 0xFF], by decide, .inl rfl, by decide, by decide⟩

/-- The device sends a message, its acknowledgement is lost, and it sends the message again. -/
def lostAck : List AbEvent := [.transmit pingDeviceMsg true, .transmit pingDeviceMsg false]

/-- The repeated message is delivered twice. -/
theorem lostAck_not_delivered_once :
    ¬ Always abStep (fun s => s.delivered = s.sent) (abInit 0x60000000 4 fun _ => 0) lostAck := by
  intro always
  have last := always.last
  have delivered : (exec abStep (abInit 0x60000000 4 fun _ => 0) lostAck).delivered.length = 2 := by
    decide +kernel
  have sent : (exec abStep (abInit 0x60000000 4 fun _ => 0) lostAck).sent.length = 1 := by
    decide +kernel
  rw [last, sent] at delivered
  exact absurd delivered (by decide)

end Pef24628e
