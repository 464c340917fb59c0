import ShdslBridge.Driver.Transmit
import ShdslBridge.Lib.Run

/-! # Bounds of the transmit buffer

Every call that fills the transmit buffer and every burst that leaves it, in any order, with the stretches
of the buffer that they touch. `Pef24628e_Send_IDC_Msg` checks the length of a message before it adds the four
bytes of the bridge header, and it does not reject a negative length: `memcpy` takes it for a large one.
-/

namespace Pef24628e

open Memory

structure Stretch where
  start : ℕ
  len : ℕ

/-- Every byte of the stretch is in the allocated buffer. -/
def Stretch.InBuffer (stretch : Stretch) : Prop :=
  ∀ i, stretch.start ≤ i → i < stretch.start + stretch.len → i < msgSize

theorem Stretch.inBuffer_of_le {stretch : Stretch} (le : stretch.start + stretch.len ≤ msgSize) : stretch.InBuffer :=
  fun _ _ inside => inside.trans_le le

theorem Stretch.InBuffer.le {stretch : Stretch} (inside : stretch.InBuffer) (some : 0 < stretch.len) :
    stretch.start + stretch.len ≤ msgSize := by
  have last := inside (stretch.start + stretch.len - 1) (by omega) (by omega)
  omega

/-- The start of `Pef24628e_Send_IDC_Msg`, up to the transmission: the length of the frame, and the buffer with
the frame. `memcpy` takes the length as an unsigned one. -/
def prepareIdcMsg (pSrc : ℕ → Byte) (nLength : BitVec 32) (pDev : Dev) : Option (ℕ × Dev) :=
  if nLength = 0 then none
  else if !pDev.bInit then none
  else if nLength.toInt > msgSize then none
  else if pDev.bSendIdcViaSciBridge then
    let pData := writeAt (writeAt pDev.txFifo.pData 4 (readAt pSrc 0 nLength.toNat)) 0 (idcMsgHeader pDev)
    some ((nLength + 4).toNat, { pDev with
      txFifo := { pDev.txFifo with pData }
      transpData := { pDev.transpData with txLastAckOddEven := none } })
  else
    some (nLength.toNat, { pDev with
      txFifo := { pDev.txFifo with pData := writeAt pDev.txFifo.pData 0 (readAt pSrc 0 nLength.toNat) } })

/-- The start of `Pef24628e_Send_RS_Msg` and `Pef24628e_Send_IDC_RS_Msg`. -/
def prepareRamshell (address opcd : Byte) (param : BitVec 32) (pSrc : ℕ → Byte) (nLength : ℕ) (pDev : Dev) :
    Option (ℕ × Dev) :=
  if !pDev.bInit then none
  else if nLength > dlBlkSize then none
  else
    let pData := writeAt pDev.txFifo.pData 8 (rsData pSrc nLength)
    let header := [adrHost, adrDevice pDev.nDevAddress ||| address, 0, opcd] ++ paramBytes param
    some (nLength + 8, { pDev with txFifo := { pDev.txFifo with pData := writeAt pData 0 header } })

/-- The start of `Pef24628e_Send_Aux_Msg`. -/
def prepareAux (reg param : Byte) (pDev : Dev) : Option (ℕ × Dev) :=
  if !pDev.bInit then none
  else
    let header := [adrHost, adrDevice pDev.nDevAddress ||| adrAux, reg, param]
    some (4, { pDev with txFifo := { pDev.txFifo with pData := writeAt pDev.txFifo.pData 0 header } })

inductive TxEvent
  | idcMsg (pSrc : ℕ → Byte) (nLength : BitVec 32)
  | ramshell (address opcd : Byte) (param : BitVec 32) (pSrc : ℕ → Byte) (nLength : ℕ)
  | aux (reg param : Byte)
  /-- The counters are set for the first or the next transmission of the frame. -/
  | attempt
  | sciXprInt
  | mpiTx (mailboxFree : Bool)
  | sendTpAck (odd nak : Bool)
  /-- A transmit underrun or an overflow. -/
  | reset
  /-- The firmware is started, or the device is opened again. -/
  | sendIdcViaSciBridge (value : Bool)

/-- The device, and the length of the frame in the hands of a send function. -/
structure TxRun where
  dev : Dev
  nLength : ℕ

namespace TxRun

def prepared (run : TxRun) : Option (ℕ × Dev) → TxRun
  | none => run
  | some (nLength, dev) => ⟨dev, nLength⟩

/-- One event. The number of bytes to send is kept in 16 bits. -/
def step (run : TxRun) : TxEvent → TxRun
  | .idcMsg pSrc nLength => run.prepared (prepareIdcMsg pSrc nLength run.dev)
  | .ramshell address opcd param pSrc nLength => run.prepared (prepareRamshell address opcd param pSrc nLength run.dev)
  | .aux reg param => run.prepared (prepareAux reg param run.dev)
  | .attempt => { run with dev := beginAttempt (run.nLength % 2 ^ 16) run.dev }
  | .sciXprInt => { run with dev := Pef24628e.sciXprInt run.dev }
  | .mpiTx mailboxFree => { run with dev := Pef24628e.mpiTx mailboxFree run.dev }
  | .sendTpAck odd nak => { run with dev := (Pef24628e.sendTpAck odd nak run.dev).2 }
  | .reset => { run with dev := sciTxReset run.dev }
  | .sendIdcViaSciBridge value => { run with dev := { run.dev with bSendIdcViaSciBridge := value } }

/-- The bytes that `Pef24628e_Sci_XprInt` reads. -/
def xprStretch (tx : TxFifo) : Stretch := ⟨tx.nSent, min tx.nBytes sciFifoSize⟩

def touched (run : TxRun) : TxEvent → List Stretch
  | .idcMsg pSrc nLength =>
    if (prepareIdcMsg pSrc nLength run.dev).isNone then []
    else if run.dev.bSendIdcViaSciBridge then [⟨4, nLength.toNat⟩, ⟨0, 4⟩]
    else [⟨0, nLength.toNat⟩]
  | .ramshell address opcd param pSrc nLength =>
    if (prepareRamshell address opcd param pSrc nLength run.dev).isNone then []
    else [⟨8, 4 * ((nLength + 3) / 4)⟩, ⟨0, 8⟩]
  | .aux reg param => if (prepareAux reg param run.dev).isNone then [] else [⟨0, 4⟩]
  | .sciXprInt => [xprStretch run.dev.txFifo]
  -- the identifiers in the header are kept for the statistics
  | .mpiTx mailboxFree => if run.dev.ucReg ∧ mailboxFree then [⟨0, run.dev.txFifo.nBytes⟩, ⟨0, 4⟩] else []
  -- the acknowledgement is stored, and leaves in one burst
  | .sendTpAck .. => [⟨0, 4⟩, ⟨0, 4⟩]
  | .attempt | .reset | .sendIdcViaSciBridge _ => []

def InBuffer (run : TxRun) (event : TxEvent) : Prop := ∀ stretch ∈ run.touched event, stretch.InBuffer

/-- A message for the controller is rejected, or its length is not negative and its frame is not longer than the
buffer. -/
def Fits (run : TxRun) : TxEvent → Prop
  | .idcMsg pSrc nLength => prepareIdcMsg pSrc nLength run.dev = none ∨
    nLength.toNat + (if run.dev.bSendIdcViaSciBridge then 4 else 0) ≤ msgSize
  | _ => True

/-- What is left to send ends in the buffer. -/
structure Bounded (run : TxRun) : Prop where
  frame : run.nLength ≤ msgSize
  left : run.dev.txFifo.nSent + run.dev.txFifo.nBytes ≤ msgSize

variable {run : TxRun}

theorem bounded_prepared {result : Option (ℕ × Dev)} (bounded : run.Bounded)
    (fits : ∀ nLength dev, result = some (nLength, dev) →
      nLength ≤ msgSize ∧ dev.txFifo.nSent + dev.txFifo.nBytes ≤ msgSize) : (run.prepared result).Bounded := by
  cases result with
  | none => exact bounded
  | some result => exact ⟨(fits _ _ rfl).1, (fits _ _ rfl).2⟩

theorem sciXprInt_left (pDev : Dev) :
    (Pef24628e.sciXprInt pDev).txFifo.nSent + (Pef24628e.sciXprInt pDev).txFifo.nBytes =
    pDev.txFifo.nSent + pDev.txFifo.nBytes := by
  rw [Pef24628e.sciXprInt]
  dsimp only
  split_ifs <;> dsimp only <;> omega

theorem mpiTx_left (mailboxFree : Bool) (pDev : Dev) : (Pef24628e.mpiTx mailboxFree pDev).txFifo.nSent +
    (Pef24628e.mpiTx mailboxFree pDev).txFifo.nBytes ≤ pDev.txFifo.nSent + pDev.txFifo.nBytes := by
  rw [Pef24628e.mpiTx]
  split_ifs <;> first | exact le_rfl | exact Nat.le_add_left _ _

theorem sendTpAck_left (odd nak : Bool) (pDev : Dev) : (Pef24628e.sendTpAck odd nak pDev).2.txFifo.nSent +
    (Pef24628e.sendTpAck odd nak pDev).2.txFifo.nBytes = 4 := by
  rw [Pef24628e.sendTpAck]
  dsimp only
  split_ifs
  · exact sciXprInt_left _
  · exact sciXprInt_left _
  · rfl

theorem Bounded.step {event : TxEvent} (bounded : run.Bounded) (fits : run.Fits event) : (run.step event).Bounded := by
  have left := bounded.left
  cases event with
  | idcMsg pSrc nLength =>
    refine bounded_prepared bounded fun frame dev found => ?_
    have short := fits.resolve_left (by rw [found]; exact Option.some_ne_none _)
    rw [prepareIdcMsg] at found
    rw [msgSize] at short ⊢
    split_ifs at found short with zero uninit long bridge
    · cases found
      refine ⟨?_, left⟩
      rw [BitVec.toNat_add]
      exact (Nat.mod_le _ _).trans short
    · cases found
      exact ⟨short, left⟩
  | ramshell address opcd param pSrc nLength =>
    refine bounded_prepared bounded fun frame dev found => ?_
    rw [prepareRamshell] at found
    split_ifs at found with ready long
    cases found
    rw [dlBlkSize] at long
    exact ⟨by rw [msgSize]; omega, left⟩
  | aux reg param =>
    refine bounded_prepared bounded fun frame dev found => ?_
    rw [prepareAux] at found
    split_ifs at found
    cases found
    exact ⟨by decide, left⟩
  | attempt =>
    have frame := bounded.frame
    refine ⟨frame, ?_⟩
    change 0 + run.nLength % 2 ^ 16 ≤ msgSize
    exact (Nat.zero_add _).trans_le ((Nat.mod_le _ _).trans frame)
  | sciXprInt => exact ⟨bounded.frame, (sciXprInt_left run.dev).trans_le left⟩
  | mpiTx mailboxFree => exact ⟨bounded.frame, (mpiTx_left mailboxFree run.dev).trans left⟩
  | sendTpAck odd nak => exact ⟨bounded.frame, (sendTpAck_left odd nak run.dev).trans_le (by decide)⟩
  | reset => exact ⟨bounded.frame, Nat.zero_le _⟩
  | sendIdcViaSciBridge value => exact ⟨bounded.frame, left⟩

theorem pos_of_prepareIdcMsg {pSrc : ℕ → Byte} {nLength : BitVec 32} {pDev : Dev} {result : ℕ × Dev}
    (found : prepareIdcMsg pSrc nLength pDev = some result) : 0 < nLength.toNat := by
  rw [prepareIdcMsg] at found
  split_ifs at found with zero
  all_goals exact Nat.pos_of_ne_zero fun none => zero (BitVec.eq_of_toNat_eq none)

theorem le_of_prepareRamshell {address opcd : Byte} {param : BitVec 32} {pSrc : ℕ → Byte} {nLength : ℕ} {pDev : Dev}
    {result : ℕ × Dev} (found : prepareRamshell address opcd param pSrc nLength pDev = some result) :
    nLength ≤ dlBlkSize := by
  rw [prepareRamshell] at found
  split_ifs at found with unready long
  exact Nat.le_of_not_lt long

/-- The bytes that an event touches are in the buffer exactly if a message for the controller fits with its header. -/
theorem Bounded.inBuffer_iff {event : TxEvent} (bounded : run.Bounded) : run.InBuffer event ↔ run.Fits event := by
  have left := bounded.left
  have header {len : ℕ} (short : len ≤ msgSize) : Stretch.InBuffer ⟨0, len⟩ :=
    Stretch.inBuffer_of_le ((Nat.zero_add _).trans_le short)
  cases event with
  | idcMsg pSrc nLength =>
    rw [InBuffer, touched, Fits]
    cases found : prepareIdcMsg pSrc nLength run.dev with
    | none => exact iff_of_true nofun (.inl rfl)
    | some result =>
      have some := pos_of_prepareIdcMsg found
      rw [if_neg (by simp)]
      split_ifs with bridge
      · constructor
        · intro inside
          have le := (inside ⟨4, nLength.toNat⟩ (by simp)).le some
          exact .inr ((Nat.add_comm _ _).trans_le le)
        · rintro (none | short)
          · cases none
          · simp only [List.mem_cons, List.not_mem_nil, or_false, forall_eq_or_imp, forall_eq]
            exact ⟨Stretch.inBuffer_of_le ((Nat.add_comm _ _).trans_le short), header (by decide)⟩
      · constructor
        · intro inside
          have le := (inside ⟨0, nLength.toNat⟩ (by simp)).le some
          exact .inr ((Nat.add_comm _ _).trans_le le)
        · rintro (none | short)
          · cases none
          · simp only [List.mem_cons, List.not_mem_nil, or_false, forall_eq]
            exact header short
  | ramshell address opcd param pSrc nLength =>
    refine iff_of_true ?_ trivial
    rw [InBuffer, touched]
    cases found : prepareRamshell address opcd param pSrc nLength run.dev with
    | none => exact nofun
    | some result =>
      have short := le_of_prepareRamshell found
      rw [dlBlkSize] at short
      rw [if_neg (by simp)]
      simp only [List.mem_cons, List.not_mem_nil, or_false, forall_eq_or_imp, forall_eq]
      exact ⟨Stretch.inBuffer_of_le (by rw [msgSize]; dsimp only; omega), header (by decide)⟩
  | aux reg param =>
    refine iff_of_true ?_ trivial
    rw [InBuffer, touched]
    split_ifs
    · exact nofun
    · simpa using header (by decide : 4 ≤ msgSize)
  | sciXprInt =>
    refine iff_of_true ?_ trivial
    have burst : (xprStretch run.dev.txFifo).InBuffer := by
      apply Stretch.inBuffer_of_le
      rw [xprStretch]
      dsimp only
      omega
    simpa [InBuffer, touched] using burst
  | mpiTx mailboxFree =>
    refine iff_of_true ?_ trivial
    rw [InBuffer, touched]
    split_ifs
    · simp only [List.mem_cons, List.not_mem_nil, or_false, forall_eq_or_imp, forall_eq]
      exact ⟨header (by omega), header (by decide)⟩
    · exact nofun
  | sendTpAck odd nak =>
    refine iff_of_true ?_ trivial
    simpa [InBuffer, touched] using header (by decide : 4 ≤ msgSize)
  | attempt | reset | sendIdcViaSciBridge _ => exact iff_of_true nofun trivial

/-- The state behind `Pef24628e_MPI_Init`. -/
def opened (dev : Dev) : TxRun := ⟨dev, 0⟩

/-- From `Pef24628e_MPI_Init` on, all that is stored into the transmit buffer and read from it is in the buffer exactly
if every accepted message for the controller fits with its header. -/
theorem inBuffer_iff_fits {cfg : DevInit} {malloc : Option (ℕ → Byte)} {pDev dev : Dev}
    (init : mpiInit cfg malloc pDev = (true, dev)) (events : List TxEvent) :
    Run.Along step InBuffer (opened dev) events ↔ Run.Along step Fits (opened dev) events := by
  have empty : dev.txFifo.nSent + dev.txFifo.nBytes = 0 := by
    rw [mpiInit] at init
    cases malloc with
    | none => split_ifs at init <;> cases init
    | some pData =>
      split_ifs at init
      · cases init
      · cases init
        rfl
  have start : (opened dev).Bounded := ⟨Nat.zero_le _, by rw [opened, empty]; exact Nat.zero_le _⟩
  exact Run.along_iff_along (fun run event (bounded : run.Bounded) fits => bounded.step fits)
    (fun run event bounded => bounded.inBuffer_iff) start events

/-- The device as `Pef24628e_MPI_Init` leaves it. -/
def openedDev : Dev := (mpiInit ⟨0x60000000, 4⟩ (some fun _ => 0) Dev.zeroed).2

theorem inBuffer_iff_fits_oneMessage :
    Run.Along step InBuffer (opened openedDev) [.idcMsg (fun _ => 0) 16, .attempt, .sciXprInt] ↔
      Run.Along step Fits (opened openedDev) [.idcMsg (fun _ => 0) 16, .attempt, .sciXprInt] :=
  @inBuffer_iff_fits ⟨0x60000000, 4⟩ (some fun _ => 0) Dev.zeroed openedDev rfl _

/-- A message of 132 bytes is accepted over the bridge, and its last byte is stored at index 135. -/
theorem longMessage_not_inBuffer : ¬ Run.Along step InBuffer (opened openedDev) [.idcMsg (fun _ => 0) 132] := by
  rintro ⟨inside, -⟩
  have last := inside ⟨4, 132⟩ (by
    have bridge : (opened openedDev).dev.bSendIdcViaSciBridge = true := rfl
    rw [touched, if_neg nofun, if_pos bridge]
    exact List.mem_cons_self) 135 (by decide) (by decide)
  exact absurd last (by decide)

end TxRun

section SendFunctions

/-! ### The send functions and the steps -/

variable (io : ℕ → Polling) (pDev : Dev)

/-- `Pef24628e_Send_IDC_Msg` prepares its frame and transmits it. -/
theorem sendIdcMsg_eq {pSrc : List Byte} (word : pSrc.length < 2 ^ 31) : sendIdcMsg pSrc io pDev =
    match prepareIdcMsg (fun i => pSrc.getD i 0) (BitVec.ofNat 32 pSrc.length) pDev with
    | none => ⟨[], -1, pDev⟩
    | some (nLength, pDev) =>
      if pDev.activeIf = .mpi then idcMsgLoop nLength io (sendMsgMaxRepNumber + 1) 0 pDev else ⟨[], 0, pDev⟩ := by
  have length : (BitVec.ofNat 32 pSrc.length).toNat = pSrc.length := by
    rw [BitVec.toNat_ofNat]
    exact Nat.mod_eq_of_lt (by omega)
  have signed : (BitVec.ofNat 32 pSrc.length).toInt = pSrc.length := by
    rw [BitVec.toInt_eq_toNat_of_lt (by omega), length]
  have zero : BitVec.ofNat 32 pSrc.length = 0 ↔ pSrc.length = 0 := by
    rw [← BitVec.toNat_inj, length]
    rfl
  have copied : readAt (fun i => pSrc.getD i 0) 0 pSrc.length = pSrc := by
    apply List.ext_getElem (readAt_length _ _ _)
    intro i _ inside
    simp [readAt, inside]
  rw [sendIdcMsg, prepareIdcMsg, length, signed, copied]
  have long : (pSrc.length : ℤ) > (msgSize : ℤ) ↔ pSrc.length > msgSize := Int.ofNat_lt
  have frame : (BitVec.ofNat 32 pSrc.length + 4).toNat = pSrc.length + 4 := by
    rw [BitVec.toNat_add, length]
    exact Nat.mod_eq_of_lt (by change pSrc.length + 4 < _; omega)
  simp only [zero, long, frame]
  split_ifs with empty uninit large bridge mpi mpi
  · rfl
  · rfl
  · rfl
  · exact (if_pos mpi).symm
  · exact (if_neg mpi).symm
  · exact (if_pos mpi).symm
  · exact (if_neg mpi).symm

theorem sendRamshell_eq (address opcd : Byte) (param : BitVec 32) (pSrc : ℕ → Byte) (nLength : ℕ) :
    sendRamshell address opcd param pSrc nLength io pDev =
      match prepareRamshell address opcd param pSrc nLength pDev with
      | none => ([], false, pDev)
      | some (nLength, pDev) => sendPrepared nLength io pDev := by
  rw [sendRamshell, prepareRamshell]
  split_ifs <;> rfl

theorem sendAuxMsg_eq (reg param : Byte) : sendAuxMsg reg param io pDev =
    match prepareAux reg param pDev with
    | none => ([], false, pDev)
    | some (nLength, pDev) => sendPrepared nLength io pDev := by
  rw [sendAuxMsg, prepareAux]
  split_ifs <;> rfl

theorem sciXprInt_reads {pData : ℕ → Byte} (same : ∀ i, (TxRun.xprStretch pDev.txFifo).start ≤ i →
    i < (TxRun.xprStretch pDev.txFifo).start + (TxRun.xprStretch pDev.txFifo).len → pData i = pDev.txFifo.pData i) :
    (sciXprInt { pDev with txFifo := { pDev.txFifo with pData } }).written = (sciXprInt pDev).written := by
  rw [TxRun.xprStretch] at same
  have burst : readAt pData pDev.txFifo.nSent (min pDev.txFifo.nBytes sciFifoSize) =
      readAt pDev.txFifo.pData pDev.txFifo.nSent (min pDev.txFifo.nBytes sciFifoSize) :=
    readAt_congr fun i inside => same _ (Nat.le_add_right _ _) (Nat.add_lt_add_left inside _)
  simp only [sciXprInt, burst_len, burst]
  split_ifs <;> rfl

end SendFunctions

end Pef24628e
