import ShdslBridge.Driver.Mpi

/-! # Transmitting a frame in polling mode

`sciTxPolling` writes the frame in the transmit buffer to the device and then runs the interrupt
handler until an acknowledgement arrives. The four send functions prepare the buffer and repeat the
transmission while it fails. What the hardware shows during one transmission is a `Polling` value.

In front of its results each send function returns the list of its transmission attempts, each with
the driver state and the hardware behaviour it started from.
-/

namespace Pef24628e

open Memory

/-- What the hardware shows during one transmission: after each burst whether the transmit pool
becomes ready in time, and the registers of each round of the wait for the acknowledgement. Rounds
behind the end of the list find no interrupt pending. On the MPI mailbox only the time at which the
device has taken the last message matters. -/
structure Polling where
  xprReady : ℕ → Bool
  rounds : List MpiReg
  mailboxFree : Bool

def txPollingRounds : ℕ := 5000000

/-- The send loop of `Pef24628e_Sci_Tx_Polling`: one burst after the other while the transmit pool
becomes ready. The fuel is the number of bursts left. -/
def sendBursts (xprReady : ℕ → Bool) : ℕ → ℕ → Dev → Bool × Dev
  | 0, _, pDev => (true, pDev)
  | fuel + 1, burst, pDev =>
    let pDev := regSet .sciInt sciInterruptXpr (sciXprInt pDev)
    if !xprReady burst then (false, pDev)
    else if pDev.txFifo.nBytes ≠ 0 then sendBursts xprReady fuel (burst + 1) pDev
    else (true, pDev)

/-- The wait loop of `Pef24628e_Sci_Tx_Polling`: until an acknowledgement or a transmit underrun. -/
def awaitAck : List MpiReg → Dev → Dev
  | [], pDev => pDev
  | reg :: rounds, pDev =>
    if pDev.bTxAckReceived then pDev
    else
      let pDev := intHandler reg pDev
      if pDev.uStatistics &&& statXdu ≠ 0 then { pDev with uStatistics := pDev.uStatistics &&& ~~~statXdu }
      else awaitAck rounds pDev

/-- The state in which `Pef24628e_Sci_Tx_Polling` starts to send. -/
def txPollingStart (pDev : Dev) : Dev :=
  { pDev with bTxAckReceived := false, uStatistics := pDev.uStatistics &&& ~~~statXdu }

/-- Every burst takes at least one byte, so this many bursts empty the transmit buffer. -/
def burstFuel (pDev : Dev) : ℕ := pDev.txFifo.nBytes + 1

/-- `Pef24628e_Sci_Tx_Polling`. -/
def sciTxPolling (io : Polling) (pDev : Dev) : Bool × Dev :=
  let pDev := txPollingStart pDev
  if !pDev.ucReg then (false, pDev)
  else
    let (sent, pDev) := sendBursts io.xprReady (burstFuel pDev) 0 pDev
    if !sent then (false, pDev)
    else
      let pDev := awaitAck (io.rounds.take txPollingRounds) pDev
      (!pDev.txErr, pDev)

/-- One transmission attempt: the driver state at its start and the hardware during it. -/
structure Attempt where
  dev : Dev
  io : Polling

/-- The driver state when the attempt has written its frame, before the wait for the answer. -/
def Attempt.sent (attempt : Attempt) : Bool × Dev :=
  let pDev := txPollingStart attempt.dev
  if pDev.ucReg then sendBursts attempt.io.xprReady (burstFuel pDev) 0 pDev else (false, pDev)

/-- A transmission is the sending of the frame and then the wait for the answer. -/
theorem Attempt.polling_eq (attempt : Attempt) : (sciTxPolling attempt.io attempt.dev).2 =
    if attempt.sent.1 then awaitAck (attempt.io.rounds.take txPollingRounds) attempt.sent.2
    else attempt.sent.2 := by
  unfold sciTxPolling Attempt.sent
  by_cases mapped : (txPollingStart attempt.dev).ucReg = true
  · simp only [mapped, Bool.not_true, Bool.false_eq_true, if_false, if_true]
    cases (sendBursts attempt.io.xprReady (burstFuel (txPollingStart attempt.dev)) 0
      (txPollingStart attempt.dev)).1 <;> rfl
  · simp only [mapped, Bool.not_false, Bool.false_eq_true, if_false, if_true]

/-- The bytes that the attempt writes to `SCI_INGRESS` for its frame. -/
def Attempt.bytes (attempt : Attempt) : List Byte :=
  (ingress attempt.sent.2.written).drop (ingress attempt.dev.written).length

/-- Sets the byte counters of the transmit buffer for a frame of `nLength` bytes. -/
def setTxLength (nLength : ℕ) (pDev : Dev) : Dev :=
  { pDev with txFifo := { pDev.txFifo with nBytes := nLength, nSent := 0 } }

/-- Sets the byte counters and the error flag, before the first or the next transmission. -/
def beginAttempt (nLength : ℕ) (pDev : Dev) : Dev :=
  { setTxLength nLength pDev with txErr := true }

/-- The repetition loop of the RAMSHELL and AUX messages: `while (retry--)`. -/
def retryPolling (nLength : ℕ) (io : ℕ → Polling) : ℕ → ℕ → Dev → List Attempt × Bool × Dev
  | 0, _, pDev => ([], false, pDev)
  | retry + 1, round, pDev =>
    let polled := sciTxPolling (io round) pDev
    if polled.1 then ([⟨pDev, io round⟩], true, polled.2)
    else
      let rest := retryPolling nLength io retry (round + 1) (setTxLength nLength polled.2)
      (⟨pDev, io round⟩ :: rest.1, rest.2)

/-- The transmission of a prepared RAMSHELL or AUX frame of `nLength` bytes. -/
def sendPrepared (nLength : ℕ) (io : ℕ → Polling) (pDev : Dev) : List Attempt × Bool × Dev :=
  let pDev := beginAttempt nLength pDev
  if pDev.activeIf = .mpi then
    if pDev.irqVector = 0 then retryPolling nLength io 3 0 pDev
    else
      let pDev := sciXprInt pDev
      ([], !pDev.txErr, pDev)
  else ([], false, pDev)

/-- Reverses each group of four bytes, for the big endian firmware. -/
def swapWords : List Byte → List Byte
  | b0 :: b1 :: b2 :: b3 :: rest => b3 :: b2 :: b1 :: b0 :: swapWords rest
  | _ => []

/-- The bytes that the copy loop of a RAMSHELL message reads: whole words, the last one beyond the
data when its length is not a multiple of four. -/
def rsData (pSrc : ℕ → Byte) (nLength : ℕ) : List Byte :=
  swapWords (readAt pSrc 0 (4 * ((nLength + 3) / 4)))

/-- A 32-bit parameter in little endian order. -/
def paramBytes (param : BitVec 32) : List Byte :=
  [param.setWidth 8, (param >>> 8).setWidth 8, (param >>> 16).setWidth 8, (param >>> 24).setWidth 8]

/-- The part that `Pef24628e_Send_RS_Msg` and `Pef24628e_Send_IDC_RS_Msg` share: the two differ in
the address of the receiver. -/
def sendRamshell (address : Byte) (opcd : Byte) (param : BitVec 32) (pSrc : ℕ → Byte) (nLength : ℕ)
    (io : ℕ → Polling) (pDev : Dev) : List Attempt × Bool × Dev :=
  if !pDev.bInit then ([], false, pDev)
  else if nLength > dlBlkSize then ([], false, pDev)
  else
    let pData := writeAt pDev.txFifo.pData 8 (rsData pSrc nLength)
    let header := [adrHost, adrDevice pDev.nDevAddress ||| address, 0, opcd] ++ paramBytes param
    let pDev := { pDev with txFifo := { pDev.txFifo with pData := writeAt pData 0 header } }
    sendPrepared (nLength + 8) io pDev

/-- `Pef24628e_Send_RS_Msg`. -/
def sendRsMsg (opcd : Byte) (param : BitVec 32) (pSrc : ℕ → Byte) (nLength : ℕ) (io : ℕ → Polling)
    (pDev : Dev) : List Attempt × Bool × Dev :=
  sendRamshell adrRamshell opcd param pSrc nLength io pDev

/-- `Pef24628e_Send_IDC_RS_Msg`. -/
def sendIdcRsMsg (opcd : Byte) (param : BitVec 32) (pSrc : ℕ → Byte) (nLength : ℕ) (io : ℕ → Polling)
    (pDev : Dev) : List Attempt × Bool × Dev :=
  sendRamshell adrIdcRamshell opcd param pSrc nLength io pDev

/-- `Pef24628e_Send_Aux_Msg`. -/
def sendAuxMsg (reg param : Byte) (io : ℕ → Polling) (pDev : Dev) : List Attempt × Bool × Dev :=
  if !pDev.bInit then ([], false, pDev)
  else
    let header := [adrHost, adrDevice pDev.nDevAddress ||| adrAux, reg, param]
    let pDev := { pDev with txFifo := { pDev.txFifo with pData := writeAt pDev.txFifo.pData 0 header } }
    sendPrepared 4 io pDev

/-- Flips the odd/even flag once the frame with the current flag is acknowledged. -/
def toggleOddEven (pDev : Dev) : Dev :=
  if pDev.transpData.txLastAckOddEven = some pDev.transpData.txOddEven then
    { pDev with transpData := { pDev.transpData with txOddEven := !pDev.transpData.txOddEven } }
  else pDev

/-- `Pef24628e_Mpi_Tx`, given whether the device takes the last message in time. -/
def mpiTx (mailboxFree : Bool) (pDev : Dev) : Dev :=
  if !pDev.ucReg then pDev
  else if !mailboxFree then pDev
  else if pDev.txFifo.nBytes = 0 then pDev
  else
    let tx := pDev.txFifo
    let bytes := (readAt tx.pData 0 tx.nBytes).map fun byte => (Reg.mpiIngress, byte)
    let pDev := if pDev.bFwDownloaded then
        { pDev with
          uLastCmdId := idcHeaderMsgId (tx.pData 0) (tx.pData 1)
          uLastCmdTcId := idcHeaderTcId (tx.pData 2) (tx.pData 3)
          uStatistics := pDev.uStatistics ||| 1 }
      else pDev
    { pDev with
      txFifo := { tx with nSent := tx.nBytes, nBytes := 0 }
      txErr := false
      written := pDev.written ++ bytes ++ [(.mpiIint, mpiInterruptR)] }

/-- One message leaves `Pef24628e_Send_IDC_Msg` with its return value; the frames that the polling
branch transmitted are listed in front. -/
structure SendResult where
  attempts : List Attempt
  retval : ℤ
  dev : Dev

/-- The loop of `Pef24628e_Send_IDC_Msg`. The fuel is the number of repetitions left. The loop over
the SCI bridge ends with the third failure and the one over the mailbox with the second. -/
def idcMsgLoop (nLength : ℕ) (io : ℕ → Polling) : ℕ → ℕ → Dev → SendResult
  | 0, _, pDev => ⟨[], 0, pDev⟩
  | fuel + 1, repetitions, pDev =>
    let pDev := beginAttempt nLength pDev
    if pDev.bSendIdcViaSciBridge then
      let attempts := if pDev.irqVector = 0 then [⟨pDev, io repetitions⟩] else []
      let pDev := if pDev.irqVector = 0 then (sciTxPolling (io repetitions) pDev).2 else sciXprInt pDev
      if pDev.txErr ∧ repetitions + 1 > sendMsgMaxRepNumber then ⟨attempts, nLength - 4, pDev⟩
      else
        let pDev := toggleOddEven pDev
        if pDev.txErr then
          let rest := idcMsgLoop nLength io fuel (repetitions + 1) pDev
          ⟨attempts ++ rest.attempts, rest.retval, rest.dev⟩
        else ⟨attempts, nLength - 4, pDev⟩
    else
      let pDev := mpiTx (io repetitions).mailboxFree pDev
      if pDev.txErr ∧ repetitions + 1 ≥ sendMsgMaxRepNumber then ⟨[], 0, pDev⟩
      else if pDev.txErr then idcMsgLoop nLength io fuel (repetitions + 1) pDev
      else ⟨[], nLength, pDev⟩

def idcMsgHeader (pDev : Dev) : List Byte :=
  [adrHost, adrDevice pDev.nDevAddress ||| adrIdcCtrlr, 0x08 ||| oddBit pDev.transpData.txOddEven, 0]

/-- `Pef24628e_Send_IDC_Msg`, for a message whose length is not negative. -/
def sendIdcMsg (pSrc : List Byte) (io : ℕ → Polling) (pDev : Dev) : SendResult :=
  let nLength := pSrc.length
  if nLength = 0 then ⟨[], -1, pDev⟩
  else if !pDev.bInit then ⟨[], -1, pDev⟩
  else if nLength > msgSize then ⟨[], -1, pDev⟩
  else if pDev.bSendIdcViaSciBridge then
    let pData := writeAt (writeAt pDev.txFifo.pData 4 pSrc) 0 (idcMsgHeader pDev)
    let pDev := { pDev with
      txFifo := { pDev.txFifo with pData }
      transpData := { pDev.transpData with txLastAckOddEven := none } }
    if pDev.activeIf = .mpi then idcMsgLoop (nLength + 4) io (sendMsgMaxRepNumber + 1) 0 pDev
    else ⟨[], 0, pDev⟩
  else
    let pDev := { pDev with
      txFifo := { pDev.txFifo with pData := writeAt pDev.txFifo.pData 0 pSrc } }
    if pDev.activeIf = .mpi then idcMsgLoop nLength io (sendMsgMaxRepNumber + 1) 0 pDev
    else ⟨[], 0, pDev⟩

end Pef24628e
