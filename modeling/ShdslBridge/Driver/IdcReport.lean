import ShdslBridge.Driver.Transmit

/-! # What the sending of an IDC message reports

The frame of a message carries the odd/even bit, and the device acknowledges it with the same bit.
`Heard` is what one received frame means for a transmission, and `heardIn` reads it off one run of the
interrupt handler. The send loop gives up after three failures and then returns the payload length all
the same; `honest_iff` states that its report is right exactly when the acknowledgement was heard, or
when nothing was sent at all.
-/

namespace Pef24628e

open Memory

structure TxFlags where
  txErr : Bool
  acked : Bool
  txOddEven : Bool
  txLastAckOddEven : Option Bool
  viaBridge : Bool
  irqVector : ℤ
  deriving DecidableEq

def Dev.flags (pDev : Dev) : TxFlags where
  txErr := pDev.txErr
  acked := pDev.bTxAckReceived
  txOddEven := pDev.transpData.txOddEven
  txLastAckOddEven := pDev.transpData.txLastAckOddEven
  viaBridge := pDev.bSendIdcViaSciBridge
  irqVector := pDev.irqVector

/-- What a received frame means for a transmission. -/
inductive Heard
  | positive (odd : Bool)
  | negative
  | answer (refused : Bool)
  | reset
  | nothing
  deriving DecidableEq

def Heard.apply : Heard → TxFlags → TxFlags
  | positive odd, flags => { flags with txErr := false, acked := true, txLastAckOddEven := some odd }
  | negative, flags => { flags with txErr := true, acked := true }
  | answer refused, flags => { flags with txErr := refused, acked := true }
  | reset, flags => { flags with txOddEven := false }
  | nothing, flags => flags

/-- The meaning of a transport frame. -/
def heardTp (blk : RxFifo) : Heard :=
  let header := tpGetHeader (blk.pData 2) (blk.pData 3 &&& ~~~0x0F)
  if header = tpAckMsg ∨ header = tpNfcMsg then .nothing
  else if header = tpPosAck then .positive (oddOf (blk.pData 2))
  else if header = tpNegAck then .negative
  else if header = tpResAck then .reset
  else .nothing

/-- The meaning of the frame in a receive block. -/
def heardOf (blk : RxFifo) : Heard :=
  let source := blk.pData 0 &&& 0x0F
  if blk.pData 1 ≠ adrHost ∧ blk.pData 1 ≠ 0xFF then .nothing
  else if isPamdsl source then .nothing
  else if source = adrRamshell ∨ source = adrAux ∨ source = adrIdcRamshell then
    .answer (decide (blk.pData 2 &&& 0xF0 ≠ validRsta))
  else if source = adrIdcCtrlr then heardTp blk
  else .nothing

def sciHeard (reg : MpiReg) (pDev : Dev) : Heard :=
  let ista := reg.sciInt &&& pDev.sciInten
  let front := sciServeRpf ista reg.sciEgress (sciServeXpr ista (sciServeXdu ista pDev))
  if ista &&& sciInterruptRme ≠ 0 then
    match rmeBlk reg front.1 front.2.writeBlk with
    | some blk => heardOf blk
    | none => .nothing
  else .nothing

/-- The frame that ends in one run of the interrupt handler. -/
def heardIn (reg : MpiReg) (pDev : Dev) : Heard :=
  if pDev.ucReg ∧ (reg.mpiEint &&& pDev.mpiEintEn) &&& mpiMpintIntsci ≠ 0 then sciHeard reg pDev else .nothing

def awaitHeard : List MpiReg → Dev → List Heard
  | [], _ => []
  | reg :: rounds, pDev =>
    if pDev.bTxAckReceived then []
    else
      heardIn reg pDev ::
        if (intHandler reg pDev).uStatistics &&& statXdu ≠ 0 then [] else awaitHeard rounds (intHandler reg pDev)

def Attempt.heard (attempt : Attempt) : List Heard :=
  if attempt.sent.1 then awaitHeard (attempt.io.rounds.take txPollingRounds) attempt.sent.2 else []

/-- A positive acknowledgement with the odd/even bit was received. -/
def Acknowledged (odd : Bool) (attempts : List Attempt) : Prop :=
  ∃ attempt ∈ attempts, Heard.positive odd ∈ attempt.heard

/-- The report is honest: success is reported behind the acknowledgement of the frame, and the bit is
toggled; or an error is reported, and the bit is left alone. -/
def Honest (pSrc : List Byte) (pDev : Dev) (result : SendResult) : Prop :=
  let odd := pDev.transpData.txOddEven
  result.retval = pSrc.length ∧ Acknowledged odd result.attempts ∧ result.dev.transpData.txOddEven = !odd ∨
    result.retval ≤ 0 ∧ result.dev.transpData.txOddEven = odd

/-- The message is refused before anything is sent. -/
def Refused (pSrc : List Byte) (pDev : Dev) : Prop :=
  pSrc = [] ∨ pDev.bInit = false ∨ msgSize < pSrc.length ∨ pDev.activeIf ≠ .mpi

/-! ### The flags behind one run of the interrupt handler -/

theorem sciXprInt_flags (pDev : Dev) : (sciXprInt pDev).flags = pDev.flags := by
  rw [sciXprInt]
  split_ifs <;> rfl

theorem sciServeXdu_flags (ista : Byte) (pDev : Dev) : (sciServeXdu ista pDev).flags = pDev.flags := by
  rw [sciServeXdu]
  split_ifs <;> rfl

theorem sciServeXpr_flags (ista : Byte) (pDev : Dev) : (sciServeXpr ista pDev).flags = pDev.flags := by
  rw [sciServeXpr]
  split_ifs
  · exact sciXprInt_flags pDev
  · rfl

theorem sciServeRpf_flags (ista : Byte) (egress : List Byte) (pDev : Dev) :
    (sciServeRpf ista egress pDev).2.flags = pDev.flags := by
  rw [sciServeRpf]
  by_cases raised : ista &&& sciInterruptRpf ≠ 0
  · rw [if_pos raised, sciRpfInt]
    by_cases room : pDev.writeBlk.nBytes + 1 + sciFifoSize < msgSize
    · simp only [if_pos room]
      rfl
    · simp only [if_neg room]
      rfl
  · rw [if_neg raised]

theorem sciServeRfo_flags (ista : Byte) (pDev : Dev) : (sciServeRfo ista pDev).flags = pDev.flags := by
  rw [sciServeRfo]
  split_ifs <;> rfl

theorem sciServeXdov_flags (ista : Byte) (pDev : Dev) : (sciServeXdov ista pDev).flags = pDev.flags := by
  rw [sciServeXdov]
  split_ifs <;> rfl

theorem sciStoreFrame_flags (pDev : Dev) : (sciStoreFrame pDev).flags = pDev.flags := by
  rw [sciStoreFrame]
  split_ifs <;> rfl

theorem sciRmeFinish_flags (wakeUp : Bool) (pDev : Dev) : (sciRmeFinish wakeUp pDev).flags = pDev.flags := by
  rw [sciRmeFinish]
  split_ifs <;> rfl

theorem mpiStoreMsg_flags (pDev : Dev) : (mpiStoreMsg pDev).flags = pDev.flags := by
  rw [mpiStoreMsg]
  split_ifs <;> rfl

theorem mpiRxInt_flags (reg : MpiReg) (pDev : Dev) : (mpiRxInt reg pDev).flags = pDev.flags := by
  rw [mpiRxInt]
  dsimp only
  split_ifs
  · rfl
  all_goals
    rw [mpiStoreMsg_flags, updateStatistics_eq]
    rfl

theorem sendTpAck_flags (odd nak : Bool) (pDev : Dev) : (sendTpAck odd nak pDev).2.flags = pDev.flags := by
  by_cases mpi : pDev.activeIf = .mpi
  · rw [sendTpAck_eq odd nak mpi]
    cases nak <;> rfl
  · rw [sendTpAck, if_neg mpi]
    rfl

theorem processTp_flags (pDev : Dev) : (processTp pDev).2.flags = (heardTp pDev.writeBlk).apply pDev.flags := by
  rw [processTp, heardTp]
  dsimp only
  split_ifs
  · exact sendTpAck_flags _ _ pDev
  · exact sendTpAck_flags _ _ pDev
  · rfl
  · rfl
  · rfl
  · rfl

theorem sciProcessFrame_flags (pDev : Dev) :
    (sciProcessFrame pDev).2.flags = (heardOf pDev.writeBlk).apply pDev.flags := by
  rw [sciProcessFrame, heardOf]
  by_cases wrongHost : pDev.writeBlk.pData 1 ≠ adrHost ∧ pDev.writeBlk.pData 1 ≠ 0xFF
  · rw [if_pos wrongHost, if_pos wrongHost]
    rfl
  rw [if_neg wrongHost, if_neg wrongHost]
  by_cases pamdsl : isPamdsl (pDev.writeBlk.pData 0 &&& 0x0F) = true
  · rw [if_pos pamdsl, if_pos pamdsl]
    rfl
  rw [if_neg pamdsl, if_neg pamdsl]
  by_cases rs : pDev.writeBlk.pData 0 &&& 0x0F = adrRamshell ∨ pDev.writeBlk.pData 0 &&& 0x0F = adrAux ∨
      pDev.writeBlk.pData 0 &&& 0x0F = adrIdcRamshell
  · rw [if_pos rs, if_pos rs, processRsAck]
    by_cases refused : pDev.writeBlk.pData 2 &&& 0xF0 ≠ validRsta
    · rw [if_pos refused, decide_eq_true refused]
      rfl
    · rw [if_neg refused, decide_eq_false refused]
      rfl
  rw [if_neg rs, if_neg rs]
  by_cases idc : pDev.writeBlk.pData 0 &&& 0x0F = adrIdcCtrlr
  · rw [if_pos idc, if_pos idc]
    exact processTp_flags pDev
  · rw [if_neg idc, if_neg idc]
    rfl

/-- The receive message end interrupt, given the complete block if its bytes fit. -/
theorem sciRmeInt_flags (reg : MpiReg) (egress : List Byte) (pDev : Dev) :
    (sciRmeInt reg egress pDev).flags = (match rmeBlk reg egress pDev.writeBlk with
      | some blk => heardOf blk
      | none => Heard.nothing).apply pDev.flags := by
  rw [sciRmeInt]
  cases rmeBlk reg egress pDev.writeBlk with
  | none => exact sciRmeFinish_flags _ _
  | some blk =>
    have analysed := sciProcessFrame_flags { pDev.setWriteBlk blk with sciRxState := .active }
    have same : Dev.writeBlk { pDev.setWriteBlk blk with sciRxState := .active } = blk := by
      simp [Dev.setWriteBlk, Dev.writeBlk]
    have ended (next : Dev) (deliver : Bool) :
        (if deliver then sciStoreFrame next else next.setWriteBlk { next.writeBlk with nBytes := 0 }).flags =
          next.flags := by
      cases deliver
      · rfl
      · exact sciStoreFrame_flags next
    rw [same] at analysed
    dsimp only
    rw [sciRmeFinish_flags, sciFrameEnd]
    exact (ended _ _).trans analysed

variable {pDev : Dev}

theorem sciIntHandler_flags (reg : MpiReg) (mapped : pDev.ucReg = true) :
    (sciIntHandler reg pDev).flags = (sciHeard reg pDev).apply pDev.flags := by
  obtain ⟨ista, masked⟩ : ∃ ista, ista = reg.sciInt &&& pDev.sciInten := ⟨_, rfl⟩
  obtain ⟨front, served⟩ : ∃ front,
      front = sciServeRpf ista reg.sciEgress (sciServeXpr ista (sciServeXdu ista pDev)) := ⟨_, rfl⟩
  have start : front.2.flags = pDev.flags := by
    rw [served, sciServeRpf_flags, sciServeXpr_flags, sciServeXdu_flags]
  have handler : sciIntHandler reg pDev = sciServeXdov ista (sciServeRfo ista
      (if ista &&& sciInterruptRme ≠ 0 then sciRmeInt reg front.1 front.2 else front.2)) := by
    rw [sciIntHandler, mapped, served, masked]
    rfl
  rw [handler, sciServeXdov_flags, sciServeRfo_flags, sciHeard, ← masked, ← served]
  by_cases raised : ista &&& sciInterruptRme ≠ 0
  · simp only [if_pos raised, sciRmeInt_flags, start]
  · simp only [if_neg raised, start]
    rfl

/-- A run of the interrupt handler changes the flags as the frame that ends in it says. -/
theorem intHandler_flags (reg : MpiReg) (pDev : Dev) :
    (intHandler reg pDev).flags = (heardIn reg pDev).apply pDev.flags := by
  rw [intHandler, heardIn]
  by_cases mapped : pDev.ucReg = true
  · simp only [mapped, Bool.not_true, Bool.false_eq_true, if_false, true_and]
    obtain ⟨ista, masked⟩ : ∃ ista, ista = reg.mpiEint &&& pDev.mpiEintEn := ⟨_, rfl⟩
    rw [← masked]
    have idc (next : Dev) :
        (regSet .mpiEint ista (if ista &&& mpiMpintIntidc ≠ 0 then mpiRxInt reg next else next)).flags =
          next.flags := by
      split_ifs
      · exact mpiRxInt_flags reg next
      · rfl
    by_cases idle : ista = 0
    · have noSci : ¬ ista &&& mpiMpintIntsci ≠ 0 := by
        rw [idle]
        decide
      rw [if_pos idle, if_neg noSci]
      rfl
    rw [if_neg idle]
    by_cases sci : ista &&& mpiMpintIntsci ≠ 0
    · rw [if_pos sci, if_pos sci]
      exact (idc _).trans (sciIntHandler_flags reg mapped)
    · rw [if_neg sci, if_neg sci]
      exact idc _
  · have unmapped : pDev.ucReg = false := Bool.not_eq_true _ ▸ mapped
    simp only [unmapped, Bool.not_false, if_true, Bool.false_eq_true, false_and, if_false]
    rfl

/-! ### The flags behind an attempt -/

/-- What an attempt leaves: behind a positive acknowledgement the transmission is over and its bit is
stored; without one the stored bit stays. The bit to send stays, or a reset has cleared it. -/
structure Waited (heard : List Heard) (before after : TxFlags) : Prop where
  positive : ∀ odd, Heard.positive odd ∈ heard → after.txErr = false ∧ after.txLastAckOddEven = some odd
  silent : (∀ odd, Heard.positive odd ∉ heard) → after.txLastAckOddEven = before.txLastAckOddEven
  oddEven : after.txOddEven = before.txOddEven ∨ after.txOddEven = false
  viaBridge : after.viaBridge = before.viaBridge
  irqVector : after.irqVector = before.irqVector

theorem Waited.idle (flags : TxFlags) : Waited [] flags flags :=
  ⟨fun _ member => absurd member List.not_mem_nil, fun _ => rfl, Or.inl rfl, rfl, rfl⟩

theorem Waited.cons {heard : Heard} {rest : List Heard} {before after : TxFlags}
    (other : ∀ odd, heard ≠ .positive odd) (later : Waited rest (heard.apply before) after) :
    Waited (heard :: rest) before after where
  positive odd member := later.positive odd ((List.mem_cons.mp member).resolve_left fun same => other odd same.symm)
  silent none := by
    rw [later.silent fun odd member => none odd (List.mem_cons_of_mem _ member)]
    cases heard with
    | positive odd => exact absurd rfl (other odd)
    | negative | answer | reset | nothing => rfl
  oddEven := by
    rcases later.oddEven with same | cleared
    · rw [same]
      cases heard with
      | positive odd => exact absurd rfl (other odd)
      | reset => exact Or.inr rfl
      | negative | answer | nothing => exact Or.inl rfl
    · exact Or.inr cleared
  viaBridge := by cases heard <;> exact later.viaBridge
  irqVector := by cases heard <;> exact later.irqVector

theorem Waited.acknowledged (odd : Bool) (before : TxFlags) :
    Waited [.positive odd] before ((Heard.positive odd).apply before) where
  positive other member := by
    obtain rfl := Heard.positive.inj (List.mem_singleton.mp member)
    exact ⟨rfl, rfl⟩
  silent none := absurd List.mem_cons_self (none odd)
  oddEven := Or.inl rfl
  viaBridge := rfl
  irqVector := rfl

theorem awaitAck_waited (rounds : List MpiReg) (pDev : Dev) :
    Waited (awaitHeard rounds pDev) pDev.flags (awaitAck rounds pDev).flags := by
  induction rounds generalizing pDev with
  | nil => exact Waited.idle _
  | cons reg rounds ih =>
    rw [awaitHeard, awaitAck]
    by_cases received : pDev.bTxAckReceived = true
    · rw [if_pos received, if_pos received]
      exact Waited.idle _
    rw [if_neg received, if_neg received]
    have round := intHandler_flags reg pDev
    obtain ⟨next, handled⟩ : ∃ next, intHandler reg pDev = next := ⟨_, rfl⟩
    rw [handled] at round ⊢
    obtain ⟨rest, restEq⟩ : ∃ rest, rest =
      if next.uStatistics &&& statXdu ≠ 0 then [] else awaitHeard rounds next := ⟨_, rfl⟩
    obtain ⟨final, finalEq⟩ : ∃ final, final =
      if next.uStatistics &&& statXdu ≠ 0 then { next with uStatistics := next.uStatistics &&& ~~~statXdu }
      else awaitAck rounds next := ⟨_, rfl⟩
    rw [← restEq]
    change Waited _ _ (Dev.flags (if next.uStatistics &&& statXdu ≠ 0 then _ else _))
    rw [← finalEq]
    have later : Waited rest next.flags final.flags := by
      rw [restEq, finalEq]
      split_ifs
      · exact Waited.idle _
      · exact ih next
    cases heard : heardIn reg pDev with
    | positive odd =>
      rw [heard] at round
      have acked : next.bTxAckReceived = true := congrArg TxFlags.acked round
      have ended : rest = [] ∧ final.flags = next.flags := by
        rw [restEq, finalEq]
        split_ifs
        · exact ⟨rfl, rfl⟩
        · cases rounds with
          | nil => exact ⟨rfl, rfl⟩
          | cons => exact ⟨if_pos acked, congrArg Dev.flags (if_pos acked)⟩
      rw [ended.1, ended.2, round]
      exact Waited.acknowledged odd _
    | negative | answer | reset | nothing =>
      rw [heard] at round
      exact Waited.cons (fun _ => nofun) (round ▸ later)

theorem sendBursts_flags (xprReady : ℕ → Bool) (fuel burst : ℕ) (pDev : Dev) :
    (sendBursts xprReady fuel burst pDev).2.flags = pDev.flags := by
  induction fuel generalizing burst pDev with
  | zero => rfl
  | succ fuel ih =>
    rw [sendBursts]
    have sent : (regSet .sciInt sciInterruptXpr (sciXprInt pDev)).flags = pDev.flags := sciXprInt_flags pDev
    split_ifs
    · exact sent
    · exact (ih _ _).trans sent
    · exact sent

theorem Attempt.sent_flags (attempt : Attempt) : attempt.sent.2.flags = { attempt.dev.flags with acked := false } := by
  rw [sent]
  split_ifs
  · exact sendBursts_flags _ _ _ _
  · rfl

theorem Attempt.waited (attempt : Attempt) :
    Waited attempt.heard attempt.dev.flags (sciTxPolling attempt.io attempt.dev).2.flags := by
  have sent := attempt.sent_flags
  rw [polling_eq, heard]
  cases attempt.sent.1 with
  | false =>
    change Waited [] _ attempt.sent.2.flags
    rw [sent]
    exact { Waited.idle attempt.dev.flags with }
  | true =>
    have waited := awaitAck_waited (attempt.io.rounds.take txPollingRounds) attempt.sent.2
    rw [sent] at waited
    exact { waited with }

/-! ### The send loop -/

theorem toggleOddEven_txErr (pDev : Dev) : (toggleOddEven pDev).txErr = pDev.txErr := by
  rw [toggleOddEven]
  split_ifs <;> rfl

theorem toggleOddEven_silent (silent : pDev.transpData.txLastAckOddEven = none) : toggleOddEven pDev = pDev := by
  rw [toggleOddEven, silent]
  exact if_neg nofun

/-- Behind the acknowledgement of a bit the bit to send is the other one, also where a reset has cleared
it in between. -/
theorem toggleOddEven_acknowledged {odd : Bool} (stored : pDev.transpData.txLastAckOddEven = some odd) :
    (toggleOddEven pDev).transpData.txOddEven = !odd := by
  rw [toggleOddEven, stored]
  by_cases same : some odd = some pDev.transpData.txOddEven
  · rw [if_pos same, Option.some.inj same]
  · rw [if_neg same]
    exact Bool.eq_not.mpr fun equal => same (congrArg some equal.symm)

/-- Over the SCI bridge the loop reports the payload length in any case; behind the acknowledgement of
the frame the bit is toggled. -/
theorem idcMsgLoop_reported (nLength : ℕ) (io : ℕ → Polling) (odd : Bool) (fuel repetitions : ℕ) (pDev : Dev)
    (count : fuel + repetitions = sendMsgMaxRepNumber + 1) (left : 0 < fuel)
    (bridge : pDev.bSendIdcViaSciBridge = true) (polling : pDev.irqVector = 0)
    (silent : pDev.transpData.txLastAckOddEven = none) :
    let result := idcMsgLoop nLength io fuel repetitions pDev
    result.retval = nLength - 4 ∧ (Acknowledged odd result.attempts → result.dev.transpData.txOddEven = !odd) := by
  induction fuel generalizing repetitions pDev with
  | zero => exact absurd left (lt_irrefl 0)
  | succ fuel ih =>
    obtain ⟨attempt, begun⟩ : ∃ attempt : Attempt, attempt = ⟨beginAttempt nLength pDev, io repetitions⟩ := ⟨_, rfl⟩
    have waited := attempt.waited
    have viaBridge : attempt.dev.flags.viaBridge = true := begun ▸ bridge
    have irqVector : attempt.dev.flags.irqVector = 0 := begun ▸ polling
    have unstored : attempt.dev.flags.txLastAckOddEven = none := begun ▸ silent
    obtain ⟨after, polled⟩ : ∃ after, (sciTxPolling attempt.io attempt.dev).2 = after := ⟨_, rfl⟩
    rw [polled] at waited
    have loop : idcMsgLoop nLength io (fuel + 1) repetitions pDev =
        if after.txErr ∧ repetitions + 1 > sendMsgMaxRepNumber then ⟨[attempt], nLength - 4, after⟩
        else if (toggleOddEven after).txErr then
          let rest := idcMsgLoop nLength io fuel (repetitions + 1) (toggleOddEven after)
          ⟨[attempt] ++ rest.attempts, rest.retval, rest.dev⟩
        else ⟨[attempt], nLength - 4, toggleOddEven after⟩ := by
      rw [idcMsgLoop, ← polled, begun]
      have bridge' : (beginAttempt nLength pDev).bSendIdcViaSciBridge = true := bridge
      have polling' : (beginAttempt nLength pDev).irqVector = 0 := polling
      simp only [if_pos bridge', if_pos polling']
    rw [loop, toggleOddEven_txErr]
    by_cases failed : after.txErr = true
    · -- a failed attempt heard no positive acknowledgement
      have none_ (bit : Bool) : Heard.positive bit ∉ attempt.heard := fun member =>
        Bool.false_ne_true ((waited.positive bit member).1.symm.trans failed)
      have unacknowledged (rest : List Attempt) (acknowledged : Acknowledged odd (attempt :: rest)) :
          Acknowledged odd rest := by
        obtain ⟨heard, member, positive⟩ := acknowledged
        rcases List.mem_cons.mp member with rfl | later
        · exact absurd positive (none_ odd)
        · exact ⟨heard, later, positive⟩
      by_cases last : repetitions + 1 > sendMsgMaxRepNumber
      · rw [if_pos ⟨failed, last⟩]
        refine ⟨rfl, fun acknowledged => ?_⟩
        obtain ⟨_, member, -⟩ := unacknowledged [] acknowledged
        exact absurd member List.not_mem_nil
      · have still := waited.silent none_
        rw [unstored] at still
        rw [if_neg fun both => last both.2, if_pos failed, toggleOddEven_silent still]
        obtain ⟨reported, toggled⟩ := ih (repetitions + 1) after (by omega) (by omega)
          (waited.viaBridge.trans viaBridge) (waited.irqVector.trans irqVector) still
        exact ⟨reported, fun acknowledged => toggled (unacknowledged _ acknowledged)⟩
    · rw [if_neg fun both => failed both.1, if_neg failed]
      refine ⟨rfl, fun ⟨heard, member, positive⟩ => ?_⟩
      obtain rfl := List.mem_singleton.mp member
      exact toggleOddEven_acknowledged (waited.positive odd positive).2

/-- The state in which the frame of a message is ready to be sent. -/
def preparedDev (pSrc : List Byte) (pDev : Dev) : Dev :=
  { pDev with
    txFifo := { pDev.txFifo with pData := writeAt (writeAt pDev.txFifo.pData 4 pSrc) 0 (idcMsgHeader pDev) }
    transpData := { pDev.transpData with txLastAckOddEven := none } }

theorem sendIdcMsg_refused {pSrc : List Byte} (io : ℕ → Polling) (bridge : pDev.bSendIdcViaSciBridge = true)
    (refused : Refused pSrc pDev) :
    let result := sendIdcMsg pSrc io pDev
    result.retval ≤ 0 ∧ result.dev.transpData.txOddEven = pDev.transpData.txOddEven := by
  rw [sendIdcMsg]
  dsimp only
  by_cases empty : pSrc.length = 0
  · rw [if_pos empty]
    exact ⟨show (-1 : ℤ) ≤ 0 by decide, rfl⟩
  rw [if_neg empty]
  by_cases off : (!pDev.bInit) = true
  · rw [if_pos off]
    exact ⟨show (-1 : ℤ) ≤ 0 by decide, rfl⟩
  rw [if_neg off]
  by_cases long : pSrc.length > msgSize
  · rw [if_pos long]
    exact ⟨show (-1 : ℤ) ≤ 0 by decide, rfl⟩
  rw [if_neg long, if_pos bridge]
  have other : pDev.activeIf ≠ .mpi := by
    rcases refused with nil | uninitialised | tooLong | other
    · exact absurd (congrArg List.length nil) empty
    · exact absurd (by rw [uninitialised]; rfl) off
    · exact absurd tooLong long
    · exact other
  rw [if_neg other]
  exact ⟨le_rfl, rfl⟩

theorem sendIdcMsg_sent {pSrc : List Byte} (io : ℕ → Polling) (bridge : pDev.bSendIdcViaSciBridge = true)
    (accepted : ¬ Refused pSrc pDev) :
    sendIdcMsg pSrc io pDev =
      idcMsgLoop (pSrc.length + 4) io (sendMsgMaxRepNumber + 1) 0 (preparedDev pSrc pDev) := by
  obtain ⟨nonempty, initialised, fits, mpi⟩ := by
    simpa only [Refused, not_or, not_lt, not_not, Bool.not_eq_false] using accepted
  have notEmpty : pSrc.length ≠ 0 := fun zero => nonempty (List.length_eq_zero_iff.mp zero)
  rw [sendIdcMsg]
  dsimp only
  have on : ¬ (!pDev.bInit) = true := by
    rw [initialised]
    decide
  rw [if_neg notEmpty, if_neg on, if_neg (not_lt.mpr fits), if_pos bridge, if_pos mpi]
  rfl

/-- The report of a message over the SCI bridge in polling mode is honest exactly when nothing was sent
or the frame was acknowledged. -/
theorem honest_iff (pSrc : List Byte) (io : ℕ → Polling) {pDev : Dev} (bridge : pDev.bSendIdcViaSciBridge = true)
    (polling : pDev.irqVector = 0) :
    Honest pSrc pDev (sendIdcMsg pSrc io pDev) ↔
      Refused pSrc pDev ∨ Acknowledged pDev.transpData.txOddEven (sendIdcMsg pSrc io pDev).attempts := by
  by_cases refused : Refused pSrc pDev
  · exact iff_of_true (Or.inr (sendIdcMsg_refused io bridge refused)) (Or.inl refused)
  have nonempty : pSrc.length ≠ 0 := fun zero => refused (Or.inl (List.length_eq_zero_iff.mp zero))
  obtain ⟨reported, toggled⟩ := idcMsgLoop_reported (pSrc.length + 4) io pDev.transpData.txOddEven
    (sendMsgMaxRepNumber + 1) 0 (preparedDev pSrc pDev) rfl (by decide) bridge polling rfl
  rw [sendIdcMsg_sent io bridge refused, or_iff_right refused, Honest]
  have payload : (((pSrc.length + 4 : ℕ) : ℤ) - 4) = pSrc.length := by omega
  rw [payload] at reported
  constructor
  · rintro (success | failure)
    · exact success.2.1
    · omega
  · intro acknowledged
    exact Or.inl ⟨reported, acknowledged, toggled acknowledged⟩

/-- A driver after initialisation. -/
def idleDev : Dev := (mpiInit ⟨0x60000000, 4⟩ (some fun _ => 0) { Dev.zeroed with nDevAddress := 0x0F }).2

def silentDevice (_ : ℕ) : Polling where
  xprReady := fun _ => true
  rounds := []
  mailboxFree := true

/-- A message to a silent device. -/
theorem honest_iff_silentDevice :
    Honest [0x10, 0x00, 0xFF, 0xFF] idleDev (sendIdcMsg [0x10, 0x00, 0xFF, 0xFF] silentDevice idleDev) ↔
      Refused [0x10, 0x00, 0xFF, 0xFF] idleDev ∨
        Acknowledged false (sendIdcMsg [0x10, 0x00, 0xFF, 0xFF] silentDevice idleDev).attempts :=
  honest_iff _ _ rfl rfl

/-- The payload length is returned for a message that was never acknowledged. -/
theorem silentDevice_not_honest :
    ¬ Honest [0x10, 0x00, 0xFF, 0xFF] idleDev (sendIdcMsg [0x10, 0x00, 0xFF, 0xFF] silentDevice idleDev) := by
  have retval : (sendIdcMsg [0x10, 0x00, 0xFF, 0xFF] silentDevice idleDev).retval = 4 := by decide +kernel
  have bit : (sendIdcMsg [0x10, 0x00, 0xFF, 0xFF] silentDevice idleDev).dev.transpData.txOddEven = false := by
    decide +kernel
  rintro (success | failure)
  · exact Bool.false_ne_true (bit.symm.trans success.2.2)
  · rw [retval] at failure
    omega

end Pef24628e
