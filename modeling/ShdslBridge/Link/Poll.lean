import ShdslBridge.Driver.Device

/-! # Messages of the polling thread

`rt_pef24628_poll` reads the messages that the driver has ready. It does two things with each of
them: a link event is copied into an `rt_msg` for the state thread, and the message identifier is
compared with the acknowledgement that the caller waits for. The two parts share the header layout
and nothing else.
-/

namespace Shdsl

open Pef24628e (Byte)

/-- `struct rt_msg`. -/
structure RtMsg where
  msgId : BitVec 32 := 0
  linkno : Byte := 0
  state : Byte := 0
  datarate : BitVec 32 := 0
  snrC : BitVec 32 := 0
  snrN : BitVec 32 := 0
  deriving DecidableEq, Repr

def evtPmdLinkstate : BitVec 16 := 0x690
def ackPmdStatusget : BitVec 16 := 0x362
def ackPmdPmParamget : BitVec 16 := 0x364
def evtEocLinkstate : BitVec 16 := 0x688

/-- The message identifier in the header: bits 5 to 15 of the first word. -/
def idcMsgId (pBuf : ℕ → Byte) : BitVec 16 :=
  (((pBuf 0) >>> 5) &&& 0x07).setWidth 16 ||| ((pBuf 1).setWidth 16 <<< 3)

/-- The little endian parameter word `index` behind the header. -/
def paramWord (pBuf : ℕ → Byte) (index : ℕ) : BitVec 32 :=
  pBuf (4 * index + 7) ++ pBuf (4 * index + 6) ++ pBuf (4 * index + 5) ++ pBuf (4 * index + 4)

/-- The four cases of the switch in `rt_pef24628_poll` that fill an `rt_msg`. The block comes from
`rt_malloc` with the contents `old`, and the fields that a case does not set keep them. -/
def linkMessage (pBuf : ℕ → Byte) (old : RtMsg) : Option RtMsg :=
  let idcMsgId := idcMsgId pBuf
  let linkNo := (paramWord pBuf 0).setWidth 8
  if idcMsgId = evtPmdLinkstate then
    some { old with msgId := 0x690, linkno := linkNo, state := (paramWord pBuf 1).setWidth 8 }
  else if idcMsgId = ackPmdStatusget then
    some { old with msgId := 0x362, linkno := linkNo, datarate := paramWord pBuf 2 }
  else if idcMsgId = ackPmdPmParamget then
    -- Counter_2 and Counter_10 follow LinkNo, Unit_ID and Status_CS
    some { old with msgId := 0x364, linkno := linkNo, snrC := paramWord pBuf 5, snrN := paramWord pBuf 13 }
  else if idcMsgId = evtEocLinkstate then
    some { old with msgId := 0x688, linkno := linkNo, state := (paramWord pBuf 1).setWidth 8 }
  else none

/-- The identifier that `rt_sendmb` uses for the static message belongs to no link event. -/
theorem linkMessage_msgId_ne {pBuf : ℕ → Byte} {old msg : RtMsg} (filled : linkMessage pBuf old = some msg) :
    msg.msgId ≠ 100 := by
  simp only [linkMessage] at filled
  split at filled
  · cases filled
    simp
  split at filled
  · cases filled
    simp
  split at filled
  · cases filled
    simp
  split at filled
  · cases filled
    simp
  · cases filled

/-- The ways out of one round of the loop in `rt_pef24628_poll`. -/
inductive Round
  /-- On to the next `--retries`. -/
  | again
  /-- Out of the loop to the timeout trace and `return FALSE`. -/
  | broken
  /-- `return TRUE`. -/
  | found
  deriving DecidableEq, Repr

/-- One round of the loop: `none` when `FIO_PEF24628E_POLL_CHECK` finds nothing to read, otherwise
the bytes that the read returns. -/
def pollRound (idcMsgIdExpected : BitVec 16) : Option (List Byte) → Round
  | none => if idcMsgIdExpected = 0 then .found else .broken
  | some bytes =>
    if bytes.length < 3 then .broken
    -- a record of the SCI monitor
    else if bytes.getLast? = some 0xA1 then .again
    else if idcMsgId (fun i => bytes.getD i 0) = idcMsgIdExpected ||| 0x200 then .found
    else if idcMsgIdExpected = 0 then .found
    else .again

/-- A round for a nonzero identifier returns TRUE on nothing but its acknowledgement. -/
theorem pollRound_eq_found {expected : BitVec 16} {message : Option (List Byte)} (wanted : expected ≠ 0)
    (isFound : pollRound expected message = .found) :
    ∃ bytes, message = some bytes ∧ 3 ≤ bytes.length ∧ bytes.getLast? ≠ some 0xA1 ∧
      idcMsgId (fun i => bytes.getD i 0) = expected ||| 0x200 := by
  cases message with
  | none =>
    simp only [pollRound, if_neg wanted] at isFound
    cases isFound
  | some bytes =>
    simp only [pollRound, if_neg wanted] at isFound
    split at isFound
    · cases isFound
    split at isFound
    · cases isFound
    split at isFound
    · rename_i long notMonitor matching
      exact ⟨bytes, rfl, by omega, notMonitor, matching⟩
    · cases isFound

end Shdsl
