import ShdslBridge.Lib.Run
import ShdslBridge.Link.Poll

/-! # A call of `rt_pef24628_poll`

Without the SCI monitor the driver appends no tag to a message, but the poll still looks for one: a message
whose last byte is `0xA1` is taken for a record of the monitor and skipped. All others are dealt with by the
identifier in their first two bytes.
-/

namespace Shdsl

open Pef24628e (Byte)

/-- What a round of the loop comes across: a message, `g_init_finished`, and the content of the block that
`rt_malloc` returns. -/
structure Polled where
  message : Option (List Byte)
  gInitFinished : Bool
  block : Option RtMsg

/-- A call in its loop, with the messages that it has sent to `g_mb`. -/
structure PollCall where
  idcMsgIdExpected : BitVec 16
  retries : ℕ
  pBuf : ℕ → Byte
  sent : List RtMsg
  answer : Option Bool

def eventMessage (polled : Polled) (pBuf : ℕ → Byte) : Option RtMsg :=
  if polled.gInitFinished then polled.block.bind (linkMessage pBuf) else none

/-- The rest of `pBuf` keeps what the stack held. -/
def readInto (pBuf : ℕ → Byte) (bytes : List Byte) : ℕ → Byte := fun i => (bytes[i]?).getD (pBuf i)

namespace PollCall

def enter (idcMsgIdExpected : BitVec 16) (pBuf : ℕ → Byte) : PollCall :=
  { idcMsgIdExpected, retries := 100, pBuf, sent := [], answer := none }

def leave (call : PollCall) (pBuf : ℕ → Byte) (round : Round) (msg : Option RtMsg) : PollCall :=
  { call with
    retries := call.retries - 1
    pBuf
    sent := call.sent ++ msg.toList
    answer :=
      match round with
      | .again => none
      | .broken => some false
      | .found => some true }

/-- One test of `--retries` with the round behind it. -/
def step (call : PollCall) (polled : Polled) : PollCall :=
  if call.answer.isSome then call
  else if call.retries - 1 = 0 then { call with retries := 0, answer := some false }
  else
    match polled.message with
    | none => call.leave call.pBuf (pollRound call.idcMsgIdExpected none) none
    | some bytes =>
      let pBuf := readInto call.pBuf bytes
      call.leave pBuf (pollRound call.idcMsgIdExpected (some bytes))
        (if bytes.length < 3 ∨ bytes.getLast? = some 0xA1 then none else eventMessage polled pBuf)

def roundById (call : PollCall) (pBuf : ℕ → Byte) : Round :=
  if idcMsgId pBuf = call.idcMsgIdExpected ||| 0x200 ∨ call.idcMsgIdExpected = 0 then .found else .again

/-- A message is dealt with by its identifier, whatever follows it. -/
def Classified (call : PollCall) (polled : Polled) : Prop :=
  ∀ bytes, polled.message = some bytes → 4 ≤ bytes.length → bytes.length ≤ 132 → call.answer = none →
    1 < call.retries → call.step polled =
      call.leave (readInto call.pBuf bytes) (call.roundById (readInto call.pBuf bytes))
        (eventMessage polled (readInto call.pBuf bytes))

/-- The last byte is not `0xA1`, or the message is neither the acknowledgement nor an event to forward. -/
def Untagged (call : PollCall) (polled : Polled) : Prop :=
  ∀ bytes, polled.message = some bytes → 4 ≤ bytes.length → bytes.length ≤ 132 → call.answer = none →
    1 < call.retries → bytes.getLast? ≠ some 0xA1 ∨
      call.roundById (readInto call.pBuf bytes) = .again ∧ eventMessage polled (readInto call.pBuf bytes) = none

variable {call : PollCall} {polled : Polled}

variable {bytes : List Byte}

theorem idcMsgId_readInto (pBuf : ℕ → Byte) (long : 4 ≤ bytes.length) :
    idcMsgId (fun i => bytes.getD i 0) = idcMsgId (readInto pBuf bytes) := by
  have same (i : ℕ) (inside : i < 4) : bytes.getD i 0 = readInto pBuf bytes i := by
    rw [readInto, List.getD_eq_getElem?_getD, List.getElem?_eq_getElem (by omega)]
    rfl
  rw [idcMsgId, idcMsgId, same 0 (by decide), same 1 (by decide)]

theorem pollRound_of_untagged (long : 4 ≤ bytes.length) (untagged : bytes.getLast? ≠ some 0xA1) :
    pollRound call.idcMsgIdExpected (some bytes) = call.roundById (readInto call.pBuf bytes) := by
  rw [pollRound, if_neg (by omega), if_neg untagged, idcMsgId_readInto call.pBuf long, roundById]
  split_ifs <;> simp_all

theorem pollRound_of_tagged (long : 4 ≤ bytes.length) (tagged : bytes.getLast? = some 0xA1) :
    pollRound call.idcMsgIdExpected (some bytes) = .again := by
  rw [pollRound, if_neg (by omega), if_pos tagged]

theorem step_message (message : polled.message = some bytes) (running : call.answer = none) (left : 1 < call.retries) :
    call.step polled =
      call.leave (readInto call.pBuf bytes) (pollRound call.idcMsgIdExpected (some bytes))
        (if bytes.length < 3 ∨ bytes.getLast? = some 0xA1 then none
          else eventMessage polled (readInto call.pBuf bytes)) := by
  rw [step, running, if_neg nofun, if_neg (by omega), message]

theorem roundById_cases (call : PollCall) (pBuf : ℕ → Byte) :
    call.roundById pBuf = .found ∨ call.roundById pBuf = .again := by
  rw [roundById]
  split_ifs
  · exact .inl rfl
  · exact .inr rfl

/-- A message is dealt with by its identifier exactly if no tag is found on it that changes anything. -/
theorem classified_iff (call : PollCall) (polled : Polled) : call.Classified polled ↔ call.Untagged polled := by
  refine forall_congr' fun bytes => forall_congr' fun message => forall_congr' fun long => forall_congr' fun _ =>
    forall_congr' fun running => forall_congr' fun left => ?_
  rw [step_message message running left]
  by_cases tagged : bytes.getLast? = some 0xA1
  · rw [pollRound_of_tagged long tagged, if_pos (.inr tagged)]
    constructor
    · intro same
      have answer := congrArg PollCall.answer same
      have sent : call.sent ++ [] = call.sent ++ _ := congrArg PollCall.sent same
      refine .inr ⟨(roundById_cases call _).resolve_left fun found => ?_, ?_⟩
      · rw [found] at answer
        cases answer
      · exact Option.toList_eq_nil_iff.mp (List.append_cancel_left sent).symm
    · rintro (untagged | ⟨again, nothing⟩)
      · exact absurd tagged untagged
      · rw [again, nothing]
  · rw [pollRound_of_untagged long tagged, if_neg fun skipped => skipped.elim (by omega) tagged]
    exact iff_of_true rfl (.inl tagged)

/-- In every call, all messages are dealt with by their identifiers exactly if no tag is found on one of them that
changes anything. -/
theorem call_classified_iff (idcMsgIdExpected : BitVec 16) (stack : ℕ → Byte) (rounds : List Polled) :
    Run.Along step Classified (enter idcMsgIdExpected stack) rounds ↔
      Run.Along step Untagged (enter idcMsgIdExpected stack) rounds :=
  ⟨.mono fun call polled => (classified_iff call polled).mp, .mono fun call polled => (classified_iff call polled).mpr⟩

/-- The acknowledgement of `CMD_PMD_StatusGet` with `0xA1` as the last byte of its payload. -/
def taggedAck : Polled := ⟨some [0x40, 0x6c, 0, 0, 0, 0, 0, 0xA1], true, some {}⟩

/-- The acknowledgement is neither forwarded nor does it end the call. -/
theorem taggedAck_not_classified : ¬ Run.Along step Classified (enter 0x162 fun _ => 0) [taggedAck] := by
  rintro ⟨classified, -⟩
  have answer := congrArg answer (classified _ rfl (by decide) (by decide) rfl (by decide))
  exact absurd answer (by decide)

end PollCall

end Shdsl
