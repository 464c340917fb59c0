import ShdslBridge.Driver.Mpi
import ShdslBridge.Lib.Run
import ShdslBridge.Link.Poll

/-! # Commands and their acknowledgements

`rt_shdsl_send_idc_msg` writes a command and polls for its acknowledgement under `g_sh_lock`, so
calls are serialised, but the answers of the device are not: an answer becomes readable at any
later time, between notifications and in any order, also after its call has given up. Commands are
numbered as they are issued, and a message of the device remembers the command that it answers.

The header has a transaction code, and every command carries the same one. Nothing but the message
identifier separates the answer to this command from a late answer to an earlier one.
-/

namespace Shdsl

open Pef24628e (Byte idcHeaderTcId)
open Run

/-- The identifier of a command. Command identifiers have nine bits, acknowledgements add bit 9,
and the other message groups start at 0x400. -/
structure CmdId where
  bits : BitVec 9
  nonzero : bits ≠ 0

/-- The identifier as the argument `msg_id`. -/
def CmdId.msgId (id : CmdId) : BitVec 16 := id.bits.setWidth 16

/-- The transaction code of every command. -/
def tcId : BitVec 16 := 0xFFFF

/-- The four header bytes that `rt_pef24638_send_idc_msg` prepares. -/
def idcHeader (msgId : BitVec 16) (nLength : ℕ) : List Byte :=
  [ (BitVec.ofNat 8 (nLength / 4) &&& 0x1F) ||| ((msgId.setWidth 8 &&& 0x07) <<< 5),
    (msgId >>> 3).setWidth 8,
    tcId.setWidth 8,
    (tcId >>> 8).setWidth 8 &&& 0x07 ]

/-- The message that `rt_pef24638_send_idc_msg` writes, if the length passes its two checks. -/
def idcMessage (msgId : BitVec 16) (params : List Byte) : Option (List Byte) :=
  if params.length > 120 then none
  else if params.length % 4 ≠ 0 then none
  else some (idcHeader msgId params.length ++ params)

def bytesMsgId (bytes : List Byte) : BitVec 16 := idcMsgId fun i => bytes.getD i 0

/-- The transaction code of a message. -/
def bytesTcId (bytes : List Byte) : BitVec 16 := idcHeaderTcId (bytes.getD 2 0) (bytes.getD 3 0)

private theorem lowBits_header (length : Byte) (low : BitVec 3) :
    ((((length &&& 0x1F) ||| (low.setWidth 8 <<< 5)) >>> 5) &&& 0x07) = low.setWidth 8 := by
  revert length low
  decide +kernel

/-- Three bits of an identifier stand in the first byte of the header, the others in the second. -/
private theorem msgId_bytes (bits : BitVec 9) :
    ((bits.setWidth 16).setWidth 8 &&& 0x07 : Byte) = (bits.setWidth 3).setWidth 8 ∧
      ((bits.setWidth 3).setWidth 8 : Byte).setWidth 16 |||
        ((((bits.setWidth 16) >>> 3).setWidth 8 : Byte).setWidth 16 <<< 3) = bits.setWidth 16 := by
  revert bits
  decide +kernel

theorem bytesMsgId_idcMessage {id : CmdId} {params bytes : List Byte}
    (built : idcMessage id.msgId params = some bytes) : bytesMsgId bytes = id.msgId := by
  simp only [idcMessage] at built
  split at built
  · cases built
  split at built
  · cases built
  · cases built
    simp only [bytesMsgId, idcMsgId, idcHeader, CmdId.msgId, List.cons_append, List.getD_cons_zero,
      List.getD_cons_succ]
    obtain ⟨low, join⟩ := msgId_bytes id.bits
    rw [low, lowBits_header]
    exact join

/-- What the device sends in answer to a command: the identifier with bit 9 set and the transaction
code of the command. -/
def Acknowledges (command answer : List Byte) : Prop :=
  4 ≤ answer.length ∧ bytesMsgId answer = bytesMsgId command ||| 0x200 ∧ bytesTcId answer = bytesTcId command

instance (command answer : List Byte) : Decidable (Acknowledges command answer) :=
  inferInstanceAs (Decidable (_ ∧ _ ∧ _))

/-- Everything else that can be read: fragments, records of the SCI monitor, and messages of the
other groups. -/
def IsNotification (bytes : List Byte) : Prop :=
  bytes.length < 3 ∨ bytes.getLast? = some 0xA1 ∨ 0x400 ≤ bytesMsgId bytes

instance (bytes : List Byte) : Decidable (IsNotification bytes) :=
  inferInstanceAs (Decidable (_ ∨ _ ∨ _))

/-- Bit 9 stands above the identifier, and below the other groups. -/
private theorem ack_bits (bits : BitVec 9) :
    bits.setWidth 16 ||| 0x200 < (0x400 : BitVec 16) ∧
      (bits.setWidth 16 ||| 0x200 : BitVec 16).setWidth 9 = bits := by
  revert bits
  decide +kernel

/-- The acknowledgements of two commands have different identifiers. -/
theorem CmdId.ack_injective {id other : CmdId} (same : id.msgId ||| 0x200 = other.msgId ||| 0x200) :
    id.msgId = other.msgId := by
  have bits := congrArg (BitVec.setWidth 9) same
  simp only [CmdId.msgId] at bits ⊢
  rw [(ack_bits id.bits).2, (ack_bits other.bits).2] at bits
  rw [bits]

theorem CmdId.msgId_ne_zero (id : CmdId) : id.msgId ≠ 0 := by
  intro zero
  have mask := (ack_bits id.bits).2
  rw [show id.bits.setWidth 16 = 0 from zero] at mask
  exact id.nonzero mask.symm

/-- A round that waits for a command does not end with a notification. -/
theorem pollRound_notification (id : CmdId) {bytes : List Byte} (other : IsNotification bytes) :
    pollRound id.msgId (some bytes) ≠ .found := by
  intro isFound
  obtain ⟨read, sameRead, long, notMonitor, matching⟩ := pollRound_eq_found id.msgId_ne_zero isFound
  obtain rfl := Option.some.inj sameRead
  rcases other with short | monitor | group
  · omega
  · exact notMonitor monitor
  · have small := (ack_bits id.bits).1
    rw [bytesMsgId, matching] at group
    exact absurd small (BitVec.not_lt.mpr group)

/-- A message of the device. `answerTo` is the number of the command that it answers; no code reads
it. -/
structure DeviceMsg where
  bytes : List Byte
  answerTo : Option ℕ

/-- The call inside `g_sh_lock`. The number of its command is `none` in `rt_shdsl_poll`. -/
structure Call where
  command : Option ℕ
  idcMsgIdExpected : BitVec 16
  retries : ℕ

/-- What a call of `rt_shdsl_send_idc_msg` returned, with the last message that it read. -/
structure CallResult where
  command : ℕ
  value : Bool
  consumed : Option DeviceMsg

/-- The calls and the device. `unanswered` holds the commands that the device has not answered,
`inFlight` the messages that are not readable yet. -/
structure CallState where
  call : Option Call
  issued : ℕ
  unanswered : List (ℕ × List Byte)
  inFlight : List DeviceMsg
  readable : List DeviceMsg
  results : List CallResult

inductive CallEvent
  /-- A thread calls `rt_shdsl_send_idc_msg`. The write may fail, and the device may have the
  command then or not. -/
  | issue (id : CmdId) (params : List Byte) (written reaches : Bool)
  /-- A thread calls `rt_shdsl_poll(device, 0)`. -/
  | poll
  /-- The call goes once around the loop of `rt_pef24628_poll`. -/
  | round
  /-- The device answers a command. -/
  | answer (place : ℕ) (bytes : List Byte)
  /-- The device sends something else. -/
  | notify (bytes : List Byte) (other : IsNotification bytes)
  /-- A message becomes readable. -/
  | arrive (place : ℕ)

namespace CallState

def ret (s : CallState) (call : Call) (value : Bool) (consumed : Option DeviceMsg) : CallState :=
  { s with
    call := none
    results :=
      match call.command with
      | none => s.results
      | some command => s.results ++ [{ command, value, consumed }] }

/-- `rt_pef24638_send_idc_msg` up to the poll. -/
def issue (s : CallState) (id : CmdId) (params : List Byte) (written reaches : Bool) : CallState :=
  let call : Call := { command := some s.issued, idcMsgIdExpected := id.msgId, retries := 100 }
  match idcMessage id.msgId params with
  | none => { s with issued := s.issued + 1 }.ret call false none
  | some bytes =>
    let s := { s with
      issued := s.issued + 1
      unanswered := if reaches then s.unanswered ++ [(s.issued, bytes)] else s.unanswered }
    if written then { s with call := some call } else s.ret call false none

/-- `while (--retries)` and the loop body. -/
def round (s : CallState) (call : Call) : CallState :=
  if call.retries - 1 = 0 then s.ret call false none
  else
    let message := s.readable.head?
    let s := { s with readable := s.readable.tail }
    match pollRound call.idcMsgIdExpected (message.map DeviceMsg.bytes) with
    | .again => { s with call := some { call with retries := call.retries - 1 } }
    | .broken => s.ret call false message
    | .found => s.ret call true message

/-- One step of the system. A call that finds the lock taken waits, which is no step. -/
def step (s : CallState) : CallEvent → CallState
  | .issue id params written reaches =>
    if s.call.isSome then s else s.issue id params written reaches
  | .poll =>
    if s.call.isSome then s
    else { s with call := some { command := none, idcMsgIdExpected := 0, retries := 100 } }
  | .round =>
    match s.call with
    | none => s
    | some call => s.round call
  | .answer place bytes =>
    match s.unanswered[place]? with
    | none => s
    | some (command, sent) =>
      if Acknowledges sent bytes then
        { s with
          unanswered := s.unanswered.eraseIdx place
          inFlight := s.inFlight ++ [{ bytes, answerTo := some command }] }
      else s
  | .notify bytes _ => { s with inFlight := s.inFlight ++ [{ bytes, answerTo := none }] }
  | .arrive place =>
    match s.inFlight[place]? with
    | none => s
    | some message =>
      { s with inFlight := s.inFlight.eraseIdx place, readable := s.readable ++ [message] }

def boot : CallState where
  call := none
  issued := 0
  unanswered := []
  inFlight := []
  readable := []
  results := []

def unread (s : CallState) : List DeviceMsg := s.inFlight ++ s.readable

/-- Every call that returned TRUE has read the answer to its own command. -/
def Correlated (s : CallState) : Prop :=
  ∀ result ∈ s.results, result.value = true →
    ∃ message, result.consumed = some message ∧ message.answerTo = some result.command

/-- No answer to an earlier command with the same identifier is still to come when a command is
issued. -/
def NoLateAnswer (s : CallState) : CallEvent → Prop
  | .issue id _ _ _ => s.call = none →
    (∀ sent ∈ s.unanswered, bytesMsgId sent.2 ≠ id.msgId) ∧
    ∀ message ∈ s.unread, message.answerTo ≠ none → bytesMsgId message.bytes ≠ id.msgId ||| 0x200
  | _ => True

/-- The answers still to come that the call would take belong to its command. -/
structure OwnAnswers (s : CallState) (id : CmdId) (command : ℕ) : Prop where
  unanswered : ∀ sent ∈ s.unanswered, bytesMsgId sent.2 = id.msgId → sent.1 = command
  unread : ∀ message ∈ s.unread, ∀ answered, message.answerTo = some answered →
    bytesMsgId message.bytes = id.msgId ||| 0x200 → answered = command

structure CallInv (s : CallState) : Prop where
  /-- What the device can still answer is a command. -/
  commands : ∀ sent ∈ s.unanswered, ∃ id : CmdId, bytesMsgId sent.2 = id.msgId
  others : ∀ message ∈ s.unread, message.answerTo = none → IsNotification message.bytes
  own : ∀ call command, s.call = some call → call.command = some command →
    ∃ id : CmdId, call.idcMsgIdExpected = id.msgId ∧ s.OwnAnswers id command
  correlated : s.Correlated

theorem callInv_boot : boot.CallInv where
  commands sent member := by cases member
  others message member := by cases member
  own call command running := by cases running
  correlated result member := by cases member

variable {s : CallState}

theorem tail_unread {message : DeviceMsg}
    (member : message ∈ ({ s with readable := s.readable.tail } : CallState).unread) : message ∈ s.unread := by
  rcases List.mem_append.mp member with inFlight | readable
  · exact List.mem_append_left _ inFlight
  · exact List.mem_append_right _ (List.mem_of_mem_tail readable)

/-- A return keeps it; one with TRUE asks that the message read answers the command. -/
theorem ret_inv (inv : s.CallInv) (call : Call) (isTrue : Bool) (message : Option DeviceMsg)
    (answers : isTrue = true → ∀ command, call.command = some command →
      ∃ read, message = some read ∧ read.answerTo = some command) :
    (s.ret call isTrue message).CallInv where
  commands := inv.commands
  others := inv.others
  own other command running := by cases running
  correlated := by
    intro result member succeeded
    cases numbered : call.command with
    | none =>
      simp only [ret, numbered] at member
      exact inv.correlated result member succeeded
    | some command =>
      simp only [ret, numbered, List.mem_append, List.mem_singleton] at member
      rcases member with old | rfl
      · exact inv.correlated result old succeeded
      · exact answers succeeded command numbered

theorem read_inv (inv : s.CallInv) : ({ s with readable := s.readable.tail } : CallState).CallInv where
  commands := inv.commands
  others message member := inv.others message (tail_unread member)
  own call command running numbered := by
    obtain ⟨id, expected, own⟩ := inv.own call command running numbered
    exact ⟨id, expected, own.unanswered, fun message member => own.unread message (tail_unread member)⟩
  correlated := inv.correlated

theorem again_inv (inv : s.CallInv) {call : Call} (running : s.call = some call) (retries : ℕ) :
    ({ s with call := some { call with retries } } : CallState).CallInv where
  commands := inv.commands
  others := inv.others
  own other command same numbered := by
    cases same
    obtain ⟨id, expected, own⟩ := inv.own call command running numbered
    exact ⟨id, expected, own.unanswered, own.unread⟩
  correlated := inv.correlated

/-- The message that ends the call of a command is the answer to this command. -/
theorem found_answers (inv : s.CallInv) {call : Call} (running : s.call = some call)
    (isFound : pollRound call.idcMsgIdExpected (s.readable.head?.map DeviceMsg.bytes) = .found) {command : ℕ}
    (numbered : call.command = some command) : ∃ read, s.readable.head? = some read ∧ read.answerTo = some command := by
  obtain ⟨id, expected, own⟩ := inv.own call command running numbered
  rw [expected] at isFound
  obtain ⟨bytes, isRead, -, -, matching⟩ := pollRound_eq_found id.msgId_ne_zero isFound
  obtain ⟨message, first, rfl⟩ := Option.map_eq_some_iff.mp isRead
  have member : message ∈ s.unread := List.mem_append_right _ (List.mem_of_mem_head? first)
  refine ⟨message, first, ?_⟩
  cases tagged : message.answerTo with
  | none =>
    rw [first] at isFound
    exact absurd isFound (pollRound_notification id (inv.others message member tagged))
  | some answered => rw [own.unread message member answered tagged matching]

theorem round_inv (inv : s.CallInv) {call : Call} (running : s.call = some call) : (s.round call).CallInv := by
  simp only [round]
  split
  · exact ret_inv inv call false none nofun
  · split
    · exact again_inv (read_inv inv) running _
    · exact ret_inv (read_inv inv) call false _ nofun
    · rename_i isFound
      refine ret_inv (read_inv inv) call true _ fun _ command numbered => ?_
      exact found_answers inv running isFound numbered

theorem issue_inv (inv : s.CallInv) (idle : s.call = none) {id : CmdId}
    (noneUnanswered : ∀ sent ∈ s.unanswered, bytesMsgId sent.2 ≠ id.msgId)
    (noneUnread : ∀ message ∈ s.unread, message.answerTo ≠ none → bytesMsgId message.bytes ≠ id.msgId ||| 0x200)
    (params : List Byte) (written reaches : Bool) : (s.issue id params written reaches).CallInv := by
  simp only [issue]
  split
  · refine ret_inv ?_ _ false _ nofun
    exact ⟨inv.commands, inv.others, fun call command running => by simp [idle] at running, inv.correlated⟩
  · rename_i bytes built
    -- the device may have the new command now, and only that one has its identifier
    have sent : ∀ entry ∈ (if reaches then s.unanswered ++ [(s.issued, bytes)] else s.unanswered),
        entry ∈ s.unanswered ∨ entry = (s.issued, bytes) := by
      intro entry member
      split at member
      · rcases List.mem_append.mp member with old | new
        · exact .inl old
        · exact .inr (List.mem_singleton.mp new)
      · exact .inl member
    have commands : ∀ entry ∈ (if reaches then s.unanswered ++ [(s.issued, bytes)] else s.unanswered),
        ∃ id : CmdId, bytesMsgId entry.2 = id.msgId := by
      intro entry member
      rcases sent entry member with old | rfl
      · exact inv.commands entry old
      · exact ⟨id, bytesMsgId_idcMessage built⟩
    split
    · refine ⟨commands, inv.others, ?_, inv.correlated⟩
      intro call command same numbered
      cases same
      cases numbered
      refine ⟨id, rfl, ?_, ?_⟩
      · intro entry member matching
        rcases sent entry member with old | rfl
        · exact absurd matching (noneUnanswered entry old)
        · rfl
      · intro message member answered tagged matching
        exact absurd matching (noneUnread message member (by simp [tagged]))
    · refine ret_inv ?_ _ false _ nofun
      exact ⟨commands, inv.others, fun call command running => by simp [idle] at running, inv.correlated⟩

/-- A new message in flight keeps the invariant if it is a notification, or the answer to a command
that the device had. -/
theorem send_inv (inv : s.CallInv) {unanswered : List (ℕ × List Byte)}
    (fewer : ∀ sent ∈ unanswered, sent ∈ s.unanswered) (message : DeviceMsg)
    (other : message.answerTo = none → IsNotification message.bytes)
    (answers : ∀ command, message.answerTo = some command → ∃ sent ∈ s.unanswered, sent.1 = command ∧ bytesMsgId message.bytes = bytesMsgId sent.2 ||| 0x200)
    :
    ({ s with unanswered, inFlight := s.inFlight ++ [message] } : CallState).CallInv := by
  have split : ∀ read ∈ ({ s with unanswered, inFlight := s.inFlight ++ [message] } : CallState).unread,
      read ∈ s.unread ∨ read = message := by
    intro read member
    simp only [unread, List.mem_append, List.mem_singleton] at member ⊢
    tauto
  refine ⟨fun sent member => inv.commands sent (fewer sent member), ?_, ?_, inv.correlated⟩
  · intro read member isOther
    rcases split read member with old | rfl
    · exact inv.others read old isOther
    · exact other isOther
  · intro call command running numbered
    obtain ⟨id, expected, own⟩ := inv.own call command running numbered
    refine ⟨id, expected, fun sent member => own.unanswered sent (fewer sent member), ?_⟩
    intro read member answered tagged matching
    rcases split read member with old | rfl
    · exact own.unread read old answered tagged matching
    · obtain ⟨sent, sentMember, rfl, ackId⟩ := answers answered tagged
      obtain ⟨sentId, isId⟩ := inv.commands sent sentMember
      rw [ackId, isId] at matching
      exact own.unanswered sent sentMember (isId.trans (CmdId.ack_injective matching))

theorem arrive_inv (inv : s.CallInv) {place : ℕ} {message : DeviceMsg} (present : s.inFlight[place]? = some message) :
    ({ s with inFlight := s.inFlight.eraseIdx place, readable := s.readable ++ [message] } :
      CallState).CallInv := by
  have same : ∀ read ∈ ({ s with
      inFlight := s.inFlight.eraseIdx place
      readable := s.readable ++ [message] } : CallState).unread, read ∈ s.unread := by
    intro read member
    simp only [unread, List.mem_append, List.mem_singleton] at member ⊢
    rcases member with inFlight | readable | rfl
    · exact .inl (List.mem_of_mem_eraseIdx inFlight)
    · exact .inr readable
    · exact .inl (List.mem_of_getElem? present)
  refine ⟨inv.commands, fun read member => inv.others read (same read member), ?_, inv.correlated⟩
  intro call command running numbered
  obtain ⟨id, expected, own⟩ := inv.own call command running numbered
  exact ⟨id, expected, own.unanswered, fun read member => own.unread read (same read member)⟩

/-- A step keeps the invariant, unless it issues a command while a late answer is still to come. -/
theorem step_inv (inv : s.CallInv) {event : CallEvent} (fresh : s.NoLateAnswer event) : (s.step event).CallInv := by
  cases event with
  | issue id params written reaches =>
    simp only [step]
    split
    · exact inv
    · rename_i free
      have idle : s.call = none := by simpa using free
      obtain ⟨noneUnanswered, noneUnread⟩ := fresh idle
      exact issue_inv inv idle noneUnanswered noneUnread params written reaches
  | poll =>
    simp only [step]
    split
    · exact inv
    · refine ⟨inv.commands, inv.others, ?_, inv.correlated⟩
      intro call command same numbered
      cases same
      cases numbered
  | round =>
    simp only [step]
    split
    · exact inv
    · rename_i call running
      exact round_inv inv running
  | answer place bytes =>
    simp only [step]
    split
    · exact inv
    · rename_i command sent present
      split
      · rename_i acknowledges
        apply send_inv inv (fun entry member => List.mem_of_mem_eraseIdx member)
        · intro isOther
          cases isOther
        · intro answered tagged
          cases tagged
          exact ⟨_, List.mem_of_getElem? present, rfl, acknowledges.2.1⟩
      · exact inv
  | notify bytes other =>
    apply send_inv inv (fun entry member => member)
    · exact fun _ => other
    · intro answered tagged
      cases tagged
  | arrive place =>
    simp only [step]
    split
    · exact inv
    · rename_i message present
      exact arrive_inv inv present

/-- In every run, as long as no command is issued while an answer to an earlier command with the
same identifier is still to come, a call returns TRUE only for the answer to its own command. -/
theorem correlated_of_noLateAnswer (events : List CallEvent) (fresh : Along step NoLateAnswer boot events) :
    Always step Correlated boot events :=
  fresh.always (fun _ _ inv holds => step_inv inv holds) (fun _ inv => inv.correlated) callInv_boot

/-- Two status requests, each answered while its call is polling, with a notification in between. -/
def promptAnswers : List CallEvent :=
  let statusGet : CmdId := { bits := 0x162, nonzero := by decide }
  [ .issue statusGet [0, 0, 0, 0] true true, .answer 0 [0x40, 0x6C, 0xFF, 0x07],
    .notify [0x02, 0xD2, 0x00, 0x00] (by decide), .arrive 0, .round, .arrive 0, .poll, .round,
    .issue statusGet [0, 0, 0, 0] true true, .answer 0 [0x40, 0x6C, 0xFF, 0x07], .arrive 0, .round ]

/-- Both calls return TRUE, each for its own answer. -/
theorem promptAnswers_correlated :
    Always step Correlated boot promptAnswers ∧
      (exec step boot promptAnswers).results.map CallResult.value = [true, true] := by
  constructor
  · apply correlated_of_noLateAnswer promptAnswers
    simp only [promptAnswers, along_cons, along_nil, NoLateAnswer, true_and, and_true]
    constructor
    · intro _
      exact ⟨by decide, by decide⟩
    · intro _
      exact ⟨by decide +kernel, by decide +kernel⟩
  · decide +kernel

/-- Requests the status twice. The first call finds nothing to read and gives up, and the answer of
the device to the first request arrives during the second call. -/
def lateAnswer : List CallEvent :=
  let statusGet : CmdId := { bits := 0x162, nonzero := by decide }
  [ .issue statusGet [0, 0, 0, 0] true true, .round,
    .issue statusGet [0, 0, 0, 0] true true, .answer 0 [0x40, 0x6C, 0xFF, 0x07], .arrive 0, .round ]

/-- The second call succeeds with the answer to the first command. -/
theorem lateAnswer_not_correlated : ¬ Always step Correlated boot lateAnswer := by
  intro always
  have last := always.last
  have returned : (exec step boot lateAnswer).results.getLast? = some
      { command := 1, value := true, consumed := some { bytes := [0x40, 0x6C, 0xFF, 0x07], answerTo := some 0 } } := by
    rfl
  obtain ⟨message, consumed, answers⟩ := last _ (List.mem_of_getLast? returned) rfl
  cases consumed
  exact absurd answers (by decide)

end CallState

end Shdsl
