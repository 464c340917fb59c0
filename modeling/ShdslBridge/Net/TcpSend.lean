import ShdslBridge.Lib.Run
import ShdslBridge.Lib.StopAndWait
import ShdslBridge.Net.TcpConn

/-! # What a connection sends

One connection is a stop-and-wait sender: `len` bytes from `snd_nxt` on are outstanding, and the
application keeps them. New bytes leave only behind a segment with the number of the byte behind
what is outstanding as its acknowledgement. The stack leaves it to the application to hand over the same bytes again.
It also relies on the peer not to close the stream in the segment that acknowledges what is
outstanding: for such a segment `snd_nxt` advances, `len` stays, and the bytes that have arrived are
sent once more as the next ones.
-/

namespace Uip

open Memory Run StopAndWait

section Log

/-- A data packet with its number and its data, or the number that a segment acknowledges. -/
abbrev TcpItem := Item (BitVec 32) (BitVec 8)

/-- A connection, and what it has sent and heard so far. -/
structure TcpLog where
  conn : Conn
  items : List TcpItem

def TcpInput.heard : TcpInput → List TcpItem
  | .segment seg => if seg.flags.ack then [.heard seg.ackno.value] else []
  | .timer _ => []

def Outcome.dataSent (out : Outcome) : List TcpItem :=
  (out.packet.toList.filter fun packet => packet.data ≠ []).map fun packet => .sent packet.seqno.value packet.data

/-- The segment acknowledges all bytes in front of one. -/
def Segment.Acknowledges (seg : Segment) (number : BitVec 32) : Prop := seg.flags.ack = true ∧ seg.ackno.value = number

def TcpLog.step (s : TcpLog) (event : TcpEvent) : TcpLog :=
  match s.conn.process event with
  | none => { s with items := s.items ++ event.input.heard }
  | some out => { conn := out.conn, items := s.items ++ event.input.heard ++ out.dataSent }

def TcpLog.outstanding (s : TcpLog) : List (BitVec 8) := (s.items.filterMap Item.piece?).getLast?.getD []

def numbered (iss : BitVec 32) (place : ℕ) : BitVec 32 := iss + 1 + BitVec.ofNat 32 place

end Log

section Rules

/-- The rules for the application. For a retransmission it hands over the outstanding bytes again, or
nothing. In the other calls it may close or abort. Else it leaves `UIP_ACKDATA` alone, and as long as data
is outstanding it hands over the same bytes whenever it is called. -/
def Call.AnsweredBy (call : Call) (outstanding : List (BitVec 8)) (reply : Reply) : Prop :=
  if call.flags.rexmit then 0 < reply.slen → readAt reply.sappdata 0 call.conn.len.toNat = outstanding
  else reply.flags.abort ∨ reply.flags.close ∨ reply.flags.ackdata = call.flags.ackdata ∧
    (call.conn.len ≠ 0 → call.flags.ackdata = false →
      0 < reply.slen ∧ readAt reply.sappdata 0 call.conn.len.toNat = outstanding)

/-- The segment closes the stream of the peer and acknowledges what is outstanding. -/
def Conn.FinAcks (c : Conn) (seg : Segment) : Prop :=
  c.state = .established ∧ seg.flags.rst = false ∧ c.unexpected seg = false ∧ seg.flags.fin = true ∧
    c.stopped = false ∧ c.acknowledged seg = true

instance (call : Call) (outstanding : List (BitVec 8)) (reply : Reply) :
    Decidable (call.AnsweredBy outstanding reply) := by
  unfold Call.AnsweredBy
  infer_instance

instance (c : Conn) (seg : Segment) : Decidable (c.FinAcks seg) := inferInstanceAs (Decidable (_ ∧ _))

/-- The segment of an event does not close and acknowledge. -/
def TcpInput.Separate (c : Conn) : TcpInput → Prop
  | .segment seg => ¬ c.FinAcks seg
  | .timer _ => True

instance (c : Conn) : (input : TcpInput) → Decidable (input.Separate c)
  | .segment seg => inferInstanceAs (Decidable (¬ c.FinAcks seg))
  | .timer _ => isTrue trivial

/-- The application keeps to the rules, and no segment closes and acknowledges. -/
def TcpEvent.Orderly (s : TcpLog) (event : TcpEvent) : Prop :=
  (∀ out ∈ s.conn.process event, ∀ call ∈ out.call, call.conn.state = .established →
    call.AnsweredBy s.outstanding (event.app call)) ∧ event.input.Separate s.conn

instance (s : TcpLog) (event : TcpEvent) : Decidable (event.Orderly s) := inferInstanceAs (Decidable (_ ∧ _))

end Rules

section Invariant

variable {iss : BitVec 32} {log : List (Item ℕ (BitVec 8))} {acked : ℕ} {stream : List (BitVec 8)}

/-- The connection as a stop-and-wait sender. -/
structure Conn.Holds (c : Conn) (iss : BitVec 32)
    (outstanding : List (BitVec 8)) (acked : ℕ) (stream : List (BitVec 8)) :
    Prop where
  opening : c.state = .synRcvd ∨ c.state = .synSent → c.sndNxt.value = iss ∧ c.len = 1 ∧ acked = 0 ∧ stream = []
  number : c.state = .established → c.sndNxt.value = iss + 1 + BitVec.ofNat 32 acked
  length : c.state = .established → acked + c.len.toNat = stream.length
  kept : c.state = .established → c.len ≠ 0 → outstanding = stream.drop acked

/-- What is sent and heard is the log of a stop-and-wait sender. -/
structure TcpLog.Sending (s : TcpLog) (iss : BitVec 32) (log : List (Item ℕ (BitVec 8))) (acked : ℕ)
    (stream : List (BitVec 8)) : Prop where
  sends : Sends log acked stream
  logged : s.items = log.map (Item.map (numbered iss))
  holds : s.conn.Holds iss s.outstanding acked stream

/-- What a call of the stack does to the sending side: no data and perhaps an acknowledgement, the next
piece of the stream, or the outstanding piece again. More is known to be acknowledged only if the input has
acknowledged all of the stream (`taken`). -/
inductive Outcome.Transmits (iss : BitVec 32) (taken : Prop) (outstanding : List (BitVec 8)) (acked : ℕ)
    (stream : List (BitVec 8)) (out : Outcome) : Prop
  | quiet (control : ∀ packet ∈ out.packet, packet.data = []) (upTo : ℕ)
      (known : upTo = acked ∨ taken ∧ upTo = stream.length) (holds : out.conn.Holds iss outstanding upTo stream)
  | fresh (known : stream.length = acked ∨ taken) (packet : Packet) (sent : out.packet = some packet)
      (nonempty : packet.data ≠ []) (number : packet.seqno.value = numbered iss stream.length)
      (holds : out.conn.Holds iss packet.data stream.length (stream ++ packet.data))
  | again (packet : Packet) (sent : out.packet = some packet) (nonempty : packet.data ≠ [])
      (data : packet.data = stream.drop acked) (number : packet.seqno.value = numbered iss acked)
      (holds : out.conn.Holds iss packet.data acked stream)

variable {out : Outcome}

theorem dataSent_control (control : ∀ packet ∈ out.packet, packet.data = []) : out.dataSent = [] := by
  rw [Outcome.dataSent]
  cases sent : out.packet with
  | none => rfl
  | some packet => simp [control packet sent]

theorem dataSent_data {packet : Packet} (sent : out.packet = some packet) (nonempty : packet.data ≠ []) :
    out.dataSent = [.sent packet.seqno.value packet.data] := by
  simp [Outcome.dataSent, sent, nonempty]

theorem TcpInput.heard_piece (input : TcpInput) : input.heard.filterMap Item.piece? = [] := by
  cases input with
  | timer => rfl
  | segment seg =>
    rw [TcpInput.heard]
    split <;> rfl

theorem TcpLog.outstanding_quiet (s : TcpLog) (conn : Conn) (input : TcpInput) :
    TcpLog.outstanding { conn, items := s.items ++ input.heard } = s.outstanding := by
  rw [TcpLog.outstanding, List.filterMap_append, input.heard_piece, List.append_nil, TcpLog.outstanding]

theorem TcpLog.outstanding_data (conn : Conn) (items : List TcpItem) (number : BitVec 32) (piece : List (BitVec 8)) :
    TcpLog.outstanding { conn, items := items ++ [.sent number piece] } = piece := by
  simp [TcpLog.outstanding, Item.piece?]

/-- Every number is that of a place. -/
theorem numbered_sub (iss number : BitVec 32) : numbered iss (number - (iss + 1)).toNat = number := by
  rw [numbered, BitVec.ofNat_toNat, BitVec.setWidth_eq, BitVec.add_comm, BitVec.sub_add_cancel]

/-- The log behind an input that is heard, and perhaps acknowledges all of the stream. -/
theorem TcpLog.Sending.hear {s : TcpLog} (sending : s.Sending iss log acked stream) (input : TcpInput) {taken : Prop}
    (hears : taken → input.heard = [.heard (numbered iss stream.length)]) {upTo : ℕ}
    (known : upTo = acked ∨ taken ∧ upTo = stream.length) :
    ∃ log', Sends log' upTo stream ∧ s.items ++ input.heard = log'.map (Item.map (numbered iss)) := by
  obtain ⟨sends, logged, -⟩ := sending
  rcases known with rfl | ⟨acknowledges, rfl⟩
  · rcases input with seg | buf
    · rw [TcpInput.heard]
      split
      · refine ⟨_, sends.ignored (seg.ackno.value - (iss + 1)).toNat, ?_⟩
        rw [List.map_append, logged, List.map_singleton, Item.map, numbered_sub]
      · exact ⟨log, sends, by rw [List.append_nil, logged]⟩
    · exact ⟨log, sends, by rw [TcpInput.heard, List.append_nil, logged]⟩
  · refine ⟨_, sends.acknowledged, ?_⟩
    rw [hears acknowledges, List.map_append, logged]
    rfl

theorem TcpLog.Sending.transmit {s : TcpLog} {input : TcpInput} {taken : Prop}
    (sending : s.Sending iss log acked stream) (transmits : out.Transmits iss taken s.outstanding acked stream)
    (hears : taken → input.heard = [.heard (numbered iss stream.length)]) :
    ∃ log' acked' stream',
      TcpLog.Sending { conn := out.conn, items := s.items ++ input.heard ++ out.dataSent } iss log' acked' stream' := by
  cases transmits with
  | quiet control upTo known holds =>
    obtain ⟨log', sends, logged⟩ := sending.hear _ hears known
    rw [dataSent_control control, List.append_nil]
    exact ⟨log', upTo, stream, sends, logged, (s.outstanding_quiet out.conn input).symm ▸ holds⟩
  | fresh known packet sent nonempty number holds =>
    obtain ⟨log', sends, logged⟩ := sending.hear _ hears (known.imp_right fun taken => ⟨taken, rfl⟩)
    rw [dataSent_data sent nonempty]
    refine ⟨_, _, _, sends.fresh packet.data, ?_, (TcpLog.outstanding_data ..).symm ▸ holds⟩
    rw [logged, List.map_append, number]
    rfl
  | again packet sent nonempty data number holds =>
    obtain ⟨log', sends, logged⟩ := sending.hear _ hears (.inl rfl)
    rw [dataSent_data sent nonempty]
    refine ⟨_, _, _, sends.again, ?_, (TcpLog.outstanding_data ..).symm ▸ holds⟩
    rw [logged, List.map_append, number, data]
    rfl

end Invariant

section Step

variable {iss : BitVec 32} {taken : Prop} {outstanding : List (BitVec 8)} {acked : ℕ} {stream : List (BitVec 8)}
  {c : Conn}

theorem holds_of_state {state : TcpState} (reached : c.state = state)
    (other : state ≠ .synRcvd ∧ state ≠ .synSent ∧ state ≠ .established) : c.Holds iss outstanding acked stream := by
  obtain ⟨notRcvd, notSent, notEstablished⟩ := other
  refine ⟨fun opening => ?_, fun same => ?_, fun same => ?_, fun same => ?_⟩
  · rcases opening with same | same
    · exact absurd (reached.symm.trans same) notRcvd
    · exact absurd (reached.symm.trans same) notSent
  all_goals exact absurd (reached.symm.trans same) notEstablished

theorem quiet_of_state {state : TcpState} {out : Outcome} (control : ∀ packet ∈ out.packet, packet.data = [])
    (reached : out.conn.state = state)
    (other : state ≠ .synRcvd ∧ state ≠ .synSent ∧ state ≠ .established) :
    out.Transmits iss taken outstanding acked stream :=
  .quiet control acked (.inl rfl) (holds_of_state reached other)

variable {d : Conn} {reply : Reply} {slen : BitVec 16}

theorem Conn.Holds.congr (holds : c.Holds iss outstanding acked stream) (state : d.state = c.state)
    (number : d.sndNxt = c.sndNxt) (length : d.len = c.len) : d.Holds iss outstanding acked stream := by
  refine ⟨?_, ?_, ?_, ?_⟩
  · rw [state, number, length]
    exact holds.opening
  · rw [state, number]
    exact holds.number
  · rw [state, length]
    exact holds.length
  · rw [state, length]
    exact holds.kept

theorem apprexmit_control (none : ¬ (0 < slen ∧ 0 < c.len)) : ∀ packet ∈ c.apprexmit reply slen, packet.data = [] := by
  rw [Conn.apprexmit, if_neg none]
  split_ifs
  · rintro packet ⟨⟩
    rfl
  · rintro packet ⟨⟩

theorem apprexmit_data (sends : 0 < slen ∧ 0 < c.len) :
    c.apprexmit reply slen =
      some (c.packet { ack := true, psh := true } (readAt reply.sappdata 0 c.len.toNat) false) := by
  rw [Conn.apprexmit, if_pos sends]

theorem len_pos {len : BitVec 16} (nonzero : len ≠ 0) : 0 < len :=
  BitVec.lt_def.mpr (Nat.pos_of_ne_zero fun zero => nonzero (BitVec.eq_of_toNat_eq zero))

theorem packet_nonempty {data : ℕ → BitVec 8} {len : BitVec 16} (positive : 0 < len) : readAt data 0 len.toNat ≠ [] := by
  apply List.ne_nil_of_length_pos
  rw [readAt_length]
  exact positive

theorem appsend_fresh {call : Call} (established : c.state = .established) (known : stream.length = acked ∨ taken)
    (number : c.sndNxt.value = numbered iss stream.length) :
    (c.appsend call reply).Transmits iss taken outstanding acked stream := by
  rw [Conn.appsend]
  split_ifs with aborts closes
  · exact quiet_of_state (by rintro packet ⟨⟩; rfl) (rfl : _ = TcpState.closed) (by decide)
  · exact quiet_of_state (by rintro packet ⟨⟩; rfl) (rfl : _ = TcpState.finWait1) (by decide)
  · generalize Conn.sendLen _ reply = slen
    dsimp only
    by_cases sends : 0 < slen
    · rw [apprexmit_data ⟨sends, sends⟩]
      refine .fresh known _ rfl (packet_nonempty sends) number ⟨?_, fun _ => number, fun _ => ?_, fun _ _ => ?_⟩
      · rintro (opening | opening) <;> exact absurd (established.symm.trans opening) (by decide)
      · exact (by rw [List.length_append]; exact congrArg _ (readAt_length ..).symm)
      · exact List.drop_left.symm
    · apply Outcome.Transmits.quiet (apprexmit_control fun both => sends both.1) stream.length
        (known.imp_right fun taken => ⟨taken, rfl⟩)
      refine ⟨?_, fun _ => number, fun _ => ?_, fun _ outstanding => ?_⟩
      · rintro (opening | opening) <;> exact absurd (established.symm.trans opening) (by decide)
      · rw [BitVec.le_zero_iff.mp (BitVec.not_lt.mp sends)]
        rfl
      · exact absurd (BitVec.le_zero_iff.mp (BitVec.not_lt.mp sends)) outstanding

theorem apprexmit_again {call : Call} (established : c.state = .established)
    (holds : c.Holds iss outstanding acked stream) (sends : 0 < slen ∧ 0 < c.len)
    (same : readAt reply.sappdata 0 c.len.toNat = outstanding) :
    Outcome.Transmits iss taken outstanding acked stream
      { conn := c, packet := c.apprexmit reply slen, call } := by
  have notZero : c.len ≠ 0 := fun zero => absurd sends.2 (by rw [zero]; decide)
  rw [apprexmit_data sends]
  apply Outcome.Transmits.again _ rfl (packet_nonempty sends.2)
  · exact same.trans (holds.kept established notZero)
  · exact holds.number established
  · change c.Holds iss (readAt reply.sappdata 0 c.len.toNat) acked stream
    rwa [same]

theorem appsend_again {call : Call} (established : c.state = .established)
    (holds : c.Holds iss outstanding acked stream) (outstands : c.len ≠ 0)
    (rules : reply.flags.abort ∨ reply.flags.close ∨ reply.flags.ackdata = false ∧ 0 < reply.slen ∧ readAt reply.sappdata 0 c.len.toNat = outstanding)
    :
    (c.appsend call reply).Transmits iss taken outstanding acked stream := by
  rw [Conn.appsend]
  split_ifs with aborts closes
  · exact quiet_of_state (by rintro packet ⟨⟩; rfl) (rfl : _ = TcpState.closed) (by decide)
  · exact quiet_of_state (by rintro packet ⟨⟩; rfl) (rfl : _ = TcpState.finWait1) (by decide)
  · obtain ⟨notAcked, sends, same⟩ := (rules.resolve_left aborts).resolve_left closes
    have positive : 0 < c.len := len_pos outstands
    have kept : Conn.sendLen { c with stopped := reply.stopped } reply = c.len := by
      rw [Conn.sendLen, if_pos sends, if_neg]
      rintro (ackdata | zero)
      · exact Bool.false_ne_true (notAcked.symm.trans ackdata)
      · exact outstands zero
    dsimp only
    rw [kept]
    exact apprexmit_again established (holds.congr rfl rfl rfl) ⟨positive, positive⟩ same

theorem quiet_of_kept {out : Outcome} (holds : c.Holds iss outstanding acked stream)
    (control : ∀ packet ∈ out.packet, packet.data = []) (state : out.conn.state = c.state)
    (number : out.conn.sndNxt = c.sndNxt) (length : out.conn.len = c.len) :
    out.Transmits iss taken outstanding acked stream :=
  .quiet control acked (.inl rfl) (holds.congr state number length)

theorem resend_transmits {app : Call → Reply} {buf : ℕ → BitVec 8} (holds : c.Holds iss outstanding acked stream)
    (outstands : c.len ≠ 0)
    (rules : ∀ call, (c.resend app buf).call = some call → call.conn.state = .established →
      call.AnsweredBy outstanding (app call)) :
    (c.resend app buf).Transmits iss taken outstanding acked stream := by
  revert rules
  rw [Conn.resend]
  split
  case h_3 state =>
    intro rules
    have answered := rules _ rfl state
    rw [Call.AnsweredBy, if_pos rfl] at answered
    dsimp only
    generalize app _ = reply at answered
    by_cases sends : 0 < reply.slen
    · exact apprexmit_again (c := { c with stopped := reply.stopped }) state (holds.congr rfl rfl rfl)
        ⟨sends, len_pos outstands⟩ (answered sends)
    · exact quiet_of_kept holds (apprexmit_control fun both => sends both.1) rfl rfl rfl
  all_goals
    intro _
    apply quiet_of_kept holds _ rfl rfl rfl
    rintro packet ⟨⟩
  all_goals rfl

theorem periodic_transmits {app : Call → Reply} {buf : ℕ → BitVec 8} (holds : c.Holds iss outstanding acked stream)
    (rules : ∀ call, (c.periodic app buf).call = some call → call.conn.state = .established →
      call.AnsweredBy outstanding (app call)) :
    (c.periodic app buf).Transmits iss taken outstanding acked stream := by
  revert rules
  rw [Conn.periodic]
  dsimp only
  split_ifs with waits ends closed outstands expired gives polled
  · exact fun _ => quiet_of_state (by rintro packet ⟨⟩) (rfl : _ = TcpState.closed) (by decide)
  · exact fun _ => quiet_of_kept holds (by rintro packet ⟨⟩) rfl rfl rfl
  · exact fun _ => quiet_of_kept holds (by rintro packet ⟨⟩) rfl rfl rfl
  · exact fun _ => quiet_of_state (by rintro packet ⟨⟩; rfl) (rfl : _ = TcpState.closed) (by decide)
  · intro rules
    exact resend_transmits (holds.congr rfl rfl rfl) outstands rules
  · exact fun _ => quiet_of_kept holds (by rintro packet ⟨⟩) rfl rfl rfl
  · intro rules
    have all : acked = stream.length := by
      have length := holds.length polled
      rw [not_not.mp outstands] at length
      exact length
    exact appsend_fresh polled (.inl all.symm) (all ▸ holds.number polled)
  · exact fun _ => quiet_of_kept holds (by rintro packet ⟨⟩) rfl rfl rfl

theorem advance_fields (c : Conn) (seg : Segment) : (c.advance seg).state = c.state ∧ (c.advance seg).len = c.len ∧
    (c.advance seg).stopped = c.stopped ∧
    (c.advance seg).sndNxt = if c.acknowledged seg then uipAdd32 c.sndNxt c.len else c.sndNxt := by
  dsimp only [Conn.advance]
  split_ifs <;> exact ⟨rfl, rfl, rfl, rfl⟩

theorem number_all (established : c.state = .established) (holds : c.Holds iss outstanding acked stream) :
    (uipAdd32 c.sndNxt c.len).value = iss + 1 + BitVec.ofNat 32 stream.length := by
  rw [uipAdd32_value, holds.number established, ← holds.length established, BitVec.ofNat_add, BitVec.add_assoc,
    BitVec.ofNat_toNat]

theorem acked_all (established : c.state = .established) (holds : c.Holds iss outstanding acked stream)
    (nothing : c.len = 0) : acked = stream.length := by
  have length := holds.length established
  rwa [nothing] at length

theorem number_opened {seg : Segment} (opening : c.state = .synRcvd ∨ c.state = .synSent)
    (holds : c.Holds iss outstanding acked stream) (taken : c.acknowledged seg) :
    (c.advance seg).sndNxt.value = iss + 1 + BitVec.ofNat 32 stream.length := by
  obtain ⟨number, length, -, rfl⟩ := holds.opening opening
  rw [(advance_fields c seg).2.2.2, if_pos taken, uipAdd32_value, number, length]
  exact (BitVec.add_zero _).symm

variable {seg : Segment} {app : Call → Reply}

theorem peerCloses_quiet {acks : Bool} (holds : d.Holds iss outstanding acked stream) :
    (d.peerCloses app seg acks).Transmits iss taken outstanding acked stream := by
  rw [Conn.peerCloses]
  split_ifs
  · exact quiet_of_kept holds (by rintro packet ⟨⟩) rfl rfl rfl
  · exact quiet_of_state (by rintro packet ⟨⟩; rfl) (rfl : _ = TcpState.lastAck) (by decide)

/-- The acknowledgement of the outstanding data lets the application go on. -/
theorem inEstablished_acked (established : d.state = .established) (all : taken)
    (number : d.sndNxt.value = numbered iss stream.length) (notFin : ¬ (seg.flags.fin = true ∧ ¬ d.stopped = true)) :
    (d.inEstablished app seg true).Transmits iss taken outstanding acked stream := by
  rw [Conn.inEstablished, if_neg notFin]
  dsimp only
  rw [if_pos (.inr rfl)]
  refine appsend_fresh ?_ (.inr all) ?_
  · split_ifs <;> exact established
  · split_ifs <;> exact number

/-- Without an acknowledgement the application repeats what is outstanding, if there is new data. -/
theorem inEstablished_kept (established : d.state = .established) (holds : d.Holds iss outstanding acked stream)
    (rules : ∀ call, (d.inEstablished app seg false).call = some call → call.conn.state = .established → call.AnsweredBy outstanding (app call))
    :
    (d.inEstablished app seg false).Transmits iss taken outstanding acked stream := by
  revert rules
  rw [Conn.inEstablished]
  split_ifs with closes
  · exact fun _ => peerCloses_quiet holds
  dsimp only
  cases decide (0 < seg.newLen ∧ ¬ d.stopped) with
  | false => exact fun _ => quiet_of_kept holds (by rintro packet ⟨⟩) rfl rfl rfl
  | true =>
    rw [if_pos rfl, if_pos (.inl rfl)]
    intro rules
    have after : Conn.Holds ((d.addRcvNxt seg.newLen).updateMss seg) iss outstanding acked stream :=
      holds.congr rfl rfl rfl
    by_cases nothing : d.len = 0
    · have all := acked_all established holds nothing
      exact appsend_fresh established (.inl all.symm) (all ▸ holds.number established)
    · have answered := rules _ (appsend_call ..) established
      rw [Call.AnsweredBy, if_neg Bool.false_ne_true] at answered
      refine appsend_again established after nothing ?_
      exact answered.imp_right fun rest => rest.imp_right fun both => ⟨both.1, both.2 nothing rfl⟩

theorem finWait1_quiet {acks : Bool} (before : d.state = .finWait1) :
    (d.inFinWait1 app seg acks).Transmits iss taken outstanding acked stream := by
  have state := (countData_state d seg).trans before
  rw [Conn.inFinWait1]
  generalize d.countData seg = d at state
  dsimp only
  split_ifs
  · exact quiet_of_state (by rintro packet ⟨⟩; rfl) (rfl : _ = TcpState.timeWait) (by decide)
  · exact quiet_of_state (by rintro packet ⟨⟩; rfl) (rfl : _ = TcpState.closing) (by decide)
  · exact quiet_of_state (by rintro packet ⟨⟩) (rfl : _ = TcpState.finWait2) (by decide)
  · exact quiet_of_state (by rintro packet ⟨⟩; rfl) state (by decide)
  · exact quiet_of_state (by rintro packet ⟨⟩) state (by decide)

theorem finWait2_quiet (before : d.state = .finWait2) :
    (d.inFinWait2 app seg).Transmits iss taken outstanding acked stream := by
  have state := (countData_state d seg).trans before
  rw [Conn.inFinWait2]
  generalize d.countData seg = d at state
  dsimp only
  split_ifs
  · exact quiet_of_state (by rintro packet ⟨⟩; rfl) (rfl : _ = TcpState.timeWait) (by decide)
  · exact quiet_of_state (by rintro packet ⟨⟩; rfl) state (by decide)
  · exact quiet_of_state (by rintro packet ⟨⟩) state (by decide)

theorem found_transmits {out : Outcome} (called : c.found app seg = some out)
    (holds : c.Holds iss outstanding acked stream) (notFin : ¬ c.FinAcks seg)
    (rules : ∀ call, out.call = some call → call.conn.state = .established → call.AnsweredBy outstanding (app call)) :
    out.Transmits iss (seg.Acknowledges (numbered iss stream.length)) outstanding acked stream := by
  rw [Conn.found] at called
  split at called
  · cases called
    exact quiet_of_state (by rintro packet ⟨⟩) (rfl : _ = TcpState.closed) (by decide)
  rename_i noReset
  split at called
  · cases called
    exact quiet_of_kept holds (by rintro packet ⟨⟩; rfl) rfl rfl rfl
  rename_i accepted
  dsimp only at called
  obtain ⟨state, length, stopped, number⟩ := advance_fields c seg
  have after (kept : ¬ c.acknowledged seg = true) : (c.advance seg).Holds iss outstanding acked stream :=
    holds.congr state (number.trans (if_neg kept)) length
  have opened (opening : c.state = .synRcvd ∨ c.state = .synSent) (taken : c.acknowledged seg = true) :=
    number_opened opening holds taken
  have all (established : c.state = .established) (taken : c.acknowledged seg = true) :
      (c.advance seg).sndNxt.value = iss + 1 + BitVec.ofNat 32 stream.length := by
    rw [number, if_pos taken]
    exact number_all established holds
  have acknowledges (taken : c.acknowledged seg = true)
      (next : (c.advance seg).sndNxt.value = numbered iss stream.length) :
      seg.Acknowledges (numbered iss stream.length) := by
    rw [number, if_pos taken] at next
    obtain ⟨ack, -, same⟩ := of_decide_eq_true taken
    exact ⟨ack, same ▸ next⟩
  rw [← state] at opened all
  generalize c.advance seg = d at *
  cases before : d.state with
  | established =>
    rw [before] at called
    cases called
    have established := state.symm.trans before
    cases taken : c.acknowledged seg with
    | true =>
      apply inEstablished_acked before (acknowledges taken (all before taken)) (all before taken)
      rintro ⟨fin, running⟩
      exact notFin ⟨established, Bool.eq_false_iff.mpr noReset, Bool.eq_false_iff.mpr accepted, fin,
        stopped ▸ Bool.eq_false_iff.mpr running, taken⟩
    | false =>
      rw [taken] at rules
      exact inEstablished_kept before (after (Bool.eq_false_iff.mp taken)) rules
  | synRcvd =>
    rw [before] at called
    cases called
    cases taken : c.acknowledged seg with
    | true =>
      dsimp only [Conn.inSynRcvd]
      rw [if_pos rfl]
      refine appsend_fresh ?_ (.inr (acknowledges taken (opened (.inl before) taken))) ?_
      · split_ifs <;> rfl
      · split_ifs <;> exact opened (.inl before) taken
    | false => exact quiet_of_kept (after (Bool.eq_false_iff.mp taken)) (by rintro packet ⟨⟩) rfl rfl rfl
  | synSent =>
    rw [before] at called
    dsimp only [Conn.inSynSent] at called
    split_ifs at called with opens
    · obtain ⟨option, -, rfl⟩ := Option.map_eq_some_iff.mp called
      refine appsend_fresh rfl (.inr (acknowledges opens.1 (opened (.inr before) opens.1))) ?_
      cases option <;> exact opened (.inr before) opens.1
    · cases called
      exact quiet_of_state (by rintro packet ⟨⟩; rfl) (rfl : _ = TcpState.closed) (by decide)
  | lastAck =>
    rw [before] at called
    cases called
    rw [Conn.inLastAck]
    split_ifs
    · exact quiet_of_state (by rintro packet ⟨⟩) (rfl : _ = TcpState.closed) (by decide)
    · exact quiet_of_state (by rintro packet ⟨⟩) before (by decide)
  | finWait1 =>
    rw [before] at called
    cases called
    exact finWait1_quiet before
  | finWait2 =>
    rw [before] at called
    cases called
    exact finWait2_quiet before
  | timeWait =>
    rw [before] at called
    cases called
    exact quiet_of_state (by rintro packet ⟨⟩; rfl) before (by decide)
  | closing =>
    rw [before] at called
    cases called
    cases c.acknowledged seg with
    | true => exact quiet_of_state (by rintro packet ⟨⟩) (rfl : _ = TcpState.timeWait) (by decide)
    | false => exact quiet_of_state (by rintro packet ⟨⟩) before (by decide)
  | closed =>
    rw [before] at called
    cases called
    exact quiet_of_state (by rintro packet ⟨⟩) before (by decide)

end Step

section Runs

variable {iss : BitVec 32} {s : TcpLog}

theorem TcpLog.Sending.step {log : List (Item ℕ (BitVec 8))} {acked : ℕ} {stream : List (BitVec 8)}
    (sending : s.Sending iss log acked stream) {event : TcpEvent} (orderly : event.Orderly s) :
    ∃ log acked stream, (s.step event).Sending iss log acked stream := by
  obtain ⟨rules, separate⟩ := orderly
  rw [TcpLog.step]
  split
  · obtain ⟨log', sends, logged⟩ := sending.hear event.input False.elim (.inl rfl)
    exact ⟨log', acked, stream, sends, logged, (s.outstanding_quiet s.conn event.input).symm ▸ sending.holds⟩
  rename_i out called
  have answered := rules out called
  rw [Conn.process] at called
  split at called
  · rename_i seg input
    rw [input] at separate ⊢
    split at called
    · cases called
    · refine sending.transmit (found_transmits called sending.holds separate answered) fun taken => ?_
      rw [TcpInput.heard, if_pos taken.1, taken.2]
  · cases called
    exact sending.transmit (periodic_transmits sending.holds answered) fun taken : False => taken.elim

/-- What is sent and heard is the log of a stop-and-wait sender: every data packet is behind a segment that
acknowledges all in front of it, and whatever arrives of the packets, a peer that takes what continues its data has a
prefix of what the application has handed over. -/
def TcpLog.StopAndWait (iss : BitVec 32) (s : TcpLog) : Prop :=
  ∃ log acked stream, s.Sending iss log acked stream ∧ Waits log ∧
    ∀ arrivals : List (ℕ × List (BitVec 8)), (∀ message ∈ arrivals, .sent message.1 message.2 ∈ log) →
      arrivals.foldl take [] <+: stream

/-- A connection that a SYN has opened is a stop-and-wait sender, in every run in which the application repeats what
is outstanding and no segment both closes the stream of the peer and acknowledges outstanding data. -/
theorem sent_stopAndWait {c : Conn} {iss : Seqno} {srcipaddr : BitVec 32} {srcport destport : BitVec 16}
    {syn : Segment} {out : Outcome} (accepted : c.accept iss srcipaddr srcport destport syn = some out)
    (events : List TcpEvent)
    (orderly : Along TcpLog.step (fun s event => event.Orderly s) { conn := out.conn, items := out.dataSent } events) :
    Always TcpLog.step (TcpLog.StopAndWait iss.value) { conn := out.conn, items := out.dataSent } events := by
  obtain ⟨option, -, rfl⟩ := Option.map_eq_some_iff.mp accepted
  refine @Along.always _ _ _ (fun s => ∃ log acked stream, s.Sending iss.value log acked stream) _ _ ?_ ?_ _ _ ?_ orderly
  · rintro s event ⟨log, acked, stream, sending⟩ orderly
    exact sending.step orderly
  · rintro s ⟨log, acked, stream, sending⟩
    exact ⟨log, acked, stream, sending, sending.sends.waits, fun arrivals => sending.sends.received_prefix arrivals⟩
  · refine ⟨[], 0, [], .start, rfl, fun _ => ?_, fun same => ?_, fun same => ?_, fun same => ?_⟩
    · cases option <;> exact ⟨rfl, rfl, rfl, rfl⟩
    all_goals cases option <;> cases same

/-- An application that answers a connection, an acknowledgement and a retransmission with two bytes. -/
def greeting (call : Call) : Reply :=
  { flags := call.flags, slen := 2, sappdata := writeAt call.appdata 0 [1, 2], stopped := call.conn.stopped }

/-- The handshake, the timer of an application that greets, and an acknowledgement behind which it greets again. -/
theorem sent_stopAndWait_greeting :
    let syn := Segment.plainOf { syn := true } ⟨0, 0, 3, 0xe7⟩ ⟨0, 0, 0, 0⟩ []
    let out := (Conn.init.accept ⟨0, 0, 0, 0⟩ 9 8 80 syn).get (by decide)
    Always TcpLog.step (TcpLog.StopAndWait (Seqno.value ⟨0, 0, 0, 0⟩)) { conn := out.conn, items := out.dataSent }
      [⟨.segment (.plainOf { ack := true } ⟨0, 0, 3, 0xe8⟩ ⟨0, 0, 0, 1⟩ []), greeting⟩, ⟨.timer fun _ => 0, greeting⟩,
        ⟨.segment (.plainOf { ack := true } ⟨0, 0, 3, 0xe8⟩ ⟨0, 0, 0, 3⟩ []), greeting⟩] := by
  intro syn out
  apply sent_stopAndWait (Option.some_get _).symm
  decide +kernel

end Runs

end Uip
