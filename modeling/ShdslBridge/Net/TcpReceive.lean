import ShdslBridge.Lib.Run
import ShdslBridge.Net.TcpConn

/-! # What the application of a connection receives

The peer numbers a stream of bytes. Its segments may be lost, repeated and reordered on the way.
`Conn.Receives` says all that one call of the stack does to the receiving side: it leaves it as it
is, it opens it, or it hands out the data of a segment that carries the expected number. From that
the run theorem follows: what the application has been given is a prefix of the stream, and as long
as the connection receives, `rcv_nxt` is the number of the next byte.
-/

namespace Uip

open Memory Run

section Step

variable {c : Conn} {seg : Segment} {app : Call → Reply} {out : Outcome}

/-- The states in which new data goes to the application. -/
def Conn.Receiving (c : Conn) : Prop := c.state = .synRcvd ∨ c.state = .established

/-- The states before the end of the stream. -/
def Conn.Open (c : Conn) : Prop := c.state = .synSent ∨ c.Receiving

/-- What a call does to the receiving side. -/
inductive Conn.Receives (c : Conn) (seg : Segment) (out : Outcome) : Prop
  | nothing (none : out.newBytes = []) (kept : out.conn.Open → out.conn.state = c.state ∧ out.conn.rcvNxt = c.rcvNxt)
  | opened (before : c.state = .synSent) (synack : seg.flags.syn) (empty : out.newBytes = [])
      (next : out.conn.rcvNxt = uipAdd32 seg.seqno 1) (left : out.conn.state ≠ .synSent)
  | data (before : c.Receiving) (expected : 0 < seg.dataLen → seg.seqno = c.rcvNxt) (skip count : BitVec 16)
      (plain : seg.flags.urg = false → skip = 0 ∧ count = seg.dataLen)
      (bytes : out.newBytes = readAt seg.payload skip.toNat count.toNat)
      (next : out.conn.Receiving → out.conn.rcvNxt = uipAdd32 c.rcvNxt count) (left : out.conn.state ≠ .synSent)

theorem readAt_shift (buffer : ℕ → BitVec 8) (skip len : ℕ) :
    readAt (fun i => buffer (skip + i)) 0 len = readAt buffer skip len :=
  List.map_congr_left fun i _ => by rw [Nat.zero_add]

theorem appsend_rcvNxt (c : Conn) (call : Call) (reply : Reply) : (c.appsend call reply).conn.rcvNxt = c.rcvNxt := by
  dsimp only [Conn.appsend]
  split_ifs <;> rfl

theorem appsend_state (c : Conn) (call : Call) (reply : Reply) : (c.appsend call reply).conn.state =
    if reply.flags.abort then .closed else if reply.flags.close then .finWait1 else c.state := by
  dsimp only [Conn.appsend]
  split_ifs <;> rfl

/-- Behind `appsend` the connection is as open as before, or not at all. -/
theorem appsend_open {call : Call} {reply : Reply} (opened : (c.appsend call reply).conn.Open) :
    (c.appsend call reply).conn.state = c.state := by
  rw [Conn.Open, Conn.Receiving, appsend_state] at opened
  rw [appsend_state]
  split_ifs at opened ⊢
  · exact absurd opened (by decide)
  · exact absurd opened (by decide)
  · rfl

theorem appsend_left (call : Call) (reply : Reply) (before : c.state ≠ .synSent) :
    (c.appsend call reply).conn.state ≠ .synSent := by
  rw [appsend_state]
  split_ifs
  · decide
  · decide
  · exact before

theorem appsend_newBytes (c : Conn) (call : Call) (reply : Reply) :
    (c.appsend call reply).newBytes = call.newBytes := by
  rw [Outcome.newBytes, appsend_call]
  rfl

/-- A call without new data, which leaves the number alone and opens nothing. -/
theorem receives_of_kept (none : out.newBytes = []) (kept : out.conn.rcvNxt = c.rcvNxt)
    (state : out.conn.state = c.state) : c.Receives seg out :=
  .nothing none fun _ => ⟨state, kept⟩

theorem receives_of_state {state : TcpState} (none : out.newBytes = []) (reached : out.conn.state = state)
    (other : ¬ (state = .synSent ∨ state = .synRcvd ∨ state = .established)) : c.Receives seg out :=
  .nothing none fun opened => absurd opened (by rwa [Conn.Open, Conn.Receiving, reached])

theorem inFinWait1_receives (app : Call → Reply) (acked : Bool) (before : c.state = .finWait1) :
    c.Receives seg (c.inFinWait1 app seg acked) := by
  have state := (countData_state c seg).trans before
  rw [Conn.inFinWait1]
  generalize c.countData seg = d at state
  dsimp only
  cases seg.flags.fin with
  | true =>
    cases acked with
    | true => exact receives_of_state rfl (rfl : _ = TcpState.timeWait) (by decide)
    | false => exact receives_of_state rfl (rfl : _ = TcpState.closing) (by decide)
  | false =>
    cases acked with
    | true => exact receives_of_state rfl (rfl : _ = TcpState.finWait2) (by decide)
    | false => exact receives_of_state rfl state (by decide)

theorem inFinWait2_receives (app : Call → Reply) (before : c.state = .finWait2) :
    c.Receives seg (c.inFinWait2 app seg) := by
  have state := (countData_state c seg).trans before
  rw [Conn.inFinWait2]
  generalize c.countData seg = d at state
  dsimp only
  cases seg.flags.fin with
  | true => exact receives_of_state rfl (rfl : _ = TcpState.timeWait) (by decide)
  | false => exact receives_of_state rfl state (by decide)

theorem inLastAck_receives (app : Call → Reply) (acked : Bool) (before : c.state = .lastAck) :
    c.Receives seg (c.inLastAck app seg acked) := by
  rw [Conn.inLastAck]
  cases acked with
  | true => exact receives_of_state rfl (rfl : _ = TcpState.closed) (by decide)
  | false => exact receives_of_state rfl before (by decide)

/-- The data that a call announces with `UIP_NEWDATA` exactly if there is some. -/
theorem newBytes_of_length {call : Call} (flagged : call.flags.newdata = decide (0 < call.uipLen)) :
    call.newBytes = readAt call.appdata 0 call.uipLen.toNat := by
  rw [Call.newBytes, flagged]
  by_cases empty : 0 < call.uipLen
  · rw [if_pos (decide_eq_true empty)]
  · rw [if_neg (by simpa using empty), BitVec.not_lt.mp empty |> BitVec.le_zero_iff.mp]
    rfl

theorem peerCloses_receives (app : Call → Reply) (acked : Bool) (before : c.state = .established)
    (expected : 0 < seg.dataLen → seg.seqno = c.rcvNxt) : c.Receives seg (c.peerCloses app seg acked) := by
  rw [Conn.peerCloses]
  split_ifs with outstanding
  · exact receives_of_kept rfl rfl rfl
  · apply Conn.Receives.data (.inr before) expected 0 seg.dataLen (fun _ => ⟨rfl, rfl⟩)
    · exact @newBytes_of_length ⟨_, _, _, _⟩ rfl
    · rintro (state | state) <;> cases state
    · exact (by decide : TcpState.lastAck ≠ .synSent)

theorem inSynRcvd_receives (app : Call → Reply) (acked : Bool) (before : c.state = .synRcvd)
    (expected : 0 < seg.dataLen → seg.seqno = c.rcvNxt) : c.Receives seg (c.inSynRcvd app seg acked) := by
  cases acked with
  | false => exact receives_of_kept rfl rfl rfl
  | true =>
    dsimp only [Conn.inSynRcvd]
    rw [if_pos rfl]
    apply Conn.Receives.data (.inl before) expected 0 seg.dataLen (fun _ => ⟨rfl, rfl⟩)
    · rw [appsend_newBytes]
      exact newBytes_of_length rfl
    · intro _
      rw [appsend_rcvNxt]
      by_cases nonempty : 0 < seg.dataLen
      · rw [if_pos (decide_eq_true nonempty)]
        rfl
      · rw [if_neg (by simpa using nonempty), BitVec.le_zero_iff.mp (BitVec.not_lt.mp nonempty)]
        exact (uipAdd32_zero _).symm
    · apply appsend_left
      split_ifs <;> exact (by decide : TcpState.established ≠ .synSent)

theorem newLen_of_plain (plain : seg.flags.urg = false) : seg.skip = 0 ∧ seg.newLen = seg.dataLen := by
  rw [Segment.newLen, Segment.skip, plain]
  exact ⟨rfl, BitVec.sub_zero _⟩

theorem inEstablished_receives (app : Call → Reply) (acked : Bool) (before : c.state = .established)
    (expected : 0 < seg.dataLen → seg.seqno = c.rcvNxt) : c.Receives seg (c.inEstablished app seg acked) := by
  rw [Conn.inEstablished]
  split_ifs with closes
  · exact peerCloses_receives app acked before expected
  · dsimp only
    cases decide (0 < seg.newLen ∧ ¬ c.stopped) with
    | true =>
      rw [if_pos rfl, if_pos (.inl rfl)]
      apply Conn.Receives.data (.inr before) expected seg.skip seg.newLen newLen_of_plain
      · rw [appsend_newBytes]
        exact readAt_shift seg.payload seg.skip.toNat seg.newLen.toNat
      · intro _
        rw [appsend_rcvNxt]
        rfl
      · apply appsend_left
        exact fun same => absurd (before.symm.trans same) (by decide)
    | false =>
      rw [if_neg Bool.false_ne_true]
      cases acked with
      | true =>
        rw [if_pos (.inr rfl)]
        exact .nothing (appsend_newBytes ..) fun opened => ⟨appsend_open opened, appsend_rcvNxt ..⟩
      | false => exact .nothing rfl fun _ => ⟨rfl, rfl⟩

theorem inSynSent_receives (acked : Bool) (before : c.state = .synSent)
    (called : c.inSynSent app seg acked = some out) : c.Receives seg out := by
  rw [Conn.inSynSent] at called
  split_ifs at called with opens
  · obtain ⟨option, -, rfl⟩ := Option.map_eq_some_iff.mp called
    have synack : seg.flags.syn = true := by rw [of_decide_eq_true opens.2]
    exact .opened before synack (appsend_newBytes ..) (appsend_rcvNxt ..)
      (appsend_left _ _ (by decide : TcpState.established ≠ .synSent))
  · cases called
    exact receives_of_state rfl (rfl : _ = TcpState.closed) (by decide)

theorem Conn.Receives.transport {d : Conn} (receives : d.Receives seg out) (state : d.state = c.state)
    (number : d.rcvNxt = c.rcvNxt) : c.Receives seg out := by
  have same : d.Receiving ↔ c.Receiving := by rw [Conn.Receiving, Conn.Receiving, state]
  cases receives with
  | nothing none kept =>
    exact .nothing none fun opened => ⟨(kept opened).1.trans state, (kept opened).2.trans number⟩
  | opened before synack empty next left => exact .opened (state.symm.trans before) synack empty next left
  | data before expected skip count plain bytes next left =>
    exact .data (same.mp before) (number ▸ expected) skip count plain bytes (number ▸ next) left

theorem expected_of_accepted (accepted : ¬ c.unexpected seg) (opened : c.state ≠ .synSent) (nonempty : 0 < seg.dataLen) :
    seg.seqno = c.rcvNxt := by
  by_contra other
  apply accepted
  rw [Conn.unexpected]
  exact decide_eq_true ⟨fun both => opened both.1, .inl nonempty, other⟩

/-- What `found` does to the receiving side. -/
theorem found_receives (called : c.found app seg = some out) : c.Receives seg out := by
  rw [Conn.found] at called
  split at called
  · cases called
    exact receives_of_state rfl (rfl : _ = TcpState.closed) (by decide)
  split at called
  · cases called
    exact receives_of_kept rfl rfl rfl
  rename_i _ accepted
  have expected := expected_of_accepted accepted
  have state := advance_state c seg
  have number := advance_rcvNxt c seg
  generalize c.advance seg = d at state number called
  rw [← state, ← number] at expected
  refine Conn.Receives.transport ?_ state number
  dsimp only at called
  cases before : d.state with
  | synSent =>
    rw [before] at called
    exact inSynSent_receives _ before called
  | synRcvd =>
    rw [before] at called
    cases called
    exact inSynRcvd_receives app _ before (expected (by rw [before]; decide))
  | established =>
    rw [before] at called
    cases called
    exact inEstablished_receives app _ before (expected (by rw [before]; decide))
  | lastAck =>
    rw [before] at called
    cases called
    exact inLastAck_receives app _ before
  | finWait1 =>
    rw [before] at called
    cases called
    exact inFinWait1_receives app _ before
  | finWait2 =>
    rw [before] at called
    cases called
    exact inFinWait2_receives app before
  | timeWait =>
    rw [before] at called
    cases called
    exact receives_of_kept rfl rfl rfl
  | closing =>
    rw [before] at called
    cases called
    cases c.acknowledged seg with
    | true => exact receives_of_state rfl (rfl : _ = TcpState.timeWait) (by decide)
    | false => exact receives_of_kept rfl rfl rfl
  | closed =>
    rw [before] at called
    cases called
    exact receives_of_kept rfl rfl rfl

theorem periodic_keeps (c : Conn) (app : Call → Reply) (buf : ℕ → BitVec 8) :
    (c.periodic app buf).newBytes = [] ∧ ((c.periodic app buf).conn.Open →
      (c.periodic app buf).conn.state = c.state ∧ (c.periodic app buf).conn.rcvNxt = c.rcvNxt) := by
  have none_ {closed : Conn} (state : closed.state = .closed) (P : Prop) (opened : closed.Open) : P := by
    rw [Conn.Open, Conn.Receiving, state] at opened
    exact absurd opened (by decide)
  rw [Conn.periodic]
  dsimp only
  split_ifs with waits ends closed outstanding expired gives polled
  · exact ⟨rfl, none_ rfl _⟩
  · exact ⟨rfl, fun _ => ⟨rfl, rfl⟩⟩
  · exact ⟨rfl, fun _ => ⟨rfl, rfl⟩⟩
  · exact ⟨rfl, none_ rfl _⟩
  · rw [Conn.retransmit, Conn.resend]
    split <;> exact ⟨rfl, fun _ => ⟨rfl, rfl⟩⟩
  · exact ⟨rfl, fun _ => ⟨rfl, rfl⟩⟩
  · exact ⟨appsend_newBytes .., fun opened => ⟨appsend_open opened, appsend_rcvNxt ..⟩⟩
  · exact ⟨rfl, fun _ => ⟨rfl, rfl⟩⟩

end Step

section Stream

variable {irs : BitVec 32} {stream : ℕ → BitVec 8} {s : TcpRun}

def Segment.data (seg : Segment) : List (BitVec 8) :=
  readAt seg.payload ((seg.tcpoffset >>> 4).toNat * 4 - 20) seg.dataLen.toNat

/-- A segment of a peer that numbers the stream from `irs + 1` on, sent within 2^32 bytes of what has
been received. A segment with data has no options and no urgent data. -/
structure Segment.FromPeer (irs : BitVec 32) (stream : ℕ → BitVec 8) (received : ℕ) (seg : Segment) : Prop where
  syn : seg.flags.syn → seg.seqno.value = irs
  plain : 0 < seg.dataLen → seg.tcpoffset >>> 4 = 5
  urgent : seg.flags.urg = false
  data : 0 < seg.dataLen → ∃ offset, seg.seqno.value = irs + 1 + BitVec.ofNat 32 offset ∧
    seg.data = readAt stream offset seg.dataLen.toNat ∧ offset < received + 2 ^ 32 ∧ received < offset + 2 ^ 32

def TcpEvent.FromPeer (irs : BitVec 32) (stream : ℕ → BitVec 8) (s : TcpRun) (event : TcpEvent) : Prop :=
  match event.input with
  | .segment seg => seg.FromPeer irs stream s.delivered.length
  | .timer _ => True

/-- The application has been given a prefix of the stream, and the connection expects what follows. -/
structure TcpRun.InOrder (irs : BitVec 32) (stream : ℕ → BitVec 8) (s : TcpRun) : Prop where
  delivered : s.delivered = readAt stream 0 s.delivered.length
  next : s.conn.Receiving → s.conn.rcvNxt.value = irs + 1 + BitVec.ofNat 32 s.delivered.length
  opening : s.conn.state = .synSent → s.delivered = []

theorem offset_of_expected {received offset : ℕ}
    (expected : irs + 1 + BitVec.ofNat 32 offset = irs + 1 + BitVec.ofNat 32 received)
    (ahead : offset < received + 2 ^ 32) (behind : received < offset + 2 ^ 32) : offset = received := by
  have same := congrArg BitVec.toNat ((BitVec.add_right_inj _).mp expected)
  rw [BitVec.toNat_ofNat, BitVec.toNat_ofNat] at same
  omega

theorem TcpRun.InOrder.keep {out : Outcome} (inOrder : s.InOrder irs stream) (none : out.newBytes = [])
    (kept : out.conn.Open → out.conn.state = s.conn.state ∧ out.conn.rcvNxt = s.conn.rcvNxt) (sent : List Packet) :
    TcpRun.InOrder irs stream { conn := out.conn, delivered := s.delivered ++ out.newBytes, sent } := by
  rw [none, List.append_nil]
  refine ⟨inOrder.delivered, fun receiving => ?_, fun opening => ?_⟩
  · obtain ⟨state, number⟩ := kept (.inr receiving)
    exact (congrArg _ number).trans (inOrder.next (by rwa [Conn.Receiving, state] at receiving))
  · exact inOrder.opening ((kept (.inl opening)).1 ▸ opening)

theorem TcpRun.InOrder.receive {seg : Segment} {out : Outcome} (inOrder : s.InOrder irs stream)
    (peer : seg.FromPeer irs stream s.delivered.length) (receives : s.conn.Receives seg out) (sent : List Packet) :
    TcpRun.InOrder irs stream { conn := out.conn, delivered := s.delivered ++ out.newBytes, sent } := by
  cases receives with
  | nothing none kept => exact inOrder.keep none kept sent
  | opened before synack empty next left =>
    rw [empty, List.append_nil]
    refine ⟨inOrder.delivered, fun _ => ?_, fun opening => absurd opening left⟩
    rw [next, uipAdd32_value, peer.syn synack, inOrder.opening before]
    exact (BitVec.add_zero _).symm
  | data before expected skip count plain bytes next left =>
    obtain ⟨rfl, rfl⟩ := plain peer.urgent
    have number := inOrder.next before
    have length : (s.delivered ++ out.newBytes).length = s.delivered.length + seg.dataLen.toNat := by
      rw [List.length_append, bytes, readAt_length]
    refine ⟨?_, fun receiving => ?_, fun opening => absurd opening left⟩
    · dsimp only
      rw [length, readAt_add, Nat.zero_add, ← inOrder.delivered]
      congr 1
      by_cases nonempty : 0 < seg.dataLen
      · obtain ⟨offset, seqno, content, ahead, behind⟩ := peer.data nonempty
        rw [expected nonempty, number] at seqno
        obtain rfl := offset_of_expected seqno.symm ahead behind
        have data : out.newBytes = seg.data := by
          rw [bytes, Segment.data, peer.plain nonempty]
          rfl
        rw [data, content]
      · rw [bytes, BitVec.le_zero_iff.mp (BitVec.not_lt.mp nonempty)]
        rfl
    · dsimp only
      rw [length, next receiving, uipAdd32_value, number, BitVec.add_assoc, BitVec.ofNat_add, BitVec.ofNat_toNat]

theorem TcpRun.InOrder.step (inOrder : s.InOrder irs stream) {event : TcpEvent} (peer : event.FromPeer irs stream s) :
    (s.step event).InOrder irs stream := by
  rw [TcpRun.step]
  split
  · exact inOrder
  rename_i out called
  rw [Conn.process] at called
  rw [TcpEvent.FromPeer] at peer
  split at called
  · rename_i seg input
    rw [input] at peer
    split at called
    · cases called
    · exact inOrder.receive peer (found_receives called) _
  · cases called
    obtain ⟨none, kept⟩ := periodic_keeps s.conn event.app _
    exact inOrder.keep none kept _

/-- A connection that a SYN has opened hands its application a prefix of the stream that the peer numbers behind the
SYN, whatever is lost, repeated or reordered on the way, whatever the application does, and whenever the timer runs. -/
theorem delivered_inOrder {c : Conn} {iss : Seqno} {srcipaddr : BitVec 32} {srcport destport : BitVec 16}
    {syn : Segment} {out : Outcome} (accepted : c.accept iss srcipaddr srcport destport syn = some out)
    (stream : ℕ → BitVec 8) (events : List TcpEvent)
    (peer : Along TcpRun.step (fun s event => event.FromPeer syn.seqno.value stream s)
      { conn := out.conn, delivered := [], sent := out.packet.toList } events) :
    Always TcpRun.step (TcpRun.InOrder syn.seqno.value stream)
      { conn := out.conn, delivered := [], sent := out.packet.toList } events := by
  obtain ⟨option, -, rfl⟩ := Option.map_eq_some_iff.mp accepted
  apply Along.always (fun _ _ inOrder peer => inOrder.step peer) (fun _ inOrder => inOrder) _ peer
  refine ⟨rfl, fun _ => ?_, fun _ => rfl⟩
  cases option with
  | none => exact (uipAdd32_value _ 1).trans (BitVec.add_zero _).symm
  | some mss => exact (uipAdd32_value _ 1).trans (BitVec.add_zero _).symm

/-- An application that sends nothing. -/
def silent (call : Call) : Reply :=
  { flags := call.flags, slen := 0, sappdata := call.appdata, stopped := call.conn.stopped }

/-- Two bytes are sent twice, and then the timer runs. -/
theorem delivered_inOrder_repeated :
    let syn := Segment.plainOf { syn := true } ⟨0, 0, 3, 0xe7⟩ ⟨0, 0, 0, 0⟩ []
    let again : TcpEvent :=
      ⟨.segment (.plainOf { ack := true, psh := true } ⟨0, 0, 3, 0xe8⟩ ⟨0, 0, 0, 1⟩ [7, 8]), silent⟩
    Always TcpRun.step (TcpRun.InOrder syn.seqno.value (writeAt (fun _ => 0) 0 [7, 8]))
      { conn := ((Conn.init.accept ⟨0, 0, 0, 0⟩ 9 8 80 syn).get (by decide)).conn, delivered := [],
        sent := ((Conn.init.accept ⟨0, 0, 0, 0⟩ 9 8 80 syn).get (by decide)).packet.toList }
      [again, again, ⟨.timer fun _ => 0, silent⟩] := by
  intro syn again
  have data (received : ℕ) (few : received < 2 ^ 32) :
      Segment.FromPeer syn.seqno.value (writeAt (fun _ => 0) 0 [7, 8]) received
        (.plainOf { ack := true, psh := true } ⟨0, 0, 3, 0xe8⟩ ⟨0, 0, 0, 1⟩ [7, 8]) :=
    ⟨fun flag => absurd flag (by decide), fun _ => by decide,
        rfl, fun _ => ⟨0, by decide, by decide, by omega, by omega⟩⟩
  refine delivered_inOrder (Option.some_get _).symm _ _ ⟨data _ (by decide), data _ ?_, trivial, trivial⟩
  decide +kernel

end Stream

end Uip
