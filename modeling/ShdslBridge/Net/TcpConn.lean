import ShdslBridge.Lib.Memory
import ShdslBridge.Net.Seqno

/-! # A TCP connection of uIP

`uip_process` serves one connection at a time: `found` is its part for a segment that belongs to the
connection, `periodic` the part for the timer. Both may call the application once, and both may leave
one packet to send. The application is any function of what the call shows it. It answers with the
values that it leaves in `uip_flags`, in `uip_slen` and in the packet buffer, and with the bit that
`uip_stop` and `uip_restart` change.
-/

namespace Uip

open Memory

/-- `UIP_TCP_MSS`, which is also `UIP_RECEIVE_WINDOW`: 1500 bytes without the headers. -/
def uipTcpMss : BitVec 16 := 1446

def uipMaxrtx : BitVec 8 := 8
def uipMaxsynrtx : BitVec 8 := 5
def uipRto : BitVec 8 := 3
def uipTimeWaitTimeout : BitVec 8 := 120

/-- `UIP_IPH_LEN`. -/
def uipIphLen : BitVec 16 := 20

section Data

/-- The values of `tcpstateflags & UIP_TS_MASK`. -/
inductive TcpState
  | closed | synRcvd | synSent | established | finWait1 | finWait2 | closing | timeWait | lastAck
  deriving DecidableEq, Repr

/-- `struct uip_conn`. `tcpstateflags` is the state and the bit `UIP_STOPPED`. -/
structure Conn where
  ripaddr : BitVec 32
  lport : BitVec 16
  rport : BitVec 16
  rcvNxt : Seqno
  sndNxt : Seqno
  len : BitVec 16
  mss : BitVec 16
  initialmss : BitVec 16
  sa : BitVec 8
  sv : BitVec 8
  rto : BitVec 8
  state : TcpState
  stopped : Bool
  timer : BitVec 8
  nrtx : BitVec 8
  deriving DecidableEq

/-- `tcpstateflags == UIP_X`, which fails while the connection is stopped. -/
def Conn.is (c : Conn) (state : TcpState) : Bool := c.state = state ∧ ¬ c.stopped

/-- `tcpstateflags = UIP_X`. -/
def Conn.enter (c : Conn) (state : TcpState) : Conn := { c with state, stopped := false }

/-- The bits of `BUF->flags`. -/
structure TcpFlags where
  fin : Bool := false
  syn : Bool := false
  rst : Bool := false
  psh : Bool := false
  ack : Bool := false
  urg : Bool := false
  deriving DecidableEq, Repr

/-- The bits of `uip_flags`. -/
structure UipFlags where
  ackdata : Bool := false
  newdata : Bool := false
  rexmit : Bool := false
  poll : Bool := false
  close : Bool := false
  abort : Bool := false
  connected : Bool := false
  timedout : Bool := false
  deriving DecidableEq, Repr

/-- A received segment: `uipLen` is the length of the IP packet, and `payload` is the buffer behind
the TCP header without options. -/
structure Segment where
  flags : TcpFlags
  seqno : Seqno
  ackno : Seqno
  tcpoffset : BitVec 8
  wnd : BitVec 16
  urgp : BitVec 16
  uipLen : BitVec 16
  payload : ℕ → BitVec 8

structure Call where
  flags : UipFlags
  uipLen : BitVec 16
  appdata : ℕ → BitVec 8
  conn : Conn

/-- What the application leaves behind. `sappdata` is the buffer from `uip_sappdata` on. -/
structure Reply where
  flags : UipFlags
  slen : BitVec 16
  sappdata : ℕ → BitVec 8
  stopped : Bool

/-- A packet to send. With `mssOption` it carries the option for the maximum segment size. -/
structure Packet where
  destipaddr : BitVec 32
  srcport : BitVec 16
  destport : BitVec 16
  flags : TcpFlags
  seqno : Seqno
  ackno : Seqno
  wnd : BitVec 16
  mssOption : Bool
  data : List (BitVec 8)
  deriving DecidableEq

/-- What a call of `uip_process` leaves: the connection, the packet, and the call of the application. -/
structure Outcome where
  conn : Conn
  packet : Option Packet := none
  call : Option Call := none

end Data

section Output

/-- From `tcp_send_ack`, `tcp_send_nodata`, `tcp_send_noopts` or `tcp_send` on. -/
def Conn.packet (c : Conn) (flags : TcpFlags) (data : List (BitVec 8)) (mssOption : Bool) : Packet :=
  { destipaddr := c.ripaddr, srcport := c.lport, destport := c.rport, flags, seqno := c.sndNxt, ackno := c.rcvNxt,
    wnd := if c.stopped then 0 else uipTcpMss, mssOption, data }

/-- `tcp_send_ack`. -/
def Conn.ack (c : Conn) : Packet := c.packet { ack := true } [] false

/-- `tcp_send_finack`. -/
def Conn.finack (c : Conn) : Packet := c.packet { fin := true, ack := true } [] false

/-- `apprexmit`: the outstanding data from the buffer, or the acknowledgement of new data. -/
def Conn.apprexmit (c : Conn) (reply : Reply) (slen : BitVec 16) : Option Packet :=
  if 0 < slen ∧ 0 < c.len then
    some (c.packet { ack := true, psh := true } (readAt reply.sappdata 0 c.len.toNat) false)
  else if reply.flags.newdata then some c.ack
  else none

/-- The length that `appsend` lets out: as much as before while data is outstanding, else no more
than the current maximum segment size. -/
def Conn.sendLen (c : Conn) (reply : Reply) : BitVec 16 :=
  if 0 < reply.slen then
    if reply.flags.ackdata ∨ c.len = 0 then if c.mss < reply.slen then c.mss else reply.slen else c.len
  else 0

/-- The call of the application, and `appsend` behind it. -/
def Conn.appsend (c : Conn) (call : Call) (reply : Reply) : Outcome :=
  let c := { c with stopped := reply.stopped }
  if reply.flags.abort then
    let c := c.enter .closed
    { conn := c, packet := c.packet { rst := true, ack := true } [] false, call }
  else if reply.flags.close then
    let c := { c.enter .finWait1 with len := 1, nrtx := 0 }
    { conn := c, packet := c.finack, call }
  else
    let slen := c.sendLen reply
    let c := { c with len := slen, nrtx := 0 }
    { conn := c, packet := c.apprexmit reply slen, call }

theorem appsend_call (c : Conn) (call : Call) (reply : Reply) : (c.appsend call reply).call = some call := by
  dsimp only [Conn.appsend]
  split_ifs <;> rfl

end Output

section Timer

variable (app : Call → Reply) (buf : ℕ → BitVec 8)

def Conn.resend (c : Conn) : Outcome :=
  match c.state with
  | .synRcvd => { conn := c, packet := c.packet { syn := true, ack := true } [] true }
  | .synSent => { conn := c, packet := c.packet { syn := true } [] true }
  | .established =>
    let call : Call := { flags := { rexmit := true }, uipLen := 0, appdata := buf, conn := c }
    let reply := app call
    let c := { c with stopped := reply.stopped }
    { conn := c, packet := c.apprexmit reply reply.slen, call }
  | .finWait1 | .closing | .lastAck => { conn := c, packet := c.finack }
  | .closed | .timeWait | .finWait2 => { conn := c }

def Conn.retransmit (c : Conn) : Outcome :=
  let shift := if 4 < c.nrtx then 4 else c.nrtx
  Conn.resend app buf { c with timer := uipRto <<< shift, nrtx := c.nrtx + 1 }

/-- The end of a connection whose peer does not answer. -/
def Conn.timeout (c : Conn) : Outcome :=
  let c := c.enter .closed
  let call : Call := { flags := { timedout := true }, uipLen := 0, appdata := buf, conn := c }
  let c := { c with stopped := (app call).stopped }
  { conn := c, packet := c.packet { rst := true, ack := true } [] false, call }

/-- The connection only waits for the time to pass. -/
def Conn.Lingers (c : Conn) : Prop := c.is .timeWait ∨ c.is .finWait2

instance (c : Conn) : Decidable c.Lingers := inferInstanceAs (Decidable (_ ∨ _))

/-- `uip_periodic`. `buf` is what the buffer holds before the call. -/
def Conn.periodic (c : Conn) : Outcome :=
  if c.Lingers then
    let c := { c with timer := c.timer + 1 }
    { conn := if c.timer = uipTimeWaitTimeout then c.enter .closed else c }
  else if c.is .closed then { conn := c }
  else if c.len ≠ 0 then
    let expired := c.timer = 0
    let c := { c with timer := c.timer - 1 }
    if expired then
      if c.nrtx = uipMaxrtx ∨ (c.is .synSent ∨ c.is .synRcvd) ∧ c.nrtx = uipMaxsynrtx then c.timeout app buf
      else c.retransmit app buf
    else { conn := c }
  else if c.state = .established then
    let call : Call := { flags := { poll := true }, uipLen := 0, appdata := buf, conn := c }
    c.appsend call (app call)
  else { conn := c }

end Timer

section Options

/-- The options behind the header, from `c` of type `u8_t` on. There is nothing behind `fuel` rounds. -/
def mssWalk (payload : ℕ → BitVec 8) (limit : ℕ) : ℕ → BitVec 8 → Option (Option (BitVec 16))
  | 0, _ => none
  | fuel + 1, c =>
    if c.toNat < limit then
      if payload c.toNat = 0 then some none
      else if payload c.toNat = 1 then mssWalk payload limit fuel (c + 1)
      else if payload c.toNat = 2 ∧ payload (c.toNat + 1) = 4 then
        let mss := payload (c.toNat + 2) ++ payload (c.toNat + 3)
        some (some (if uipTcpMss < mss then uipTcpMss else mss))
      else if payload (c.toNat + 1) = 0 then some none
      else mssWalk payload limit fuel (c + payload (c.toNat + 1))
    else some none

/-- The maximum segment size that the options announce. `none` stands for a walk that does not end:
`c` has 256 values, and each of them decides the next one. -/
def Segment.mssOption (seg : Segment) : Option (Option (BitVec 16)) :=
  if 0x50 < seg.tcpoffset &&& 0xf0 then mssWalk seg.payload (((seg.tcpoffset >>> 4).toNat - 5) * 4) 256 0
  else some none

/-- `initialmss = mss = ...`, if there is an option. -/
def Conn.setMss (c : Conn) : Option (BitVec 16) → Conn
  | some mss => { c with mss, initialmss := mss }
  | none => c

end Options

section Input

/-- The length of the data: `c` is a `u8_t`, `uip_len` a `u16_t`. -/
def Segment.dataLen (seg : Segment) : BitVec 16 :=
  seg.uipLen - (((seg.tcpoffset >>> 4) <<< 2).setWidth 16) - uipIphLen

/-- `(BUF->flags & TCP_CTL) == (TCP_SYN | TCP_ACK)`. -/
def Segment.isSynack (seg : Segment) : Bool := seg.flags = { syn := true, ack := true }

/-- The estimation of the round trip time, in bytes. -/
def Conn.estimate (c : Conn) : Conn :=
  let m := c.rto - c.timer - (c.sa >>> 3)
  let sa := c.sa + m
  let m := if m.msb then -m else m
  let sv := c.sv + (m - (c.sv >>> 2))
  { c with sa, sv, rto := (sa >>> 3) + sv }

def Conn.acknowledged (c : Conn) (seg : Segment) : Bool :=
  seg.flags.ack ∧ c.len ≠ 0 ∧ seg.ackno = uipAdd32 c.sndNxt c.len

/-- What an acknowledgement changes. `len` stays as it is. -/
def Conn.advance (c : Conn) (seg : Segment) : Conn :=
  if c.acknowledged seg then
    let c := { c with sndNxt := uipAdd32 c.sndNxt c.len }
    let c := if c.nrtx = 0 then c.estimate else c
    { c with timer := c.rto }
  else c

/-- `uip_add_rcv_nxt`. -/
def Conn.addRcvNxt (c : Conn) (n : BitVec 16) : Conn := { c with rcvNxt := uipAdd32 c.rcvNxt n }

/-- The reset that answers a segment nobody expects, with the two numbers exchanged. -/
def Segment.reset (seg : Segment) (srcport destport : BitVec 16) (ripaddr : BitVec 32) : Packet :=
  { destipaddr := ripaddr, srcport := destport, destport := srcport, flags := { rst := true, ack := true },
    seqno := seg.ackno, ackno := seg.seqno.carry3, wnd := seg.wnd, mssOption := false, data := [] }

variable (app : Call → Reply)

/-- A call of the application that only keeps the bit it may change. -/
def Conn.notify (c : Conn) (call : Call) : Conn := { c with stopped := (app call).stopped }

/-- The segment finds the connection in `UIP_SYN_RCVD`. -/
def Conn.inSynRcvd (c : Conn) (seg : Segment) (acked : Bool) : Outcome :=
  if acked then
    let c := { c.enter .established with len := 0 }
    let newdata : Bool := 0 < seg.dataLen
    let c := if newdata then c.addRcvNxt seg.dataLen else c
    let call : Call :=
      { flags := { connected := true, newdata := newdata }, uipLen := seg.dataLen, appdata := seg.payload, conn := c }
    c.appsend call (app call)
  else { conn := c }

/-- The segment finds the connection in `UIP_SYN_SENT`. The options may keep the call from returning. -/
def Conn.inSynSent (c : Conn) (seg : Segment) (acked : Bool) : Option Outcome :=
  if acked ∧ seg.isSynack then
    seg.mssOption.map fun option =>
      let c := { (c.setMss option).enter .established with rcvNxt := seg.seqno, len := 0 }
      let c := c.addRcvNxt 1
      let call : Call :=
        { flags := { connected := true, newdata := true }, uipLen := 0, appdata := seg.payload, conn := c }
      c.appsend call (app call)
  else
    let call : Call :=
      { flags := { abort := true }, uipLen := seg.dataLen, appdata := seg.payload, conn := c }
    some { conn := c.enter .closed, packet := seg.reset c.rport c.lport c.ripaddr, call }

def Conn.peerCloses (c : Conn) (seg : Segment) (acked : Bool) : Outcome :=
  if c.len ≠ 0 then { conn := c }
  else
    let c := c.addRcvNxt (1 + seg.dataLen)
    let call : Call :=
      { flags := { ackdata := acked, close := true, newdata := 0 < seg.dataLen }, uipLen := seg.dataLen,
        appdata := seg.payload, conn := c }
    let c := { (c.notify app call).enter .lastAck with len := 1, nrtx := 0 }
    { conn := c, packet := c.finack, call }

/-- The current maximum segment size from the announced window. -/
def Conn.updateMss (c : Conn) (seg : Segment) : Conn :=
  { c with mss := if c.initialmss < seg.wnd ∨ seg.wnd = 0 then c.initialmss else seg.wnd }

/-- The urgent data, which the application is not given. -/
def Segment.skip (seg : Segment) : BitVec 16 := if seg.flags.urg then seg.urgp else 0

def Segment.newLen (seg : Segment) : BitVec 16 := seg.dataLen - seg.skip

/-- The segment finds the connection in `UIP_ESTABLISHED`. -/
def Conn.inEstablished (c : Conn) (seg : Segment) (acked : Bool) : Outcome :=
  if seg.flags.fin ∧ ¬ c.stopped then c.peerCloses app seg acked
  else
    let newdata : Bool := 0 < seg.newLen ∧ ¬ c.stopped
    let c := (if newdata then c.addRcvNxt seg.newLen else c).updateMss seg
    if newdata ∨ acked then
      let call : Call :=
        { flags := { ackdata := acked, newdata }, uipLen := seg.newLen,
          appdata := fun i => seg.payload (seg.skip.toNat + i), conn := c }
      c.appsend call (app call)
    else { conn := c }

/-- The application is told about the end of the connection, and the segment is acknowledged. -/
def Conn.acceptClose (c : Conn) (seg : Segment) : Outcome :=
  let c := c.addRcvNxt 1
  let call : Call :=
    { flags := { close := true }, uipLen := seg.dataLen, appdata := seg.payload, conn := c }
  let c := c.notify app call
  { conn := c, packet := c.ack, call }

def Conn.countData (c : Conn) (seg : Segment) : Conn := if 0 < seg.dataLen then c.addRcvNxt seg.dataLen else c

/-- The segment finds the connection in `UIP_FIN_WAIT_1`. -/
def Conn.inFinWait1 (c : Conn) (seg : Segment) (acked : Bool) : Outcome :=
  let c := c.countData seg
  if seg.flags.fin then
    Conn.acceptClose app (if acked then { c.enter .timeWait with timer := 0, len := 0 } else c.enter .closing) seg
  else if acked then { conn := { c.enter .finWait2 with len := 0 } }
  else { conn := c, packet := if 0 < seg.dataLen then some c.ack else none }

/-- The segment finds the connection in `UIP_FIN_WAIT_2`. -/
def Conn.inFinWait2 (c : Conn) (seg : Segment) : Outcome :=
  let c := c.countData seg
  if seg.flags.fin then Conn.acceptClose app { c.enter .timeWait with timer := 0 } seg
  else { conn := c, packet := if 0 < seg.dataLen then some c.ack else none }

/-- The segment finds the connection in `UIP_LAST_ACK`. -/
def Conn.inLastAck (c : Conn) (seg : Segment) (acked : Bool) : Outcome :=
  if acked then
    let c := c.enter .closed
    let call : Call := { flags := { close := true }, uipLen := seg.dataLen, appdata := seg.payload, conn := c }
    { conn := c.notify app call, call }
  else { conn := c }

/-- The sequence number is not the expected one, although there is something to number. -/
def Conn.unexpected (c : Conn) (seg : Segment) : Bool :=
  ¬ (c.state = .synSent ∧ seg.isSynack) ∧ (0 < seg.dataLen ∨ seg.flags.syn ∨ seg.flags.fin) ∧ seg.seqno ≠ c.rcvNxt

/-- From `found` on. -/
def Conn.found (c : Conn) (seg : Segment) : Option Outcome :=
  if seg.flags.rst then
    let c := c.enter .closed
    let call : Call := { flags := { abort := true }, uipLen := seg.uipLen, appdata := seg.payload, conn := c }
    some { conn := c.notify app call, call }
  else if c.unexpected seg then some { conn := c, packet := c.ack }
  else
    let acked := c.acknowledged seg
    let c := c.advance seg
    match c.state with
    | .synRcvd => some (c.inSynRcvd app seg acked)
    | .synSent => c.inSynSent app seg acked
    | .established => some (c.inEstablished app seg acked)
    | .lastAck => some (c.inLastAck app seg acked)
    | .finWait1 => some (c.inFinWait1 app seg acked)
    | .finWait2 => some (c.inFinWait2 app seg)
    | .timeWait => some { conn := c, packet := c.ack }
    | .closing => some { conn := if acked then { c.enter .timeWait with timer := 0 } else c }
    | .closed => some { conn := c }

theorem countData_state (c : Conn) (seg : Segment) : (c.countData seg).state = c.state := by
  rw [Conn.countData]
  split_ifs <;> rfl

theorem advance_state (c : Conn) (seg : Segment) : (c.advance seg).state = c.state := by
  dsimp only [Conn.advance]
  split_ifs <;> rfl

theorem advance_rcvNxt (c : Conn) (seg : Segment) : (c.advance seg).rcvNxt = c.rcvNxt := by
  dsimp only [Conn.advance]
  split_ifs <;> rfl

end Input

section Listen

/-- A slot of `uip_conns` behind `uip_init`. -/
def Conn.init : Conn :=
  { ripaddr := 0, lport := 0, rport := 0, rcvNxt := ⟨0, 0, 0, 0⟩, sndNxt := ⟨0, 0, 0, 0⟩, len := 0, mss := 0,
    initialmss := 0, sa := 0, sv := 0, rto := 0, state := .closed, stopped := false, timer := 0, nrtx := 0 }

/-- The connection that a SYN opens in a free slot. Without an option the segment sizes stay those of
the last owner. -/
def Conn.accept (c : Conn) (iss : Seqno) (srcipaddr : BitVec 32) (srcport destport : BitVec 16) (seg : Segment) :
    Option Outcome :=
  seg.mssOption.map fun option =>
    let c := { c with
      rto := uipRto, timer := uipRto, sa := 0, sv := 4, nrtx := 0, lport := destport, rport := srcport,
      ripaddr := srcipaddr, state := .synRcvd, stopped := false, sndNxt := iss, len := 1, rcvNxt := seg.seqno }
    let c := (c.addRcvNxt 1).setMss option
    { conn := c, packet := c.packet { syn := true, ack := true } [] true }

def Segment.plainOf (flags : TcpFlags) (seqno ackno : Seqno) (data : List (BitVec 8)) : Segment :=
  { flags, seqno, ackno, tcpoffset := 0x50, wnd := 1000, urgp := 0, uipLen := BitVec.ofNat 16 (40 + data.length),
    payload := writeAt (fun _ => 0) 0 data }

end Listen

section Runs

/-- A connection, the bytes that its application has been given, and the packets sent. -/
structure TcpRun where
  conn : Conn
  delivered : List (BitVec 8)
  sent : List Packet

inductive TcpInput
  | segment (seg : Segment)
  | timer (buf : ℕ → BitVec 8)

structure TcpEvent where
  input : TcpInput
  app : Call → Reply

def Call.newBytes (call : Call) : List (BitVec 8) :=
  if call.flags.newdata then readAt call.appdata 0 call.uipLen.toNat else []

def Outcome.newBytes (out : Outcome) : List (BitVec 8) := out.call.elim [] Call.newBytes

/-- What the stack does for the connection. A segment does not find a closed one. -/
def Conn.process (c : Conn) (event : TcpEvent) : Option Outcome :=
  match event.input with
  | .segment seg => if c.is .closed then none else c.found event.app seg
  | .timer buf => some (c.periodic event.app buf)

/-- A call that does not return changes nothing. -/
def TcpRun.step (s : TcpRun) (event : TcpEvent) : TcpRun :=
  match s.conn.process event with
  | none => s
  | some out =>
    { conn := out.conn, delivered := s.delivered ++ out.newBytes, sent := s.sent ++ out.packet.toList }

end Runs

end Uip
