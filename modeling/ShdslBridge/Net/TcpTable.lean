import ShdslBridge.Lib.Run
import ShdslBridge.Net.TcpConn
import Mathlib.Data.Fintype.Pigeonhole

/-! # The connections of uIP

The stack has ten connections and ten listening ports. A segment goes to the first connection with
its addresses that is not closed; only if there is none, a SYN to a listening port opens a new one, in
a closed slot or in the place of the oldest connection that lingers. `uip_connect` takes such a slot for
a local port that is not in use. So no two connections in use have the same addresses, and what arrives
for one of them leaves the others alone.
-/

namespace Uip

open Run

def uipConns : ℕ := 10

section Data

/-- What the headers say about the connection of a segment. -/
structure Address where
  ripaddr : BitVec 32
  rport : BitVec 16
  lport : BitVec 16
  deriving DecidableEq

/-- `uip_conns`, `uip_listenports`, `iss` and `lastport`. -/
structure Tcp where
  conns : Fin uipConns → Conn
  listenports : List (BitVec 16)
  iss : Seqno
  lastport : BitVec 16

/-- What `uip_process` and the calls beside it are called for. -/
inductive Input
  | segment (address : Address) (seg : Segment)
  | periodic (slot : Fin uipConns) (buf : ℕ → BitVec 8)
  | listen (port : BitVec 16)
  | unlisten (port : BitVec 16)
  | connect (ripaddr : BitVec 32) (rport : BitVec 16)

structure StackEvent where
  input : Input
  app : Call → Reply

def Conn.address (c : Conn) : Address := ⟨c.ripaddr, c.rport, c.lport⟩

end Data

section Code

/-- `tcpstateflags != UIP_CLOSED`. -/
def Conn.InUse (c : Conn) : Prop := ¬ c.is .closed = true

instance (c : Conn) : Decidable c.InUse := inferInstanceAs (Decidable (¬ _))

def Tcp.lookup (t : Tcp) (address : Address) : Option (Fin uipConns) :=
  (List.finRange uipConns).find? fun i => (t.conns i).InUse ∧ (t.conns i).address = address

/-- The search for a slot: the first closed one, or the one that has lingered longest. -/
def Tcp.freeSlot (t : Tcp) (best : Option (Fin uipConns)) : List (Fin uipConns) → Option (Fin uipConns)
  | [] => best
  | i :: rest =>
    if (t.conns i).is .closed then some i
    else if (t.conns i).is .timeWait ∧ best.all fun b => (t.conns b).timer < (t.conns i).timer then
      t.freeSlot (some i) rest
    else t.freeSlot best rest

/-- The assignment to a slot. -/
def Tcp.put (t : Tcp) (i : Fin uipConns) (c : Conn) : Tcp := { t with conns := Function.update t.conns i c }

/-- `found_listen`. A walk over the options that does not end changes nothing. -/
def Tcp.foundListen (t : Tcp) (address : Address) (seg : Segment) : Tcp × Option Packet :=
  match t.freeSlot none (List.finRange uipConns) with
  | none => (t, none)
  | some i =>
    match (t.conns i).accept t.iss address.ripaddr address.rport address.lport seg with
    | none => (t, none)
    | some out => (t.put i out.conn, out.packet)

/-- The local port behind `lastport`. -/
def nextPort (lastport : BitVec 16) : BitVec 16 := if 32000 ≤ lastport + 1 then 4096 else lastport + 1

/-- The search for an unused local port, with at most `fuel` of them tried. -/
def Tcp.unusedPort (t : Tcp) : ℕ → BitVec 16 → Option (BitVec 16)
  | 0, _ => none
  | fuel + 1, lastport =>
    if ∃ i ∈ List.finRange uipConns, (t.conns i).InUse ∧ (t.conns i).lport = nextPort lastport then
      t.unusedPort fuel (nextPort lastport)
    else some (nextPort lastport)

/-- The connection that `uip_connect` opens. -/
def Conn.connect (c : Conn) (iss : Seqno) (ripaddr : BitVec 32) (rport lastport : BitVec 16) : Conn :=
  { c with
    state := .synSent, stopped := false, sndNxt := iss, initialmss := uipTcpMss, mss := uipTcpMss, len := 1,
    nrtx := 0, timer := 1, rto := uipRto, sa := 0, sv := 16, lport := lastport, rport, ripaddr }

/-- `uip_connect`. -/
def Tcp.connect (t : Tcp) (ripaddr : BitVec 32) (rport : BitVec 16) : Tcp :=
  match t.unusedPort (uipConns + 1) t.lastport with
  | none => t
  | some lastport =>
    let t := { t with lastport }
    match t.freeSlot none (List.finRange uipConns) with
    | none => t
    | some i => t.put i ((t.conns i).connect t.iss ripaddr rport lastport)

/-- `reset`. -/
def Tcp.reset (t : Tcp) (address : Address) (seg : Segment) : Tcp × Option Packet :=
  (t, if seg.flags.rst then none else some (seg.reset address.rport address.lport address.ripaddr))

/-- `tcp_input`, behind the checksum. -/
def Tcp.tcpInput (t : Tcp) (app : Call → Reply) (address : Address) (seg : Segment) : Tcp × Option Packet :=
  match t.lookup address with
  | some i =>
    match (t.conns i).found app seg with
    | none => (t, none)
    | some out => (t.put i out.conn, out.packet)
  | none =>
    if seg.flags ≠ { syn := true } then t.reset address seg
    else if address.lport ∈ t.listenports then t.foundListen address seg
    else t.reset address seg

def replaceFirst (old new : BitVec 16) : List (BitVec 16) → List (BitVec 16)
  | [] => []
  | port :: rest => if port = old then new :: rest else port :: replaceFirst old new rest

/-- `uip_process` for one input, with the packet to send. -/
def Tcp.process (t : Tcp) (event : StackEvent) : Tcp × Option Packet :=
  match event.input with
  | .segment address seg => t.tcpInput event.app address seg
  | .periodic i buf =>
    let out := (t.conns i).periodic event.app buf
    ({ t.put i out.conn with iss := t.iss.carry3 }, out.packet)
  | .listen port => ({ t with listenports := replaceFirst 0 port t.listenports }, none)
  | .unlisten port => ({ t with listenports := replaceFirst port 0 t.listenports }, none)
  | .connect ripaddr rport => (t.connect ripaddr rport, none)

def Tcp.step (t : Tcp) (event : StackEvent) : Tcp := (t.process event).1

/-- `uip_init`. -/
def Tcp.init (iss : Seqno) : Tcp :=
  { conns := fun _ => Conn.init, listenports := List.replicate 10 0, iss, lastport := 1024 }

end Code

section Addresses

variable {c : Conn} {app : Call → Reply}

theorem appsend_address (c : Conn) (call : Call) (reply : Reply) :
    (c.appsend call reply).conn.address = c.address := by
  dsimp only [Conn.appsend]
  split_ifs <;> rfl

theorem countData_address (c : Conn) (seg : Segment) : (c.countData seg).address = c.address := by
  rw [Conn.countData]
  split_ifs <;> rfl

theorem advance_address (c : Conn) (seg : Segment) : (c.advance seg).address = c.address := by
  dsimp only [Conn.advance]
  split_ifs <;> rfl

theorem inEstablished_address (c : Conn) (seg : Segment) (acked : Bool) :
    (c.inEstablished app seg acked).conn.address = c.address := by
  rw [Conn.inEstablished, Conn.peerCloses]
  dsimp only
  split_ifs <;> first
    | exact appsend_address ..
    | rfl

theorem inFinWait1_address (c : Conn) (seg : Segment) (acked : Bool) :
    (c.inFinWait1 app seg acked).conn.address = c.address := by
  rw [Conn.inFinWait1, ← countData_address c seg]
  dsimp only
  split_ifs <;> simp only [Conn.acceptClose, Conn.notify, Conn.addRcvNxt, Conn.enter, Conn.address]

theorem inFinWait2_address (c : Conn) (seg : Segment) : (c.inFinWait2 app seg).conn.address = c.address := by
  rw [Conn.inFinWait2, ← countData_address c seg]
  dsimp only
  split_ifs <;> simp only [Conn.acceptClose, Conn.notify, Conn.addRcvNxt, Conn.enter, Conn.address]

theorem found_address {seg : Segment} {out : Outcome} (called : c.found app seg = some out) :
    out.conn.address = c.address := by
  rw [Conn.found] at called
  split_ifs at called
  · cases called
    rfl
  · cases called
    rfl
  rw [← advance_address c seg]
  generalize c.advance seg = d at called ⊢
  dsimp only at called
  split at called
  · cases called
    dsimp only [Conn.inSynRcvd]
    split_ifs <;> first
      | exact appsend_address ..
      | rfl
  · dsimp only [Conn.inSynSent] at called
    split_ifs at called
    · obtain ⟨option, -, rfl⟩ := Option.map_eq_some_iff.mp called
      cases option <;> exact appsend_address ..
    · cases called
      rfl
  · cases called
    exact inEstablished_address ..
  · cases called
    rw [Conn.inLastAck]
    split_ifs <;> rfl
  · cases called
    exact inFinWait1_address ..
  · cases called
    exact inFinWait2_address ..
  · cases called
    rfl
  · cases called
    dsimp only
    split_ifs <;> rfl
  · cases called
    rfl

theorem resend_address (c : Conn) (buf : ℕ → BitVec 8) : (c.resend app buf).conn.address = c.address := by
  rw [Conn.resend]
  split <;> rfl

/-- The timer does not change the addresses, and it leaves a closed slot as it is. -/
theorem periodic_address (c : Conn) (buf : ℕ → BitVec 8) :
    (c.periodic app buf).conn.address = c.address ∧ ((c.periodic app buf).conn.InUse → c.InUse) := by
  rw [Conn.periodic]
  dsimp only
  split_ifs with waits ends closed outstands expired gives polled
  · exact ⟨rfl, fun used => absurd rfl used⟩
  · exact ⟨rfl, fun used => used⟩
  · exact ⟨rfl, fun used => used⟩
  · exact ⟨rfl, fun _ => closed⟩
  · exact ⟨resend_address .., fun _ => closed⟩
  · exact ⟨rfl, fun _ => closed⟩
  · exact ⟨appsend_address .., fun _ => closed⟩
  · exact ⟨rfl, fun _ => closed⟩

theorem accept_address {iss : Seqno} {ripaddr : BitVec 32} {rport lport : BitVec 16} {seg : Segment} {out : Outcome}
    (accepted : c.accept iss ripaddr rport lport seg = some out) :
    out.conn.address = ⟨ripaddr, rport, lport⟩ ∧ out.conn.state = .synRcvd := by
  obtain ⟨option, -, rfl⟩ := Option.map_eq_some_iff.mp accepted
  cases option <;> exact ⟨rfl, rfl⟩

end Addresses

section Ports

variable {t : Tcp}

theorem unusedPort_unused {fuel : ℕ} {lastport port : BitVec 16} (found : t.unusedPort fuel lastport = some port)
    (i : Fin uipConns) (used : (t.conns i).InUse) : (t.conns i).lport ≠ port := by
  induction fuel generalizing lastport with
  | zero => cases found
  | succ fuel ih =>
    rw [Tcp.unusedPort] at found
    split_ifs at found with taken
    · exact ih found
    · rw [← Option.some.inj found]
      exact fun same => taken ⟨i, List.mem_finRange i, used, same⟩

theorem unusedPort_none {fuel : ℕ} {lastport : BitVec 16} (none : t.unusedPort fuel lastport = none) {n : ℕ}
    (tried : n < fuel) : ∃ i, (t.conns i).lport = nextPort^[n + 1] lastport := by
  induction fuel generalizing lastport n with
  | zero => exact absurd tried (Nat.not_lt_zero n)
  | succ fuel ih =>
    rw [Tcp.unusedPort] at none
    split_ifs at none with taken
    cases n with
    | zero => exact taken.imp fun i both => both.2.2
    | succ n => exact ih none (Nat.lt_of_succ_lt_succ tried)

theorem nextPort_toNat (lastport : BitVec 16) : (nextPort lastport).toNat =
    if 32000 ≤ (lastport.toNat + 1) % 65536 then 4096 else (lastport.toNat + 1) % 65536 := by
  have next : (lastport + 1).toNat = (lastport.toNat + 1) % 65536 := BitVec.toNat_add ..
  have late : 32000 ≤ lastport + 1 ↔ 32000 ≤ (lastport.toNat + 1) % 65536 := by rw [BitVec.le_def, next]; rfl
  simp only [nextPort, late]
  split_ifs
  · rfl
  · exact next

theorem nextPort_iterate (lastport : BitVec 16) {n : ℕ} (few : n ≤ uipConns) : (nextPort^[n + 1] lastport).toNat =
    if (nextPort lastport).toNat + n < 32000 then (nextPort lastport).toNat + n
    else (nextPort lastport).toNat + n - 27904 := by
  have start := nextPort_toNat lastport
  have few' : n ≤ 10 := few
  induction n with
  | zero =>
    rw [Function.iterate_one]
    split_ifs at start ⊢ <;> omega
  | succ n ih =>
    rw [Function.iterate_succ_apply', nextPort_toNat, ih (by omega) (by omega)]
    split_ifs at start ⊢ <;> omega

/-- One more port than there are connections: one of them is not in use. -/
theorem unusedPort_found (t : Tcp) (lastport : BitVec 16) :
    ∃ port, t.unusedPort (uipConns + 1) lastport = some port := by
  refine Option.ne_none_iff_exists'.mp fun none => ?_
  choose slot port using fun n : Fin (uipConns + 1) => unusedPort_none none n.isLt
  obtain ⟨m, n, ne, same⟩ := Fintype.exists_ne_map_eq_of_card_lt slot (by simp)
  have equal := congrArg BitVec.toNat ((port m).symm.trans ((congrArg _ (congrArg _ same)).trans (port n)))
  rw [nextPort_iterate lastport (Nat.le_of_lt_succ m.isLt), nextPort_iterate lastport (Nat.le_of_lt_succ n.isLt)] at equal
  have low : m.val ≤ 10 := Nat.le_of_lt_succ m.isLt
  have low' : n.val ≤ 10 := Nat.le_of_lt_succ n.isLt
  exact ne (Fin.ext (by split_ifs at equal <;> omega))

end Ports

section Invariant

variable {t : Tcp}

/-- No two connections in use have the same addresses. -/
def Tcp.Distinct (t : Tcp) : Prop :=
  ∀ i j, (t.conns i).InUse → (t.conns j).InUse → (t.conns i).address = (t.conns j).address → i = j

variable {i : Fin uipConns}

theorem Tcp.Distinct.put (distinct : t.Distinct) {c : Conn}
    (other : c.InUse → ∀ j ≠ i, (t.conns j).InUse → (t.conns j).address ≠ c.address) : (t.put i c).Distinct := by
  intro a b usedA usedB same
  change (Function.update t.conns i c a).InUse at usedA
  change (Function.update t.conns i c b).InUse at usedB
  change (Function.update t.conns i c a).address = (Function.update t.conns i c b).address at same
  rcases eq_or_ne a i with rfl | neA
  · rcases eq_or_ne b a with rfl | neB
    · rfl
    · rw [Function.update_self] at usedA same
      rw [Function.update_of_ne neB] at usedB same
      exact absurd same.symm (other usedA b neB usedB)
  · rcases eq_or_ne b i with rfl | neB
    · rw [Function.update_self] at usedB same
      rw [Function.update_of_ne neA] at usedA same
      exact absurd same (other usedB a neA usedA)
    · rw [Function.update_of_ne neA] at usedA same
      rw [Function.update_of_ne neB] at usedB same
      exact distinct a b usedA usedB same

theorem Tcp.Distinct.put_same (distinct : t.Distinct) {c : Conn} (address : c.address = (t.conns i).address)
    (used : c.InUse → (t.conns i).InUse) : (t.put i c).Distinct :=
  distinct.put fun inUse j ne usedJ same => ne (distinct j i usedJ (used inUse) (same.trans address))

theorem lookup_some {address : Address} (found : t.lookup address = some i) :
    (t.conns i).InUse ∧ (t.conns i).address = address := by
  rw [Tcp.lookup] at found
  simpa using List.find?_some found

theorem lookup_none {address : Address} (none : t.lookup address = none) (i : Fin uipConns) (used : (t.conns i).InUse) :
    (t.conns i).address ≠ address := by
  have all := List.find?_eq_none.mp none i (List.mem_finRange i)
  exact fun same => all (decide_eq_true ⟨used, same⟩)

theorem freeSlot_free {best : Option (Fin uipConns)} {slots : List (Fin uipConns)}
    (free : ∀ b ∈ best, (t.conns b).is .timeWait = true) (found : t.freeSlot best slots = some i) :
    (t.conns i).is .closed = true ∨ (t.conns i).is .timeWait = true := by
  induction slots generalizing best with
  | nil => exact .inr (free i found)
  | cons slot rest ih =>
    rw [Tcp.freeSlot] at found
    split_ifs at found with closed lingers
    · obtain rfl := Option.some.inj found
      exact .inl closed
    · apply ih _ found
      rintro b ⟨⟩
      exact lingers.1
    · exact ih free found

/-- What an event does to one slot: nothing, or what the stack does for its own connection, or a new connection takes
a slot that is free, with addresses that no connection in use has. -/
inductive Tcp.Serves (t : Tcp) (event : StackEvent) (i : Fin uipConns) (c : Conn) : Prop
  | nothing (kept : c = t.conns i)
  | segment {address seg out} (input : event.input = .segment address seg) (mine : (t.conns i).address = address)
      (used : (t.conns i).InUse) (called : (t.conns i).found event.app seg = some out) (result : c = out.conn)
  | timer {buf} (input : event.input = .periodic i buf) (result : c = ((t.conns i).periodic event.app buf).conn)
  | opens {address seg out} (input : event.input = .segment address seg)
      (free : (t.conns i).is .closed = true ∨ (t.conns i).is .timeWait = true)
      (others : ∀ j, (t.conns j).InUse → (t.conns j).address ≠ address)
      (accepted : (t.conns i).accept t.iss address.ripaddr address.rport address.lport seg = some out)
      (result : c = out.conn)
  | connects {ripaddr rport lastport} (input : event.input = .connect ripaddr rport)
      (free : (t.conns i).is .closed = true ∨ (t.conns i).is .timeWait = true)
      (others : ∀ j, (t.conns j).InUse → (t.conns j).lport ≠ lastport)
      (result : c = (t.conns i).connect t.iss ripaddr rport lastport)

theorem connect_serves {event : StackEvent} {ripaddr : BitVec 32} {rport : BitVec 16}
    (input : event.input = .connect ripaddr rport) :
    ∃ i c, (t.connect ripaddr rport).conns = Function.update t.conns i c ∧ t.Serves event i c := by
  have nothing : ∃ i c, t.conns = Function.update t.conns i c ∧ t.Serves event i c :=
    ⟨⟨0, by decide⟩, _, (Function.update_eq_self ..).symm, .nothing rfl⟩
  obtain ⟨lastport, unused⟩ := unusedPort_found t t.lastport
  unfold Tcp.connect
  rw [unused]
  dsimp only
  split
  · exact nothing
  · rename_i i free
    refine ⟨i, _, rfl, .connects input (@freeSlot_free { t with lastport } _ _ _ ?_ free) (unusedPort_unused unused) rfl⟩
    rintro b ⟨⟩

theorem step_serves (t : Tcp) (event : StackEvent) :
    ∃ i c, (t.step event).conns = Function.update t.conns i c ∧ t.Serves event i c := by
  have nothing {other : Tcp} (same : other.conns = t.conns) :
      ∃ i c, other.conns = Function.update t.conns i c ∧ t.Serves event i c :=
    ⟨⟨0, by decide⟩, _, by rw [Function.update_eq_self, same], .nothing rfl⟩
  rw [Tcp.step, Tcp.process]
  split
  · rename_i address seg input
    rw [Tcp.tcpInput]
    split
    · rename_i i found
      obtain ⟨used, mine⟩ := lookup_some found
      split
      · exact nothing rfl
      · rename_i out called
        exact ⟨i, out.conn, rfl, .segment input mine used called rfl⟩
    · rename_i none
      split_ifs
      · exact nothing rfl
      · rw [Tcp.foundListen]
        split
        · exact nothing rfl
        rename_i i free
        split
        · exact nothing rfl
        · rename_i out accepted
          refine ⟨i, out.conn, rfl, .opens input (freeSlot_free ?_ free) (lookup_none none) accepted rfl⟩
          rintro b ⟨⟩
      · exact nothing rfl
  · rename_i i buf input
    exact ⟨i, _, rfl, .timer input rfl⟩
  · exact nothing rfl
  · exact nothing rfl
  · rename_i ripaddr rport input
    exact connect_serves input

theorem Tcp.Distinct.step (distinct : t.Distinct) (event : StackEvent) : (t.step event).Distinct := by
  obtain ⟨i, c, conns, serves⟩ := step_serves t event
  have put : (t.put i c).Distinct := by
    cases serves with
    | nothing kept =>
      rw [kept]
      exact distinct.put_same rfl id
    | segment input mine used called result =>
      rw [result]
      exact distinct.put_same (found_address called) fun _ => used
    | timer input result =>
      rw [result]
      exact distinct.put_same (periodic_address ..).1 (periodic_address ..).2
    | opens input free others accepted result =>
      rw [result]
      refine distinct.put fun _ j _ used => ?_
      rw [(accept_address accepted).1]
      exact others j used
    | connects input free others result =>
      rw [result]
      exact distinct.put fun _ j _ used same => others j used (congrArg Address.lport same)
  rw [Tcp.Distinct, conns]
  exact put

/-- In every run from `uip_init` on no two connections in use have the same addresses and `uip_connect` finds a local
port, and every event is served for one connection: the one that a segment is addressed to, the one whose timer runs,
or a new one in a free slot. -/
theorem connections_distinct (iss : Seqno) (events : List StackEvent) :
    Always Tcp.step (fun t => t.Distinct ∧ ∃ port, t.unusedPort (uipConns + 1) t.lastport = some port) (Tcp.init iss)
        events ∧
      Along Tcp.step
        (fun t event => ∃ i c, (t.step event).conns = Function.update t.conns i c ∧ t.Serves event i c)
        (Tcp.init iss) events := by
  constructor
  · refine always_of_invariant (fun _ event distinct => distinct.step event)
      (fun t distinct => ⟨distinct, unusedPort_found t t.lastport⟩) ?_ events
    exact fun i _ used => absurd rfl used
  · generalize Tcp.init iss = t
    induction events generalizing t with
    | nil => trivial
    | cons event rest ih => exact ⟨step_serves t event, ih _⟩

end Invariant

end Uip
