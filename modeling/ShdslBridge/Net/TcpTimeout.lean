import ShdslBridge.Lib.Run
import ShdslBridge.Net.TcpConn

/-! # When the stack gives a silent peer up

The timer of a connection that waits for an acknowledgement counts down, and each time it has run out
the packet is sent again and the next wait is longer. `patience` is the number of timer calls that a
connection survives without a segment: one more, and it is closed. The same holds for the two states
that only wait for the time to pass.
-/

namespace Uip

open Run

section Patience

/-- The number of retransmissions before the connection is given up. -/
def Conn.limit (c : Conn) : ℕ := if c.is .synSent ∨ c.is .synRcvd then 5 else 8

/-- The waits behind the last `r` retransmissions. -/
def backoffs (limit : ℕ) : ℕ → ℕ
  | 0 => 0
  | r + 1 => 3 * 2 ^ min (limit - (r + 1)) 4 + 1 + backoffs limit r

/-- The connection waits for the time to pass, or for an acknowledgement. -/
def Conn.Pending (c : Conn) : Prop := c.Lingers ∨ ¬ c.Lingers ∧ c.state ≠ .closed ∧ c.len ≠ 0 ∧ c.nrtx.toNat ≤ c.limit

def Conn.patience (c : Conn) : ℕ :=
  if c.Lingers then (uipTimeWaitTimeout - 1 - c.timer).toNat
  else c.timer.toNat + backoffs c.limit (c.limit - c.nrtx.toNat)

theorem backoff_eq (nrtx : BitVec 8) :
    (uipRto <<< (if 4 < nrtx then 4 else nrtx : BitVec 8)).toNat = 3 * 2 ^ min nrtx.toNat 4 := by
  revert nrtx
  decide +kernel

end Patience

section Step

variable {c : Conn} {app : Call → Reply} {buf : ℕ → BitVec 8}

/-- `tcpstateflags == UIP_X`. -/
theorem is_iff {state : TcpState} : c.is state = true ↔ c.state = state ∧ c.stopped = false := by
  rw [Conn.is, decide_eq_true_iff, Bool.not_eq_true]

theorem resend_kept (c : Conn) (app : Call → Reply) (buf : ℕ → BitVec 8) :
    (c.resend app buf).conn.state = c.state ∧ (c.resend app buf).conn.len = c.len ∧
      (c.resend app buf).conn.timer = c.timer ∧ (c.resend app buf).conn.nrtx = c.nrtx ∧
      (c.state ≠ .established → (c.resend app buf).conn.stopped = c.stopped) := by
  rw [Conn.resend]
  split
  case h_3 state => exact ⟨rfl, rfl, rfl, rfl, fun other => absurd state other⟩
  all_goals exact ⟨rfl, rfl, rfl, rfl, fun _ => rfl⟩

theorem periodic_closed (closed : c.state = .closed) : (c.periodic app buf).conn.state = .closed := by
  rw [Conn.periodic]
  dsimp only
  split_ifs with waits ends isClosed outstands expired gives polled
  · rfl
  · exact closed
  · exact closed
  · rfl
  · exact (resend_kept ..).1.trans closed
  · exact closed
  · exact absurd (closed.symm.trans polled) (by decide)
  · exact closed

theorem periodic_lingers (lingers : c.Lingers) :
    c.patience = 0 ∧ (c.periodic app buf).conn.state = .closed ∨
      (c.periodic app buf).conn.Lingers ∧ (c.periodic app buf).conn.patience + 1 = c.patience := by
  rw [Conn.patience, if_pos lingers]
  rw [Conn.periodic, if_pos lingers]
  dsimp only
  split_ifs with ends
  · left
    refine ⟨?_, rfl⟩
    have timer : c.timer = uipTimeWaitTimeout - 1 := by rw [← ends]; exact (BitVec.add_sub_cancel _ _).symm
    rw [timer, BitVec.sub_self]
    rfl
  · right
    have after : Conn.Lingers { c with timer := c.timer + 1 } := lingers
    refine ⟨after, ?_⟩
    rw [Conn.patience, if_pos after]
    dsimp only [uipTimeWaitTimeout] at ends ⊢
    bv_omega

theorem backoffs_step {limit nrtx : ℕ} (below : nrtx < limit) :
    backoffs limit (limit - nrtx) = 3 * 2 ^ min nrtx 4 + 1 + backoffs limit (limit - (nrtx + 1)) := by
  obtain ⟨r, eq⟩ : ∃ r, limit - nrtx = r + 1 := ⟨limit - nrtx - 1, by omega⟩
  have rest : limit - (nrtx + 1) = r := by omega
  have back : limit - (r + 1) = nrtx := by omega
  rw [eq, rest, backoffs, back]

theorem gives_iff (few : c.nrtx.toNat ≤ c.limit) :
    (c.nrtx = uipMaxrtx ∨ (c.is .synSent = true ∨ c.is .synRcvd = true) ∧ c.nrtx = uipMaxsynrtx) ↔
      c.nrtx.toNat = c.limit := by
  rw [Conn.limit] at few ⊢
  have eight : c.nrtx = uipMaxrtx ↔ c.nrtx.toNat = 8 := BitVec.toNat_inj.symm
  have five : c.nrtx = uipMaxsynrtx ↔ c.nrtx.toNat = 5 := BitVec.toNat_inj.symm
  rw [eight, five]
  split_ifs at few ⊢ with opening
  · rw [and_iff_right opening]
    omega
  · rw [or_iff_left fun both => opening both.1]

/-- Only an established connection can be stopped, and there the bit does not count. -/
theorem limit_congr {d : Conn} (state : d.state = c.state) (stopped : c.state ≠ .established → d.stopped = c.stopped) :
    d.limit = c.limit ∧ (d.Lingers ↔ c.Lingers) := by
  have same {other : TcpState} (ne : other ≠ .established) : d.is other = true ↔ c.is other = true := by
    rw [is_iff, is_iff, state]
    refine and_congr_right fun reached => ?_
    rw [stopped (reached ▸ ne)]
  rw [Conn.limit, Conn.limit, Conn.Lingers, Conn.Lingers]
  constructor
  · exact if_congr (or_congr (same (by decide)) (same (by decide))) rfl rfl
  · exact or_congr (same (by decide)) (same (by decide))

theorem periodic_waits (notLingers : ¬ c.Lingers) (opened : c.state ≠ .closed) (outstands : c.len ≠ 0)
    (few : c.nrtx.toNat ≤ c.limit) :
    c.patience = 0 ∧ (c.periodic app buf).conn.state = .closed ∨
      (c.periodic app buf).conn.Pending ∧ (c.periodic app buf).conn.patience + 1 = c.patience := by
  have notClosed : ¬ c.is .closed = true := fun closed => opened (is_iff.mp closed).1
  rw [Conn.patience, if_neg notLingers]
  rw [Conn.periodic, if_neg notLingers, if_neg notClosed, if_pos outstands]
  dsimp only
  split_ifs with expired gives
  · left
    have last : c.nrtx.toNat = c.limit := (gives_iff few).mp gives
    rw [expired, last, Nat.sub_self]
    exact ⟨rfl, rfl⟩
  · right
    have below : c.nrtx.toNat < c.limit := lt_of_le_of_ne few fun last => gives ((gives_iff few).mpr last)
    have bound : c.limit ≤ 8 := by
      rw [Conn.limit]
      split_ifs <;> decide
    rw [Conn.retransmit]
    dsimp only
    obtain ⟨state, length, timer, nrtx, stopped⟩ := resend_kept
      { c with timer := uipRto <<< (if 4 < c.nrtx then 4 else c.nrtx : BitVec 8), nrtx := c.nrtx + 1 } app buf
    generalize (Conn.resend app buf _).conn = d at state length timer nrtx stopped ⊢
    dsimp only at state length timer nrtx stopped
    have next : d.nrtx.toNat = c.nrtx.toNat + 1 := by
      rw [nrtx]
      bv_omega
    obtain ⟨sameLimit, sameLingers⟩ := limit_congr state stopped
    have after : ¬ d.Lingers := mt sameLingers.mp notLingers
    refine ⟨.inr ⟨after, state ▸ opened, length ▸ outstands, ?_⟩, ?_⟩
    · rw [next, sameLimit]
      exact below
    · rw [Conn.patience, if_neg after, timer, backoff_eq, sameLimit, next, backoffs_step below, expired]
      change _ = 0 + _
      omega
  · right
    have after : ¬ Conn.Lingers { c with timer := c.timer - 1 } := notLingers
    refine ⟨.inr ⟨after, opened, outstands, few⟩, ?_⟩
    rw [Conn.patience, if_neg after]
    change (c.timer - 1).toNat + backoffs c.limit (c.limit - c.nrtx.toNat) + 1 = _
    have : (c.timer - 1).toNat + 1 = c.timer.toNat := by bv_omega
    omega

end Step

section Silence

variable {s : TcpRun}

/-- The timer runs, and no segment arrives. -/
def TcpEvent.IsTimer (event : TcpEvent) : Prop :=
  match event.input with
  | .segment _ => False
  | .timer _ => True

theorem step_timer {event : TcpEvent} (timer : event.IsTimer) :
    ∃ buf, (s.step event).conn = (s.conn.periodic event.app buf).conn := by
  obtain ⟨input, app⟩ := event
  cases input with
  | segment seg => exact timer.elim
  | timer buf => exact ⟨buf, rfl⟩

theorem exec_closed {events : List TcpEvent}
    (silent : ∀ event ∈ events, event.IsTimer) (closed : s.conn.state = .closed) :
    (exec TcpRun.step s events).conn.state = .closed := by
  induction events generalizing s with
  | nil => exact closed
  | cons event rest ih =>
    obtain ⟨first, others⟩ := List.forall_mem_cons.mp silent
    obtain ⟨buf, next⟩ := step_timer (s := s) first
    apply ih others
    rw [next]
    exact periodic_closed closed

theorem Conn.Pending.open {c : Conn} (pending : c.Pending) : c.state ≠ .closed := by
  rcases pending with lingers | ⟨-, opened, -⟩
  · rcases lingers with waits | waits
    · rw [(is_iff.mp waits).1]
      decide
    · rw [(is_iff.mp waits).1]
      decide
  · exact opened

theorem Conn.Pending.periodic {c : Conn} (pending : c.Pending) (app : Call → Reply) (buf : ℕ → BitVec 8) :
    c.patience = 0 ∧ (c.periodic app buf).conn.state = .closed ∨
      (c.periodic app buf).conn.Pending ∧ (c.periodic app buf).conn.patience + 1 = c.patience := by
  rcases pending with lingers | ⟨notLingers, opened, outstands, few⟩
  · exact (periodic_lingers lingers).imp_right fun both => ⟨.inl both.1, both.2⟩
  · exact periodic_waits notLingers opened outstands few

theorem patience_le (c : Conn) : c.patience ≤ 500 := by
  have most : (∀ r ≤ 8, backoffs 8 r ≤ 245) ∧ ∀ r ≤ 5, backoffs 5 r ≤ 98 := by decide
  have timer := c.timer.isLt
  rw [Conn.patience]
  split_ifs
  · have := (uipTimeWaitTimeout - 1 - c.timer).isLt
    omega
  · rw [Conn.limit]
    split_ifs
    · have := most.2 (5 - c.nrtx.toNat) (by omega)
      omega
    · have := most.1 (8 - c.nrtx.toNat) (by omega)
      omega

/-- Without a segment a connection that waits is closed by the call of the timer behind its patience, and not
before, whatever the application does. No patience is longer than 500 calls. -/
theorem silent_closed_iff (pending : s.conn.Pending) (events : List TcpEvent)
    (silent : ∀ event ∈ events, event.IsTimer) :
    ((exec TcpRun.step s events).conn.state = .closed ↔ s.conn.patience < events.length) ∧ s.conn.patience ≤ 500 := by
  refine ⟨?_, patience_le _⟩
  induction events generalizing s with
  | nil => exact iff_of_false pending.open (Nat.not_lt_zero _)
  | cons event rest ih =>
    obtain ⟨first, others⟩ := List.forall_mem_cons.mp silent
    obtain ⟨buf, next⟩ := step_timer (s := s) first
    rw [exec_cons, List.length_cons]
    rcases pending.periodic event.app buf with ⟨last, closed⟩ | ⟨stays, less⟩
    · exact iff_of_true (exec_closed others (next ▸ closed)) (by omega)
    · rw [ih (next ▸ stays) others, next, ← less]
      exact Nat.succ_lt_succ_iff.symm

/-- A handshake that the peer does not complete. -/
theorem silent_closed_iff_handshake :
    let c := ((Conn.init.accept ⟨0, 0, 0, 0⟩ 9 8 80 (.plainOf { syn := true } ⟨0, 0, 3, 0xe7⟩ ⟨0, 0, 0, 0⟩ [])).get
      (by decide)).conn
    let app : Call → Reply := fun call => { flags := call.flags, slen := 0, sappdata := call.appdata, stopped := false }
    ((exec TcpRun.step { conn := c, delivered := [], sent := [] }
        (List.replicate 101 ⟨.timer fun _ => 0, app⟩)).conn.state =
        .closed ↔ c.patience < (List.replicate 101 (TcpEvent.mk (.timer fun _ => 0) app)).length) ∧
            c.patience ≤ 500 := by
  intro c app
  apply silent_closed_iff (s := { conn := c, delivered := [], sent := [] })
  · exact .inr ⟨by decide, by decide, by decide, by decide⟩
  · intro event member
    rw [List.eq_of_mem_replicate member]
    trivial

end Silence

end Uip
