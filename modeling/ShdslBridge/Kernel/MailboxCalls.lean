import ShdslBridge.Kernel.Mailbox
import ShdslBridge.Lib.Run

/-! # Blocking sends and receives on a mailbox

`rt_mb_send_wait` and `rt_mb_recv` test the mailbox in a loop. A call that has to wait releases the
interrupt lock inside the loop, and when its thread gets the processor back the mailbox may be full
or empty again, taken by another thread or by an interrupt handler. The steps of a run are the
stretches between two releases of the lock, so every interleaving is a run. Each call has a number,
and three logs keep which call sent, received and returned what.
-/

namespace RtThread

open RtMailbox

variable {τ : Type*} [DecidableEq τ] {size : ℕ} [NeZero size] {α : Type*}

/-- The two calls. -/
inductive MbOp (α : Type*)
  | sendWait (value : α)
  | recv

structure MbCall (α : Type*) where
  id : ℕ
  op : MbOp α
  timeout : BitVec 32
  tickDelta : BitVec 32

structure MbState (τ : Type*) (size : ℕ) (α : Type*) where
  mb : RtMailbox size α
  flag : IpcFlag
  suspendThread : List τ
  suspendSenderThread : List τ
  threads : τ → Thread
  tick : BitVec 32
  /-- The call in whose `rt_schedule` the thread is. -/
  call : τ → Option (MbCall α)
  nextCall : ℕ
  accepted : List (ℕ × α)
  received : List (ℕ × α)
  returned : List (ℕ × RtErr)

/-- What happens to a mailbox. The caller is a thread or, as `none`, an interrupt handler. -/
inductive MbEvent (τ α : Type*)
  | sendWait (caller : Option τ) (value : α) (timeout : BitVec 32)
  | recv (caller : Option τ) (timeout : BitVec 32)
  | timeout (thread : τ)
  | wake (thread : τ)
  | tick

namespace MbState

def Running (s : MbState τ size α) (thread : τ) : Prop :=
  (s.threads thread).stat = .ready ∧ (s.call thread).isNone = true

instance (s : MbState τ size α) (thread : τ) : Decidable (s.Running thread) :=
  inferInstanceAs (Decidable (_ ∧ _))

def ret (s : MbState τ size α) (id : ℕ) (code : RtErr) : MbState τ size α :=
  { s with returned := s.returned ++ [(id, code)] }

/-- `thread->error = code` of a calling thread. -/
def setCallerError (s : MbState τ size α) (caller : Option τ) (code : RtErr) : MbState τ size α :=
  match caller with
  | none => s
  | some thread => { s with threads := onThread s.threads thread (Thread.setError code) }

def resumeReceiver (s : MbState τ size α) : MbState τ size α :=
  let (list, threads) := rtIpcListResume s.suspendThread s.threads
  { s with suspendThread := list, threads }

def resumeSender (s : MbState τ size α) : MbState τ size α :=
  let (list, threads) := rtIpcListResume s.suspendSenderThread s.threads
  { s with suspendSenderThread := list, threads }

/-- The caller goes into the list of the senders or of the receivers and starts its timer. An
interrupt handler stops at the check of its context. -/
def wait (s : MbState τ size α) (caller : Option τ) (call : MbCall α) : MbState τ size α :=
  match caller with
  | none => s
  | some thread =>
    { s with
      suspendThread :=
        match call.op with
        | .sendWait _ => s.suspendThread
        | .recv => rtIpcListInsert s.flag s.threads thread s.suspendThread
      suspendSenderThread :=
        match call.op with
        | .sendWait _ => rtIpcListInsert s.flag s.threads thread s.suspendSenderThread
        | .recv => s.suspendSenderThread
      threads := onThread s.threads thread (Thread.enterWait call.timeout.toInt)
      call := Function.update s.call thread
        (some { call with tickDelta := if 0 < call.timeout.toInt then s.tick else call.tickDelta }) }

/-- One pass of the loop of `rt_mb_send_wait`, to the next release of the interrupt lock. -/
def sendPass (s : MbState τ size α) (caller : Option τ) (call : MbCall α) (value : α) : MbState τ size α :=
  if s.mb.entry = size then
    if call.timeout = 0 then (s.setCallerError caller .eok).ret call.id .efull
    else s.wait caller call
  else
    ({ s with
      mb := (s.mb.rtMbSend value).1
      accepted := s.accepted ++ [(call.id, value)] }).resumeReceiver.ret call.id .eok

/-- One pass of the loop of `rt_mb_recv`. -/
def recvPass (s : MbState τ size α) (caller : Option τ) (call : MbCall α) : MbState τ size α :=
  match s.mb.rtMbRecv with
  | none =>
    if call.timeout = 0 then (s.setCallerError caller .etimeout).ret call.id .etimeout
    else s.wait caller call
  | some (value, mb) =>
    ({ s with mb, received := s.received ++ [(call.id, value)] }).resumeSender.ret call.id .eok

/-- `rt_mb_send_wait` from its start. -/
def rtMbSendWait (s : MbState τ size α) (caller : Option τ) (value : α) (timeout : BitVec 32) :
    MbState τ size α :=
  let call : MbCall α := { id := s.nextCall, op := .sendWait value, timeout, tickDelta := 0 }
  let s := { s with nextCall := s.nextCall + 1 }
  if s.mb.entry = size ∧ timeout = 0 then s.ret call.id .efull else s.sendPass caller call value

/-- `rt_mb_recv` from its start. -/
def rtMbRecvWait (s : MbState τ size α) (caller : Option τ) (timeout : BitVec 32) : MbState τ size α :=
  let call : MbCall α := { id := s.nextCall, op := .recv, timeout, tickDelta := 0 }
  let s := { s with nextCall := s.nextCall + 1 }
  if s.mb.entry = 0 ∧ timeout = 0 then s.ret call.id .etimeout else s.recvPass caller call

/-- The waiting time that is left behind `rt_schedule`. -/
def recalculate (s : MbState τ size α) (call : MbCall α) : MbCall α :=
  if 0 < call.timeout.toInt then
    let tickDelta := s.tick - call.tickDelta
    let left := call.timeout - tickDelta
    { call with timeout := if left.toInt < 0 then 0 else left, tickDelta }
  else call

/-- A call behind its `rt_schedule`: it returns the error of its thread or tests the mailbox again. -/
def resumeCall (s : MbState τ size α) (thread : τ) (call : MbCall α) : MbState τ size α :=
  let s := { s with call := Function.update s.call thread none }
  if (s.threads thread).error ≠ .eok then s.ret call.id (s.threads thread).error
  else
    match call.op with
    | .sendWait value => s.sendPass (some thread) (s.recalculate call) value
    | .recv => s.recvPass (some thread) (s.recalculate call)

def timeoutCall (s : MbState τ size α) (thread : τ) : MbState τ size α :=
  { s with
    suspendThread := s.suspendThread.erase thread
    suspendSenderThread := s.suspendSenderThread.erase thread
    threads := onThread s.threads thread Thread.rtThreadTimeout }

/-- A handler calls at any time, a thread when it is running. -/
def CanCall (s : MbState τ size α) (caller : Option τ) : Prop := ∀ thread ∈ caller, s.Running thread

instance (s : MbState τ size α) (caller : Option τ) : Decidable (s.CanCall caller) :=
  match caller with
  | none => .isTrue (by simp [CanCall])
  | some thread => decidable_of_iff (s.Running thread) (by simp [CanCall])

/-- One event. An event that cannot happen in the state changes nothing. -/
def step (s : MbState τ size α) : MbEvent τ α → MbState τ size α
  | .sendWait caller value timeout => if s.CanCall caller then s.rtMbSendWait caller value timeout else s
  | .recv caller timeout => if s.CanCall caller then s.rtMbRecvWait caller timeout else s
  | .timeout thread => if (s.threads thread).CanTimeout then s.timeoutCall thread else s
  | .wake thread =>
    match s.call thread with
    | none => s
    | some call => if (s.threads thread).stat = .ready then s.resumeCall thread call else s
  | .tick => { s with tick := s.tick + 1 }

/-- After `rt_mb_init`. -/
def start (msgPool : Fin size → α) (flag : IpcFlag) (threads : τ → Thread) (tick : BitVec 32) :
    MbState τ size α :=
  { mb := rtMbInit msgPool, flag, suspendThread := [], suspendSenderThread := [], threads, tick
    call := fun _ => none, nextCall := 0, accepted := [], received := [], returned := [] }

/-- The mailbox is a bounded queue: `entry` counts the mails accepted and not received, the offsets
are `entry` slots apart, the mails come out in the order in which they were accepted, and a call
that has returned an error has neither added nor removed one. -/
structure BoundedFifo (s : MbState τ size α) : Prop where
  count : s.accepted.length = s.received.length + s.mb.entry
  bound : s.mb.entry ≤ size
  offsets : (s.mb.inOffset : ℕ) = (s.mb.outOffset + s.mb.entry) % size
  order : s.received.map Prod.snd = (s.accepted.map Prod.snd).take s.received.length
  failed : ∀ id code, (id, code) ∈ s.returned → code ≠ .eok →
    id ∉ s.accepted.map Prod.fst ∧ id ∉ s.received.map Prod.fst

/-- The call with this number has left no trace in the logs. -/
structure Untouched (s : MbState τ size α) (id : ℕ) : Prop where
  accepted : id ∉ s.accepted.map Prod.fst
  received : id ∉ s.received.map Prod.fst
  returned : id ∉ s.returned.map Prod.fst

/-- The ring holds what was accepted and not received, and the calls in progress are not logged. -/
structure Inv (s : MbState τ size α) : Prop where
  wellFormed : s.mb.WellFormed
  order : s.accepted.map Prod.snd = s.received.map Prod.snd ++ s.mb.content
  fresh : ∀ id, s.nextCall ≤ id → s.Untouched id
  pending : ∀ thread call, s.call thread = some call → call.id < s.nextCall ∧ s.Untouched call.id
  distinct : ∀ thread other call call', s.call thread = some call → s.call other = some call' →
    call.id = call'.id → thread = other
  failed : ∀ id code, (id, code) ∈ s.returned → code ≠ .eok →
    id ∉ s.accepted.map Prod.fst ∧ id ∉ s.received.map Prod.fst

/-- A call that is executing: it is not logged, and no waiting thread is inside it. -/
structure Active (s : MbState τ size α) (id : ℕ) : Prop where
  old : id < s.nextCall
  untouched : s.Untouched id
  alone : ∀ thread call, s.call thread = some call → call.id ≠ id

omit [DecidableEq τ] in
theorem inv_start (msgPool : Fin size → α) (flag : IpcFlag) (threads : τ → Thread) (tick : BitVec 32) :
    (start msgPool flag threads tick).Inv where
  wellFormed := wellFormed_rtMbInit msgPool
  order := by simp [start]
  fresh _ _ := ⟨by simp [start], by simp [start], by simp [start]⟩
  pending := by simp [start]
  distinct := by simp [start]
  failed := by simp [start]

variable {s : MbState τ size α} {β : Type*} {id : ℕ} {call : MbCall α}

omit [DecidableEq τ] in
theorem Inv.boundedFifo (inv : s.Inv) : s.BoundedFifo where
  count := by
    have lengths := congrArg List.length inv.order
    simpa using lengths
  bound := inv.wellFormed.entryBound
  offsets := by rw [inv.wellFormed.inSlot, Ring.slot_val]
  order := by
    rw [inv.order, List.take_left' (by simp)]
  failed := inv.failed

omit [DecidableEq τ] in
theorem Inv.frame {s s' : MbState τ size α} (inv : s.Inv) (mb : s'.mb = s.mb) (call : s'.call = s.call)
    (nextCall : s'.nextCall = s.nextCall) (accepted : s'.accepted = s.accepted)
    (received : s'.received = s.received) (returned : s'.returned = s.returned) : s'.Inv := by
  have untouched : ∀ id, s.Untouched id → s'.Untouched id := fun id clear =>
    ⟨accepted ▸ clear.accepted, received ▸ clear.received, returned ▸ clear.returned⟩
  constructor
  · exact mb ▸ inv.wellFormed
  · rw [mb, accepted, received]
    exact inv.order
  · intro id new
    exact untouched id (inv.fresh id (nextCall ▸ new))
  · intro thread at_ inside
    obtain ⟨old, clear⟩ := inv.pending thread at_ (call ▸ inside)
    exact ⟨nextCall ▸ old, untouched _ clear⟩
  · rw [call]
    exact inv.distinct
  · rw [accepted, received, returned]
    exact inv.failed

/-- A log that has grown by entries of one call. -/
def Grown {β : Type*} (id : ℕ) (log log' : List (ℕ × β)) : Prop :=
  ∃ more, log' = log ++ more ∧ ∀ entry ∈ more, entry.1 = id

theorem grown_refl (id : ℕ) (log : List (ℕ × β)) : Grown id log log := ⟨[], by simp, by simp⟩

theorem grown_one (id : ℕ) (log : List (ℕ × β)) (value : β) : Grown id log (log ++ [(id, value)]) :=
  ⟨[(id, value)], rfl, by simp⟩

theorem Grown.mem_other {log log' : List (ℕ × β)} (grown : Grown id log log') {other : ℕ} (ne : other ≠ id) (value : β) :
    (other, value) ∈ log' ↔ (other, value) ∈ log := by
  obtain ⟨more, rfl, only⟩ := grown
  rw [List.mem_append]
  constructor
  · rintro (member | member)
    · exact member
    · exact absurd (only _ member) ne
  · exact Or.inl

theorem Grown.keys {log log' : List (ℕ × β)} (grown : Grown id log log') {other : ℕ} (ne : other ≠ id) :
    other ∈ log'.map Prod.fst ↔ other ∈ log.map Prod.fst := by
  simp [grown.mem_other ne]

omit [DecidableEq τ] in
/-- A call that executes, ends: its entries are the only new ones, and it has only returned an error
if it changed no mail. -/
theorem Inv.finish {s s' : MbState τ size α} (inv : s.Inv) (active : s.Active id) (wellFormed : s'.mb.WellFormed)
    (order : s'.accepted.map Prod.snd = s'.received.map Prod.snd ++ s'.mb.content) (call : s'.call = s.call)
    (nextCall : s'.nextCall = s.nextCall) (accepted : Grown id s.accepted s'.accepted)
    (received : Grown id s.received s'.received) (returned : Grown id s.returned s'.returned)
    (failed : ∀ code, (id, code) ∈ s'.returned → code ≠ .eok → s'.accepted = s.accepted ∧ s'.received = s.received) :
    s'.Inv := by
  have untouched : ∀ other, other ≠ id → s.Untouched other → s'.Untouched other := by
    intro other ne clear
    exact ⟨fun member => clear.accepted ((accepted.keys ne).mp member),
      fun member => clear.received ((received.keys ne).mp member),
      fun member => clear.returned ((returned.keys ne).mp member)⟩
  constructor
  · exact wellFormed
  · exact order
  · intro other new
    have old := active.old
    exact untouched other (by omega) (inv.fresh other (by omega))
  · intro thread at_ inside
    rw [call] at inside
    obtain ⟨old, clear⟩ := inv.pending thread at_ inside
    exact ⟨nextCall ▸ old, untouched _ (active.alone thread at_ inside) clear⟩
  · rw [call]
    exact inv.distinct
  · intro other code member error
    rcases eq_or_ne other id with rfl | ne
    · obtain ⟨sameAccepted, sameReceived⟩ := failed code member error
      rw [sameAccepted, sameReceived]
      exact ⟨active.untouched.accepted, active.untouched.received⟩
    · rw [accepted.keys ne, received.keys ne]
      exact inv.failed other code ((returned.mem_other ne code).mp member) error

omit [DecidableEq τ] in
theorem Inv.ret (inv : s.Inv) (active : s.Active id) (code : RtErr) :
    (s.ret id code).Inv :=
  inv.finish active inv.wellFormed inv.order rfl rfl (grown_refl ..) (grown_refl ..) (grown_one ..)
    fun _ _ _ => ⟨rfl, rfl⟩

theorem Inv.setCallerError (inv : s.Inv) (caller : Option τ) (code : RtErr) : (s.setCallerError caller code).Inv := by
  cases caller with
  | none => exact inv
  | some thread => exact inv.frame rfl rfl rfl rfl rfl rfl

omit [NeZero size] in
theorem Active.setCallerError (active : s.Active id) (caller : Option τ) (code : RtErr) :
    (s.setCallerError caller code).Active id := by
  cases caller with
  | none => exact active
  | some thread => exact ⟨active.old, ⟨active.untouched.1, active.untouched.2, active.untouched.3⟩, active.alone⟩

theorem Inv.wait (inv : s.Inv) (active : s.Active call.id) (caller : Option τ) : (s.wait caller call).Inv := by
  cases caller with
  | none => exact inv
  | some thread =>
    have inside : ∀ other at_, (s.wait (some thread) call).call other = some at_ →
        (other = thread ∧ at_.id = call.id) ∨ (other ≠ thread ∧ s.call other = some at_) := by
      intro other at_ inside
      rcases eq_or_ne other thread with rfl | ne
      · simp only [MbState.wait, Function.update_self, Option.some.injEq] at inside
        exact .inl ⟨rfl, inside ▸ rfl⟩
      · simp only [MbState.wait, Function.update_of_ne ne] at inside
        exact .inr ⟨ne, inside⟩
    constructor
    · exact inv.wellFormed
    · exact inv.order
    · intro id new
      exact ⟨(inv.fresh id new).1, (inv.fresh id new).2, (inv.fresh id new).3⟩
    · intro other at_ waits
      rcases inside other at_ waits with ⟨-, same⟩ | ⟨-, before⟩
      · rw [same]
        exact ⟨active.old, active.untouched.1, active.untouched.2, active.untouched.3⟩
      · obtain ⟨old, clear⟩ := inv.pending other at_ before
        exact ⟨old, clear.1, clear.2, clear.3⟩
    · intro other another at_ at_' waits waits' same
      rcases inside other at_ waits with ⟨rfl, mine⟩ | ⟨-, before⟩
      · rcases inside another at_' waits' with ⟨rfl, -⟩ | ⟨-, before'⟩
        · rfl
        · exact absurd (same.symm.trans mine) (active.alone another at_' before')
      · rcases inside another at_' waits' with ⟨rfl, mine'⟩ | ⟨-, before'⟩
        · exact absurd (same.trans mine') (active.alone other at_ before)
        · exact inv.distinct other another at_ at_' before before' same
    · exact inv.failed

omit [NeZero size] [DecidableEq τ] in
/-- A call that executes has not returned before. -/
theorem Active.returns_eok {id : ℕ} (active : s.Active id) {code : RtErr}
    (returned : (id, code) ∈ s.returned ++ [(id, RtErr.eok)]) : code = .eok := by
  rcases List.mem_append.mp returned with before | new
  · exact absurd (List.mem_map_of_mem before) active.untouched.returned
  · exact (Prod.mk.inj (List.mem_singleton.mp new)).2

theorem Inv.sendPass (inv : s.Inv) (active : s.Active call.id) (caller : Option τ) (value : α) :
    (s.sendPass caller call value).Inv := by
  unfold MbState.sendPass
  split
  · split
    · exact (inv.setCallerError caller .eok).ret (active.setCallerError caller .eok) .efull
    · exact inv.wait active caller
  · have room : s.mb.entry < size := Nat.lt_of_le_of_ne inv.wellFormed.entryBound ‹_›
    apply inv.finish active
    · exact rtMbSend_wellFormed inv.wellFormed value
    · change (s.accepted ++ [(call.id, value)]).map Prod.snd = s.received.map Prod.snd ++ _
      rw [List.map_append, inv.order, List.append_assoc]
      exact congrArg _ (rtMbSend_content inv.wellFormed room value).symm
    · rfl
    · rfl
    · exact grown_one ..
    · exact grown_refl ..
    · exact grown_one ..
    · exact fun code member error => absurd (active.returns_eok member) error

theorem Inv.recvPass (inv : s.Inv) (active : s.Active call.id) (caller : Option τ) : (s.recvPass caller call).Inv := by
  unfold MbState.recvPass
  rcases taken : s.mb.rtMbRecv with _ | ⟨value, mb⟩
  · simp only
    split
    · exact (inv.setCallerError caller .etimeout).ret (active.setCallerError caller .etimeout) .etimeout
    · exact inv.wait active caller
  · apply inv.finish active
    · exact rtMbRecv_wellFormed inv.wellFormed taken
    · change s.accepted.map Prod.snd = (s.received ++ [(call.id, value)]).map Prod.snd ++ mb.content
      rw [inv.order, rtMbRecv_content taken, List.map_append, List.append_assoc]
      rfl
    · rfl
    · rfl
    · exact grown_refl ..
    · exact grown_one ..
    · exact grown_one ..
    · exact fun code member error => absurd (active.returns_eok member) error

omit [DecidableEq τ] in
theorem Inv.begin (inv : s.Inv) :
    Inv { s with nextCall := s.nextCall + 1 } ∧
      Active { s with nextCall := s.nextCall + 1 } s.nextCall := by
  have clear := inv.fresh s.nextCall (Nat.le_refl _)
  constructor
  · constructor
    · exact inv.wellFormed
    · exact inv.order
    · intro id new
      have before := inv.fresh id (Nat.le_of_succ_le new)
      exact ⟨before.1, before.2, before.3⟩
    · intro thread call inside
      obtain ⟨old, before⟩ := inv.pending thread call inside
      exact ⟨Nat.lt_succ_of_lt old, before.1, before.2, before.3⟩
    · exact inv.distinct
    · exact inv.failed
  · constructor
    · exact Nat.lt_succ_self _
    · exact ⟨clear.1, clear.2, clear.3⟩
    · intro thread call inside
      exact Nat.ne_of_lt (inv.pending thread call inside).1

/-- A call that comes back from `rt_schedule` executes again. -/
theorem Inv.leave (inv : s.Inv) {thread : τ} (inside : s.call thread = some call) :
    Inv { s with call := Function.update s.call thread none } ∧
      Active { s with call := Function.update s.call thread none } call.id := by
  obtain ⟨old, clear⟩ := inv.pending thread call inside
  have others : ∀ other at_, Function.update s.call thread none other = some at_ →
      other ≠ thread ∧ s.call other = some at_ := by
    intro other at_ waits
    rcases eq_or_ne other thread with rfl | ne
    · simp at waits
    · exact ⟨ne, by simpa [ne] using waits⟩
  constructor
  · constructor
    · exact inv.wellFormed
    · exact inv.order
    · intro id new
      exact ⟨(inv.fresh id new).1, (inv.fresh id new).2, (inv.fresh id new).3⟩
    · intro other at_ waits
      obtain ⟨old, clear⟩ := inv.pending other at_ (others other at_ waits).2
      exact ⟨old, clear.1, clear.2, clear.3⟩
    · intro other another at_ at_' waits waits' same
      exact inv.distinct other another at_ at_' (others other at_ waits).2 (others another at_' waits').2 same
    · exact inv.failed
  · constructor
    · exact old
    · exact ⟨clear.1, clear.2, clear.3⟩
    · intro other at_ waits same
      exact (others other at_ waits).1 (inv.distinct other thread at_ call (others other at_ waits).2 inside same)

omit [DecidableEq τ] [NeZero size] in
theorem recalculate_id (s : MbState τ size α) (call : MbCall α) : (s.recalculate call).id = call.id := by
  unfold recalculate
  split <;> rfl

theorem Inv.resumeCall (inv : s.Inv) {thread : τ} (inside : s.call thread = some call) :
    (s.resumeCall thread call).Inv := by
  obtain ⟨inv, active⟩ := inv.leave inside
  unfold MbState.resumeCall
  simp only
  split
  · exact inv.ret active _
  · have again := active
    rw [← recalculate_id { s with call := Function.update s.call thread none } call] at again
    split
    · exact inv.sendPass again (some thread) _
    · exact inv.recvPass again (some thread)

theorem Inv.step (inv : s.Inv) (event : MbEvent τ α) : (s.step event).Inv := by
  cases event with
  | sendWait caller value timeout =>
    simp only [MbState.step]
    split
    · obtain ⟨begun, active⟩ := inv.begin
      simp only [rtMbSendWait]
      split
      · exact begun.ret active .efull
      · exact begun.sendPass active caller value
    · exact inv
  | recv caller timeout =>
    simp only [MbState.step]
    split
    · obtain ⟨begun, active⟩ := inv.begin
      simp only [rtMbRecvWait]
      split
      · exact begun.ret active .etimeout
      · exact begun.recvPass active caller
    · exact inv
  | timeout thread =>
    simp only [MbState.step]
    split
    · exact inv.frame rfl rfl rfl rfl rfl rfl
    · exact inv
  | wake thread =>
    simp only [MbState.step]
    split
    · exact inv
    · split
      · exact inv.resumeCall ‹_›
      · exact inv
  | tick => exact inv.frame rfl rfl rfl rfl rfl rfl

end MbState

end RtThread
