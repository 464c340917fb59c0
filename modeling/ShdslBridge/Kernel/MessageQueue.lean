import ShdslBridge.Kernel.Thread
import ShdslBridge.Lib.Arrivals
import ShdslBridge.Lib.LinkedList
import ShdslBridge.Lib.Memory
import ShdslBridge.Lib.Run

/-! # Message queues: calls in two critical sections

A send takes a node from the free list, copies the message into it with interrupts enabled, and
links it; a receive takes the first linked node, copies the message out and puts the node back. In
between the node is in the hands of the caller. Any number of threads and interrupt handlers can be
in the middle of a call, and a step of a run is one critical section or one copy. The nodes are
those of the pool of `max_msgs` nodes. A ledger numbers the linked messages.
-/

namespace RtThread

open LinkedList Arrivals Memory

variable {τ : Type*} [DecidableEq τ] {maxMsgs : BitVec 16}

/-- `struct rt_mq_message`, by its place in the pool. -/
abbrev MqNode (maxMsgs : BitVec 16) := Fin maxMsgs.toNat

/-- Where a call stands between its critical sections. -/
inductive MqStage (ν : Type*)
  | sendTaken (urgent : Bool) (node : ν) (buffer : List (BitVec 8))
  | sendCopied (urgent : Bool) (node : ν) (buffer : List (BitVec 8))
  | recvWaiting (size : ℕ) (timeout tickDelta : BitVec 32)
  | recvTaken (node : ν) (size : ℕ)
  | recvCopied (node : ν)

def MqStage.node {ν : Type*} : MqStage ν → Option ν
  | sendTaken _ node _ => some node
  | sendCopied _ node _ => some node
  | recvWaiting _ _ _ => none
  | recvTaken node _ => some node
  | recvCopied node => some node

/-- A call in progress; the caller is a thread or, as `none`, an interrupt handler. -/
structure MqCall (τ ν : Type*) where
  id : ℕ
  caller : Option τ
  stage : MqStage ν

/-- What a receiver got: the number of the message, the size that it asked for, the bytes. -/
structure MqDelivery where
  number : ℕ
  size : ℕ
  bytes : List (BitVec 8)
  deriving DecidableEq

/-- `struct rt_messagequeue` with its pool, the threads, the calls in progress and the logs. -/
structure MqState (τ : Type*) (maxMsgs : BitVec 16) where
  msgSize : ℕ
  entry : BitVec 16
  msgQueueHead : Option (MqNode maxMsgs)
  msgQueueTail : Option (MqNode maxMsgs)
  msgQueueFree : Option (MqNode maxMsgs)
  /-- `msg->next`. -/
  next : MqNode maxMsgs → Option (MqNode maxMsgs)
  /-- The bytes behind the header of a node. -/
  payload : MqNode maxMsgs → ℕ → BitVec 8
  flag : IpcFlag
  suspendThread : List τ
  threads : τ → Thread
  tick : BitVec 32
  calls : List (MqCall τ (MqNode maxMsgs))
  nextCall : ℕ
  /-- The linked messages, and which of them wait, were received or were discarded by a reset. -/
  ledger : Ledger (List (BitVec 8))
  /-- The number of the message in a linked or received node. -/
  label : MqNode maxMsgs → ℕ
  obtained : List MqDelivery
  returned : List (ℕ × RtErr)

/-- What happens to a message queue. `proceed` is the next section of a call in progress. -/
inductive MqEvent (τ : Type*)
  | send (caller : Option τ) (urgent : Bool) (buffer : List (BitVec 8))
  | recv (caller : Option τ) (size : ℕ) (timeout : BitVec 32)
  | reset
  | proceed (id : ℕ)
  | timeout (thread : τ)
  | tick

namespace MqState

def ret (s : MqState τ maxMsgs) (id : ℕ) (code : RtErr) : MqState τ maxMsgs :=
  { s with returned := s.returned ++ [(id, code)] }

def withCall (s : MqState τ maxMsgs) (call : MqCall τ (MqNode maxMsgs)) : MqState τ maxMsgs :=
  { s with calls := call :: s.calls }

/-- The first section of `rt_mq_send` and of `rt_mq_urgent`: a node of the free list. -/
def takeFree (s : MqState τ maxMsgs) (caller : Option τ) (urgent : Bool) (buffer : List (BitVec 8)) :
    MqState τ maxMsgs :=
  let id := s.nextCall
  let s := { s with nextCall := s.nextCall + 1 }
  if s.msgSize < buffer.length then s.ret id .error
  else
    match s.msgQueueFree with
    | none => s.ret id .efull
    | some node =>
      { s with msgQueueFree := s.next node }.withCall { id, caller, stage := .sendTaken urgent node buffer }

/-- The copy of a send; `rt_mq_send` also ends the links of the node. -/
def copyIn (s : MqState τ maxMsgs) (urgent : Bool) (node : MqNode maxMsgs) (buffer : List (BitVec 8)) :
    MqState τ maxMsgs :=
  { s with
    next := if urgent then s.next else Function.update s.next node none
    payload := Function.update s.payload node (writeAt (s.payload node) 0 buffer) }

def resumeReceiver (s : MqState τ maxMsgs) : MqState τ maxMsgs :=
  let (list, threads) := rtIpcListResume s.suspendThread s.threads
  { s with suspendThread := list, threads }

/-- The second section of `rt_mq_send`: the node becomes the last one of the queue. -/
def linkLast (s : MqState τ maxMsgs) (node : MqNode maxMsgs) (buffer : List (BitVec 8)) :
    MqState τ maxMsgs :=
  { s with
    next :=
      match s.msgQueueTail with
      | none => s.next
      | some tail => Function.update s.next tail (some node)
    msgQueueTail := some node
    msgQueueHead := if s.msgQueueHead = none then some node else s.msgQueueHead
    entry := s.entry + 1
    ledger := s.ledger.arrive false buffer
    label := Function.update s.label node s.ledger.arrivals.length }

/-- The second section of `rt_mq_urgent`: the node becomes the first one of the queue. -/
def linkFirst (s : MqState τ maxMsgs) (node : MqNode maxMsgs) (buffer : List (BitVec 8)) :
    MqState τ maxMsgs :=
  { s with
    next := Function.update s.next node s.msgQueueHead
    msgQueueHead := some node
    msgQueueTail := if s.msgQueueTail = none then some node else s.msgQueueTail
    entry := s.entry + 1
    ledger := s.ledger.arrive true buffer
    label := Function.update s.label node s.ledger.arrivals.length }

def unlinkFirst (s : MqState τ maxMsgs) (node : MqNode maxMsgs) : MqState τ maxMsgs :=
  { s with
    msgQueueHead := s.next node
    msgQueueTail := if s.msgQueueTail = some node then none else s.msgQueueTail
    entry := s.entry - 1
    ledger := s.ledger.take }

/-- The copy of a receive: at most `msg_size` bytes. -/
def copyOut (s : MqState τ maxMsgs) (node : MqNode maxMsgs) (size : ℕ) : MqState τ maxMsgs :=
  { s with
    obtained := s.obtained ++ [{
      number := s.label node, size
      bytes := readAt (s.payload node) 0 (if s.msgSize < size then s.msgSize else size) }] }

def putFree (s : MqState τ maxMsgs) (node : MqNode maxMsgs) : MqState τ maxMsgs :=
  { s with next := Function.update s.next node s.msgQueueFree, msgQueueFree := some node }

/-- `thread->error = code` of a calling thread. -/
def setCallerError (s : MqState τ maxMsgs) (caller : Option τ) (code : RtErr) : MqState τ maxMsgs :=
  match caller with
  | none => s
  | some thread => { s with threads := onThread s.threads thread (Thread.setError code) }

/-- The receiver goes into the waiting list and starts its timer. An interrupt handler stops at the
check of its context. -/
def wait (s : MqState τ maxMsgs) (id : ℕ) (caller : Option τ) (size : ℕ) (timeout tickDelta : BitVec 32) :
    MqState τ maxMsgs :=
  match caller with
  | none => s
  | some thread =>
    { s with
      suspendThread := rtIpcListInsert s.flag s.threads thread s.suspendThread
      threads := onThread s.threads thread (Thread.enterWait timeout.toInt) }.withCall
        { id, caller := some thread
          stage := .recvWaiting size timeout (if 0 < timeout.toInt then s.tick else tickDelta) }

/-- One pass of the loop of `rt_mq_recv`, to the next release of the interrupt lock. -/
def recvPass (s : MqState τ maxMsgs) (id : ℕ) (caller : Option τ) (size : ℕ)
    (timeout tickDelta : BitVec 32) : MqState τ maxMsgs :=
  if s.entry = 0 then
    if timeout = 0 then (s.setCallerError caller .etimeout).ret id .etimeout
    else s.wait id caller size timeout tickDelta
  else
    match s.msgQueueHead with
    | none => s
    | some node => (s.unlinkFirst node).withCall { id, caller, stage := .recvTaken node size }

/-- `rt_mq_recv` from its start. -/
def rtMqRecv (s : MqState τ maxMsgs) (caller : Option τ) (size : ℕ) (timeout : BitVec 32) : MqState τ maxMsgs :=
  let id := s.nextCall
  let s := { s with nextCall := s.nextCall + 1 }
  if s.entry = 0 ∧ timeout = 0 then s.ret id .etimeout else s.recvPass id caller size timeout 0

/-- A waiting receiver behind its `rt_schedule`. -/
def resumeRecv (s : MqState τ maxMsgs) (id : ℕ) (thread : τ) (size : ℕ) (timeout tickDelta : BitVec 32) :
    MqState τ maxMsgs :=
  if (s.threads thread).error ≠ .eok then s.ret id (s.threads thread).error
  else if 0 < timeout.toInt then
    let tickDelta := s.tick - tickDelta
    let left := timeout - tickDelta
    s.recvPass id (some thread) size (if left.toInt < 0 then 0 else left) tickDelta
  else s.recvPass id (some thread) size timeout tickDelta

/-- The next section of a call that has been taken out of the calls in progress. -/
def proceedCall (s : MqState τ maxMsgs) (call : MqCall τ (MqNode maxMsgs)) : MqState τ maxMsgs :=
  match call.stage with
  | .sendTaken urgent node buffer =>
    (s.copyIn urgent node buffer).withCall { call with stage := .sendCopied urgent node buffer }
  | .sendCopied true node buffer => ((s.linkFirst node buffer).resumeReceiver).ret call.id .eok
  | .sendCopied false node buffer => ((s.linkLast node buffer).resumeReceiver).ret call.id .eok
  | .recvWaiting size timeout tickDelta =>
    match call.caller with
    | none => s
    | some thread => s.resumeRecv call.id thread size timeout tickDelta
  | .recvTaken node size => (s.copyOut node size).withCall { call with stage := .recvCopied node }
  | .recvCopied node => (s.putFree node).ret call.id .eok

def releaseAll (s : MqState τ maxMsgs) : ℕ → MqState τ maxMsgs
  | 0 => s
  | fuel + 1 =>
    match s.msgQueueHead with
    | none => s
    | some node =>
      releaseAll ({ s with
        msgQueueHead := s.next node
        msgQueueTail := if s.msgQueueTail = some node then none else s.msgQueueTail }.putFree node) fuel

/-- `rt_mq_control` with `RT_IPC_CMD_RESET`. All waiting receivers are resumed with an error. -/
def rtMqReset (s : MqState τ maxMsgs) : MqState τ maxMsgs :=
  let resumed := { s with
    suspendThread := []
    threads := fun thread =>
      if thread ∈ s.suspendThread then ((s.threads thread).setError .error).rtThreadResume
      else s.threads thread }
  { resumed.releaseAll maxMsgs.toNat with entry := 0, ledger := s.ledger.dropAll }

/-- The timer of a waiting receiver fires. -/
def timeoutRecv (s : MqState τ maxMsgs) (thread : τ) : MqState τ maxMsgs :=
  { s with
    suspendThread := s.suspendThread.erase thread
    threads := onThread s.threads thread Thread.rtThreadTimeout }

/-- A handler calls at any time, a thread when it is ready and not inside a call. -/
def CanCall (s : MqState τ maxMsgs) (caller : Option τ) : Prop :=
  ∀ thread ∈ caller, (s.threads thread).stat = .ready ∧ ∀ call ∈ s.calls, call.caller ≠ some thread

instance (s : MqState τ maxMsgs) (caller : Option τ) : Decidable (s.CanCall caller) :=
  match caller with
  | none => .isTrue (by simp [CanCall])
  | some thread =>
    decidable_of_iff ((s.threads thread).stat = .ready ∧ ∀ call ∈ s.calls, call.caller ≠ some thread)
      (by simp [CanCall])

/-- A call in progress goes on: of a handler at any time, of a thread when it is ready. -/
def CanProceed (s : MqState τ maxMsgs) (call : MqCall τ (MqNode maxMsgs)) : Prop :=
  ∀ thread ∈ call.caller, (s.threads thread).stat = .ready

instance (s : MqState τ maxMsgs) (call : MqCall τ (MqNode maxMsgs)) : Decidable (s.CanProceed call) :=
  match h : call.caller with
  | none => .isTrue (by simp [CanProceed, h])
  | some thread => decidable_of_iff ((s.threads thread).stat = .ready) (by simp [CanProceed, h])

/-- One event. The calls assert a buffer of at least one byte. An event that cannot happen in the
state changes nothing. -/
def step (s : MqState τ maxMsgs) : MqEvent τ → MqState τ maxMsgs
  | .send caller urgent buffer =>
    if s.CanCall caller ∧ buffer ≠ [] then s.takeFree caller urgent buffer else s
  | .recv caller size timeout => if s.CanCall caller ∧ size ≠ 0 then s.rtMqRecv caller size timeout else s
  | .reset => s.rtMqReset
  | .proceed id =>
    match s.calls.find? fun call => call.id = id with
    | none => s
    | some call =>
      if s.CanProceed call then
        { s with calls := s.calls.filter fun other => other.id ≠ id }.proceedCall call
      else s
  | .timeout thread => if (s.threads thread).CanTimeout then s.timeoutRecv thread else s
  | .tick => { s with tick := s.tick + 1 }

/-- The loop of `rt_mq_init` that fills the free list. -/
def initFree (next : MqNode maxMsgs → Option (MqNode maxMsgs)) :
    (MqNode maxMsgs → Option (MqNode maxMsgs)) × Option (MqNode maxMsgs) :=
  (List.finRange maxMsgs.toNat).foldl
    (fun (links, free) node => (Function.update links node free, some node)) (next, none)

/-- After `rt_mq_init`; the pool keeps the bytes that it has. -/
def start (msgSize : ℕ) (pool : MqNode maxMsgs → ℕ → BitVec 8)
    (links : MqNode maxMsgs → Option (MqNode maxMsgs)) (flag : IpcFlag) (threads : τ → Thread)
    (tick : BitVec 32) : MqState τ maxMsgs :=
  { msgSize, entry := 0, msgQueueHead := none, msgQueueTail := none, msgQueueFree := (initFree links).2
    next := (initFree links).1, payload := pool, flag, suspendThread := [], threads, tick
    calls := [], nextCall := 0, ledger := {}, label := fun _ => 0, obtained := [], returned := [] }

end MqState

end RtThread
