import ShdslBridge.Kernel.Mailbox
import ShdslBridge.Lib.Run
import ShdslBridge.Link.Poll

/-! # Ownership of the link event messages

A thread that polls the driver allocates one `rt_msg` for each link event and passes it through the
mailbox `g_mb` to the state thread, which dispatches it and frees it. `rt_sendmb` passes the static
`gmsg` through the same mailbox, and the state thread tells the two apart by the message
identifier. While the state thread dispatches it may send commands, and then it polls as well.

Blocks are numbered in allocation order. `Owned` says that every block is in exactly one place: in
the hand of the thread that has just filled it, in the mailbox, with the dispatcher, or freed. The
result of the send is ignored, so the only way out of these places is a send to a full mailbox.
-/

namespace Shdsl

open Pef24628e (Byte)
open RtThread Run

/-- An address of an `rt_msg`: the static one, or a block from `rt_malloc`. -/
inductive MsgPtr
  | gmsg
  | heap (block : ℕ)
  deriving DecidableEq, Repr

def MsgPtr.block? : MsgPtr → Option ℕ
  | .gmsg => none
  | .heap block => some block

@[simp] theorem filterMap_gmsg (pointers : List MsgPtr) :
    (MsgPtr.gmsg :: pointers).filterMap MsgPtr.block? = pointers.filterMap MsgPtr.block? := rfl

@[simp] theorem filterMap_heap (block : ℕ) (pointers : List MsgPtr) :
    (MsgPtr.heap block :: pointers).filterMap MsgPtr.block? = block :: pointers.filterMap MsgPtr.block? := rfl

inductive Thread
  /-- The polling thread. -/
  | shp
  /-- The state thread. -/
  | shs
  /-- Any thread that sends a command. -/
  | other (id : ℕ)
  deriving DecidableEq, Repr

/-- 128 bytes of `mb_pool`, four for each mail. -/
abbrev mbSize : ℕ := 128 / 4

/-- The messages and their places. `freed` lists the arguments of `rt_free`, latest first. -/
structure LinkState where
  gMb : RtMailbox mbSize MsgPtr
  gmsg : RtMsg
  heap : ℕ → RtMsg
  gInitFinished : Bool
  /-- The owner of `g_sh_lock`, which is inside `rt_pef24628_poll`. -/
  gShLock : Option Thread
  /-- The block that the owner of the lock has filled and not sent yet. -/
  inHand : Option ℕ
  dispatching : Option MsgPtr
  allocated : ℕ
  freed : List MsgPtr

inductive LinkEvent
  /-- A thread takes `g_sh_lock` and enters `rt_pef24628_poll`. -/
  | enter (thread : Thread)
  /-- A message is decoded, up to the point where the `rt_msg` is filled. -/
  | decode (pBuf : ℕ → Byte) (mallocSucceeds : Bool)
  /-- The filled `rt_msg` is sent. -/
  | send
  /-- The poll returns and the lock is released. -/
  | leave
  /-- `rt_sendmb(100)`, in any thread. -/
  | sendmb
  /-- The state thread takes a message from the mailbox and enters `rt_msgdispatch`. -/
  | recv
  /-- `rt_msgdispatch` returns. -/
  | dispatched
  | setInitFinished (value : Bool)

namespace LinkState

/-- The message behind a pointer. -/
def load (s : LinkState) : MsgPtr → RtMsg
  | .gmsg => s.gmsg
  | .heap block => s.heap block

/-- The event cases of `rt_pef24628_poll`: the allocation and the filling. -/
def decode (s : LinkState) (pBuf : ℕ → Byte) (mallocSucceeds : Bool) : LinkState :=
  match linkMessage pBuf (s.heap s.allocated) with
  | none => s
  | some msg =>
    if s.gInitFinished ∧ mallocSucceeds then
      { s with
        heap := Function.update s.heap s.allocated msg
        allocated := s.allocated + 1
        inHand := some s.allocated }
    else s

/-- The call of `rt_mb_send` at the end of an event case. Its result is not looked at. -/
def send (s : LinkState) (block : ℕ) : LinkState :=
  { s with gMb := (s.gMb.rtMbSend (.heap block)).1, inHand := none }

/-- `rt_sendmb`. -/
def rtSendmb (s : LinkState) (id : BitVec 32) : LinkState :=
  { s with gmsg := { s.gmsg with msgId := id }, gMb := (s.gMb.rtMbSend .gmsg).1 }

/-- The receive of `rt_shs_thread_entry`. -/
def recv (s : LinkState) : LinkState :=
  match s.gMb.rtMbRecv with
  | none => s
  | some (pMsg, gMb) => { s with gMb := gMb, dispatching := some pMsg }

/-- The end of the loop body of `rt_shs_thread_entry`. -/
def release (s : LinkState) (pMsg : MsgPtr) : LinkState :=
  if (s.load pMsg).msgId ≠ 100 then { s with dispatching := none, freed := pMsg :: s.freed }
  else { s with dispatching := none }

/-- One step of the system. A thread that cannot take its step now leaves the state as it is. -/
def step (s : LinkState) : LinkEvent → LinkState
  | .enter thread => if s.gShLock = none then { s with gShLock := some thread } else s
  | .decode pBuf mallocSucceeds =>
    if s.gShLock ≠ none ∧ s.inHand = none then s.decode pBuf mallocSucceeds else s
  | .send =>
    match s.inHand with
    | none => s
    | some block => s.send block
  | .leave => if s.inHand = none then { s with gShLock := none } else s
  | .sendmb => s.rtSendmb 100
  | .recv => if s.dispatching = none ∧ s.gShLock ≠ some .shs then s.recv else s
  | .dispatched =>
    match s.dispatching with
    | none => s
    -- a command sent by the dispatcher has to return first
    | some pMsg => if s.gShLock = some .shs then s else s.release pMsg
  | .setInitFinished value => { s with gInitFinished := value }

/-- The state after `rt_mb_init`. The mail slots and the heap hold anything. -/
def boot (pool : Fin mbSize → MsgPtr) (heap : ℕ → RtMsg) : LinkState where
  gMb := .rtMbInit pool
  gmsg := {}
  heap := heap
  gInitFinished := false
  gShLock := none
  inHand := none
  dispatching := none
  allocated := 0
  freed := []

/-- Every pointer on its way from the producer to `rt_free`. -/
def places (s : LinkState) : List MsgPtr :=
  (s.inHand.map .heap).toList ++ s.gMb.content ++ s.dispatching.toList ++ s.freed

/-- Every allocated block is in exactly one place, and the static message was never freed. -/
structure Owned (s : LinkState) : Prop where
  once : (s.places.filterMap MsgPtr.block?).Perm (List.range s.allocated)
  gmsgKept : .gmsg ∉ s.freed

/-- The state thread on its own, until the mailbox is empty. -/
def drain (s : LinkState) : List LinkEvent :=
  .dispatched :: (List.replicate s.gMb.entry [.recv, .dispatched]).flatten

/-- Once the state thread has emptied the mailbox, every message sent is freed exactly once. -/
def FreedByDrain (s : LinkState) : Prop :=
  s.gShLock ≠ some .shs →
    ((s.inHand.toList ++ (exec step s s.drain).freed.filterMap MsgPtr.block?).Perm
      (List.range s.allocated))

/-- No message is leaked, freed twice or freed early, and the static one is never freed. -/
def Correct (s : LinkState) : Prop := s.Owned ∧ s.FreedByDrain

/-- A link event is not sent while all mail slots are taken. -/
def SendFindsRoom (s : LinkState) : LinkEvent → Prop
  | .send => s.inHand = none ∨ s.gMb.entry < mbSize
  | _ => True

/-- Besides the ownership: the offsets of the mailbox fit, and the message identifier says which
pointers are freed after the dispatch. -/
structure LinkInv (s : LinkState) : Prop where
  owned : s.Owned
  mailbox : s.gMb.WellFormed
  heapId : ∀ block < s.allocated, (s.heap block).msgId ≠ 100
  gmsgId : .gmsg ∈ s.gMb.content ++ s.dispatching.toList → s.gmsg.msgId = 100

theorem linkInv_boot (pool : Fin mbSize → MsgPtr) (heap : ℕ → RtMsg) : (boot pool heap).LinkInv where
  owned := ⟨by simp [places, boot], by simp [boot]⟩
  mailbox := RtMailbox.wellFormed_rtMbInit pool
  heapId block below := by simp [boot] at below
  gmsgId member := by simp [boot] at member

variable {s : LinkState}

theorem Owned.allocated (owned : s.Owned) {block : ℕ} (placed : .heap block ∈ s.places) : block < s.allocated := by
  have member : block ∈ s.places.filterMap MsgPtr.block? := List.mem_filterMap.mpr ⟨_, placed, rfl⟩
  exact List.mem_range.mp (owned.once.mem_iff.mp member)

theorem Owned.move {s s' : LinkState} (owned : s.Owned) (moved : s'.places.Perm s.places)
    (sameCount : s'.allocated = s.allocated) (kept : .gmsg ∉ s'.freed) : s'.Owned where
  once := by
    rw [sameCount]
    exact (moved.filterMap _).trans owned.once
  gmsgKept := kept

theorem decode_linkInv (inv : s.LinkInv) (idle : s.inHand = none) (pBuf : ℕ → Byte) (mallocSucceeds : Bool) :
    (s.decode pBuf mallocSucceeds).LinkInv := by
  rw [decode]
  split
  · exact inv
  · rename_i msg filled
    split
    · constructor
      · constructor
        · -- the new block is in hand and nothing else has moved
          have placed := inv.owned.once.cons s.allocated
          simp only [places, idle, Option.map_none, Option.toList_none, List.nil_append] at placed
          simp only [places, Option.map_some, Option.toList_some, List.cons_append, List.nil_append,
            filterMap_heap, List.range_succ]
          exact placed.trans (List.perm_append_singleton _ _).symm
        · exact inv.owned.gmsgKept
      · exact inv.mailbox
      · intro block below
        change block < s.allocated + 1 at below
        change (Function.update s.heap s.allocated msg block).msgId ≠ 100
        rcases eq_or_ne block s.allocated with rfl | older
        · rw [Function.update_self]
          exact linkMessage_msgId_ne filled
        · rw [Function.update_of_ne older]
          exact inv.heapId block (by omega)
      · exact inv.gmsgId
    · exact inv

theorem send_linkInv (inv : s.LinkInv) {block : ℕ} (held : s.inHand = some block) (room : s.gMb.entry < mbSize) :
    (s.send block).LinkInv := by
  have queued := RtMailbox.rtMbSend_content inv.mailbox room (.heap block)
  constructor
  · refine inv.owned.move ?_ rfl inv.owned.gmsgKept
    simp only [places, send, queued, held, Option.map_none, Option.toList_none, Option.map_some,
      Option.toList_some, List.nil_append]
    exact ((List.perm_append_comm).append_right _).append_right _
  · exact RtMailbox.rtMbSend_wellFormed inv.mailbox _
  · exact inv.heapId
  · intro member
    apply inv.gmsgId
    simpa [send, queued] using member

theorem rtSendmb_linkInv (inv : s.LinkInv) : (s.rtSendmb 100).LinkInv := by
  constructor
  · rcases Nat.lt_or_ge s.gMb.entry mbSize with room | full
    · -- one more pointer to the static message, which is no block
      have queued := RtMailbox.rtMbSend_content inv.mailbox room MsgPtr.gmsg
      constructor
      · have once := inv.owned.once
        simp only [places, rtSendmb, queued, List.filterMap_append] at once ⊢
        simpa using once
      · exact inv.owned.gmsgKept
    · have refused := RtMailbox.rtMbSend_full (Nat.le_antisymm inv.mailbox.entryBound full) MsgPtr.gmsg
      refine inv.owned.move ?_ rfl inv.owned.gmsgKept
      simp [places, rtSendmb, refused]
  · exact RtMailbox.rtMbSend_wellFormed inv.mailbox _
  · exact inv.heapId
  · intro _
    rfl

theorem recv_linkInv (inv : s.LinkInv) (idle : s.dispatching = none) : s.recv.LinkInv := by
  rw [recv]
  split
  · exact inv
  · rename_i pMsg gMb received
    have taken := RtMailbox.rtMbRecv_content received
    constructor
    · refine inv.owned.move ?_ rfl inv.owned.gmsgKept
      simp only [places, idle, taken, Option.toList_none, Option.toList_some, List.append_nil]
      refine List.Perm.append_right _ ?_
      rw [List.append_assoc]
      exact List.Perm.append_left _ (List.perm_append_singleton _ _)
    · exact RtMailbox.rtMbRecv_wellFormed inv.mailbox received
    · exact inv.heapId
    · intro member
      apply inv.gmsgId
      simp only [idle, taken, Option.toList_none, Option.toList_some, List.append_nil] at member ⊢
      exact ((List.perm_append_singleton _ _).mem_iff).mp member

theorem release_eq (inv : s.LinkInv) {pMsg : MsgPtr} (held : s.dispatching = some pMsg) :
    s.release pMsg =
      match pMsg with
      | .gmsg => { s with dispatching := none }
      | .heap block => { s with dispatching := none, freed := .heap block :: s.freed } := by
  cases pMsg with
  | gmsg =>
    have tagged : s.gmsg.msgId = 100 := inv.gmsgId (by simp [held])
    simp [release, load, tagged]
  | heap block =>
    have live : block < s.allocated := inv.owned.allocated (by simp [places, held])
    exact if_pos (inv.heapId block live)

theorem release_linkInv (inv : s.LinkInv) {pMsg : MsgPtr} (held : s.dispatching = some pMsg) :
    (s.release pMsg).LinkInv := by
  have rest : ∀ {freed}, MsgPtr.gmsg ∈ s.gMb.content ++ ({ s with dispatching := none, freed := freed } :
      LinkState).dispatching.toList → s.gmsg.msgId = 100 := by
    intro _ member
    apply inv.gmsgId
    simp only [Option.toList_none, List.append_nil] at member
    exact List.mem_append_left _ member
  have once := inv.owned.once
  rw [release_eq inv held]
  cases pMsg with
  | gmsg =>
    refine ⟨⟨?_, inv.owned.gmsgKept⟩, inv.mailbox, inv.heapId, rest⟩
    simpa [places, held] using once
  | heap block =>
    refine ⟨⟨?_, ?_⟩, inv.mailbox, inv.heapId, rest⟩
    · simpa [places, held] using once
    · simpa using inv.owned.gmsgKept

/-- A step keeps the invariant, unless it sends a link event to a full mailbox. -/
theorem step_linkInv (inv : s.LinkInv) {event : LinkEvent} (fits : s.SendFindsRoom event) : (s.step event).LinkInv := by
  cases event with
  | enter thread =>
    simp only [step]
    split
    · exact ⟨⟨inv.owned.once, inv.owned.gmsgKept⟩, inv.mailbox, inv.heapId, inv.gmsgId⟩
    · exact inv
  | decode pBuf mallocSucceeds =>
    simp only [step]
    split
    · rename_i polling
      exact decode_linkInv inv polling.2 pBuf mallocSucceeds
    · exact inv
  | send =>
    simp only [step]
    split
    · exact inv
    · rename_i block held
      have room : s.gMb.entry < mbSize := fits.resolve_left (by simp [held])
      exact send_linkInv inv held room
  | leave =>
    simp only [step]
    split
    · exact ⟨⟨inv.owned.once, inv.owned.gmsgKept⟩, inv.mailbox, inv.heapId, inv.gmsgId⟩
    · exact inv
  | sendmb => exact rtSendmb_linkInv inv
  | recv =>
    simp only [step]
    split
    · rename_i idle
      exact recv_linkInv inv idle.1
    · exact inv
  | dispatched =>
    simp only [step]
    split
    · exact inv
    · rename_i pMsg held
      split
      · exact inv
      · exact release_linkInv inv held
  | setInitFinished value =>
    exact ⟨⟨inv.owned.once, inv.owned.gmsgKept⟩, inv.mailbox, inv.heapId, inv.gmsgId⟩

theorem send_full_not_owned (inv : s.LinkInv) {block : ℕ} (held : s.inHand = some block) (full : s.gMb.entry = mbSize) :
    ¬ (s.send block).Owned := by
  intro owned
  have refused := RtMailbox.rtMbSend_full full (MsgPtr.heap block)
  have before := inv.owned.once.length_eq
  have after := owned.once.length_eq
  simp only [places, send, refused, held, Option.map_none, Option.toList_none, Option.map_some,
    Option.toList_some, List.nil_append, List.cons_append, filterMap_heap, List.length_cons,
    List.length_range] at before after
  omega

/-- What the state thread on its own leaves alone. -/
structure Drained (s s' : LinkState) : Prop where
  mailbox : s'.gMb.content = []
  idle : s'.dispatching = none
  inHand : s'.inHand = s.inHand
  allocated : s'.allocated = s.allocated
  owned : s'.Owned

/-- One turn of the loop in `rt_shs_thread_entry`, on a mailbox that is not empty. -/
theorem turn_drains (inv : s.LinkInv) (idle : s.dispatching = none) (free : s.gShLock ≠ some .shs) {count : ℕ}
    (counted : s.gMb.entry = count + 1) :
    ∃ s' : LinkState, exec step s [.recv, .dispatched] = s' ∧ s'.LinkInv ∧ s'.dispatching = none ∧
      s'.gShLock = s.gShLock ∧ s'.gMb.entry = count ∧ s'.inHand = s.inHand ∧ s'.allocated = s.allocated := by
  cases received : s.gMb.rtMbRecv with
  | none =>
    rw [RtMailbox.rtMbRecv_eq_none_iff, ← List.length_eq_zero_iff, RtMailbox.content_length] at received
    omega
  | some mail =>
    obtain ⟨pMsg, gMb⟩ := mail
    have taken : s.step .recv = { s with gMb := gMb, dispatching := some pMsg } := by
      simp only [step, recv, received, if_pos (And.intro idle free)]
    have takenInv : ({ s with gMb := gMb, dispatching := some pMsg } : LinkState).LinkInv :=
      taken ▸ step_linkInv inv trivial
    have left : gMb.entry = count := by
      have lengths := congrArg List.length (RtMailbox.rtMbRecv_content received)
      simp only [RtMailbox.content_length, List.length_cons] at lengths
      omega
    have released := release_eq takenInv rfl
    refine ⟨_, rfl, ?_⟩
    rw [exec_cons, taken, exec_cons, exec_nil]
    simp only [step, if_neg free]
    refine ⟨release_linkInv takenInv rfl, ?_⟩
    rw [released]
    cases pMsg with
    | gmsg => exact ⟨rfl, rfl, left, rfl, rfl⟩
    | heap block => exact ⟨rfl, rfl, left, rfl, rfl⟩

theorem turns_drain (inv : s.LinkInv) (idle : s.dispatching = none) (free : s.gShLock ≠ some .shs) {count : ℕ}
    (counted : s.gMb.entry = count) :
    s.Drained (exec step s (List.replicate count [LinkEvent.recv, .dispatched]).flatten) := by
  induction count generalizing s with
  | zero =>
    exact ⟨List.length_eq_zero_iff.mp (by simpa using counted), idle, rfl, rfl, inv.owned⟩
  | succ count ih =>
    obtain ⟨next, reached, nextInv, nextIdle, sameLock, nextCount, sameHand, sameAllocated⟩ :=
      turn_drains inv idle free counted
    rw [List.replicate_succ, List.flatten_cons, exec_append, reached]
    have rest := ih nextInv nextIdle (sameLock ▸ free) nextCount
    exact ⟨rest.mailbox, rest.idle, rest.inHand.trans sameHand, rest.allocated.trans sameAllocated, rest.owned⟩

/-- The dispatch under way returns first, and then the mailbox is emptied. -/
theorem drain_drains (inv : s.LinkInv) (free : s.gShLock ≠ some .shs) : s.Drained (exec step s s.drain) := by
  rw [drain, exec_cons]
  cases held : s.dispatching with
  | none =>
    have stays : s.step .dispatched = s := by simp only [step, held]
    rw [stays]
    exact turns_drain inv held free rfl
  | some pMsg =>
    have first : s.step .dispatched = s.release pMsg := by simp only [step, held, if_neg free]
    have released := release_eq inv held
    have firstInv := release_linkInv inv held
    rw [first]
    cases pMsg with
    | gmsg =>
      simp only at released
      rw [released] at firstInv ⊢
      have rest := turns_drain firstInv rfl free rfl
      exact ⟨rest.mailbox, rest.idle, rest.inHand, rest.allocated, rest.owned⟩
    | heap block =>
      simp only at released
      rw [released] at firstInv ⊢
      have rest := turns_drain firstInv rfl free rfl
      exact ⟨rest.mailbox, rest.idle, rest.inHand, rest.allocated, rest.owned⟩

theorem freedByDrain (inv : s.LinkInv) : s.FreedByDrain := by
  intro free
  have drained := drain_drains inv free
  have once := drained.owned.once
  rw [places, drained.mailbox, drained.idle, drained.inHand, drained.allocated] at once
  have hand : ((s.inHand.map MsgPtr.heap).toList.filterMap MsgPtr.block?) = s.inHand.toList := by
    cases s.inHand with
    | none => rfl
    | some block => rfl
  simpa [hand] using once

/-- In every run, every message is owned in every state exactly when no link event is sent while
the mailbox is full. -/
theorem ownership_iff (pool : Fin mbSize → MsgPtr) (heap : ℕ → RtMsg) (events : List LinkEvent) :
    Always step Correct (boot pool heap) events ↔ Along step SendFindsRoom (boot pool heap) events := by
  apply @always_iff_along _ _ _ LinkInv
  · intro s event inv fits
    exact step_linkInv inv fits
  · intro s inv
    exact ⟨inv.owned, freedByDrain inv⟩
  · intro s event inv full correct
    cases event with
    | send =>
      simp only [SendFindsRoom, not_or, Nat.not_lt] at full
      obtain ⟨block, held⟩ := Option.ne_none_iff_exists'.mp full.1
      have owned := correct.1
      simp only [step, held] at owned
      exact send_full_not_owned inv held (Nat.le_antisymm inv.mailbox.entryBound full.2) owned
    | _ => exact full trivial
  · exact linkInv_boot pool heap

/-- The device reports link state changes `count` times while the state thread does not receive. -/
def reports (count : ℕ) : List LinkEvent :=
  .setInitFinished true :: .enter .shp ::
    (List.replicate count
      [LinkEvent.decode (fun i => if i = 0 then 0x02 else if i = 1 then 0xD2 else 0) true, .send]).flatten

/-- The message of the 33rd report is lost: 33 blocks are allocated and 32 have a place. -/
theorem reports_leak :
    ¬ Always step Correct (boot (fun _ => .gmsg) fun _ => {}) (reports 33) := by
  intro always
  have last := always.last
  have placed := last.1.once.length_eq
  have lost : ((exec step (boot (fun _ => .gmsg) fun _ => {}) (reports 33)).places.filterMap
      MsgPtr.block?).length = 32 := by decide +kernel
  have allocated : (exec step (boot (fun _ => .gmsg) fun _ => {}) (reports 33)).allocated = 33 := by
    decide +kernel
  rw [lost, allocated, List.length_range] at placed
  omega

end LinkState

end Shdsl
