import ShdslBridge.Kernel.Thread
import ShdslBridge.Lib.Ring

/-! # Mailboxes of the kernel

A mailbox is a ring of one-word mails. The send and the receive of the kernel run with interrupts
disabled, so each is one step. The model has the two calls that return or suspend at once: the send
without waiting, and one pass of the receive, which takes no mail while there is none. The order
and the number of the mails do not depend on what a mail is, so its type is a parameter.
-/

namespace RtThread

open Ring

/-- `struct rt_mailbox` with a message pool of `size` mails. -/
structure RtMailbox (size : ℕ) (α : Type*) where
  msgPool : Fin size → α
  entry : ℕ
  inOffset : Fin size
  outOffset : Fin size

namespace RtMailbox

variable {size : ℕ} [NeZero size] {α : Type*}

/-- `rt_mb_init`: the pool keeps the contents that it has. -/
def rtMbInit (msgPool : Fin size → α) : RtMailbox size α :=
  { msgPool, entry := 0, inOffset := 0, outOffset := 0 }

/-- `rt_mb_send`, that is `rt_mb_send_wait` with timeout 0. The offset in `Fin size` wraps as the
comparison with `size` makes it wrap. -/
def rtMbSend (mb : RtMailbox size α) (value : α) : RtMailbox size α × RtErr :=
  if mb.entry = size then (mb, .efull)
  else
    ({ mb with
        msgPool := Function.update mb.msgPool mb.inOffset value
        inOffset := mb.inOffset + 1
        entry := mb.entry + 1 }, .eok)

/-- One pass of `rt_mb_recv`: the caller stays suspended on an empty mailbox. -/
def rtMbRecv (mb : RtMailbox size α) : Option (α × RtMailbox size α) :=
  if mb.entry = 0 then none
  else some (mb.msgPool mb.outOffset, { mb with outOffset := mb.outOffset + 1, entry := mb.entry - 1 })

/-- The mails sent and not received yet, oldest first. -/
def content (mb : RtMailbox size α) : List α := window mb.msgPool mb.outOffset mb.entry

@[simp] theorem content_length (mb : RtMailbox size α) : mb.content.length = mb.entry :=
  window_length ..

/-- The two offsets are `entry` mails apart. -/
structure WellFormed (mb : RtMailbox size α) : Prop where
  entryBound : mb.entry ≤ size
  inSlot : mb.inOffset = slot mb.outOffset mb.entry

theorem wellFormed_rtMbInit (msgPool : Fin size → α) : (rtMbInit msgPool).WellFormed where
  entryBound := Nat.zero_le _
  inSlot := (slot_zero _).symm

@[simp] theorem content_rtMbInit (msgPool : Fin size → α) : (rtMbInit msgPool).content = [] := rfl

variable {mb : RtMailbox size α}

theorem rtMbSend_full (full : mb.entry = size) (value : α) : mb.rtMbSend value = (mb, .efull) := by
  simp [rtMbSend, full]

/-- A mail sent to a mailbox with room is the last one of the content. -/
theorem rtMbSend_content (wf : mb.WellFormed) (room : mb.entry < size) (value : α) :
    (mb.rtMbSend value).1.content = mb.content ++ [value] := by
  have notFull : mb.entry ≠ size := by omega
  simp only [rtMbSend, if_neg notFull, content]
  rw [wf.inSlot]
  exact window_push mb.msgPool mb.outOffset room value

theorem rtMbSend_wellFormed (wf : mb.WellFormed) (value : α) : (mb.rtMbSend value).1.WellFormed := by
  rcases Nat.lt_or_ge mb.entry size with room | full
  · have notFull : mb.entry ≠ size := by omega
    simp only [rtMbSend, if_neg notFull]
    constructor
    · exact room
    · change mb.inOffset + 1 = slot mb.outOffset (mb.entry + 1)
      rw [slot_succ, wf.inSlot]
  · rw [rtMbSend_full (Nat.le_antisymm wf.entryBound full)]
    exact wf

theorem rtMbRecv_eq_none_iff (mb : RtMailbox size α) : mb.rtMbRecv = none ↔ mb.content = [] := by
  rw [← List.length_eq_zero_iff, content_length]
  by_cases empty : mb.entry = 0
  · simp [rtMbRecv, empty]
  · simp [rtMbRecv, empty]

theorem rtMbRecv_content {mb mb' : RtMailbox size α} {value : α} (received : mb.rtMbRecv = some (value, mb')) :
    mb.content = value :: mb'.content := by
  simp only [rtMbRecv] at received
  split at received
  · cases received
  · rename_i nonempty
    obtain ⟨rfl, rfl⟩ := Prod.mk.inj (Option.some.inj received)
    obtain ⟨count, counted⟩ := Nat.exists_eq_succ_of_ne_zero nonempty
    simp only [content, counted]
    exact window_pop mb.msgPool mb.outOffset count

theorem rtMbRecv_wellFormed {mb mb' : RtMailbox size α} {value : α} (wf : mb.WellFormed)
    (received : mb.rtMbRecv = some (value, mb')) : mb'.WellFormed := by
  simp only [rtMbRecv] at received
  split at received
  · cases received
  · rename_i nonempty
    obtain ⟨rfl, rfl⟩ := Prod.mk.inj (Option.some.inj received)
    constructor
    · exact (Nat.sub_le _ _).trans wf.entryBound
    · change mb.inOffset = slot (mb.outOffset + 1) (mb.entry - 1)
      rw [slot_next, Nat.sub_add_cancel (Nat.pos_of_ne_zero nonempty)]
      exact wf.inSlot

end RtMailbox

end RtThread
