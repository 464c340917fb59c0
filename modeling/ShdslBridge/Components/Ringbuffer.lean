import ShdslBridge.Lib.BoundedFifo
import ShdslBridge.Lib.Memory
import ShdslBridge.Lib.Run
import Mathlib.Algebra.Order.Ring.Int

/-! # The ring buffer of the device drivers

The two indices run over the buffer and over a virtual mirror of it. Equal indices mean an empty
buffer on the same side and a full one on different sides. A block that reaches the end of the
buffer is copied in two pieces. Every access checks its bounds here: a call with an access outside
the buffer has no result.

For every size and every sequence of calls no access is outside, and the buffer is a bounded queue.
-/

namespace RtThread

open Memory

/-- A value as it is stored in an `rt_uint16_t`. -/
def uint16 (value : ℤ) : ℕ := (value % 2 ^ 16).toNat

/-- A value as it is stored in an index of 15 bits. -/
def index15 (value : ℤ) : ℕ := (value % 2 ^ 15).toNat

/-- A length as `memcpy` takes it. -/
def rtSize (value : ℤ) : ℕ := (value % 2 ^ 32).toNat

/-- `struct rt_ringbuffer`, with the bytes behind `buffer_ptr`. -/
structure RtRingbuffer where
  buffer : ℕ → BitVec 8
  readMirror : Bool
  readIndex : ℕ
  writeMirror : Bool
  writeIndex : ℕ
  bufferSize : ℕ

/-- `enum rt_ringbuffer_state`. -/
inductive RtRingbufferState | empty | full | halffull
  deriving DecidableEq, Repr

/-- `rt_ringbuffer_init` with a size that passes its assertion. -/
def rtRingbufferInit (pool : ℕ → BitVec 8) (size : ℕ) : RtRingbuffer :=
  { buffer := pool
    readMirror := false
    readIndex := 0
    writeMirror := false
    writeIndex := 0
    bufferSize := size / 8 * 8 }

namespace RtRingbuffer

/-- `rt_ringbuffer_status`. -/
def rtRingbufferStatus (rb : RtRingbuffer) : RtRingbufferState :=
  if rb.readIndex = rb.writeIndex then
    if rb.readMirror = rb.writeMirror then .empty else .full
  else .halffull

/-- `rt_ringbuffer_data_len`. -/
def rtRingbufferDataLen (rb : RtRingbuffer) : ℕ :=
  match rb.rtRingbufferStatus with
  | .empty => 0
  | .full => uint16 rb.bufferSize
  | .halffull =>
    if rb.readIndex < rb.writeIndex then uint16 (rb.writeIndex - rb.readIndex : ℤ)
    else uint16 (rb.bufferSize - (rb.readIndex - rb.writeIndex) : ℤ)

/-- `rt_ringbuffer_space_len`, a difference of integers. -/
def rtRingbufferSpaceLen (rb : RtRingbuffer) : ℤ := rb.bufferSize - rb.rtRingbufferDataLen

/-- `memcpy` of `count` bytes from `source` into the buffer. -/
def copyIn (rb : RtRingbuffer) (index : ℕ) (ptr : ℕ → BitVec 8) (source : ℤ) (count : ℤ) : Option RtRingbuffer :=
  if index + rtSize count ≤ rb.bufferSize then
    some { rb with buffer := writeAt rb.buffer index (readAt ptr source.toNat (rtSize count)) }
  else none

/-- `memcpy` of `count` bytes out of the buffer. -/
def copyOut (rb : RtRingbuffer) (index : ℕ) (count : ℤ) : Option (List (BitVec 8)) :=
  if index + rtSize count ≤ rb.bufferSize then some (readAt rb.buffer index (rtSize count)) else none

/-- `rt_ringbuffer_put`, with its return value. -/
def rtRingbufferPut (rb : RtRingbuffer) (ptr : ℕ → BitVec 8) (length : ℕ) : Option (RtRingbuffer × ℕ) :=
  let size := uint16 rb.rtRingbufferSpaceLen
  if size = 0 then some (rb, 0)
  else
    let length := if size < length then size else length
    let untilEnd : ℤ := rb.bufferSize - rb.writeIndex
    if untilEnd > length then do
      let rb ← rb.copyIn rb.writeIndex ptr 0 length
      some ({ rb with writeIndex := index15 (rb.writeIndex + length) }, length)
    else do
      let rb ← rb.copyIn rb.writeIndex ptr 0 untilEnd
      let rb ← rb.copyIn 0 ptr untilEnd (length - untilEnd)
      some ({ rb with writeMirror := !rb.writeMirror, writeIndex := index15 (length - untilEnd) }, length)

/-- `rt_ringbuffer_get`, with its return value and the bytes that it stores. -/
def rtRingbufferGet (rb : RtRingbuffer) (length : ℕ) : Option (RtRingbuffer × ℕ × List (BitVec 8)) :=
  let size := rb.rtRingbufferDataLen
  if size = 0 then some (rb, 0, [])
  else
    let length := if size < length then size else length
    let untilEnd : ℤ := rb.bufferSize - rb.readIndex
    if untilEnd > length then do
      let bytes ← rb.copyOut rb.readIndex length
      some ({ rb with readIndex := index15 (rb.readIndex + length) }, length, bytes)
    else do
      let front ← rb.copyOut rb.readIndex untilEnd
      let back ← rb.copyOut 0 (length - untilEnd)
      some ({ rb with readMirror := !rb.readMirror, readIndex := index15 (length - untilEnd) },
        length, front ++ back)

/-- `rb->buffer_ptr[index] = ch`. -/
def storeByte (rb : RtRingbuffer) (index : ℕ) (ch : BitVec 8) : Option RtRingbuffer :=
  if index < rb.bufferSize then some { rb with buffer := Function.update rb.buffer index ch } else none

/-- `rt_ringbuffer_putchar`. -/
def rtRingbufferPutchar (rb : RtRingbuffer) (ch : BitVec 8) : Option (RtRingbuffer × ℕ) :=
  if rb.rtRingbufferSpaceLen = 0 then some (rb, 0)
  else do
    let rb ← rb.storeByte rb.writeIndex ch
    if (rb.writeIndex : ℤ) = rb.bufferSize - 1 then
      some ({ rb with writeMirror := !rb.writeMirror, writeIndex := 0 }, 1)
    else some ({ rb with writeIndex := index15 (rb.writeIndex + 1) }, 1)

/-- `rt_ringbuffer_putchar_force`. -/
def rtRingbufferPutcharForce (rb : RtRingbuffer) (ch : BitVec 8) : Option (RtRingbuffer × ℕ) := do
  let oldState := rb.rtRingbufferStatus
  let rb ← rb.storeByte rb.writeIndex ch
  if (rb.writeIndex : ℤ) = rb.bufferSize - 1 then
    let rb := { rb with writeMirror := !rb.writeMirror, writeIndex := 0 }
    if oldState = .full then
      some ({ rb with readMirror := !rb.readMirror, readIndex := rb.writeIndex }, 1)
    else some (rb, 1)
  else
    let rb := { rb with writeIndex := index15 (rb.writeIndex + 1) }
    if oldState = .full then some ({ rb with readIndex := rb.writeIndex }, 1) else some (rb, 1)

/-- `rt_ringbuffer_getchar`, with its return value and the byte that it stores. -/
def rtRingbufferGetchar (rb : RtRingbuffer) : Option (RtRingbuffer × ℕ × List (BitVec 8)) :=
  if rb.rtRingbufferDataLen = 0 then some (rb, 0, [])
  else if rb.readIndex < rb.bufferSize then
    let ch := rb.buffer rb.readIndex
    if (rb.readIndex : ℤ) = rb.bufferSize - 1 then
      some ({ rb with readMirror := !rb.readMirror, readIndex := 0 }, 1, [ch])
    else some ({ rb with readIndex := index15 (rb.readIndex + 1) }, 1, [ch])
  else none

/-- The unread bytes, oldest first. -/
def content (rb : RtRingbuffer) : List (BitVec 8) :=
  if rb.readMirror = rb.writeMirror then readAt rb.buffer rb.readIndex (rb.writeIndex - rb.readIndex)
  else readAt rb.buffer rb.readIndex (rb.bufferSize - rb.readIndex) ++ readAt rb.buffer 0 rb.writeIndex

/-- The indices are inside the buffer, and the write index is ahead of the read index by at most
the whole buffer. -/
structure WellFormed (rb : RtRingbuffer) : Prop where
  sizeBound : rb.bufferSize < 2 ^ 15
  readBound : rb.readIndex < rb.bufferSize
  writeBound : rb.writeIndex < rb.bufferSize
  ahead : rb.readMirror = rb.writeMirror → rb.readIndex ≤ rb.writeIndex
  mirrored : rb.readMirror ≠ rb.writeMirror → rb.writeIndex ≤ rb.readIndex

theorem uint16_of_lt {value : ℤ} (nonneg : 0 ≤ value) (fits : value < 2 ^ 16) : uint16 value = value.toNat := by
  rw [uint16, Int.emod_eq_of_lt nonneg fits]

theorem index15_of_lt {value : ℤ} (nonneg : 0 ≤ value) (fits : value < 2 ^ 15) : index15 value = value.toNat := by
  rw [index15, Int.emod_eq_of_lt nonneg fits]

theorem rtSize_of_lt {value : ℤ} (nonneg : 0 ≤ value) (fits : value < 2 ^ 32) : rtSize value = value.toNat := by
  rw [rtSize, Int.emod_eq_of_lt nonneg fits]

theorem wellFormed_init (pool : ℕ → BitVec 8) {size : ℕ} (large : 8 ≤ size) (small : size < 2 ^ 15) :
    (rtRingbufferInit pool size).WellFormed := by
  refine ⟨?_, ?_, ?_, fun _ => Nat.le_refl _, fun _ => Nat.le_refl _⟩
  all_goals
    simp only [rtRingbufferInit]
    omega

theorem content_init (pool : ℕ → BitVec 8) (size : ℕ) : (rtRingbufferInit pool size).content = [] := by
  simp [rtRingbufferInit, content]

namespace WellFormed

variable {rb : RtRingbuffer}

theorem content_same (rb : RtRingbuffer) (same : rb.readMirror = rb.writeMirror) :
    rb.content = readAt rb.buffer rb.readIndex (rb.writeIndex - rb.readIndex) := by
  rw [content, if_pos same]

theorem content_mirrored (rb : RtRingbuffer) (other : rb.readMirror ≠ rb.writeMirror) :
    rb.content =
      readAt rb.buffer rb.readIndex (rb.bufferSize - rb.readIndex) ++ readAt rb.buffer 0 rb.writeIndex := by
  rw [content, if_neg other]

theorem content_length (wf : rb.WellFormed) :
    (rb.readMirror = rb.writeMirror ∧ rb.content.length + rb.readIndex = rb.writeIndex) ∨
      (rb.readMirror ≠ rb.writeMirror ∧ rb.content.length + rb.readIndex = rb.bufferSize + rb.writeIndex) := by
  have readBound := wf.readBound
  rcases Decidable.em (rb.readMirror = rb.writeMirror) with same | other
  · have ahead := wf.ahead same
    rw [content_same rb same, readAt_length]
    exact .inl ⟨same, by omega⟩
  · have mirrored := wf.mirrored other
    rw [content_mirrored _ other, List.length_append, readAt_length, readAt_length]
    exact .inr ⟨other, by omega⟩

theorem content_le (wf : rb.WellFormed) : rb.content.length ≤ rb.bufferSize := by
  have readBound := wf.readBound
  have writeBound := wf.writeBound
  rcases wf.content_length with ⟨-, length⟩ | ⟨other, length⟩
  · omega
  · have mirrored := wf.mirrored other
    omega

/-- `rt_ringbuffer_data_len` is the exact number of unread bytes. -/
theorem dataLen (wf : rb.WellFormed) : rb.rtRingbufferDataLen = rb.content.length := by
  have sizeBound := wf.sizeBound
  have readBound := wf.readBound
  have writeBound := wf.writeBound
  unfold rtRingbufferDataLen rtRingbufferStatus
  rcases wf.content_length with ⟨same, length⟩ | ⟨other, length⟩
  · have ahead := wf.ahead same
    rcases Nat.eq_or_lt_of_le ahead with meet | less
    · simp only [if_pos meet, if_pos same]
      omega
    · simp only [if_neg (Nat.ne_of_lt less), if_pos less]
      rw [uint16_of_lt (by omega) (by omega)]
      omega
  · have mirrored := wf.mirrored other
    rcases Nat.eq_or_lt_of_le mirrored with meet | less
    · simp only [if_pos meet.symm, if_neg other]
      rw [uint16_of_lt (by omega) (by omega)]
      omega
    · simp only [if_neg (Nat.ne_of_gt less), if_neg (Nat.not_lt_of_gt less)]
      rw [uint16_of_lt (by omega) (by omega)]
      omega

theorem spaceLen (wf : rb.WellFormed) : rb.rtRingbufferSpaceLen = (rb.bufferSize - rb.content.length : ℕ) := by
  have bounded := wf.content_le
  rw [rtRingbufferSpaceLen, wf.dataLen]
  omega

theorem spaceLen_ne_zero (wf : rb.WellFormed) (room : rb.content.length < rb.bufferSize) :
    rb.rtRingbufferSpaceLen ≠ 0 := by
  rw [wf.spaceLen]
  omega

theorem space16 (wf : rb.WellFormed) : uint16 rb.rtRingbufferSpaceLen = rb.bufferSize - rb.content.length := by
  have sizeBound := wf.sizeBound
  rw [wf.spaceLen, uint16_of_lt (by omega) (by omega), Int.toNat_natCast]

end WellFormed

theorem copyIn_inside (rb : RtRingbuffer) {index : ℕ} (ptr : ℕ → BitVec 8) {source count : ℤ} (nonneg : 0 ≤ count)
    (fits : count < 2 ^ 32) (inside : index + count.toNat ≤ rb.bufferSize) :
    rb.copyIn index ptr source count =
      some { rb with buffer := writeAt rb.buffer index (readAt ptr source.toNat count.toNat) } := by
  rw [copyIn, rtSize_of_lt nonneg fits, if_pos inside]

theorem copyOut_inside (rb : RtRingbuffer) {index : ℕ} {count : ℤ} (nonneg : 0 ≤ count) (fits : count < 2 ^ 32)
    (inside : index + count.toNat ≤ rb.bufferSize) :
    rb.copyOut index count = some (readAt rb.buffer index count.toNat) := by
  rw [copyOut, rtSize_of_lt nonneg fits, if_pos inside]

def writeWithin (rb : RtRingbuffer) (cells : List (BitVec 8)) : RtRingbuffer :=
  { rb with buffer := writeAt rb.buffer rb.writeIndex cells, writeIndex := rb.writeIndex + cells.length }

def writeAcross (rb : RtRingbuffer) (front back : List (BitVec 8)) : RtRingbuffer :=
  { rb with
    buffer := writeAt (writeAt rb.buffer rb.writeIndex front) 0 back
    writeMirror := !rb.writeMirror
    writeIndex := back.length }

theorem WellFormed.writeWithin {rb : RtRingbuffer} (wf : rb.WellFormed) (cells : List (BitVec 8))
    (room : cells.length + rb.content.length ≤ rb.bufferSize) (before : rb.writeIndex + cells.length < rb.bufferSize) :
    (rb.writeWithin cells).WellFormed ∧ (rb.writeWithin cells).content = rb.content ++ cells := by
  rcases wf.content_length with ⟨same, length⟩ | ⟨other, length⟩
  · refine ⟨⟨wf.sizeBound, wf.readBound, before, fun _ => ?_, fun other => absurd same other⟩, ?_⟩
    · exact Nat.le_add_right_of_le (wf.ahead same)
    · obtain ⟨count, reached⟩ := Nat.exists_eq_add_of_le (wf.ahead same)
      have appended := readAt_writeAt_behind rb.buffer rb.readIndex count cells
      rw [content_same rb same, content_same (rb.writeWithin cells) same]
      simp only [RtRingbuffer.writeWithin, reached]
      rw [show rb.readIndex + count + cells.length - rb.readIndex = count + cells.length by omega,
        Nat.add_sub_cancel_left]
      exact appended
  · have mirrored := wf.mirrored other
    refine ⟨⟨wf.sizeBound, wf.readBound, before, fun same => absurd same other, fun _ => ?_⟩, ?_⟩
    · simp only [RtRingbuffer.writeWithin]
      omega
    · rw [content_mirrored _ other, content_mirrored (rb.writeWithin cells) other]
      simp only [RtRingbuffer.writeWithin]
      rw [readAt_writeAt_outside _ _ _ (.inr (by omega)), readAt_writeAt_append, List.append_assoc]

theorem WellFormed.writeAcross {rb : RtRingbuffer} (wf : rb.WellFormed) (front back : List (BitVec 8))
    (room : front.length + back.length + rb.content.length ≤ rb.bufferSize)
    (reaches : rb.writeIndex + front.length = rb.bufferSize) :
    (rb.writeAcross front back).WellFormed ∧ (rb.writeAcross front back).content = rb.content ++ (front ++ back) := by
  have writeBound := wf.writeBound
  have readBound := wf.readBound
  rcases wf.content_length with ⟨same, length⟩ | ⟨other, length⟩
  · have other : (rb.writeAcross front back).readMirror ≠ (rb.writeAcross front back).writeMirror := by
      simp [RtRingbuffer.writeAcross, same]
    have behind : back.length ≤ rb.readIndex := by omega
    refine ⟨⟨wf.sizeBound, wf.readBound, ?_, fun same => absurd same other, fun _ => behind⟩, ?_⟩
    · exact Nat.lt_of_le_of_lt behind wf.readBound
    · obtain ⟨count, reached⟩ := Nat.exists_eq_add_of_le (wf.ahead same)
      have appended := readAt_writeAt_behind rb.buffer rb.readIndex count front
      rw [content_same rb same, content_mirrored _ other]
      simp only [RtRingbuffer.writeAcross]
      rw [readAt_writeAt, readAt_writeAt_outside _ _ _ (.inr (by omega)), reached, Nat.add_sub_cancel_left,
        show rb.bufferSize - rb.readIndex = count + front.length by omega, appended, List.append_assoc]
  · have mirrored := wf.mirrored other
    omega

/-- What a put leaves behind that accepts `cells`. -/
structure Accepts (rb after : RtRingbuffer) (cells : List (BitVec 8)) : Prop where
  wf : after.WellFormed
  size : after.bufferSize = rb.bufferSize
  content : after.content = rb.content ++ cells

/-- A block that ends in front of the end of the buffer is copied in one piece. -/
theorem WellFormed.copyWithin {rb : RtRingbuffer} (wf : rb.WellFormed) (ptr : ℕ → BitVec 8) {count : ℕ}
    (room : count + rb.content.length ≤ rb.bufferSize) (before : (rb.bufferSize : ℤ) - rb.writeIndex > count) :
    ∃ stored, rb.copyIn rb.writeIndex ptr 0 count = some stored ∧
      Accepts rb { stored with writeIndex := index15 (stored.writeIndex + count) } (readAt ptr 0 count) := by
  have sizeBound := wf.sizeBound
  have written := wf.writeWithin (readAt ptr 0 count) (by rwa [readAt_length]) (by rw [readAt_length]; omega)
  rw [RtRingbuffer.writeWithin, readAt_length] at written
  have advanced : index15 (rb.writeIndex + count : ℤ) = rb.writeIndex + count := by
    rw [index15_of_lt (by omega) (by omega)]
    omega
  refine ⟨_, copyIn_inside rb ptr (by omega) (by omega) (by simp only [Int.toNat_natCast]; omega), ?_⟩
  simp only [Int.toNat_zero, Int.toNat_natCast, advanced]
  exact ⟨written.1, rfl, written.2⟩

/-- Any other block is copied up to the end of the buffer and from its start on. -/
theorem WellFormed.copyAcross {rb : RtRingbuffer} (wf : rb.WellFormed) (ptr : ℕ → BitVec 8) {count : ℕ}
    (room : count + rb.content.length ≤ rb.bufferSize) (crosses : ¬ (rb.bufferSize : ℤ) - rb.writeIndex > count) :
    ∃ first second, rb.copyIn rb.writeIndex ptr 0 (rb.bufferSize - rb.writeIndex) = some first ∧
      first.copyIn 0 ptr (rb.bufferSize - rb.writeIndex) (count - (rb.bufferSize - rb.writeIndex)) = some second ∧
      Accepts rb { second with
        writeMirror := !second.writeMirror, writeIndex := index15 (count - (rb.bufferSize - rb.writeIndex)) }
        (readAt ptr 0 count) := by
  have sizeBound := wf.sizeBound
  obtain ⟨front, frontIs⟩ := Nat.exists_eq_add_of_le (Nat.le_of_lt wf.writeBound)
  have untilEnd : (rb.bufferSize : ℤ) - rb.writeIndex = front := by omega
  obtain ⟨back, rfl⟩ : ∃ back, count = front + back := Nat.exists_eq_add_of_le (by omega)
  have remaining : ((front + back : ℕ) : ℤ) - front = back := by omega
  have written := wf.writeAcross (readAt ptr 0 front) (readAt ptr front back)
    (by simp only [readAt_length]; omega) (by simp only [readAt_length]; omega)
  have pieces : readAt ptr 0 (front + back) = readAt ptr 0 front ++ readAt ptr front back := by
    rw [readAt_add, Nat.zero_add]
  rw [RtRingbuffer.writeAcross, readAt_length, ← pieces] at written
  rw [untilEnd, remaining]
  refine ⟨_, _, copyIn_inside rb ptr (by omega) (by omega) (by simp only [Int.toNat_natCast]; omega),
    copyIn_inside _ ptr (by omega) (by omega) (by simp only [Int.toNat_natCast]; omega), ?_⟩
  simp only [Int.toNat_zero, Int.toNat_natCast, index15_of_lt (show (0 : ℤ) ≤ back by omega) (by omega)]
  exact ⟨written.1, rfl, written.2⟩

/-- `rt_ringbuffer_put` accepts as many bytes as there is space for. -/
theorem WellFormed.put {rb : RtRingbuffer} (wf : rb.WellFormed) (ptr : ℕ → BitVec 8) (length : ℕ) :
    ∃ after, rb.rtRingbufferPut ptr length = some (after, min length (rb.bufferSize - rb.content.length)) ∧
      Accepts rb after (readAt ptr 0 (min length (rb.bufferSize - rb.content.length))) := by
  have sizeBound := wf.sizeBound
  have writeBound := wf.writeBound
  unfold rtRingbufferPut
  simp only [wf.space16]
  generalize spaceIs : rb.bufferSize - rb.content.length = space
  have shortened : (if space < length then space else length) = min length space := by
    rcases Nat.lt_or_ge space length with less | enough
    · rw [if_pos less, Nat.min_eq_right (Nat.le_of_lt less)]
    · rw [if_neg (Nat.not_lt.mpr enough), Nat.min_eq_left enough]
  rw [shortened]
  have within : min length space ≤ space := Nat.min_le_right _ _
  generalize min length space = count at within ⊢
  split_ifs with none before
  · obtain rfl : count = 0 := by omega
    exact ⟨rb, rfl, wf, rfl, (List.append_nil _).symm⟩
  · obtain ⟨stored, copied, accepts⟩ := wf.copyWithin ptr (by omega) before
    exact ⟨_, by rw [copied]; rfl, accepts⟩
  · obtain ⟨first, second, toEnd, fromStart, accepts⟩ := wf.copyAcross ptr (by omega) before
    exact ⟨_, by rw [toEnd, Option.bind_eq_bind, Option.bind_some, fromStart]; rfl, accepts⟩

theorem WellFormed.readWithin {rb : RtRingbuffer} (wf : rb.WellFormed) (count : ℕ)
    (unread : count ≤ rb.content.length) (before : rb.readIndex + count < rb.bufferSize) :
    WellFormed { rb with readIndex := rb.readIndex + count } ∧
      content { rb with readIndex := rb.readIndex + count } = rb.content.drop count ∧
      readAt rb.buffer rb.readIndex count = rb.content.take count := by
  rcases wf.content_length with ⟨same, length⟩ | ⟨other, length⟩
  · refine ⟨⟨wf.sizeBound, before, wf.writeBound, fun _ => ?_, fun other => absurd same other⟩, ?_, ?_⟩
    · change rb.readIndex + count ≤ rb.writeIndex
      omega
    · rw [content_same rb same, content_same { rb with readIndex := rb.readIndex + count } same,
        drop_readAt _ _ _ _ (by omega), Nat.sub_sub]
    · rw [content_same rb same, take_readAt, Nat.min_eq_left (by omega)]
  · have mirrored := wf.mirrored other
    refine ⟨⟨wf.sizeBound, before, wf.writeBound, fun same => absurd same other, fun _ => ?_⟩, ?_, ?_⟩
    · exact Nat.le_add_right_of_le mirrored
    · rw [content_mirrored _ other, content_mirrored { rb with readIndex := rb.readIndex + count } other,
        List.drop_append_of_le_length (by rw [readAt_length]; omega), drop_readAt _ _ _ _ (by omega), Nat.sub_sub]
    · rw [content_mirrored _ other, List.take_append_of_le_length (by rw [readAt_length]; omega), take_readAt,
        Nat.min_eq_left (by omega)]

theorem WellFormed.readAcross {rb : RtRingbuffer} (wf : rb.WellFormed) (front back : ℕ)
    (unread : front + back ≤ rb.content.length) (reaches : rb.readIndex + front = rb.bufferSize) :
    WellFormed { rb with readMirror := !rb.readMirror, readIndex := back } ∧
      content { rb with readMirror := !rb.readMirror, readIndex := back } = rb.content.drop (front + back) ∧
      readAt rb.buffer rb.readIndex front ++ readAt rb.buffer 0 back = rb.content.take (front + back) := by
  have writeBound := wf.writeBound
  rcases wf.content_length with ⟨same, length⟩ | ⟨other, length⟩
  · omega
  · have same : (!rb.readMirror) = rb.writeMirror := (Bool.eq_not_of_ne other.symm).symm
    have frontIs : rb.bufferSize - rb.readIndex = front := by omega
    have behind : back ≤ rb.writeIndex := by omega
    have frontLength : (readAt rb.buffer rb.readIndex front).length = front := readAt_length ..
    refine ⟨⟨wf.sizeBound, ?_, wf.writeBound, fun _ => behind, fun other => absurd same other⟩, ?_, ?_⟩
    · exact Nat.lt_of_le_of_lt behind wf.writeBound
    · rw [content_mirrored rb other,
        content_same { rb with readMirror := !rb.readMirror, readIndex := back } same, frontIs,
        ← List.drop_drop, List.drop_left' frontLength, drop_readAt _ _ _ _ behind, Nat.zero_add]
    · rw [content_mirrored _ other, frontIs, List.take_append, frontLength, Nat.add_sub_cancel_left, take_readAt,
        take_readAt, Nat.min_eq_right (by omega), Nat.min_eq_left behind]

/-- What a get leaves behind that returns `count` bytes. -/
structure Returns (rb after : RtRingbuffer) (count : ℕ) : Prop where
  wf : after.WellFormed
  size : after.bufferSize = rb.bufferSize
  content : after.content = rb.content.drop count

/-- `rt_ringbuffer_get` returns as many bytes as are unread. -/
theorem WellFormed.get {rb : RtRingbuffer} (wf : rb.WellFormed) (length : ℕ) :
    ∃ after, rb.rtRingbufferGet length =
        some (after, min length rb.content.length, rb.content.take (min length rb.content.length)) ∧
      Returns rb after (min length rb.content.length) := by
  have sizeBound := wf.sizeBound
  have readBound := wf.readBound
  have bounded := wf.content_le
  unfold rtRingbufferGet
  simp only [wf.dataLen]
  have shortened : (if rb.content.length < length then rb.content.length else length) =
      min length rb.content.length := by
    rcases Nat.lt_or_ge rb.content.length length with less | enough
    · rw [if_pos less, Nat.min_eq_right (Nat.le_of_lt less)]
    · rw [if_neg (Nat.not_lt.mpr enough), Nat.min_eq_left enough]
  rw [shortened]
  have within : min length rb.content.length ≤ rb.content.length := Nat.min_le_right _ _
  generalize min length rb.content.length = count at within ⊢
  split_ifs with none before
  · obtain rfl : count = 0 := by omega
    exact ⟨rb, by rw [List.take_zero], wf, rfl, rfl⟩
  · obtain ⟨wf', content, bytes⟩ := wf.readWithin count within (by omega)
    refine ⟨{ rb with readIndex := rb.readIndex + count }, ?_, wf', rfl, content⟩
    have advanced : index15 (rb.readIndex + count : ℤ) = rb.readIndex + count := by
      rw [index15_of_lt (by omega) (by omega)]
      omega
    rw [copyOut_inside rb (by omega) (by omega) (by simp only [Int.toNat_natCast]; omega)]
    simp only [Option.bind_eq_bind, Option.bind_some, Int.toNat_natCast, advanced, bytes]
  · obtain ⟨front, frontIs⟩ := Nat.exists_eq_add_of_le (Nat.le_of_lt readBound)
    have untilEnd : (rb.bufferSize : ℤ) - rb.readIndex = front := by omega
    obtain ⟨back, rfl⟩ : ∃ back, count = front + back := Nat.exists_eq_add_of_le (by omega)
    have remaining : ((front + back : ℕ) : ℤ) - front = back := by omega
    obtain ⟨wf', content, bytes⟩ := wf.readAcross front back within frontIs.symm
    refine ⟨{ rb with readMirror := !rb.readMirror, readIndex := back }, ?_, wf', rfl, content⟩
    rw [untilEnd, remaining, copyOut_inside rb (by omega) (by omega) (by simp only [Int.toNat_natCast]; omega),
      copyOut_inside rb (by omega) (by omega) (by simp only [Int.toNat_natCast]; omega),
      index15_of_lt (by omega) (by omega)]
    simp only [Option.bind_eq_bind, Option.bind_some, Int.toNat_natCast, bytes]

/-- A ring buffer as `rt_ringbuffer_init` and the calls leave it, a buffer without a single byte
included: a size below `RT_ALIGN_SIZE` is rounded down to none. -/
def Usable (rb : RtRingbuffer) : Prop := rb.WellFormed ∨ rb.bufferSize = 0 ∧ rb.rtRingbufferStatus = .empty

theorem usable_init (pool : ℕ → BitVec 8) {size : ℕ} (small : size < 2 ^ 15) :
    (rtRingbufferInit pool size).Usable := by
  rcases Nat.lt_or_ge size 8 with tiny | large
  · refine .inr ⟨?_, rfl⟩
    simp only [rtRingbufferInit]
    omega
  · exact .inl (wellFormed_init pool large small)

namespace Usable

variable {rb : RtRingbuffer}

theorem dataLen_of_empty (empty : rb.rtRingbufferStatus = .empty) : rb.rtRingbufferDataLen = 0 := by
  rw [rtRingbufferDataLen, empty]

theorem dataLen_le (usable : rb.Usable) : rb.rtRingbufferDataLen ≤ rb.bufferSize := by
  rcases usable with wf | ⟨-, empty⟩
  · rw [wf.dataLen]
    exact wf.content_le
  · rw [dataLen_of_empty empty]
    exact Nat.zero_le _

theorem put (usable : rb.Usable) (ptr : ℕ → BitVec 8) (length : ℕ) :
    ∃ after, rb.rtRingbufferPut ptr length = some (after, min length (rb.bufferSize - rb.rtRingbufferDataLen)) ∧
      after.Usable ∧ after.bufferSize = rb.bufferSize ∧
      after.rtRingbufferDataLen = rb.rtRingbufferDataLen + min length (rb.bufferSize - rb.rtRingbufferDataLen) := by
  rcases usable with wf | ⟨none, empty⟩
  · obtain ⟨after, result, accepts⟩ := wf.put ptr length
    rw [wf.dataLen]
    refine ⟨after, result, .inl accepts.wf, accepts.size, ?_⟩
    rw [accepts.wf.dataLen, accepts.content, List.length_append, readAt_length]
  · have full : uint16 rb.rtRingbufferSpaceLen = 0 := by
      rw [rtRingbufferSpaceLen, none, dataLen_of_empty empty]
      rfl
    refine ⟨rb, ?_, .inr ⟨none, empty⟩, rfl, ?_⟩
    · rw [rtRingbufferPut, full, none, Nat.zero_sub, Nat.min_zero]
      rfl
    · rw [none, Nat.zero_sub, Nat.min_zero, Nat.add_zero]

theorem get (usable : rb.Usable) (length : ℕ) :
    ∃ after bytes, rb.rtRingbufferGet length = some (after, min length rb.rtRingbufferDataLen, bytes) ∧
      after.Usable ∧ after.bufferSize = rb.bufferSize ∧
      after.rtRingbufferDataLen = rb.rtRingbufferDataLen - min length rb.rtRingbufferDataLen := by
  rcases usable with wf | ⟨none, empty⟩
  · obtain ⟨after, result, returns⟩ := wf.get length
    rw [wf.dataLen]
    refine ⟨after, _, result, .inl returns.wf, returns.size, ?_⟩
    rw [returns.wf.dataLen, returns.content, List.length_drop]
  · have nothing := dataLen_of_empty empty
    refine ⟨rb, [], ?_, .inr ⟨none, empty⟩, rfl, ?_⟩
    · rw [rtRingbufferGet, nothing, Nat.min_zero]
      rfl
    · rw [nothing, Nat.min_zero]

end Usable

theorem writeAt_singleton (buffer : ℕ → BitVec 8) (index : ℕ) (ch : BitVec 8) :
    writeAt buffer index [ch] = Function.update buffer index ch := by
  funext address
  rcases eq_or_ne address index with rfl | ne
  · simp [writeAt]
  · rw [Function.update_of_ne ne]
    apply writeAt_outside
    rw [List.length_singleton]
    omega

/-- `rt_ringbuffer_putchar` is a put of one byte. -/
theorem WellFormed.putchar_eq {rb : RtRingbuffer} (wf : rb.WellFormed) (ch : BitVec 8) :
    rb.rtRingbufferPutchar ch = rb.rtRingbufferPut (fun _ => ch) 1 := by
  have sizeBound := wf.sizeBound
  have writeBound := wf.writeBound
  unfold rtRingbufferPutchar rtRingbufferPut storeByte
  rw [wf.space16, wf.spaceLen, if_pos writeBound]
  rcases Nat.eq_zero_or_pos (rb.bufferSize - rb.content.length) with full | space
  · simp only [full, Nat.cast_zero, if_true]
  · have one : ¬ rb.bufferSize - rb.content.length < 1 := by omega
    have single : readAt (fun _ : ℕ => ch) 0 1 = [ch] := rfl
    simp only [Nat.cast_eq_zero, if_neg (Nat.ne_of_gt space), if_neg one, Option.bind_eq_bind, Option.bind_some]
    rcases Decidable.em ((rb.writeIndex : ℤ) = rb.bufferSize - 1) with last | before
    · have untilEnd : (rb.bufferSize : ℤ) - rb.writeIndex = 1 := by omega
      rw [if_pos last, untilEnd, if_neg (by decide), copyIn_inside rb _ (by decide) (by decide) (by simp; omega)]
      simp only [Option.bind_some, Int.toNat_zero, Int.toNat_one, single, writeAt_singleton, Nat.cast_one, sub_self]
      rw [copyIn_inside _ _ (by decide) (by decide) (by simp)]
      simp [index15]
    · have room : (rb.bufferSize : ℤ) - rb.writeIndex > (1 : ℕ) := by omega
      rw [if_neg before, if_pos room, copyIn_inside rb _ (by decide) (by decide) (by simp; omega)]
      simp only [Option.bind_some, Int.toNat_zero, Nat.cast_one, Int.toNat_one, single, writeAt_singleton]

/-- `rt_ringbuffer_getchar` is a get of one byte. -/
theorem WellFormed.getchar_eq {rb : RtRingbuffer} (wf : rb.WellFormed) :
    rb.rtRingbufferGetchar = rb.rtRingbufferGet 1 := by
  have sizeBound := wf.sizeBound
  have readBound := wf.readBound
  unfold rtRingbufferGetchar rtRingbufferGet
  rw [if_pos readBound]
  rcases Nat.eq_zero_or_pos rb.rtRingbufferDataLen with empty | unread
  · simp only [empty, if_true]
  · have one : ¬ rb.rtRingbufferDataLen < 1 := by omega
    have single : readAt rb.buffer rb.readIndex 1 = [rb.buffer rb.readIndex] := rfl
    simp only [if_neg (Nat.ne_of_gt unread), if_neg one, Option.bind_eq_bind]
    rcases Decidable.em ((rb.readIndex : ℤ) = rb.bufferSize - 1) with last | before
    · have untilEnd : (rb.bufferSize : ℤ) - rb.readIndex = 1 := by omega
      rw [if_pos last, untilEnd, if_neg (by decide), copyOut_inside rb (by decide) (by decide) (by simp; omega)]
      simp only [Option.bind_some, Int.toNat_one, single, Nat.cast_one, sub_self]
      rw [copyOut_inside rb (by decide) (by decide) (by simp)]
      simp [index15]
    · have room : (rb.bufferSize : ℤ) - rb.readIndex > (1 : ℕ) := by omega
      rw [if_neg before, if_pos room, copyOut_inside rb (by decide) (by decide) (by simp; omega)]
      simp only [Option.bind_some, Nat.cast_one, Int.toNat_one, single]

theorem WellFormed.full_iff {rb : RtRingbuffer} (wf : rb.WellFormed) :
    rb.rtRingbufferStatus = .full ↔ rb.content.length = rb.bufferSize := by
  have readBound := wf.readBound
  have writeBound := wf.writeBound
  unfold rtRingbufferStatus
  rcases wf.content_length with ⟨same, length⟩ | ⟨other, length⟩
  · simp only [if_pos same]
    split_ifs
    · simp
      omega
    · simp
      omega
  · have mirrored := wf.mirrored other
    simp only [if_neg other]
    split_ifs
    · simp
      omega
    · simp
      omega

/-- `rt_ringbuffer_putchar_force` on a full buffer is a get of the oldest byte and a put. -/
theorem WellFormed.putcharForce_eq {rb : RtRingbuffer} (wf : rb.WellFormed) (ch : BitVec 8) :
    rb.rtRingbufferPutcharForce ch =
      if rb.content.length = rb.bufferSize then
        (rb.rtRingbufferGetchar).bind fun result => result.1.rtRingbufferPutchar ch
      else rb.rtRingbufferPutchar ch := by
  have sizeBound := wf.sizeBound
  have readBound := wf.readBound
  have writeBound := wf.writeBound
  have bounded := wf.content_le
  rcases Decidable.em (rb.content.length = rb.bufferSize) with full | room
  · have isFull : rb.rtRingbufferStatus = .full := wf.full_iff.mpr full
    have meet : rb.readIndex = rb.writeIndex := by
      rcases wf.content_length with ⟨-, length⟩ | ⟨-, length⟩
      · omega
      · omega
    have unread : rb.rtRingbufferDataLen ≠ 0 := by
      rw [wf.dataLen]
      omega
    rw [if_pos full]
    unfold rtRingbufferPutcharForce rtRingbufferGetchar storeByte
    simp only [if_pos writeBound, if_pos readBound, if_neg unread, isFull, if_true, Option.bind_eq_bind,
      Option.bind_some]
    rcases Decidable.em ((rb.writeIndex : ℤ) = rb.bufferSize - 1) with last | before
    · obtain ⟨wf', content', -⟩ := wf.readAcross 1 0 (by omega) (by omega)
      have room := wf'.spaceLen_ne_zero (by
        rw [content', List.length_drop]
        change _ < rb.bufferSize
        omega)
      simp only [meet, if_pos last, Option.bind_some, rtRingbufferPutchar, if_neg room, storeByte,
        if_pos writeBound, Option.bind_eq_bind]
    · obtain ⟨wf', content', -⟩ := wf.readWithin 1 (by omega) (by omega)
      rw [meet] at wf' content'
      have room := wf'.spaceLen_ne_zero (by
        rw [content', List.length_drop]
        change _ < rb.bufferSize
        omega)
      have advanced : index15 (rb.writeIndex + 1 : ℤ) = rb.writeIndex + 1 := by
        rw [index15_of_lt (by omega) (by omega)]
        omega
      simp only [meet, if_neg before, Option.bind_some, rtRingbufferPutchar, if_neg room, storeByte,
        if_pos writeBound, Option.bind_eq_bind, advanced]
  · have notFull : rb.rtRingbufferStatus ≠ .full := fun full => room (wf.full_iff.mp full)
    have space := wf.spaceLen_ne_zero (by omega)
    rw [if_neg room]
    unfold rtRingbufferPutcharForce rtRingbufferPutchar storeByte
    simp only [if_pos writeBound, if_neg notFull, if_neg space, Option.bind_eq_bind, Option.bind_some]

inductive Call
  | put (ptr : ℕ → BitVec 8) (length : BitVec 16)
  | get (length : BitVec 16)
  | putchar (ch : BitVec 8)
  | getchar
  | putcharForce (ch : BitVec 8)

/-- What a call returns, and the bytes that it stores for its caller. -/
structure Reply where
  count : ℕ
  bytes : List (BitVec 8) := []
  deriving DecidableEq, Repr

/-- One call on the ring buffer. There is no result if an access is outside the buffer. -/
def call (rb : RtRingbuffer) : Call → Option (RtRingbuffer × Reply)
  | .put ptr length => (rb.rtRingbufferPut ptr length.toNat).map fun (rb, count) => (rb, { count })
  | .get length => (rb.rtRingbufferGet length.toNat).map fun (rb, count, bytes) => (rb, { count, bytes })
  | .putchar ch => (rb.rtRingbufferPutchar ch).map fun (rb, count) => (rb, { count })
  | .getchar => rb.rtRingbufferGetchar.map fun (rb, count, bytes) => (rb, { count, bytes })
  | .putcharForce ch => (rb.rtRingbufferPutcharForce ch).map fun (rb, count) => (rb, { count })

def calls (rb : RtRingbuffer) : List Call → Option (RtRingbuffer × List Reply)
  | [] => some (rb, [])
  | first :: rest => do
    let (rb, reply) ← rb.call first
    let (rb, replies) ← rb.calls rest
    some (rb, reply :: replies)

variable {capacity : ℕ}

def queueCall (fifo : BoundedFifo (BitVec 8) capacity) : Call → BoundedFifo (BitVec 8) capacity × Reply
  | .put ptr length => (fifo.push (readAt ptr 0 length.toNat), { count := min length.toNat fifo.space })
  | .get length =>
    (fifo.depart length.toNat true,
      { count := min length.toNat fifo.content.length, bytes := fifo.content.take length.toNat })
  | .putchar ch => (fifo.push [ch], { count := min 1 fifo.space })
  | .getchar =>
    (fifo.depart 1 true, { count := min 1 fifo.content.length, bytes := fifo.content.take 1 })
  | .putcharForce ch => (fifo.pushForce ch, { count := 1 })

def queueCalls (fifo : BoundedFifo (BitVec 8) capacity) :
    List Call → BoundedFifo (BitVec 8) capacity × List Reply
  | [] => (fifo, [])
  | first :: rest =>
    let (fifo, reply) := queueCall fifo first
    let (fifo, replies) := queueCalls fifo rest
    (fifo, reply :: replies)

/-- The ring buffer holds what the queue holds. -/
structure Refines (rb : RtRingbuffer) (fifo : BoundedFifo (BitVec 8) capacity) : Prop where
  wf : rb.WellFormed
  size : rb.bufferSize = capacity
  content : rb.content = fifo.content

namespace Refines

variable {rb : RtRingbuffer} {fifo : BoundedFifo (BitVec 8) capacity}

theorem space (refines : Refines rb fifo) : rb.bufferSize - rb.content.length = fifo.space := by
  rw [refines.size, refines.content, BoundedFifo.space]

theorem put (refines : Refines rb fifo) (ptr : ℕ → BitVec 8) (length : ℕ) :
    ∃ after, rb.rtRingbufferPut ptr length = some (after, min length fifo.space) ∧
      Refines after (fifo.push (readAt ptr 0 length)) := by
  obtain ⟨after, result, accepts⟩ := refines.wf.put ptr length
  rw [refines.space] at result accepts
  refine ⟨after, result, accepts.wf, accepts.size.trans refines.size, ?_⟩
  rw [accepts.content, refines.content, BoundedFifo.push_content, take_readAt, Nat.min_comm]

theorem get (refines : Refines rb fifo) (length : ℕ) :
    ∃ after, rb.rtRingbufferGet length = some (after, min length fifo.content.length, fifo.content.take length) ∧
      Refines after (fifo.depart length true) := by
  obtain ⟨after, result, returns⟩ := refines.wf.get length
  rw [refines.content] at result returns
  refine ⟨after, ?_, returns.wf, returns.size.trans refines.size, ?_⟩
  · rw [result, ← List.take_eq_take_min]
  · rw [returns.content, refines.content, BoundedFifo.depart_content]
    rcases Nat.le_total length fifo.content.length with less | more
    · rw [Nat.min_eq_left less]
    · rw [Nat.min_eq_right more, List.drop_length, List.drop_eq_nil_of_le more]

theorem putchar (refines : Refines rb fifo) (ch : BitVec 8) :
    ∃ after, rb.rtRingbufferPutchar ch = some (after, min 1 fifo.space) ∧ Refines after (fifo.push [ch]) := by
  rw [refines.wf.putchar_eq]
  exact refines.put (fun _ => ch) 1

theorem putcharForce (refines : Refines rb fifo) (ch : BitVec 8) :
    ∃ after, rb.rtRingbufferPutcharForce ch = some (after, 1) ∧ Refines after (fifo.pushForce ch) := by
  have readBound := refines.wf.readBound
  have size := refines.size
  have bounded := fifo.bounded
  rw [refines.wf.putcharForce_eq, refines.wf.getchar_eq, refines.content, size]
  rcases Decidable.em (fifo.content.length = capacity) with full | room
  · obtain ⟨shorter, got, refines'⟩ := refines.get 1
    obtain ⟨after, result, refines''⟩ := refines'.putchar ch
    have one : (fifo.depart 1 true).space = 1 := by
      rw [BoundedFifo.space, BoundedFifo.depart_content, List.length_drop]
      omega
    rw [if_pos full, got, BoundedFifo.pushForce, if_pos full, Option.bind_some, result, one]
    exact ⟨after, rfl, refines''.wf, refines''.size, refines''.content⟩
  · obtain ⟨after, result, refines'⟩ := refines.putchar ch
    have one : min 1 fifo.space = 1 := by
      rw [BoundedFifo.space]
      omega
    rw [if_neg room, BoundedFifo.pushForce, if_neg room, result, one]
    exact ⟨after, rfl, refines'⟩

/-- Every call does on the ring buffer what it does on the queue. -/
theorem call (refines : Refines rb fifo) (event : Call) :
    ∃ after, rb.call event = some (after, (queueCall fifo event).2) ∧ Refines after (queueCall fifo event).1 := by
  cases event with
  | put ptr length =>
    obtain ⟨after, result, refines'⟩ := refines.put ptr length.toNat
    exact ⟨after, by rw [RtRingbuffer.call, result]; rfl, refines'⟩
  | get length =>
    obtain ⟨after, result, refines'⟩ := refines.get length.toNat
    refine ⟨after, ?_, refines'⟩
    simp only [RtRingbuffer.call, result, Option.map_some, queueCall]
  | putchar ch =>
    obtain ⟨after, result, refines'⟩ := refines.putchar ch
    exact ⟨after, by rw [RtRingbuffer.call, result]; rfl, refines'⟩
  | getchar =>
    obtain ⟨after, result, refines'⟩ := refines.get 1
    refine ⟨after, ?_, refines'⟩
    simp only [RtRingbuffer.call, refines.wf.getchar_eq, result, Option.map_some, queueCall]
  | putcharForce ch =>
    obtain ⟨after, result, refines'⟩ := refines.putcharForce ch
    exact ⟨after, by rw [RtRingbuffer.call, result]; rfl, refines'⟩

theorem calls (refines : Refines rb fifo) (events : List Call) :
    ∃ after, rb.calls events = some (after, (queueCalls fifo events).2) ∧ Refines after (queueCalls fifo events).1 := by
  induction events generalizing rb fifo with
  | nil => exact ⟨rb, rfl, refines⟩
  | cons event rest ih =>
    obtain ⟨middle, result, refines'⟩ := refines.call event
    obtain ⟨after, results, refines''⟩ := ih refines'
    refine ⟨after, ?_, refines''⟩
    simp only [RtRingbuffer.calls, result, results, Option.bind_eq_bind, Option.bind_some, queueCalls]

end Refines

theorem queueCall_returned (fifo : BoundedFifo (BitVec 8) capacity) (event : Call) :
    (queueCall fifo event).1.returned = fifo.returned ++ (queueCall fifo event).2.bytes := by
  cases event <;> simp [queueCall]

/-- The bytes of the replies are the bytes that the queue counts as read. -/
theorem queueCalls_returned (fifo : BoundedFifo (BitVec 8) capacity) (events : List Call) :
    (queueCalls fifo events).1.returned = fifo.returned ++ (queueCalls fifo events).2.flatMap Reply.bytes := by
  induction events generalizing fifo with
  | nil => simp [queueCalls]
  | cons event rest ih => simp [queueCalls, ih, queueCall_returned]

/-- A ring buffer of any allowed size, used in any way, is a bounded queue: no access is outside
the buffer, every call replies as the queue does, `rt_ringbuffer_data_len` is the number of unread
bytes, and the bytes returned are the bytes accepted, without the forgotten ones. -/
theorem calls_boundedFifo (pool : ℕ → BitVec 8) {size : ℕ} (large : 8 ≤ size) (small : size ≤ 32767)
    (events : List Call) :
    ∃ (rb : RtRingbuffer) (fifo : BoundedFifo (BitVec 8) (size / 8 * 8)) (replies : List Reply),
      queueCalls BoundedFifo.empty events = (fifo, replies) ∧
      (rtRingbufferInit pool size).calls events = some (rb, replies) ∧
      rb.content = fifo.content ∧ rb.rtRingbufferDataLen = fifo.content.length ∧
      replies.flatMap Reply.bytes = fifo.returned ∧
      fifo.departed.map Prod.fst ++ fifo.content = fifo.accepted := by
  have wf := wellFormed_init pool large (Nat.lt_succ_of_le small)
  have start : Refines (rtRingbufferInit pool size) (BoundedFifo.empty : BoundedFifo (BitVec 8) (size / 8 * 8)) :=
    ⟨wf, rfl, content_init pool size⟩
  obtain ⟨rb, result, refines⟩ := start.calls events
  have returned := queueCalls_returned (BoundedFifo.empty : BoundedFifo (BitVec 8) (size / 8 * 8)) events
  rw [BoundedFifo.empty_returned, List.nil_append] at returned
  exact ⟨rb, _, _, rfl, result, refines.content, refines.wf.dataLen.trans (by rw [refines.content]), returned.symm,
    BoundedFifo.balanced _⟩

/-- A buffer of eight bytes is filled, overwritten by one byte and read past its end. -/
theorem calls_boundedFifo_eight :
    ∃ (rb : RtRingbuffer) (fifo : BoundedFifo (BitVec 8) 8) (replies : List Reply),
      queueCalls BoundedFifo.empty [.put (fun i => BitVec.ofNat 8 i) 9, .putcharForce 9, .get 20] = (fifo, replies) ∧
      (rtRingbufferInit (fun _ => 0) 8).calls [.put (fun i => BitVec.ofNat 8 i) 9, .putcharForce 9, .get 20] =
        some (rb, replies) ∧
      rb.content = fifo.content ∧ rb.rtRingbufferDataLen = fifo.content.length ∧
      replies.flatMap Reply.bytes = fifo.returned ∧
      fifo.departed.map Prod.fst ++ fifo.content = fifo.accepted :=
  @calls_boundedFifo (fun _ => 0) 8 (by decide) (by decide) _

end RtRingbuffer
end RtThread
