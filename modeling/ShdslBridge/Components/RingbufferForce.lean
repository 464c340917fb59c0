import ShdslBridge.Components.Ringbuffer

/-! # Forced puts into a ring buffer

`rt_ringbuffer_put_force` is meant to discard the oldest bytes when a block does not fit. With a block
that does not fit it always copies as many bytes as the buffer has, from the start of the block, and then
turns both mirrors. A block that is shorter than the buffer is read past its end, of a longer one the
first bytes are kept in place of the last, and if the unread bytes have not wrapped the buffer is empty
afterwards.

`putForce_sound_iff` says when a forced put is right, and `forcedPuts_sound` says it for all calls on a buffer
of any size. A pool of less than eight bytes makes a buffer of no bytes, into which
`rt_ringbuffer_putchar_force` still stores.
-/

namespace RtThread

open Memory

namespace RtRingbuffer

/-- What a forced put leaves: the ring buffer, the return value, and where the bytes of `ptr` end that it
has read. -/
structure ForcedPut where
  rb : RtRingbuffer
  count : ℕ
  read : ℕ

/-- `rt_ringbuffer_put_force`. -/
def rtRingbufferPutForce (rb : RtRingbuffer) (ptr : ℕ → BitVec 8) (length : ℕ) : Option ForcedPut :=
  let spaceLength := uint16 rb.rtRingbufferSpaceLen
  let length := if length > spaceLength then uint16 rb.bufferSize else length
  let untilEnd : ℤ := rb.bufferSize - rb.writeIndex
  if untilEnd > length then do
    let rb ← rb.copyIn rb.writeIndex ptr 0 length
    let rb := { rb with writeIndex := index15 (rb.writeIndex + length) }
    let rb := if length > spaceLength then { rb with readIndex := rb.writeIndex } else rb
    some { rb, count := length, read := rtSize length }
  else do
    let rb ← rb.copyIn rb.writeIndex ptr 0 untilEnd
    let rb ← rb.copyIn 0 ptr untilEnd (length - untilEnd)
    let rb := { rb with writeMirror := !rb.writeMirror, writeIndex := index15 (length - untilEnd) }
    let rb :=
      if length > spaceLength then { rb with readMirror := !rb.readMirror, readIndex := rb.writeIndex } else rb
    some { rb, count := length, read := max (rtSize untilEnd) (untilEnd.toNat + rtSize (length - untilEnd)) }

inductive ForceCall
  | call (event : Call)
  | putForce (ptr : ℕ → BitVec 8) (length : BitVec 16)

/-- One call. After an access outside the buffer nothing is known, and the run stays where it is. -/
def step (rb : RtRingbuffer) : ForceCall → RtRingbuffer
  | .call event => ((rb.call event).map Prod.fst).getD rb
  | .putForce ptr length => ((rb.rtRingbufferPutForce ptr length.toNat).map ForcedPut.rb).getD rb

/-- A forced put leaves the newest bytes and reads no more than the block, and the forced calls store
inside the buffer. -/
def Sound (rb : RtRingbuffer) : ForceCall → Prop
  | .putForce ptr length => ∃ result, rb.rtRingbufferPutForce ptr length.toNat = some result ∧
      result.rb.content = (rb.content ++ readAt ptr 0 length.toNat).rtake rb.bufferSize ∧
      result.read ≤ length.toNat
  | .call (.putcharForce ch) => ∃ result, rb.rtRingbufferPutcharForce ch = some result
  | .call _ => True

/-- A forced put has the space it needs, or its block is at least as long as the buffer and ends as it
begins, and the unread bytes have wrapped or there are none. A single byte is not put into a buffer of no
bytes. -/
def Fits (rb : RtRingbuffer) : ForceCall → Prop
  | .putForce ptr length => length.toNat ≤ rb.rtRingbufferSpaceLen ∨
      rb.bufferSize ≤ length.toNat ∧ (rb.readMirror = rb.writeMirror → rb.readIndex = rb.writeIndex) ∧
        readAt ptr 0 rb.bufferSize = readAt ptr (length.toNat - rb.bufferSize) rb.bufferSize
  | .call (.putcharForce _) => rb.bufferSize ≠ 0
  | .call _ => True

section Block

variable {rb : RtRingbuffer}

/-- A block that fits is put as `rt_ringbuffer_put` puts it. -/
theorem WellFormed.putForce_fits (wf : rb.WellFormed) (ptr : ℕ → BitVec 8) {length : ℕ}
    (fits : length ≤ rb.bufferSize - rb.content.length) :
    ∃ after, rb.rtRingbufferPutForce ptr length = some { rb := after, count := length, read := length } ∧
      Accepts rb after (readAt ptr 0 length) := by
  have sizeBound := wf.sizeBound
  have writeBound := wf.writeBound
  have bounded := wf.content_le
  unfold rtRingbufferPutForce
  simp only [wf.space16, gt_iff_lt, if_neg (Nat.not_lt.mpr fits)]
  split_ifs with before
  · obtain ⟨stored, copied, accepts⟩ := wf.copyWithin ptr (by omega) before
    have read : rtSize length = length := rtSize_of_lt (by omega) (by omega)
    exact ⟨_, by rw [copied, read]; rfl, accepts⟩
  · obtain ⟨first, second, toEnd, fromStart, accepts⟩ := wf.copyAcross ptr (by omega) before
    have frontRead := rtSize_of_lt (show (0 : ℤ) ≤ rb.bufferSize - rb.writeIndex by omega) (by omega)
    have backRead := rtSize_of_lt (show (0 : ℤ) ≤ length - (rb.bufferSize - rb.writeIndex) by omega) (by omega)
    have read : max (rtSize (rb.bufferSize - rb.writeIndex)) (((rb.bufferSize : ℤ) - rb.writeIndex).toNat +
        rtSize (length - (rb.bufferSize - rb.writeIndex))) = length := by
      rw [frontRead, backRead]
      omega
    exact ⟨_, by rw [toEnd, Option.bind_eq_bind, Option.bind_some, fromStart, read]; rfl, accepts⟩

/-- The ring buffer behind a block that does not fit: every byte is overwritten with the start of the
block. -/
def overwritten (rb : RtRingbuffer) (ptr : ℕ → BitVec 8) : RtRingbuffer :=
  { rb with
    buffer := writeAt (writeAt rb.buffer rb.writeIndex (readAt ptr 0 (rb.bufferSize - rb.writeIndex))) 0
      (readAt ptr (rb.bufferSize - rb.writeIndex) rb.writeIndex)
    writeMirror := !rb.writeMirror
    readMirror := if rb.content = [] then rb.readMirror else !rb.readMirror
    readIndex := rb.writeIndex }

theorem WellFormed.empty_iff (wf : rb.WellFormed) :
    rb.content = [] ↔ rb.readMirror = rb.writeMirror ∧ rb.readIndex = rb.writeIndex := by
  have readBound := wf.readBound
  rw [← List.length_eq_zero_iff]
  rcases wf.content_length with ⟨same, length⟩ | ⟨other, length⟩
  · constructor
    · intro none_
      exact ⟨same, by omega⟩
    · rintro ⟨-, meet⟩
      omega
  · constructor
    · intro none_
      omega
    · exact fun meets => absurd meets.1 other

theorem WellFormed.putForce_over (wf : rb.WellFormed) (ptr : ℕ → BitVec 8) {length : ℕ}
    (over_ : rb.bufferSize - rb.content.length < length) :
    rb.rtRingbufferPutForce ptr length =
      some { rb := rb.overwritten ptr, count := rb.bufferSize, read := rb.bufferSize } := by
  have sizeBound := wf.sizeBound
  have writeBound := wf.writeBound
  have bounded := wf.content_le
  have size16 : uint16 (rb.bufferSize : ℤ) = rb.bufferSize := by
    rw [uint16_of_lt (by omega) (by omega), Int.toNat_natCast]
  unfold rtRingbufferPutForce
  simp only [wf.space16, gt_iff_lt, if_pos over_, size16]
  obtain ⟨front, frontIs⟩ := Nat.exists_eq_add_of_le (Nat.le_of_lt writeBound)
  have untilEnd : (rb.bufferSize : ℤ) - rb.writeIndex = front := by omega
  have remaining : (rb.bufferSize : ℤ) - front = rb.writeIndex := by omega
  have frontRead : rtSize (front : ℤ) = front := rtSize_of_lt (by omega) (by omega)
  have backRead : rtSize (rb.writeIndex : ℤ) = rb.writeIndex := rtSize_of_lt (by omega) (by omega)
  have lengths : rb.bufferSize - rb.writeIndex = front := by omega
  rw [untilEnd, remaining, if_neg (by omega), copyIn_inside rb ptr (by omega) (by omega)
    (by simp only [Int.toNat_natCast]; omega)]
  simp only [Option.bind_eq_bind, Option.bind_some, Int.toNat_zero, Int.toNat_natCast]
  rw [copyIn_inside _ ptr (by omega) (by omega) (by simp only [Int.toNat_natCast]; omega),
    index15_of_lt (by omega) (by omega), frontRead, backRead, Nat.max_eq_right (Nat.le_add_right ..)]
  simp only [Option.bind_some, Int.toNat_natCast, overwritten, lengths]
  have whole : front + rb.writeIndex = rb.bufferSize := by omega
  rw [whole]
  by_cases none_ : rb.content = []
  · have meet := (wf.empty_iff.mp none_).2
    have fits : ¬ rb.bufferSize - rb.content.length < rb.bufferSize := by
      rw [none_, List.length_nil]
      omega
    rw [if_neg fits, if_pos none_, ← meet]
  · have positive := List.length_pos_of_ne_nil none_
    rw [if_pos (by omega), if_neg none_]

/-- When the unread bytes have wrapped, or there are none, the buffer is full of the start of the block. -/
theorem WellFormed.overwritten_full (wf : rb.WellFormed) (ptr : ℕ → BitVec 8)
    (wrapped : rb.readMirror = rb.writeMirror → rb.readIndex = rb.writeIndex) :
    (rb.overwritten ptr).WellFormed ∧ (rb.overwritten ptr).content = readAt ptr 0 rb.bufferSize := by
  have writeBound := wf.writeBound
  have other : (rb.overwritten ptr).readMirror ≠ (rb.overwritten ptr).writeMirror := by
    simp only [overwritten]
    split
    · rename_i none_
      rw [(wf.empty_iff.mp none_).1]
      cases rb.writeMirror <;> decide
    · rename_i unread
      have sides : rb.readMirror ≠ rb.writeMirror := fun same => unread (wf.empty_iff.mpr ⟨same, wrapped same⟩)
      exact fun same => sides (Bool.not_inj same)
  refine ⟨⟨wf.sizeBound, wf.writeBound, wf.writeBound, fun same => absurd same other, fun _ => Nat.le_refl _⟩, ?_⟩
  rw [content_mirrored _ other]
  simp only [overwritten]
  have front : (readAt ptr 0 (rb.bufferSize - rb.writeIndex)).length = rb.bufferSize - rb.writeIndex :=
    readAt_length ..
  have back : (readAt ptr (rb.bufferSize - rb.writeIndex) rb.writeIndex).length = rb.writeIndex := readAt_length ..
  have tail := readAt_writeAt rb.buffer rb.writeIndex (readAt ptr 0 (rb.bufferSize - rb.writeIndex))
  have head := readAt_writeAt (writeAt rb.buffer rb.writeIndex (readAt ptr 0 (rb.bufferSize - rb.writeIndex))) 0
    (readAt ptr (rb.bufferSize - rb.writeIndex) rb.writeIndex)
  rw [front] at tail
  rw [back] at head
  rw [readAt_writeAt_outside _ _ _ (.inr (by omega)), tail, head]
  have pieces := readAt_add ptr 0 (rb.bufferSize - rb.writeIndex) rb.writeIndex
  rw [Nat.zero_add, Nat.sub_add_cancel (Nat.le_of_lt writeBound)] at pieces
  exact pieces.symm

/-- When there are unread bytes that have not wrapped, the buffer is empty. -/
theorem WellFormed.overwritten_empty (wf : rb.WellFormed) (ptr : ℕ → BitVec 8)
    (same : rb.readMirror = rb.writeMirror) (apart : rb.readIndex ≠ rb.writeIndex) :
    (rb.overwritten ptr).content = [] := by
  have unread : rb.content ≠ [] := fun none_ => apart (wf.empty_iff.mp none_).2
  have both : (rb.overwritten ptr).readMirror = (rb.overwritten ptr).writeMirror := by
    simp only [overwritten, if_neg unread, same]
  rw [content_same _ both]
  simp only [overwritten, Nat.sub_self, readAt_zero]

theorem rtake_block (content : List (BitVec 8)) (ptr : ℕ → BitVec 8) {size length : ℕ} (long : size ≤ length) :
    (content ++ readAt ptr 0 length).rtake size = readAt ptr (length - size) size := by
  rw [List.rtake, List.length_append, readAt_length, Nat.add_sub_assoc long, List.drop_append]
  simp only [Nat.add_sub_cancel_left, drop_readAt _ _ _ _ (Nat.sub_le length size), Nat.sub_sub_self long,
    Nat.zero_add]
  rw [List.drop_eq_nil_of_le (Nat.le_add_right ..), List.nil_append]

/-- A forced put is right exactly if the block fits, or if it is as long as the buffer, ends as it begins
and finds the unread bytes wrapped. -/
theorem WellFormed.putForce_sound_iff (wf : rb.WellFormed) (ptr : ℕ → BitVec 8) (length : BitVec 16) :
    rb.Sound (.putForce ptr length) ↔ rb.Fits (.putForce ptr length) := by
  have readBound := wf.readBound
  have space : (length.toNat : ℤ) ≤ rb.rtRingbufferSpaceLen ↔
      length.toNat ≤ rb.bufferSize - rb.content.length := by
    rw [wf.spaceLen]
    omega
  rw [Sound, Fits, space]
  rcases Nat.lt_or_ge (rb.bufferSize - rb.content.length) length.toNat with over_ | fits
  · rw [wf.putForce_over ptr over_, or_iff_right (Nat.not_le.mpr over_)]
    simp only [Option.some.injEq, exists_eq_left']
    constructor
    · rintro ⟨content, long⟩
      rw [rtake_block _ _ long] at content
      by_cases wrapped : rb.readMirror = rb.writeMirror → rb.readIndex = rb.writeIndex
      · rw [(wf.overwritten_full ptr wrapped).2] at content
        exact ⟨long, wrapped, content⟩
      · obtain ⟨same, apart⟩ := Classical.not_imp.mp wrapped
        have none_ := congrArg List.length content
        rw [wf.overwritten_empty ptr same apart, readAt_length, List.length_nil] at none_
        omega
    · rintro ⟨long, wrapped, block⟩
      refine ⟨?_, long⟩
      rw [rtake_block _ _ long, (wf.overwritten_full ptr wrapped).2, block]
  · obtain ⟨after, result, accepts⟩ := wf.putForce_fits ptr fits
    have bounded := wf.content_le
    refine iff_of_true ⟨_, result, ?_, le_rfl⟩ (.inl fits)
    have short : (rb.content ++ readAt ptr 0 length.toNat).length ≤ rb.bufferSize := by
      rw [List.length_append, readAt_length]
      omega
    rw [accepts.content, List.rtake, Nat.sub_eq_zero_of_le short, List.drop_zero]

theorem WellFormed.putForce (wf : rb.WellFormed) {ptr : ℕ → BitVec 8} {length : BitVec 16}
    (fits : rb.Fits (.putForce ptr length)) : (rb.step (.putForce ptr length)).WellFormed := by
  have bounded := wf.content_le
  rcases Nat.lt_or_ge (rb.bufferSize - rb.content.length) length.toNat with over_ | room
  · rcases fits with room | ⟨-, wrapped, -⟩
    · rw [wf.spaceLen] at room
      omega
    · rw [step, wf.putForce_over ptr over_]
      exact (wf.overwritten_full ptr wrapped).1
  · obtain ⟨after, result, accepts⟩ := wf.putForce_fits ptr room
    rw [step, result]
    exact accepts.wf

theorem WellFormed.refines (wf : rb.WellFormed) :
    ∃ fifo : BoundedFifo (BitVec 8) rb.bufferSize, Refines rb fifo := by
  refine ⟨BoundedFifo.empty.push rb.content, wf, rfl, ?_⟩
  rw [BoundedFifo.push_content]
  have fits : rb.content.length ≤ (BoundedFifo.empty : BoundedFifo (BitVec 8) rb.bufferSize).space := wf.content_le
  rw [List.take_of_length_le fits]
  rfl

theorem WellFormed.call (wf : rb.WellFormed) (event : Call) : (rb.step (.call event)).WellFormed := by
  obtain ⟨fifo, refines⟩ := wf.refines
  obtain ⟨after, result, refines'⟩ := refines.call event
  rw [step, result]
  exact refines'.wf

end Block

/-! ## Buffers of any size -/

/-- The indices are inside the buffer, or there is no buffer and they have not moved. -/
def Indexed (rb : RtRingbuffer) : Prop :=
  rb.WellFormed ∨ rb.bufferSize = 0 ∧ rb.readIndex = 0 ∧ rb.writeIndex = 0

section Runs

variable {rb : RtRingbuffer}

theorem indexed_init (pool : ℕ → BitVec 8) {size : ℕ} (small : size < 2 ^ 15) :
    (rtRingbufferInit pool size).Indexed := by
  rcases Nat.lt_or_ge size 8 with short | large
  · refine .inr ⟨?_, rfl, rfl⟩
    simp only [rtRingbufferInit]
    omega
  · exact .inl (wellFormed_init pool large small)

theorem dataLen_none (size : rb.bufferSize = 0) (read : rb.readIndex = 0) (write : rb.writeIndex = 0) :
    rb.rtRingbufferDataLen = 0 ∧ rb.rtRingbufferSpaceLen = 0 := by
  have none_ : rb.rtRingbufferDataLen = 0 := by
    rw [rtRingbufferDataLen, rtRingbufferStatus, read, write, size]
    by_cases same : rb.readMirror = rb.writeMirror
    · simp [same]
    · simp [same, uint16]
  refine ⟨none_, ?_⟩
  rw [rtRingbufferSpaceLen, none_, size]
  rfl

theorem putForce_none (size : rb.bufferSize = 0) (read : rb.readIndex = 0) (write : rb.writeIndex = 0)
    (ptr : ℕ → BitVec 8) (length : ℕ) :
    rb.rtRingbufferPutForce ptr length =
      some { rb := { rb with writeMirror := !rb.writeMirror }, count := 0, read := 0 } := by
  obtain ⟨-, space⟩ := dataLen_none size read write
  have none_ : (if length > uint16 0 then uint16 (0 : ℕ) else length) = 0 := by
    simp only [uint16, Int.zero_emod, Int.toNat_zero, Nat.cast_zero]
    split <;> omega
  obtain ⟨buffer, readMirror, readIndex, writeMirror, writeIndex, bufferSize⟩ := rb
  subst size
  subst read
  subst write
  unfold rtRingbufferPutForce
  simp only [space, none_]
  simp [copyIn, rtSize, index15]

theorem Indexed.step (indexed : rb.Indexed) {event : ForceCall} (fits : rb.Fits event) :
    (rb.step event).Indexed := by
  rcases indexed with wf | ⟨size, read, write⟩
  · cases event with
    | call event => exact .inl (wf.call event)
    | putForce ptr length => exact .inl (wf.putForce fits)
  · cases event with
    | call event =>
      obtain ⟨data, space⟩ := dataLen_none size read write
      have same : rb.step (.call event) = rb := by
        cases event with
        | put ptr length => simp [RtRingbuffer.step, RtRingbuffer.call, rtRingbufferPut, space, uint16]
        | get length => simp [RtRingbuffer.step, RtRingbuffer.call, rtRingbufferGet, data]
        | putchar ch => simp [RtRingbuffer.step, RtRingbuffer.call, rtRingbufferPutchar, space]
        | getchar => simp [RtRingbuffer.step, RtRingbuffer.call, rtRingbufferGetchar, data]
        | putcharForce ch => exact absurd size fits
      rw [same]
      exact .inr ⟨size, read, write⟩
    | putForce ptr length =>
      rw [RtRingbuffer.step, putForce_none size read write]
      exact .inr ⟨size, read, write⟩

theorem Indexed.sound (indexed : rb.Indexed) {event : ForceCall} (fits : rb.Fits event) : rb.Sound event := by
  rcases indexed with wf | ⟨size, read, write⟩
  · cases event with
    | call event =>
      cases event with
      | put | get | putchar | getchar => trivial
      | putcharForce ch =>
        obtain ⟨fifo, refines⟩ := wf.refines
        obtain ⟨after, result, -⟩ := refines.putcharForce ch
        exact ⟨_, result⟩
    | putForce ptr length => exact (wf.putForce_sound_iff ptr length).mpr fits
  · cases event with
    | call event =>
      cases event with
      | put | get | putchar | getchar => trivial
      | putcharForce ch => exact absurd size fits
    | putForce ptr length =>
      refine ⟨_, putForce_none size read write ptr length.toNat, ?_, Nat.zero_le _⟩
      rw [size, List.rtake_zero, content]
      simp [read, write]

end Runs

/-- In every run of calls that fit, on a ring buffer with a pool of any size, every forced put leaves the
newest bytes and reads no byte behind its block, and every forced call stores inside the buffer. -/
theorem forcedPuts_sound (pool : ℕ → BitVec 8) {size : ℕ} (small : size ≤ 32767) {events : List ForceCall}
    (fits : Run.Along step Fits (rtRingbufferInit pool size) events) :
    Run.Along step Sound (rtRingbufferInit pool size) events :=
  Run.Along.along (fun _ _ indexed fits => indexed.step fits) (fun _ _ indexed fits => indexed.sound fits)
    (indexed_init pool (Nat.lt_succ_of_le small)) fits

theorem forcedPuts_sound_eight :
    Run.Along step Sound (rtRingbufferInit (fun _ => 0) 8)
      [.call (.putchar 7), .putForce (fun i => BitVec.ofNat 8 i) 5, .call .getchar,
        .putForce (fun i => BitVec.ofNat 8 i) 3] :=
  forcedPuts_sound (fun _ => 0) (by decide) ⟨trivial, .inl (by decide), trivial, .inl (by decide), trivial⟩

/-- A block as long as the buffer, put behind one byte, leaves an empty buffer. -/
theorem forcedBlock_lost :
    ¬ Run.Along step Sound (rtRingbufferInit (fun _ => 0) 8)
      [.call (.putchar 7), .putForce (fun i => BitVec.ofNat 8 i) 8] := by
  rintro ⟨-, ⟨result, forced, content, -⟩, -⟩
  have left : result.rb.content = [] := by
    have found := congrArg (Option.map fun put : ForcedPut => put.rb.content) forced
    exact (Option.some.inj found).symm
  have lengths := congrArg List.length (left.symm.trans content)
  revert lengths
  decide

end RtRingbuffer

end RtThread
