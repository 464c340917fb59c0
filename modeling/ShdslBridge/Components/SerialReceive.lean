import ShdslBridge.Lib.BoundedFifo
import ShdslBridge.Lib.Ring
import ShdslBridge.Lib.Run

/-! # The receive FIFO of an interrupt-driven serial device

The interrupt handler stores the characters that the driver's `getc` returns, readers take them out,
and each of the two does so with interrupts disabled, one character at a time. The handler steps the
read index as well when the write index meets it, so that the oldest character is discarded. The
abstract queue holds one character less than the buffer has bytes and forgets its oldest one for a
new one.
-/

namespace RtThread

/-- `struct rt_serial_rx_fifo`. -/
structure RtSerialRxFifo where
  buffer : ℕ → BitVec 8
  putIndex : BitVec 16
  getIndex : BitVec 16

namespace RtSerialRxFifo

/-- An index moved on by one, with the wrap at the end of the buffer. -/
def next (bufsz index : BitVec 16) : BitVec 16 := if index + 1 ≥ bufsz then 0 else index + 1

/-- The body of the loop of `rt_hw_serial_isr` for `RT_SERIAL_EVENT_RX_IND`, behind `getc`. -/
def store (bufsz : BitVec 16) (rxFifo : RtSerialRxFifo) (ch : ℤ) : RtSerialRxFifo :=
  let buffer := Function.update rxFifo.buffer rxFifo.putIndex.toNat (BitVec.ofInt 8 ch)
  let putIndex := next bufsz rxFifo.putIndex
  let getIndex := if putIndex = rxFifo.getIndex then next bufsz rxFifo.getIndex else rxFifo.getIndex
  { buffer, putIndex, getIndex }

/-- The length that `rt_hw_serial_isr` passes to `rx_indicate`. -/
def rxLength (bufsz : BitVec 16) (rxFifo : RtSerialRxFifo) : ℕ :=
  if rxFifo.putIndex ≥ rxFifo.getIndex then rxFifo.putIndex.toNat - rxFifo.getIndex.toNat
  else bufsz.toNat - (rxFifo.getIndex.toNat - rxFifo.putIndex.toNat)

/-- The critical section of `_serial_int_rx`: the character taken, or `none` without data. -/
def take (bufsz : BitVec 16) (rxFifo : RtSerialRxFifo) : Option (BitVec 8 × RtSerialRxFifo) :=
  if rxFifo.getIndex ≠ rxFifo.putIndex then
    some (rxFifo.buffer rxFifo.getIndex.toNat, { rxFifo with getIndex := next bufsz rxFifo.getIndex })
  else none

/-- The characters from the read index on, oldest first. -/
def content (bufsz : BitVec 16) (rxFifo : RtSerialRxFifo) : List (BitVec 8) :=
  (List.range (rxFifo.rxLength bufsz)).map fun i =>
    rxFifo.buffer ((rxFifo.getIndex.toNat + i) % bufsz.toNat)

/-! ## The buffer as a ring -/

section

open Ring

variable {bufsz : BitVec 16} [NeZero bufsz.toNat]

def cells (bufsz : BitVec 16) (rxFifo : RtSerialRxFifo) (i : Fin bufsz.toNat) : BitVec 8 := rxFifo.buffer i.val

/-- `count` characters are stored, from the cell `out` on. -/
structure Holds (rxFifo : RtSerialRxFifo) (out : Fin bufsz.toNat) (count : ℕ) : Prop where
  get : rxFifo.getIndex.toNat = out.val
  put : rxFifo.putIndex.toNat = (slot out count).val
  bound : count < bufsz.toNat

theorem next_val {index : BitVec 16} {i : Fin bufsz.toNat} (same : index.toNat = i.val) :
    (next bufsz index).toNat = (i + 1).val := by
  have inside := i.isLt
  have fits := bufsz.isLt
  have advance : (index + 1).toNat = i.val + 1 := by bv_omega
  rw [Fin.val_add, Fin.val_one', Nat.add_mod_mod]
  unfold next
  split_ifs with last
  · have whole : i.val + 1 = bufsz.toNat := by bv_omega
    rw [whole, Nat.mod_self]
    rfl
  · rw [advance, Nat.mod_eq_of_lt (by bv_omega)]

omit [NeZero bufsz.toNat] in
theorem val_eq_iff {index other : BitVec 16} {i j : Fin bufsz.toNat} (first : index.toNat = i.val)
    (second : other.toNat = j.val) : index = other ↔ i = j := by
  rw [← BitVec.toNat_inj, first, second, Fin.ext_iff]

variable {rxFifo : RtSerialRxFifo} {out : Fin bufsz.toNat} {count : ℕ}

theorem Holds.rxLength_eq (holds : Holds rxFifo out count) : rxFifo.rxLength bufsz = count := by
  have inside := out.isLt
  have bound := holds.bound
  have put : rxFifo.putIndex.toNat = (out.val + count) % bufsz.toNat := holds.put.trans (slot_val ..)
  have order : rxFifo.putIndex ≥ rxFifo.getIndex ↔ out.val ≤ rxFifo.putIndex.toNat := by
    rw [← holds.get]
    exact Iff.rfl
  rw [rxLength, holds.get]
  rcases Nat.lt_or_ge (out.val + count) bufsz.toNat with straight | wrapped
  · rw [Nat.mod_eq_of_lt straight] at put
    rw [if_pos (order.mpr (by omega))]
    omega
  · rw [Nat.mod_eq_sub_mod wrapped, Nat.mod_eq_of_lt (by omega)] at put
    rw [if_neg (by rw [order]; omega)]
    omega

theorem Holds.content_eq (holds : Holds rxFifo out count) :
    rxFifo.content bufsz = window (rxFifo.cells bufsz) out count := by
  rw [content, holds.rxLength_eq, window, holds.get]
  apply List.map_congr_left
  intro i member
  rw [cells, slot_val]

theorem Holds.content_length (holds : Holds rxFifo out count) : (rxFifo.content bufsz).length = count := by
  rw [holds.content_eq, window_length]

/-- The cells behind a store, and what they hold from the old read index on. -/
theorem Holds.window_store (holds : Holds rxFifo out count) (ch : ℤ) :
    window ((rxFifo.store bufsz ch).cells bufsz) out (count + 1) =
      rxFifo.content bufsz ++ [BitVec.ofInt 8 ch] := by
  have cell : (rxFifo.store bufsz ch).cells bufsz =
      Function.update (rxFifo.cells bufsz) (slot out count) (BitVec.ofInt 8 ch) := by
    funext i
    simp only [cells, store, holds.put, Function.update_apply, Fin.val_inj]
  rw [cell, window_push _ _ holds.bound, holds.content_eq]

theorem Holds.store_room (holds : Holds rxFifo out count) (room : count + 1 < bufsz.toNat) (ch : ℤ) :
    Holds (rxFifo.store bufsz ch) out (count + 1) := by
  have put : (next bufsz rxFifo.putIndex).toNat = (slot out (count + 1)).val := by
    rw [next_val holds.put, slot_succ]
  have apart : next bufsz rxFifo.putIndex ≠ rxFifo.getIndex := by
    rw [ne_eq, val_eq_iff put holds.get, slot_eq_self_iff out room.le]
    omega
  refine ⟨?_, put, room⟩
  rw [← holds.get]
  exact congrArg BitVec.toNat (if_neg apart)

theorem Holds.store_full (holds : Holds rxFifo out count) (full : count + 1 = bufsz.toNat) (ch : ℤ) :
    Holds (rxFifo.store bufsz ch) (out + 1) count := by
  have put : (next bufsz rxFifo.putIndex).toNat = (slot (out + 1) count).val := by
    rw [next_val holds.put, ← slot_succ, slot_next]
  have meet : next bufsz rxFifo.putIndex = rxFifo.getIndex := by
    rw [val_eq_iff put holds.get, slot_next, slot_eq_self_iff out full.le]
    exact .inr full
  refine ⟨?_, put, holds.bound⟩
  rw [← next_val holds.get]
  exact congrArg BitVec.toNat (if_pos meet)

/-- A store appends, and drops the oldest character if there was no room. -/
theorem Holds.store_content (holds : Holds rxFifo out count) (ch : ℤ) :
    (rxFifo.store bufsz ch).content bufsz =
      if count + 1 = bufsz.toNat then (rxFifo.content bufsz ++ [BitVec.ofInt 8 ch]).tail
      else rxFifo.content bufsz ++ [BitVec.ofInt 8 ch] := by
  have bound := holds.bound
  rw [← holds.window_store ch]
  split_ifs with full
  · rw [(holds.store_full full ch).content_eq, window_pop, List.tail_cons]
  · rw [(holds.store_room (by omega) ch).content_eq]

theorem Holds.take_none (holds : Holds rxFifo out 0) : rxFifo.take bufsz = none := by
  have meet : rxFifo.getIndex = rxFifo.putIndex := by
    rw [val_eq_iff holds.get holds.put, slot_zero]
  rw [take, if_neg (by simp [meet])]

theorem Holds.take_some (holds : Holds rxFifo out (count + 1)) :
    ∃ ch target, rxFifo.take bufsz = some (ch, target) ∧ Holds target (out + 1) count ∧
      rxFifo.content bufsz = ch :: target.content bufsz := by
  have bound := holds.bound
  have apart : rxFifo.getIndex ≠ rxFifo.putIndex := by
    rw [ne_comm, ne_eq, val_eq_iff holds.put holds.get, slot_eq_self_iff out bound.le]
    omega
  have target : Holds { rxFifo with getIndex := next bufsz rxFifo.getIndex } (out + 1) count :=
    ⟨next_val holds.get, by rw [slot_next]; exact holds.put, by omega⟩
  refine ⟨_, _, if_pos apart, target, ?_⟩
  rw [holds.content_eq, target.content_eq, window_pop, holds.get]
  rfl

end

end RtSerialRxFifo

/-- A call of `_serial_int_rx`: its argument, its loop counter and what it has stored in `data`. -/
structure SerialRead where
  size : ℕ
  length : ℕ
  data : List (BitVec 8)

/-- Where the interrupt handler stands: not running, in its loop, or in front of the callback. -/
inductive RxIsr where
  | idle
  | receiving
  | reporting
deriving DecidableEq

/-- The receive side of an open device, the calls that readers are in, and a record of the run: the
characters stored, the characters taken and by whom, the calls that have returned, and the lengths
passed to `rx_indicate`. -/
structure SerialRx (τ : Type*) where
  rxFifo : RtSerialRxFifo
  isr : RxIsr
  reading : τ → Option SerialRead
  received : List (BitVec 8)
  taken : List (τ × BitVec 8)
  finished : List (τ × SerialRead)
  indicated : List ℕ

/-- What happens next: the interrupt, one round of its loop with the value of `getc`, its callback, a
call of `_serial_int_rx`, or one round of the loop of such a call. -/
inductive SerialRxEvent (τ : Type*) where
  | interrupt
  | getc (ch : ℤ)
  | indicate
  | read (t : τ) (length : ℕ)
  | advance (t : τ)

namespace SerialRx

variable {τ : Type*} [DecidableEq τ]

/-- The call of `t` returns `size - length`. -/
def finish (s : SerialRx τ) (t : τ) (call : SerialRead) : SerialRx τ :=
  { s with reading := Function.update s.reading t none, finished := s.finished ++ [(t, call)] }

/-- One round of the loop of `_serial_int_rx`. -/
def intRx (bufsz : BitVec 16) (s : SerialRx τ) (t : τ) (call : SerialRead) : SerialRx τ :=
  if call.length = 0 then s.finish t call
  else
    match s.rxFifo.take bufsz with
    | none => s.finish t call
    | some (ch, rxFifo) =>
      { s with
        rxFifo
        reading := Function.update s.reading t
          (some { call with length := call.length - 1, data := call.data ++ [ch] })
        taken := s.taken ++ [(t, ch)] }

/-- One step on a device with a buffer of `bufsz` bytes, with or without a callback. An event that is
not possible changes nothing. -/
def step (bufsz : BitVec 16) (rxIndicate : Bool) (s : SerialRx τ) : SerialRxEvent τ → SerialRx τ
  | .interrupt => if s.isr = .idle then { s with isr := .receiving } else s
  | .getc ch =>
    if s.isr = .receiving then
      if ch = -1 then { s with isr := .reporting }
      else
        { s with
          rxFifo := s.rxFifo.store bufsz ch
          received := s.received ++ [BitVec.ofInt 8 ch] }
    else s
  | .indicate =>
    if s.isr = .reporting then
      { s with
        isr := .idle
        indicated := s.indicated ++ if rxIndicate then [s.rxFifo.rxLength bufsz] else [] }
    else s
  | .read t length =>
    match s.reading t with
    | some _ => s
    | none => { s with reading := Function.update s.reading t (some { size := length, length, data := [] }) }
  | .advance t =>
    match s.reading t with
    | none => s
    | some call => s.intRx bufsz t call

/-- The device behind `rt_serial_open` with `RT_DEVICE_FLAG_INT_RX`. -/
def opened : SerialRx τ where
  rxFifo := { buffer := fun _ => 0, putIndex := 0, getIndex := 0 }
  isr := .idle
  reading := fun _ => none
  received := []
  taken := []
  finished := []
  indicated := []

/-- What the calls of `t` have returned so far, the call that it is in included. -/
def dataOf (s : SerialRx τ) (t : τ) : List (BitVec 8) :=
  (s.finished.filter (·.1 = t)).flatMap (·.2.data) ++ ((s.reading t).elim [] (·.data))

/-- What the steps mean for the abstract queue: the handler accepts a character and forgets the oldest
one if there is no room, and a reader takes the oldest one if there is any. -/
def queueStep {capacity : ℕ} (s : SerialRx τ) (fifo : BoundedFifo (BitVec 8) capacity) :
    SerialRxEvent τ → BoundedFifo (BitVec 8) capacity
  | .getc ch => if s.isr = .receiving ∧ ch ≠ -1 then fifo.pushForce (BitVec.ofInt 8 ch) else fifo
  | .advance t => if ∃ call ∈ s.reading t, call.length ≠ 0 then fifo.depart 1 true else fifo
  | _ => fifo

/-- A device and the abstract queue, side by side. -/
abbrev Watched (τ : Type*) (bufsz : BitVec 16) := SerialRx τ × BoundedFifo (BitVec 8) (bufsz.toNat - 1)

def watchedStep (bufsz : BitVec 16) (rxIndicate : Bool) (w : Watched τ bufsz) (event : SerialRxEvent τ) :
    Watched τ bufsz :=
  (step bufsz rxIndicate w.1 event, queueStep w.1 w.2 event)

/-! ## The device refines the queue -/

section

/-- A call has stored the characters that it has counted down. -/
def Counted (call : SerialRead) : Prop := call.data.length + call.length = call.size

/-- The buffer holds the content of the queue, and the records agree. -/
structure Agrees (bufsz : BitVec 16) [NeZero bufsz.toNat] (w : Watched τ bufsz) : Prop where
  holds : ∃ out : Fin bufsz.toNat, RtSerialRxFifo.Holds w.1.rxFifo out w.2.content.length
  content : w.1.rxFifo.content bufsz = w.2.content
  tight : w.2.Tight
  received : w.2.accepted = w.1.received
  taken : w.2.returned = w.1.taken.map Prod.snd
  delivered : ∀ t, (w.1.taken.filter (·.1 = t)).map Prod.snd = w.1.dataOf t
  counted : ∀ t, ∀ call ∈ w.1.reading t, Counted call
  returned : ∀ item ∈ w.1.finished, Counted item.2

variable {bufsz : BitVec 16} [NeZero bufsz.toNat] {w : Watched τ bufsz} {s : SerialRx τ} {t : τ} {call : SerialRead}

/-! ### The characters that a thread has got -/

theorem dataOf_finish (inside : s.reading t = some call) (u : τ) : (s.finish t call).dataOf u = s.dataOf u := by
  unfold dataOf finish
  by_cases same : u = t
  · subst same
    simp [inside]
  · simp [same, Ne.symm same]

theorem dataOf_read (outside : s.reading t = none) (length : ℕ) (u : τ) :
    SerialRx.dataOf { s with reading := Function.update s.reading t (some ⟨length, length, []⟩) } u =
      s.dataOf u := by
  unfold dataOf
  by_cases same : u = t
  · subst same
    simp [outside]
  · simp [same]

theorem dataOf_take {rxFifo : RtSerialRxFifo} {taken : List (τ × BitVec 8)} (inside : s.reading t = some call)
    (length : ℕ) (ch : BitVec 8) (u : τ) :
    SerialRx.dataOf
        { s with
          rxFifo
          reading := Function.update s.reading t (some { call with length, data := call.data ++ [ch] })
          taken } u =
      s.dataOf u ++ (if t = u then [ch] else []) := by
  unfold dataOf
  by_cases same : u = t
  · subst same
    simp [inside]
  · simp [same, Ne.symm same]

/-! ### One step -/

theorem Agrees.congr {isr : RxIsr} {indicated : List ℕ} (agrees : Agrees bufsz w) :
    Agrees bufsz ({ w.1 with isr, indicated }, w.2) :=
  ⟨agrees.holds, agrees.content, agrees.tight, agrees.received, agrees.taken, agrees.delivered,
    agrees.counted, agrees.returned⟩

theorem Agrees.store (agrees : Agrees bufsz w) (large : 2 ≤ bufsz.toNat) (ch : ℤ) :
    Agrees bufsz
      ({ w.1 with
          rxFifo := w.1.rxFifo.store bufsz ch
          received := w.1.received ++ [BitVec.ofInt 8 ch] }, w.2.pushForce (BitVec.ofInt 8 ch)) := by
  obtain ⟨out, holds⟩ := agrees.holds
  have bound := holds.bound
  have room : 0 < bufsz.toNat - 1 := by omega
  have content : (w.1.rxFifo.store bufsz ch).content bufsz = (w.2.pushForce (BitVec.ofInt 8 ch)).content := by
    rw [holds.store_content, w.2.pushForce_content room, agrees.content]
    exact if_congr (by omega) rfl rfl
  refine ⟨?_, content, BoundedFifo.pushForce_tight agrees.tight _, ?_, ?_, agrees.delivered, agrees.counted,
    agrees.returned⟩
  · rw [← content]
    by_cases full : w.2.content.length + 1 = bufsz.toNat
    · have stored := holds.store_full full ch
      exact ⟨_, by rw [stored.content_length]; exact stored⟩
    · have stored := holds.store_room (by omega) ch
      exact ⟨_, by rw [stored.content_length]; exact stored⟩
  · rw [w.2.pushForce_accepted room, agrees.received]
  · rw [BoundedFifo.pushForce_returned, agrees.taken]

theorem Agrees.finish (agrees : Agrees bufsz w) (inside : w.1.reading t = some call) :
    Agrees bufsz (w.1.finish t call, w.2) := by
  refine ⟨agrees.holds, agrees.content, agrees.tight, agrees.received, agrees.taken, ?_, ?_, ?_⟩
  · intro u
    rw [dataOf_finish inside]
    exact agrees.delivered u
  · intro u other member
    by_cases same : u = t
    · simp [SerialRx.finish, same] at member
    · exact agrees.counted u other (by simpa [SerialRx.finish, same] using member)
  · intro item member
    rcases List.mem_append.mp member with earlier | last
    · exact agrees.returned item earlier
    · rw [List.mem_singleton.mp last]
      exact agrees.counted t call inside

/-- A reader enters `_serial_int_rx`. -/
theorem Agrees.read (agrees : Agrees bufsz w) (outside : w.1.reading t = none) (length : ℕ) :
    Agrees bufsz
      ({ w.1 with reading := Function.update w.1.reading t (some ⟨length, length, []⟩) }, w.2) := by
  refine ⟨agrees.holds, agrees.content, agrees.tight, agrees.received, agrees.taken, ?_, ?_, agrees.returned⟩
  · intro u
    rw [dataOf_read outside]
    exact agrees.delivered u
  · intro u other member
    by_cases same : u = t
    · subst same
      obtain rfl : _ = other := by simpa using member
      exact Nat.zero_add _
    · exact agrees.counted u other (by simpa [same] using member)

theorem Agrees.intRx (agrees : Agrees bufsz w) (inside : w.1.reading t = some call) :
    Agrees bufsz
      (w.1.intRx bufsz t call, if call.length ≠ 0 then w.2.depart 1 true else w.2) := by
  obtain ⟨out, holds⟩ := agrees.holds
  unfold SerialRx.intRx
  by_cases done : call.length = 0
  · rw [if_pos done, if_neg (not_not.mpr done)]
    exact agrees.finish inside
  rw [if_neg done, if_pos done]
  cases stored : w.2.content with
  | nil =>
    rw [stored] at holds
    have kept : Agrees bufsz (w.1, w.2.depart 1 true) := by
      have same : (w.2.depart 1 true).content = w.2.content := by simp [stored]
      refine ⟨by rw [same]; exact agrees.holds, by rw [same]; exact agrees.content,
        BoundedFifo.read_tight agrees.tight, agrees.received, ?_, agrees.delivered, agrees.counted,
        agrees.returned⟩
      rw [BoundedFifo.returned_read, stored, agrees.taken]
      simp
    rw [holds.take_none]
    exact kept.finish inside
  | cons first rest =>
    rw [stored, List.length_cons] at holds
    obtain ⟨ch, target, take, left, split⟩ := holds.take_some
    rw [agrees.content, stored, List.cons.injEq] at split
    obtain ⟨rfl, rfl⟩ := split
    have tail : (w.2.depart 1 true).content = target.content bufsz := by simp [stored]
    rw [take]
    refine ⟨?_, tail.symm, BoundedFifo.read_tight agrees.tight, agrees.received, ?_, ?_, ?_, agrees.returned⟩
    · rw [tail]
      exact ⟨_, left⟩
    · rw [BoundedFifo.returned_read, stored, agrees.taken]
      simp
    · intro u
      rw [dataOf_take inside, ← agrees.delivered u]
      by_cases same : t = u <;> simp [same]
    · intro u other member
      by_cases same : u = t
      · subst same
        have counted := agrees.counted u call inside
        obtain rfl : _ = other := by simpa using member
        simp only [Counted, List.length_append, List.length_singleton] at counted ⊢
        omega
      · exact agrees.counted u other (by simpa [same] using member)

theorem Agrees.step (agrees : Agrees bufsz w) (large : 2 ≤ bufsz.toNat) (rxIndicate : Bool)
    (event : SerialRxEvent τ) : Agrees bufsz (watchedStep bufsz rxIndicate w event) := by
  cases event with
  | interrupt =>
    simp only [watchedStep, SerialRx.step, queueStep]
    split_ifs
    · exact agrees.congr
    · exact agrees
  | getc ch =>
    simp only [watchedStep, SerialRx.step, queueStep]
    by_cases receiving : w.1.isr = .receiving
    · by_cases last : ch = -1
      · rw [if_pos receiving, if_pos last, if_neg fun both => both.2 last]
        exact agrees.congr
      · rw [if_pos receiving, if_neg last, if_pos ⟨receiving, last⟩]
        exact agrees.store large ch
    · rw [if_neg receiving, if_neg fun both => receiving both.1]
      exact agrees
  | indicate =>
    simp only [watchedStep, SerialRx.step, queueStep]
    split_ifs
    · exact agrees.congr
    · exact agrees.congr
    · exact agrees
  | read t length =>
    simp only [watchedStep, SerialRx.step, queueStep]
    cases outside : w.1.reading t with
    | none => exact agrees.read outside length
    | some call => exact agrees
  | advance t =>
    simp only [watchedStep, SerialRx.step, queueStep]
    cases inside : w.1.reading t with
    | none => simpa using agrees
    | some call => simpa using agrees.intRx inside

theorem agrees_opened (large : 2 ≤ bufsz.toNat) :
    Agrees bufsz ((opened : SerialRx τ), BoundedFifo.empty) := by
  have holds : RtSerialRxFifo.Holds (opened : SerialRx τ).rxFifo (0 : Fin bufsz.toNat) 0 :=
    ⟨rfl, by rw [Ring.slot_zero]; rfl, by omega⟩
  refine ⟨⟨_, holds⟩, ?_, BoundedFifo.empty_tight, rfl, rfl, fun _ => rfl, ?_, ?_⟩
  · rw [holds.content_eq]
    rfl
  · intro t call member
    exact absurd member (by simp [opened])
  · intro item member
    exact absurd member (by simp [opened])

end

/-! ## Every run -/

/-- In every state that interrupts and readers reach, the FIFO holds the newest of the characters
received after the last one read, as many as it has room for; the readers have taken received
characters in order, each once, and every call has got those that it took; and the length passed to
the callback is the number of characters that there are to read. -/
theorem rxFifo_newest (bufsz : BitVec 16) (rxIndicate : Bool) (large : 2 ≤ bufsz.toNat)
    (run : List (SerialRxEvent τ)) :
    Run.Always (watchedStep bufsz rxIndicate)
      (fun w =>
        w.1.rxFifo.content bufsz = w.2.unread.rtake (min w.2.unread.length (bufsz.toNat - 1)) ∧
        w.2.accepted = w.1.received ∧ w.2.returned = w.1.taken.map Prod.snd ∧
        (w.1.taken.map Prod.snd ++ w.1.rxFifo.content bufsz).Sublist w.1.received ∧
        (∀ t, (w.1.taken.filter (·.1 = t)).map Prod.snd = w.1.dataOf t) ∧
        (∀ item ∈ w.1.finished, Counted item.2) ∧
        (w.1.isr = .reporting → rxIndicate = true →
          (step bufsz rxIndicate w.1 .indicate).indicated =
            w.1.indicated ++ [(w.1.rxFifo.content bufsz).length]))
      (opened, BoundedFifo.empty) run := by
  have : NeZero bufsz.toNat := ⟨by omega⟩
  refine Run.always_of_invariant (fun w event agrees => agrees.step large rxIndicate event) ?_
    (agrees_opened large) run
  intro w agrees
  obtain ⟨out, holds⟩ := agrees.holds
  refine ⟨?_, agrees.received, agrees.taken, ?_, agrees.delivered, agrees.returned, ?_⟩
  · rw [agrees.content]
    exact BoundedFifo.content_eq_rtake agrees.tight
  · rw [← agrees.taken, ← agrees.received, agrees.content]
    exact w.2.returned_append_content_sublist
  · intro reporting callback
    simp only [step, reporting, callback, if_true]
    rw [holds.content_length, holds.rxLength_eq]

/-- A buffer of two bytes: the second character replaces the first. -/
theorem rxFifo_newest_two :
    let w := Run.exec (watchedStep 2#16 true) ((opened : SerialRx ℕ), BoundedFifo.empty)
      [.interrupt, .getc 65, .getc 66, .getc (-1)]
    w.1.rxFifo.content 2#16 = w.2.unread.rtake (min w.2.unread.length 1) ∧
      w.1.rxFifo.content 2#16 = [66#8] ∧ w.2.unread = [65#8, 66#8] :=
  ⟨(rxFifo_newest 2#16 true (by decide) _).last.1, by decide, by decide⟩

end SerialRx

end RtThread
