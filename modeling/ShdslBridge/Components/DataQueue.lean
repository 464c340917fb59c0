import ShdslBridge.Kernel.Thread
import ShdslBridge.Lib.Run
import Mathlib.Data.Int.ModEq

/-! # Data queues of the device drivers

A data queue is an array of items between two free-running 16-bit counters. A push on a full queue
and a pop on an empty one suspend their thread in a list of the queue, with or without a timer, and
test again when it gets the processor back. The steps of a run are the stretches with interrupts
disabled; interrupt handlers call too, but cannot wait. What an item is does not matter, so its
type is a parameter.

The test for a full queue subtracts the counters as integers, without the wrap of 16 bits. It fails
once the write counter has wrapped and the read counter has not, and a push on a full queue then
overwrites the oldest item.
-/

namespace RtThread

variable {τ : Type*} [DecidableEq τ] {α : Type*}

/-- `struct rt_data_queue`, with the items behind `queue`. -/
structure RtDataQueue (τ α : Type*) where
  size : BitVec 16
  lwm : BitVec 16
  waitingLwm : Bool
  getIndex : BitVec 16
  putIndex : BitVec 16
  queue : ℕ → α
  suspendedPushList : List τ
  suspendedPopList : List τ

/-- `rt_data_queue_init` with an array that `rt_malloc` has given. -/
def rtDataQueueInit (size lwm : BitVec 16) (queue : ℕ → α) : RtDataQueue τ α :=
  { size, lwm, waitingLwm := false, getIndex := 0, putIndex := 0, queue, suspendedPushList := []
    suspendedPopList := [] }

namespace RtDataQueue

/-- `put_index - get_index`, which C computes in `int`. -/
def difference (dq : RtDataQueue τ α) : ℤ := dq.putIndex.toNat - dq.getIndex.toNat

/-- The test of `rt_data_queue_push` for a full queue. -/
def Full (dq : RtDataQueue τ α) : Prop := dq.difference = dq.size.toNat

/-- The test of `rt_data_queue_pop` and `rt_data_queue_peak` for an empty queue. -/
def Empty (dq : RtDataQueue τ α) : Prop := dq.getIndex = dq.putIndex

/-- The test of `rt_data_queue_pop` for the low-water mark. -/
def Low (dq : RtDataQueue τ α) : Prop := dq.difference ≤ dq.lwm.toNat

instance (dq : RtDataQueue τ α) : Decidable dq.Full := inferInstanceAs (Decidable (_ = _))
instance (dq : RtDataQueue τ α) : Decidable dq.Empty := inferInstanceAs (Decidable (_ = _))
instance (dq : RtDataQueue τ α) : Decidable dq.Low := inferInstanceAs (Decidable (_ ≤ _))

/-- `index & mask`. -/
def slot (dq : RtDataQueue τ α) (index : BitVec 16) : ℕ := (index &&& (dq.size - 1)).toNat

def put (dq : RtDataQueue τ α) (item : α) : RtDataQueue τ α :=
  { dq with queue := Function.update dq.queue (dq.slot dq.putIndex) item, putIndex := dq.putIndex + 1 }

/-- The item at the read counter. -/
def first (dq : RtDataQueue τ α) : α := dq.queue (dq.slot dq.getIndex)

def advance (dq : RtDataQueue τ α) : RtDataQueue τ α := { dq with getIndex := dq.getIndex + 1 }

/-- `rt_data_queue_peak`; `none` is the return value `-RT_EEMPTY`. -/
def rtDataQueuePeak (dq : RtDataQueue τ α) : Option α := if dq.Empty then none else some dq.first

/-- The 16-bit difference of the counters. -/
def count (dq : RtDataQueue τ α) : ℕ := (dq.putIndex - dq.getIndex).toNat

/-- The items between the counters, oldest first. -/
def content (dq : RtDataQueue τ α) : List α :=
  (List.range dq.count).map fun i => dq.queue (dq.slot (dq.getIndex + BitVec.ofNat 16 i))

/-- The sizes for which the mask selects a slot of the array. -/
def PowerOfTwo (size : BitVec 16) : Prop := ∃ exponent ≤ 15, size.toNat = 2 ^ exponent

section

variable {dq : RtDataQueue τ α}

omit [DecidableEq τ]

theorem size_pos (power : PowerOfTwo dq.size) : 0 < dq.size.toNat := by
  obtain ⟨exponent, -, size⟩ := power
  rw [size]
  exact Nat.two_pow_pos exponent

theorem size_le (power : PowerOfTwo dq.size) : dq.size.toNat ≤ 32768 := by
  obtain ⟨exponent, small, size⟩ := power
  rw [size]
  exact Nat.pow_le_pow_right (by decide) small

theorem slot_eq (power : PowerOfTwo dq.size) (index : BitVec 16) :
    dq.slot index = index.toNat % dq.size.toNat := by
  have positive := size_pos power
  obtain ⟨exponent, -, size⟩ := power
  have mask : (dq.size - 1).toNat = 2 ^ exponent - 1 := by
    rw [← size]
    bv_omega
  rw [slot, BitVec.toNat_and, mask, Nat.and_two_pow_sub_one_eq_mod, size]

theorem slot_add (power : PowerOfTwo dq.size) (i : ℕ) :
    dq.slot (dq.getIndex + BitVec.ofNat 16 i) = (dq.getIndex.toNat + i) % dq.size.toNat := by
  have divides : dq.size.toNat ∣ 2 ^ 16 := by
    obtain ⟨exponent, small, size⟩ := power
    rw [size]
    exact Nat.pow_dvd_pow 2 (Nat.le_succ_of_le small)
  rw [slot_eq power, BitVec.toNat_add, Nat.mod_mod_of_dvd _ divides, Nat.add_mod, BitVec.toNat_ofNat,
    Nat.mod_mod_of_dvd _ divides, ← Nat.add_mod]

/-- Different items of a queue that is not overfull are in different slots. -/
theorem slot_ne (power : PowerOfTwo dq.size) {i j : ℕ} (less : i < j) (bound : j < dq.size.toNat) :
    dq.slot (dq.getIndex + BitVec.ofNat 16 i) ≠ dq.slot (dq.getIndex + BitVec.ofNat 16 j) := by
  rw [slot_add power, slot_add power]
  intro same
  have congruent : i ≡ j [MOD dq.size.toNat] := Nat.ModEq.add_left_cancel' dq.getIndex.toNat same
  have equal := congruent.eq_of_lt_of_lt (less.trans bound) bound
  omega

theorem putIndex_eq (dq : RtDataQueue τ α) : dq.putIndex = dq.getIndex + BitVec.ofNat 16 dq.count := by
  rw [count, BitVec.ofNat_toNat, BitVec.setWidth_eq]
  bv_omega

theorem put_count (room : dq.count < 65535) (item : α) : (dq.put item).count = dq.count + 1 := by
  simp only [count, put] at room ⊢
  bv_omega

theorem put_content (power : PowerOfTwo dq.size) (room : dq.count < dq.size.toNat) (item : α) :
    (dq.put item).content = dq.content ++ [item] := by
  have small := size_le power
  rw [content, put_count (by omega), List.range_succ, List.map_append, content]
  have last : dq.slot dq.putIndex = dq.slot (dq.getIndex + BitVec.ofNat 16 dq.count) := by rw [← putIndex_eq]
  congr 1
  · apply List.map_congr_left
    intro i member
    have other := slot_ne power (List.mem_range.mp member) room
    rw [← last] at other
    exact Function.update_of_ne other _ _
  · change [Function.update dq.queue (dq.slot dq.putIndex) item (dq.slot (dq.getIndex + BitVec.ofNat 16 dq.count))] = _
    rw [last, Function.update_self]

theorem advance_count (dq : RtDataQueue τ α) (nonempty : dq.count ≠ 0) : dq.count = dq.advance.count + 1 := by
  simp only [count, advance] at nonempty ⊢
  bv_omega

theorem content_pop (dq : RtDataQueue τ α) (nonempty : dq.count ≠ 0) : dq.content = dq.first :: dq.advance.content := by
  rw [content, advance_count dq nonempty, List.range_succ_eq_map, List.map_cons, List.map_map, content]
  congr 1
  · simp [first]
  · apply List.map_congr_left
    intro i _
    have shifted : dq.getIndex + BitVec.ofNat 16 (i + 1) = dq.getIndex + 1 + BitVec.ofNat 16 i := by
      rw [Nat.add_comm, BitVec.ofNat_add, BitVec.add_assoc]
      rfl
    change dq.queue (dq.slot (dq.getIndex + BitVec.ofNat 16 (i + 1))) = _
    rw [shifted]
    rfl

theorem empty_iff (dq : RtDataQueue τ α) : dq.Empty ↔ dq.count = 0 := by
  simp only [Empty, count]
  constructor
  · intro same
    rw [same]
    bv_omega
  · intro zero
    bv_omega

theorem count_eq_iff (dq : RtDataQueue τ α) : dq.count = dq.size.toNat ↔ dq.putIndex - dq.getIndex = dq.size := by
  rw [count, BitVec.toNat_inj]

end

end RtDataQueue

/-- The two calls that can wait. -/
inductive DqOp (α : Type*)
  | push (item : α)
  | pop

structure DqCall (α : Type*) where
  op : DqOp α
  timeout : ℤ

/-- How a call has returned: its code, and whether it has stored or taken an item. -/
structure DqReturn where
  code : RtErr
  acted : Bool
  deriving DecidableEq, Repr

/-- A data queue, the threads and the calls in progress, and what has happened so far. -/
structure DqState (τ α : Type*) where
  dq : RtDataQueue τ α
  threads : τ → Thread
  /-- The call in whose `rt_schedule` the thread is. -/
  call : τ → Option (DqCall α)
  /-- The items stored, in the order of the pushes. -/
  pushed : List α
  /-- The items taken, in the order of the pops. -/
  popped : List α
  returned : List DqReturn

/-- What happens to a data queue. The caller is a thread or, as `none`, an interrupt handler. -/
inductive DqEvent (τ α : Type*)
  | push (caller : Option τ) (item : α) (timeout : ℤ)
  | pop (caller : Option τ) (timeout : ℤ)
  | peak
  | timeout (thread : τ)
  | wake (thread : τ)

namespace DqState

open RtDataQueue

def Running (s : DqState τ α) (thread : τ) : Prop :=
  (s.threads thread).stat = .ready ∧ (s.call thread).isNone = true

instance (s : DqState τ α) (thread : τ) : Decidable (s.Running thread) :=
  inferInstanceAs (Decidable (_ ∧ _))

/-- A handler calls at any time, a thread when it is running. -/
def CanCall (s : DqState τ α) (caller : Option τ) : Prop := ∀ thread ∈ caller, s.Running thread

instance (s : DqState τ α) (caller : Option τ) : Decidable (s.CanCall caller) :=
  match caller with
  | none => .isTrue (by simp [CanCall])
  | some thread => decidable_of_iff (s.Running thread) (by simp [CanCall])

def ret (s : DqState τ α) (caller : Option τ) (code : RtErr) (acted : Bool) : DqState τ α :=
  { s with
    call :=
      match caller with
      | none => s.call
      | some thread => Function.update s.call thread none
    returned := s.returned ++ [⟨code, acted⟩] }

/-- The caller waits in the list of its operation. An interrupt handler stops at the check of its
context. -/
def wait (s : DqState τ α) (caller : Option τ) (call : DqCall α) : DqState τ α :=
  match caller with
  | none => s
  | some thread =>
    { s with
      dq :=
        match call.op with
        | .push _ => { s.dq with suspendedPushList := s.dq.suspendedPushList ++ [thread] }
        | .pop => { s.dq with suspendedPopList := s.dq.suspendedPopList ++ [thread] }
      threads := onThread s.threads thread (Thread.enterWait call.timeout)
      call := Function.update s.call thread (some call) }

def resumePop (s : DqState τ α) : DqState τ α :=
  let (list, threads) := rtIpcListResume s.dq.suspendedPopList s.threads
  { s with dq := { s.dq with suspendedPopList := list }, threads }

def resumePush (s : DqState τ α) : DqState τ α :=
  let (list, threads) := rtIpcListResume s.dq.suspendedPushList s.threads
  { s with dq := { s.dq with suspendedPushList := list }, threads }

/-- One pass of the loop of `rt_data_queue_push`, to its return or its `rt_schedule`. -/
def pushPass (s : DqState τ α) (caller : Option τ) (item : α) (timeout : ℤ) : DqState τ α :=
  if s.dq.Full then
    let s := { s with dq := { s.dq with waitingLwm := true } }
    if timeout = 0 then s.ret caller .etimeout false else s.wait caller { op := .push item, timeout }
  else
    ({ s with dq := s.dq.put item, pushed := s.pushed ++ [item] }).resumePop.ret caller .eok true

/-- The end of `rt_data_queue_pop`: a pop that reaches the low-water mark resumes a producer. -/
def reachLwm (s : DqState τ α) : DqState τ α :=
  if s.dq.waitingLwm = true ∧ s.dq.Low then
    { s with dq := { s.dq with waitingLwm := false } }.resumePush
  else s

/-- One pass of the loop of `rt_data_queue_pop`, to its return or its `rt_schedule`. -/
def popPass (s : DqState τ α) (caller : Option τ) (timeout : ℤ) : DqState τ α :=
  if s.dq.Empty then
    if timeout = 0 then s.ret caller .etimeout false else s.wait caller { op := .pop, timeout }
  else
    ({ s with dq := s.dq.advance, popped := s.popped ++ [s.dq.first] }).reachLwm.ret caller .eok true

/-- A call behind its `rt_schedule`: it returns the error of its thread or tests the queue again. -/
def resumeCall (s : DqState τ α) (thread : τ) (call : DqCall α) : DqState τ α :=
  if (s.threads thread).error ≠ .eok then s.ret (some thread) (s.threads thread).error false
  else
    match call.op with
    | .push item => s.pushPass (some thread) item call.timeout
    | .pop => s.popPass (some thread) call.timeout

def timeoutCall (s : DqState τ α) (thread : τ) : DqState τ α :=
  { s with
    dq := { s.dq with
      suspendedPushList := s.dq.suspendedPushList.erase thread
      suspendedPopList := s.dq.suspendedPopList.erase thread }
    threads := onThread s.threads thread Thread.rtThreadTimeout }

/-- One event. An event that cannot happen in the state changes nothing, nor does a peak. -/
def step (s : DqState τ α) : DqEvent τ α → DqState τ α
  | .push caller item timeout => if s.CanCall caller then s.pushPass caller item timeout else s
  | .pop caller timeout => if s.CanCall caller then s.popPass caller timeout else s
  | .peak => s
  | .timeout thread => if (s.threads thread).CanTimeout then s.timeoutCall thread else s
  | .wake thread =>
    match s.call thread with
    | none => s
    | some call => if (s.threads thread).stat = .ready then s.resumeCall thread call else s

/-- After `rt_data_queue_init`. -/
def start (size lwm : BitVec 16) (queue : ℕ → α) (threads : τ → Thread) : DqState τ α :=
  { dq := rtDataQueueInit size lwm queue, threads, call := fun _ => none, pushed := [], popped := []
    returned := [] }

/-- The queue is a bounded queue: never more than `size` items are in it, they are taken once and in
the order of the pushes, each is kept until it is taken, the oldest one is what a peak shows, and
only the calls that return `RT_EOK` have stored or taken one. -/
structure BoundedFifo (s : DqState τ α) : Prop where
  taken : s.popped.length ≤ s.pushed.length
  bound : s.pushed.length ≤ s.popped.length + s.dq.size.toNat
  order : s.popped = s.pushed.take s.popped.length
  kept : ∀ i item, s.pushed[s.popped.length + i]? = some item →
    s.dq.queue (s.dq.slot (s.dq.getIndex + BitVec.ofNat 16 i)) = item
  peak : s.dq.rtDataQueuePeak = s.pushed[s.popped.length]?
  failed : ∀ result ∈ s.returned, result.acted = true ↔ result.code = .eok
  counted : s.pushed.length + s.popped.length = (s.returned.filter DqReturn.acted).length

/-- The push sees a full queue as full: the write counter has not wrapped below the read counter. -/
def SeesFull (dq : RtDataQueue τ α) : Prop := dq.putIndex - dq.getIndex = dq.size → dq.getIndex ≤ dq.putIndex

/-- No pass of a push runs on a full queue whose write counter alone has wrapped. -/
def NoWrappedFull (s : DqState τ α) : DqEvent τ α → Prop
  | .push caller _ _ => s.CanCall caller → SeesFull s.dq
  | .wake thread =>
    ∀ item timeout, s.call thread = some { op := .push item, timeout } → (s.threads thread).stat = .ready →
      (s.threads thread).error = .eok → SeesFull s.dq
  | _ => True

/-- What the counters, the array and the logs have to do with each other. -/
structure Holds (s : DqState τ α) : Prop where
  power : PowerOfTwo s.dq.size
  bound : s.dq.count ≤ s.dq.size.toNat
  order : s.pushed = s.popped ++ s.dq.content

/-- The queue and the returns agree with the logs. -/
structure Inv (s : DqState τ α) : Prop where
  holds : s.Holds
  failed : ∀ result ∈ s.returned, result.acted = true ↔ result.code = .eok
  counted : s.pushed.length + s.popped.length = (s.returned.filter DqReturn.acted).length

section

variable {s : DqState τ α}

variable {s' : DqState τ α}

omit [DecidableEq τ] in
theorem Holds.frame (holds : s.Holds) {waitingLwm : Bool} {pushList popList : List τ}
    (dq : s'.dq = { s.dq with waitingLwm, suspendedPushList := pushList, suspendedPopList := popList })
    (pushed : s'.pushed = s.pushed) (popped : s'.popped = s.popped) : s'.Holds := by
  refine ⟨?_, ?_, ?_⟩
  · rw [dq]
    exact holds.power
  · rw [dq]
    exact holds.bound
  · rw [dq, pushed, popped]
    exact holds.order

omit [DecidableEq τ] in
theorem Inv.frame (inv : s.Inv) {waitingLwm : Bool} {pushList popList : List τ}
    (dq : s'.dq = { s.dq with waitingLwm, suspendedPushList := pushList, suspendedPopList := popList })
    (pushed : s'.pushed = s.pushed) (popped : s'.popped = s.popped) (returned : s'.returned = s.returned) : s'.Inv := by
  refine ⟨inv.holds.frame dq pushed popped, ?_, ?_⟩
  · rw [returned]
    exact inv.failed
  · rw [pushed, popped, returned]
    exact inv.counted

theorem Inv.fail (inv : s.Inv) (caller : Option τ) {code : RtErr} (error : code ≠ .eok) :
    (s.ret caller code false).Inv := by
  refine ⟨inv.holds.frame rfl rfl rfl, ?_, ?_⟩
  · intro result member
    rcases List.mem_append.mp member with before | new
    · exact inv.failed result before
    · obtain rfl := List.mem_singleton.mp new
      simp [error]
  · simp [DqState.ret, inv.counted]

/-- A call that returns `RT_EOK` accounts for the one item by which the logs have grown. -/
theorem Inv.succeed (inv : s.Inv) (holds : s'.Holds) (returned : s'.returned = s.returned)
    (grown : s'.pushed.length + s'.popped.length = s.pushed.length + s.popped.length + 1) (caller : Option τ) :
    (s'.ret caller .eok true).Inv := by
  refine ⟨holds.frame rfl rfl rfl, ?_, ?_⟩
  · intro result member
    rcases List.mem_append.mp member with before | new
    · exact inv.failed result (returned ▸ before)
    · obtain rfl := List.mem_singleton.mp new
      simp
  · change s'.pushed.length + s'.popped.length = ((s'.returned ++ [DqReturn.mk .eok true]).filter DqReturn.acted).length
    rw [grown, inv.counted, returned]
    simp

theorem Inv.wait (inv : s.Inv) (caller : Option τ) (call : DqCall α) : (s.wait caller call).Inv := by
  cases caller with
  | none => exact inv
  | some thread =>
    rcases call with ⟨op, timeout⟩
    cases op with
    | push item => exact inv.frame rfl rfl rfl rfl
    | pop => exact inv.frame rfl rfl rfl rfl

theorem Inv.pushPass (inv : s.Inv) (sees : SeesFull s.dq) (caller : Option τ) (item : α) (timeout : ℤ) :
    (s.pushPass caller item timeout).Inv := by
  unfold DqState.pushPass
  split
  · have marked : Inv { s with dq := { s.dq with waitingLwm := true } } := inv.frame rfl rfl rfl rfl
    simp only
    split
    · exact marked.fail caller (by decide)
    · exact marked.wait caller _
  · rename_i notFull
    have room : s.dq.count < s.dq.size.toNat := by
      refine Nat.lt_of_le_of_ne inv.holds.bound fun full => notFull ?_
      have ordered := sees (s.dq.count_eq_iff.mp full)
      simp only [RtDataQueue.count, Full, difference] at full ⊢
      bv_omega
    have small := size_le inv.holds.power
    have stored : Holds { s with dq := s.dq.put item, pushed := s.pushed ++ [item] } := by
      refine ⟨inv.holds.power, ?_, ?_⟩
      · rw [put_count (by omega)]
        exact room
      · rw [put_content inv.holds.power room, ← List.append_assoc, ← inv.holds.order]
    have resumed : Holds (resumePop { s with dq := s.dq.put item, pushed := s.pushed ++ [item] }) :=
      stored.frame rfl rfl rfl
    refine inv.succeed resumed rfl ?_ caller
    simp only [resumePop, List.length_append, List.length_singleton]
    omega

theorem Inv.popPass (inv : s.Inv) (caller : Option τ) (timeout : ℤ) : (s.popPass caller timeout).Inv := by
  unfold DqState.popPass
  split
  · split
    · exact inv.fail caller (by decide)
    · exact inv.wait caller _
  · rename_i notEmpty
    have nonempty : s.dq.count ≠ 0 := mt s.dq.empty_iff.mpr notEmpty
    have fewer := s.dq.advance_count nonempty
    have bound := inv.holds.bound
    have taken : Holds { s with dq := s.dq.advance, popped := s.popped ++ [s.dq.first] } := by
      refine ⟨inv.holds.power, ?_, ?_⟩
      · change s.dq.advance.count ≤ s.dq.size.toNat
        omega
      · rw [List.append_assoc, List.singleton_append, ← s.dq.content_pop nonempty]
        exact inv.holds.order
    have reached : Holds (reachLwm { s with dq := s.dq.advance, popped := s.popped ++ [s.dq.first] }) ∧
        (reachLwm { s with dq := s.dq.advance, popped := s.popped ++ [s.dq.first] }).returned = s.returned ∧
        (reachLwm { s with dq := s.dq.advance, popped := s.popped ++ [s.dq.first] }).pushed = s.pushed ∧
        (reachLwm { s with dq := s.dq.advance, popped := s.popped ++ [s.dq.first] }).popped =
          s.popped ++ [s.dq.first] := by
      unfold reachLwm
      split
      · exact ⟨taken.frame rfl rfl rfl, rfl, rfl, rfl⟩
      · exact ⟨taken, rfl, rfl, rfl⟩
    obtain ⟨holds, returned, pushed, popped⟩ := reached
    refine inv.succeed holds returned ?_ caller
    rw [pushed, popped, List.length_append, List.length_singleton]
    omega

theorem Inv.step (inv : s.Inv) {event : DqEvent τ α} (noWrap : s.NoWrappedFull event) : (s.step event).Inv := by
  cases event with
  | push caller item timeout =>
    rw [DqState.step]
    split_ifs with can
    · exact inv.pushPass (noWrap can) caller item timeout
    · exact inv
  | pop caller timeout =>
    rw [DqState.step]
    split_ifs
    · exact inv.popPass caller timeout
    · exact inv
  | peak => exact inv
  | timeout thread =>
    rw [DqState.step]
    split_ifs
    · exact inv.frame rfl rfl rfl rfl
    · exact inv
  | wake thread =>
    rw [DqState.step]
    cases inCall : s.call thread with
    | none => exact inv
    | some call =>
      simp only
      split_ifs with ready
      · unfold DqState.resumeCall
        split_ifs with error
        · exact inv.fail (some thread) error
        · rcases call with ⟨op, timeout⟩
          cases op with
          | push item => exact inv.pushPass (noWrap item timeout inCall ready (not_not.mp error)) _ item timeout
          | pop => exact inv.popPass _ timeout
      · exact inv

omit [DecidableEq τ] in
theorem Inv.boundedFifo (inv : s.Inv) : s.BoundedFifo := by
  have order := inv.holds.order
  have length : s.pushed.length = s.popped.length + s.dq.count := by
    rw [order, List.length_append, content, List.length_map, List.length_range]
  have item_at : ∀ i, s.pushed[s.popped.length + i]? = s.dq.content[i]? := by
    intro i
    rw [order, List.getElem?_append_right (Nat.le_add_right _ _), Nat.add_sub_cancel_left]
  have bound := inv.holds.bound
  refine ⟨by omega, by omega, ?_, ?_, ?_, inv.failed, inv.counted⟩
  · rw [order, List.take_left' rfl]
  · intro i item present
    rw [item_at, content] at present
    obtain ⟨-, stored⟩ : i < s.dq.count ∧ s.dq.queue (s.dq.slot (s.dq.getIndex + BitVec.ofNat 16 i)) = item := by
      simpa [List.getElem?_eq_some_iff] using present
    exact stored
  · have first := item_at 0
    rw [Nat.add_zero] at first
    rw [first, rtDataQueuePeak]
    split
    · rename_i empty
      rw [content, s.dq.empty_iff.mp empty]
      rfl
    · rename_i notEmpty
      rw [s.dq.content_pop (mt s.dq.empty_iff.mpr notEmpty)]
      rfl

omit [DecidableEq τ] in
theorem Inv.length (inv : s.Inv) : s.pushed.length = s.popped.length + s.dq.count := by
  rw [inv.holds.order, List.length_append, content, List.length_map, List.length_range]

/-- A push that does not see the full queue as full stores one item too many. -/
theorem Inv.overwrites (inv : s.Inv) (wrapped : ¬ SeesFull s.dq) (caller : Option τ) (item : α) (timeout : ℤ) :
    ¬ (s.pushPass caller item timeout).BoundedFifo := by
  unfold SeesFull at wrapped
  push Not at wrapped
  obtain ⟨full, below⟩ := wrapped
  have count := s.dq.count_eq_iff.mpr full
  have notFull : ¬ s.dq.Full := by
    simp only [RtDataQueue.count, Full, difference] at count ⊢
    bv_omega
  intro fifo
  have bound := fifo.bound
  rw [DqState.pushPass, if_neg notFull] at bound
  simp only [DqState.ret, resumePop, put, List.length_append, List.length_singleton] at bound
  have length := inv.length
  omega

theorem Inv.breaks (inv : s.Inv) {event : DqEvent τ α} (wraps : ¬ s.NoWrappedFull event) :
    ¬ (s.step event).BoundedFifo := by
  cases event with
  | push caller item timeout =>
    obtain ⟨can, wrapped⟩ := Classical.not_imp.mp wraps
    rw [DqState.step, if_pos can]
    exact inv.overwrites wrapped caller item timeout
  | wake thread =>
    unfold NoWrappedFull at wraps
    push Not at wraps
    obtain ⟨item, timeout, inCall, ready, clean, wrapped⟩ := wraps
    rw [DqState.step, inCall]
    simp only [if_pos ready, DqState.resumeCall, clean, ne_eq, not_true_eq_false, if_false]
    exact inv.overwrites wrapped (some thread) item timeout
  | _ => exact absurd trivial wraps

end

omit [DecidableEq τ] in
theorem inv_start {size : BitVec 16} (power : PowerOfTwo size) (lwm : BitVec 16) (queue : ℕ → α)
    (threads : τ → Thread) : (start size lwm queue threads).Inv where
  holds := ⟨power, by simp [start, rtDataQueueInit, RtDataQueue.count],
    by simp [start, rtDataQueueInit, content, RtDataQueue.count]⟩
  failed := by simp [start]
  counted := rfl

/-- A queue whose size is a power of two is a bounded queue in every state of exactly the runs in
which no push tests a full queue whose write counter is below its read counter. -/
theorem boundedFifo_iff {size : BitVec 16} (power : PowerOfTwo size) (lwm : BitVec 16) (queue : ℕ → α)
    (threads : τ → Thread) (events : List (DqEvent τ α)) :
    Run.Always step BoundedFifo (start size lwm queue threads) events ↔
      Run.Along step NoWrappedFull (start size lwm queue threads) events := by
  have keeps : ∀ (s : DqState τ α) (event : DqEvent τ α), s.Inv → s.NoWrappedFull event → (s.step event).Inv :=
    fun _ _ inv noWrap => inv.step noWrap
  exact Run.always_iff_along keeps (fun _ inv => inv.boundedFifo) (fun _ _ inv wraps => inv.breaks wraps)
    (inv_start power lwm queue threads) events

/-- A queue of one item, used by interrupt handlers only. -/
def oneItem : DqState Unit ℕ := start 1 0 (fun _ => 0) fun _ => { currentPriority := 10, initPriority := 10 }

theorem boundedFifo_iff_oneItem :
    Run.Always step BoundedFifo oneItem [.push none 7 0, .push none 8 0, .pop none 0] ↔
      Run.Along step NoWrappedFull oneItem [.push none 7 0, .push none 8 0, .pop none 0] :=
  boundedFifo_iff ⟨0, by decide, by decide⟩ 0 (fun _ => 0) _ _

omit [DecidableEq τ] in
theorem canCall_none (s : DqState τ α) : s.CanCall none := by simp [CanCall]

theorem step_push {s : DqState τ α} (notFull : ¬ s.dq.Full) (item : α) (timeout : ℤ) :
    (s.step (.push none item timeout)).dq.size = s.dq.size ∧
      (s.step (.push none item timeout)).dq.getIndex = s.dq.getIndex ∧
      (s.step (.push none item timeout)).dq.putIndex = s.dq.putIndex + 1 ∧
      (s.step (.push none item timeout)).pushed.length = s.pushed.length + 1 ∧
      (s.step (.push none item timeout)).popped.length = s.popped.length := by
  rw [step, if_pos s.canCall_none, pushPass, if_neg notFull]
  exact ⟨rfl, rfl, rfl, by simp [ret, resumePop], rfl⟩

theorem step_pop {s : DqState τ α} (notEmpty : ¬ s.dq.Empty) (timeout : ℤ) :
    (s.step (.pop none timeout)).dq.size = s.dq.size ∧
      (s.step (.pop none timeout)).dq.getIndex = s.dq.getIndex + 1 ∧
      (s.step (.pop none timeout)).dq.putIndex = s.dq.putIndex ∧
      (s.step (.pop none timeout)).pushed.length = s.pushed.length ∧
      (s.step (.pop none timeout)).popped.length = s.popped.length + 1 := by
  rw [step, if_pos s.canCall_none, popPass, if_neg notEmpty, reachLwm]
  split
  · exact ⟨rfl, rfl, rfl, rfl, by simp [ret, resumePush]⟩
  · exact ⟨rfl, rfl, rfl, rfl, by simp [ret]⟩

/-- Items pushed and popped one by one. -/
def cycles (count : ℕ) : List (DqEvent Unit ℕ) := (List.replicate count [.push none 7 0, .pop none 0]).flatten

theorem exec_cycles (count : ℕ) :
    (Run.exec step oneItem (cycles count)).dq.size = 1 ∧
      (Run.exec step oneItem (cycles count)).dq.getIndex = BitVec.ofNat 16 count ∧
      (Run.exec step oneItem (cycles count)).dq.putIndex = BitVec.ofNat 16 count ∧
      (Run.exec step oneItem (cycles count)).pushed.length = count ∧
      (Run.exec step oneItem (cycles count)).popped.length = count := by
  induction count with
  | zero => exact ⟨rfl, rfl, rfl, rfl, rfl⟩
  | succ count ih =>
    have split : cycles (count + 1) = cycles count ++ [.push none 7 0, .pop none 0] := by
      rw [cycles, List.replicate_succ', List.flatten_append, List.flatten_singleton, cycles]
    have next : BitVec.ofNat 16 (count + 1) = BitVec.ofNat 16 count + 1 := by
      rw [BitVec.ofNat_add]
      rfl
    rw [split, Run.exec_append, next]
    generalize Run.exec step oneItem (cycles count) = s at ih ⊢
    obtain ⟨size, getIndex, putIndex, pushed, popped⟩ := ih
    have notFull : ¬ s.dq.Full := by
      simp [Full, difference, size, getIndex, putIndex]
    obtain ⟨size₁, getIndex₁, putIndex₁, pushed₁, popped₁⟩ := step_push notFull 7 0
    have notEmpty : ¬ (s.step (.push none 7 0)).dq.Empty := by
      rw [RtDataQueue.Empty, getIndex₁, putIndex₁, getIndex, putIndex]
      bv_omega
    obtain ⟨size₂, getIndex₂, putIndex₂, pushed₂, popped₂⟩ := step_pop notEmpty 0
    refine ⟨?_, ?_, ?_, ?_, ?_⟩
    · exact size₂.trans (size₁.trans size)
    · exact getIndex₂.trans (by rw [getIndex₁, getIndex])
    · exact putIndex₂.trans (by rw [putIndex₁, putIndex])
    · exact pushed₂.trans (by rw [pushed₁, pushed])
    · exact popped₂.trans (by rw [popped₁, popped])

/-- When the write counter wraps, the queue of one item takes two. -/
theorem wrap_overfills {s : DqState Unit ℕ} (size : s.dq.size = 1) (getIndex : s.dq.getIndex = 65535)
    (putIndex : s.dq.putIndex = 65535) (counted : s.pushed.length = s.popped.length) :
    ¬ (Run.exec step s [.push none 1 0, .push none 2 0]).BoundedFifo := by
  have notFull : ¬ s.dq.Full := by
    rw [Full, difference, size, getIndex, putIndex]
    decide
  obtain ⟨size₁, getIndex₁, putIndex₁, pushed₁, popped₁⟩ := step_push notFull 1 0
  have missed : ¬ (s.step (.push none 1 0)).dq.Full := by
    rw [Full, difference, size₁, getIndex₁, putIndex₁, size, getIndex, putIndex]
    decide
  obtain ⟨size₂, getIndex₂, putIndex₂, pushed₂, popped₂⟩ := step_push missed 2 0
  intro fifo
  have bound := fifo.bound
  have one : (1 : BitVec 16).toNat = 1 := by decide
  rw [Run.exec_cons, Run.exec_cons, Run.exec_nil, pushed₂, popped₂, size₂, pushed₁, popped₁, size₁, size, one] at bound
  omega

/-- The write counter wraps to 0 while the read counter is 65535: the queue of one item takes a
second one. -/
theorem wrapped_not_boundedFifo :
    ¬ Run.Always step BoundedFifo oneItem (cycles 65535 ++ [.push none 1 0, .push none 2 0]) := by
  intro always
  obtain ⟨size, getIndex, putIndex, pushed, popped⟩ := exec_cycles 65535
  have last := always.last
  rw [Run.exec_append] at last
  exact wrap_overfills size getIndex putIndex (pushed.trans popped.symm) last

end DqState
end RtThread
