import ShdslBridge.Components.Ringbuffer
import ShdslBridge.Kernel.Thread
import ShdslBridge.Lib.Exchange

/-! # Pipes with blocking reads and writes

A pipe is a ring buffer with a list of suspended readers and a list of suspended writers; both flags
`RT_PIPE_FLAG_BLOCK_RD` and `RT_PIPE_FLAG_BLOCK_WR` are set. A call transfers what it can and
resumes one thread of the other side, and a call that can transfer nothing suspends its thread and
tries again when it is resumed. The steps of a run are the stretches with interrupts disabled.

One transfer resumes one thread, however much it transfers, so threads can stay suspended beside
data or space. The states in which that can begin are known exactly.
-/

namespace RtThread

open RtRingbuffer

variable {τ : Type*} [DecidableEq τ]

/-- The sizes of a read or write that fit the parameter of the ring buffer. -/
abbrev PipeSize := { size : ℕ // 1 ≤ size ∧ size ≤ 65535 }

inductive PipeCall
  | read (size : PipeSize)
  | write (buffer : ℕ → BitVec 8) (size : PipeSize)

structure PipeState (τ : Type*) where
  ringbuffer : RtRingbuffer
  suspendedReadList : List τ
  suspendedWriteList : List τ
  threads : τ → Thread
  /-- The call in whose `rt_schedule` the thread is. -/
  call : τ → Option PipeCall

inductive PipeEvent (τ : Type*)
  | read (thread : τ) (size : PipeSize)
  | write (thread : τ) (buffer : ℕ → BitVec 8) (size : PipeSize)
  | wake (thread : τ)

namespace PipeState

def Running (s : PipeState τ) (thread : τ) : Prop :=
  (s.threads thread).stat = .ready ∧ (s.call thread).isNone = true

instance (s : PipeState τ) (thread : τ) : Decidable (s.Running thread) :=
  inferInstanceAs (Decidable (_ ∧ _))

def Resumed (s : PipeState τ) (thread : τ) : Prop :=
  (s.call thread).isSome = true ∧ (s.threads thread).stat = .ready

instance (s : PipeState τ) (thread : τ) : Decidable (s.Resumed thread) :=
  inferInstanceAs (Decidable (_ ∧ _))

def ret (s : PipeState τ) (thread : τ) : PipeState τ :=
  { s with call := Function.update s.call thread none }

def suspend (s : PipeState τ) (thread : τ) (call : PipeCall) : PipeState τ :=
  { s with
    threads := onThread s.threads thread Thread.rtThreadSuspend
    call := Function.update s.call thread (some call) }

/-- `_rt_pipe_resume_writer`. -/
def rtPipeResumeWriter (s : PipeState τ) : PipeState τ :=
  let (list, threads) := rtIpcListResume s.suspendedWriteList s.threads
  { s with suspendedWriteList := list, threads }

/-- `_rt_pipe_resume_reader`, without the indication to the application. -/
def rtPipeResumeReader (s : PipeState τ) : PipeState τ :=
  let (list, threads) := rtIpcListResume s.suspendedReadList s.threads
  { s with suspendedReadList := list, threads }

/-- One pass of the loop of `rt_pipe_read`, with the return value and the bytes that it stores if it
is the last one. -/
def rtPipeRead (s : PipeState τ) (thread : τ) (size : PipeSize) : PipeState τ × Option (ℕ × List (BitVec 8)) :=
  match s.ringbuffer.rtRingbufferGet size with
  | none => (s, none)
  | some (ringbuffer, readNbytes, bytes) =>
    let s := { s with ringbuffer }
    if readNbytes = 0 then
      ({ s.suspend thread (.read size) with suspendedReadList := s.suspendedReadList ++ [thread] }, none)
    else (s.rtPipeResumeWriter.ret thread, some (readNbytes, bytes))

/-- One pass of the loop of `rt_pipe_write`, with the return value if it is the last one. -/
def rtPipeWrite (s : PipeState τ) (thread : τ) (buffer : ℕ → BitVec 8) (size : PipeSize) :
    PipeState τ × Option ℕ :=
  match s.ringbuffer.rtRingbufferPut buffer size with
  | none => (s, none)
  | some (ringbuffer, writeNbytes) =>
    let s := { s with ringbuffer }
    if writeNbytes = 0 then
      ({ s.suspend thread (.write buffer size) with suspendedWriteList := s.suspendedWriteList ++ [thread] }, none)
    else (s.rtPipeResumeReader.ret thread, some writeNbytes)

/-- One event. An event that cannot happen in the state changes nothing. -/
def step (s : PipeState τ) : PipeEvent τ → PipeState τ
  | .read thread size => if s.Running thread then (s.rtPipeRead thread size).1 else s
  | .write thread buffer size => if s.Running thread then (s.rtPipeWrite thread buffer size).1 else s
  | .wake thread =>
    if (s.threads thread).stat = .ready then
      match s.call thread with
      | none => s
      | some (.read size) => (s.rtPipeRead thread size).1
      | some (.write buffer size) => (s.rtPipeWrite thread buffer size).1
    else s

/-- A pipe behind `rt_pipe_init` with a buffer of `size` bytes. -/
def start (buf : ℕ → BitVec 8) (size : ℕ) (threads : τ → Thread) : PipeState τ :=
  { ringbuffer := rtRingbufferInit buf size
    suspendedReadList := []
    suspendedWriteList := []
    threads
    call := fun _ => none }

/-- Once every resumed thread has run, no writer is suspended beside free space, and no reader beside
data. -/
def NoLostWakeup (s : PipeState τ) : Prop :=
  (∀ thread, ¬ s.Resumed thread) →
    (s.suspendedWriteList ≠ [] → s.ringbuffer.rtRingbufferSpaceLen = 0) ∧
      (s.suspendedReadList ≠ [] → s.ringbuffer.rtRingbufferDataLen = 0)

/-- The last resumed thread does not leave data behind for a suspended reader, or space for a
suspended writer, when no thread of the other side is left that it can resume. -/
def Covers (s : PipeState τ) : PipeEvent τ → Prop
  | .wake thread =>
    s.Resumed thread → (∀ other ≠ thread, ¬ s.Resumed other) →
      match s.call thread with
      | none => True
      | some (.read size) =>
        s.suspendedReadList ≠ [] → s.suspendedWriteList = [] → s.ringbuffer.rtRingbufferDataLen ≤ size
      | some (.write _ size) =>
        s.suspendedWriteList ≠ [] → s.suspendedReadList = [] → s.ringbuffer.rtRingbufferSpaceLen ≤ (size : ℕ)
  | _ => True

/-! ## The pipe as an exchange -/

/-- The side of a call, `true` for the writers, and how much it asks for. -/
def demand : PipeCall → Bool × ℕ
  | .read size => (false, size)
  | .write _ size => (true, size)

/-- Data is what readers take and writers leave behind, and space the other way round. -/
def exchange (s : PipeState τ) : Exchange τ where
  level
    | false => s.ringbuffer.rtRingbufferDataLen
    | true => s.ringbuffer.bufferSize - s.ringbuffer.rtRingbufferDataLen
  waiting
    | false => s.suspendedReadList
    | true => s.suspendedWriteList
  call thread := (s.call thread).map demand

/-- A thread in a call is suspended exactly while it is in the list of its side. -/
def ListsSuspended (s : PipeState τ) : Prop :=
  ∀ thread call, s.call thread = some call →
    ((s.threads thread).stat = .suspend ↔ thread ∈ s.exchange.waiting (demand call).1)

/-- The pipe is an exchange between its two lists. -/
structure Inv (s : PipeState τ) : Prop where
  usable : s.ringbuffer.Usable
  lists : s.ListsSuspended
  exchange : s.exchange.Inv

section

variable {s : PipeState τ}

omit [DecidableEq τ] in
theorem resumed_iff (lists : s.ListsSuspended) (thread : τ) : s.Resumed thread ↔ s.exchange.Resumed thread := by
  constructor
  · rintro ⟨inCall, ready⟩
    obtain ⟨call, calls⟩ := Option.isSome_iff_exists.mp inCall
    refine ⟨(demand call).1, (demand call).2, by simp [PipeState.exchange, calls], ?_⟩
    intro member
    have suspended := (lists thread call calls).mpr member
    rw [ready] at suspended
    cases suspended
  · rintro ⟨side, size, inCall, outside⟩
    obtain ⟨call, calls, demands⟩ := Option.map_eq_some_iff.mp inCall
    refine ⟨by rw [calls]; rfl, ?_⟩
    have listed := lists thread call calls
    rw [demands] at listed
    cases stat : (s.threads thread).stat with
    | ready => rfl
    | suspend => exact absurd (listed.mp stat) outside

omit [DecidableEq τ] in
theorem spaceLen_eq_zero_iff (usable : s.ringbuffer.Usable) :
    s.ringbuffer.rtRingbufferSpaceLen = 0 ↔ s.exchange.level true = 0 := by
  have bounded := usable.dataLen_le
  simp only [rtRingbufferSpaceLen, PipeState.exchange]
  omega

omit [DecidableEq τ] in
theorem noLostWakeup_iff_exchange (usable : s.ringbuffer.Usable) (lists : s.ListsSuspended) :
    s.NoLostWakeup ↔ s.exchange.NoLostWakeup := by
  have quiet : (∀ thread, ¬ s.Resumed thread) ↔ s.exchange.Quiet :=
    forall_congr' fun thread => not_congr (resumed_iff lists thread)
  rw [NoLostWakeup, Exchange.NoLostWakeup, quiet, spaceLen_eq_zero_iff usable, Bool.forall_bool, and_comm]
  rfl

omit [DecidableEq τ] in
theorem Inv.suspended (inv : Inv s) (side : Bool) :
    ∀ thread ∈ s.exchange.waiting side, (s.threads thread).stat = .suspend := by
  intro thread member
  obtain ⟨size, inCall⟩ := inv.exchange.listed side thread member
  obtain ⟨call, calls, demands⟩ := Option.map_eq_some_iff.mp inCall
  refine (inv.lists thread call calls).mpr ?_
  rw [demands]
  exact member

variable {thread : τ} {after : PipeState τ}

omit [DecidableEq τ] in
/-- A call that starts, or goes on in a resumed thread, is active in the exchange. -/
theorem active_of_ready (lists : s.ListsSuspended) (call : PipeCall) (ready : (s.threads thread).stat = .ready)
    (calls : s.call thread = none ∨ s.call thread = some call) :
    s.exchange.Active thread (demand call).1 (demand call).2 := by
  rcases calls with none | some
  · exact .inl (by simp [PipeState.exchange, none])
  · refine .inr ⟨by simp [PipeState.exchange, some], ?_⟩
    intro member
    have suspended := (lists thread call some).mpr member
    rw [ready] at suspended
    cases suspended

theorem Inv.listsSuspended_wait (inv : Inv s) (call : PipeCall) (ready : (s.threads thread).stat = .ready)
    (active : s.exchange.Active thread (demand call).1 (demand call).2)
    (threads : after.threads = onThread s.threads thread Thread.rtThreadSuspend)
    (calls : after.call = Function.update s.call thread (some call))
    (waiting : after.exchange.waiting = Function.update s.exchange.waiting (demand call).1 (s.exchange.waiting (demand call).1 ++ [thread]))
    :
    after.ListsSuspended := by
  intro other call' inCall
  rw [threads, waiting]
  rw [calls] at inCall
  rcases eq_or_ne other thread with rfl | ne
  · obtain rfl : call = call' := by simpa using inCall
    simp [Thread.rtThreadSuspend, ready]
  · rw [Function.update_of_ne ne] at inCall
    rw [onThread_other s.threads ne, inv.lists other call' inCall]
    rcases eq_or_ne (demand call').1 (demand call).1 with same | neSide
    · simp [same, ne]
    · rw [Function.update_of_ne neSide]

/-- The first thread of one list is resumed, and the calling thread returns. -/
theorem Inv.listsSuspended_ret (inv : Inv s) (thread : τ) (side : Bool)
    (threads : after.threads = (rtIpcListResume (s.exchange.waiting side) s.threads).2)
    (calls : after.call = Function.update s.call thread none)
    (waiting : after.exchange.waiting = Function.update s.exchange.waiting side (s.exchange.waiting side).tail) :
    after.ListsSuspended := by
  intro other call' inCall
  rw [threads, waiting]
  rw [calls] at inCall
  have ne : other ≠ thread := by
    rintro rfl
    simp at inCall
  rw [Function.update_of_ne ne] at inCall
  have listed := inv.lists other call' inCall
  rcases Decidable.em (other ∈ s.exchange.waiting side) with member | outside
  · have same : (demand call').1 = side := by
      obtain ⟨size, inExchange⟩ := inv.exchange.listed side other member
      obtain ⟨call, isCall, demands⟩ := Option.map_eq_some_iff.mp inExchange
      obtain rfl : call = call' := Option.some.inj (isCall.symm.trans inCall)
      rw [demands]
    rw [same, Function.update_self]
    exact rtIpcListResume_listed (inv.suspended side) (inv.exchange.distinct side) member
  · rw [rtIpcListResume_outside outside, listed]
    rcases eq_or_ne (demand call').1 side with same | neSide
    · rw [same, Function.update_self]
      exact ⟨fun member => absurd member outside, fun later => absurd (List.mem_of_mem_tail later) outside⟩
    · rw [Function.update_of_ne neSide]

theorem Inv.waits (inv : Inv s) (call : PipeCall) (ready : (s.threads thread).stat = .ready)
    (active : s.exchange.Active thread (demand call).1 (demand call).2)
    (exhausted : s.exchange.level (demand call).1 = 0) (levels : after.exchange.level = s.exchange.level)
    (threads : after.threads = onThread s.threads thread Thread.rtThreadSuspend)
    (calls : after.call = Function.update s.call thread (some call))
    (waiting : after.exchange.waiting = Function.update s.exchange.waiting (demand call).1 (s.exchange.waiting (demand call).1 ++ [thread]))
    :
    after.exchange = s.exchange.transfer thread (demand call).1 (demand call).2 ∧ after.ListsSuspended := by
  refine ⟨?_, inv.listsSuspended_wait call ready active threads calls waiting⟩
  rw [Exchange.transfer_waits exhausted]
  apply Exchange.ext
  · exact levels
  · exact waiting
  · funext other
    rcases eq_or_ne other thread with rfl | ne
    · simp [PipeState.exchange, calls]
    · simp [PipeState.exchange, calls, ne]

theorem Inv.serves (inv : Inv s) (thread : τ) {side : Bool} {size : ℕ} (units : s.exchange.level side ≠ 0)
    (levels : after.exchange.level = s.exchange.moved side (min size (s.exchange.level side)))
    (threads : after.threads = (rtIpcListResume (s.exchange.waiting (!side)) s.threads).2)
    (calls : after.call = Function.update s.call thread none)
    (waiting : after.exchange.waiting = Function.update s.exchange.waiting (!side) (s.exchange.waiting (!side)).tail) :
    after.exchange = s.exchange.transfer thread side size ∧ after.ListsSuspended := by
  refine ⟨?_, inv.listsSuspended_ret thread (!side) threads calls waiting⟩
  rw [Exchange.transfer_serves units]
  apply Exchange.ext
  · exact levels
  · exact waiting
  · funext other
    rcases eq_or_ne other thread with rfl | ne
    · simp [PipeState.exchange, calls]
    · simp [PipeState.exchange, calls, ne]

theorem Inv.rtPipeRead (inv : Inv s) {size : PipeSize} (ready : (s.threads thread).stat = .ready)
    (active : s.exchange.Active thread false size) :
    (s.rtPipeRead thread size).1.ringbuffer.Usable ∧
      (s.rtPipeRead thread size).1.exchange = s.exchange.transfer thread false size ∧
      (s.rtPipeRead thread size).1.ListsSuspended := by
  obtain ⟨ringbuffer, bytes, result, usable, bufferSize, dataLen⟩ := inv.usable.get size
  have bounded := inv.usable.dataLen_le
  have positive : 0 < (size : ℕ) := size.property.1
  rcases Nat.eq_zero_or_pos s.ringbuffer.rtRingbufferDataLen with empty | data
  · simp only [PipeState.rtPipeRead, result, empty, Nat.min_zero, if_true]
    refine ⟨usable, inv.waits (.read size) ready active empty ?_ rfl rfl ?_⟩
    · funext side
      cases side <;> simp [PipeState.exchange, PipeState.suspend, dataLen, bufferSize, empty]
    · funext side
      cases side <;> simp [PipeState.exchange, PipeState.suspend, demand]
  · have some : min (size : ℕ) s.ringbuffer.rtRingbufferDataLen ≠ 0 := by omega
    have list : (rtIpcListResume s.suspendedWriteList s.threads).1 = s.suspendedWriteList.tail :=
      rtIpcListResume_fst (inv.suspended true)
    simp only [PipeState.rtPipeRead, result, if_neg some]
    refine ⟨usable, inv.serves thread (Nat.ne_of_gt data) ?_ rfl rfl ?_⟩
    · funext side
      cases side with
      | false => simp [PipeState.exchange, PipeState.ret, PipeState.rtPipeResumeWriter, Exchange.moved, dataLen]
      | true =>
        simp only [PipeState.exchange, PipeState.ret, PipeState.rtPipeResumeWriter, Exchange.moved, dataLen, bufferSize]
        simp only [Bool.true_eq_false, if_false]
        omega
    · funext side
      cases side <;> simp [PipeState.exchange, PipeState.ret, PipeState.rtPipeResumeWriter, list]

theorem Inv.rtPipeWrite (inv : Inv s) (buffer : ℕ → BitVec 8) {size : PipeSize}
    (ready : (s.threads thread).stat = .ready) (active : s.exchange.Active thread true size) :
    (s.rtPipeWrite thread buffer size).1.ringbuffer.Usable ∧
      (s.rtPipeWrite thread buffer size).1.exchange = s.exchange.transfer thread true size ∧
      (s.rtPipeWrite thread buffer size).1.ListsSuspended := by
  obtain ⟨ringbuffer, result, usable, bufferSize, dataLen⟩ := inv.usable.put buffer size
  have bounded := inv.usable.dataLen_le
  have positive : 0 < (size : ℕ) := size.property.1
  rcases Nat.eq_zero_or_pos (s.ringbuffer.bufferSize - s.ringbuffer.rtRingbufferDataLen) with full | space
  · simp only [PipeState.rtPipeWrite, result, full, Nat.min_zero, if_true]
    refine ⟨usable, inv.waits (.write buffer size) ready active full ?_ rfl rfl ?_⟩
    · funext side
      cases side <;> simp [PipeState.exchange, PipeState.suspend, dataLen, bufferSize, full]
    · funext side
      cases side <;> simp [PipeState.exchange, PipeState.suspend, demand]
  · have some : min (size : ℕ) (s.ringbuffer.bufferSize - s.ringbuffer.rtRingbufferDataLen) ≠ 0 := by omega
    have list : (rtIpcListResume s.suspendedReadList s.threads).1 = s.suspendedReadList.tail :=
      rtIpcListResume_fst (inv.suspended false)
    simp only [PipeState.rtPipeWrite, result, if_neg some]
    refine ⟨usable, inv.serves thread (Nat.ne_of_gt space) ?_ rfl rfl ?_⟩
    · funext side
      cases side with
      | false =>
        simp [PipeState.exchange, PipeState.ret, PipeState.rtPipeResumeReader, Exchange.moved, dataLen]
      | true =>
        simp only [PipeState.exchange, PipeState.ret, PipeState.rtPipeResumeReader, Exchange.moved, dataLen, bufferSize]
        simp only [if_true]
        omega
    · funext side
      cases side <;> simp [PipeState.exchange, PipeState.ret, PipeState.rtPipeResumeReader, list]

omit [DecidableEq τ] in
theorem Inv.covers_wake (inv : Inv s) {call : PipeCall} (ready : (s.threads thread).stat = .ready)
    (inCall : s.call thread = some call) :
    s.Covers (.wake thread) ↔ s.exchange.Covers thread (demand call).1 (demand call).2 := by
  have bounded := inv.usable.dataLen_le
  have resumed : s.Resumed thread := ⟨by rw [inCall]; rfl, ready⟩
  have inExchange : s.exchange.call thread ≠ none := by simp [PipeState.exchange, inCall]
  have others : (∀ other ≠ thread, ¬ s.Resumed other) ↔ ∀ other ≠ thread, ¬ s.exchange.Resumed other :=
    forall₂_congr fun other _ => not_congr (resumed_iff inv.lists other)
  simp only [PipeState.Covers, inCall, resumed, true_imp_iff, others, Exchange.Covers, ne_eq, inExchange,
    not_false_eq_true]
  cases call with
  | read size => rfl
  | write buffer size =>
    have space : s.ringbuffer.rtRingbufferSpaceLen ≤ (size : ℕ) ↔ s.exchange.level true ≤ size := by
      simp only [rtRingbufferSpaceLen, PipeState.exchange]
      omega
    simp only [space]
    rfl

/-- What an event does to the exchange: nothing, or one try of one caller. -/
theorem Inv.step_cases (inv : Inv s) (event : PipeEvent τ) :
    (s.step event = s ∧ s.Covers event) ∨
      ∃ thread side size, 0 < size ∧ s.exchange.Active thread side size ∧
        (s.step event).ringbuffer.Usable ∧ (s.step event).exchange = s.exchange.transfer thread side size ∧
        (s.step event).ListsSuspended ∧ (s.Covers event ↔ s.exchange.Covers thread side size) := by
  have bounded := inv.usable.dataLen_le
  cases event with
  | read thread size =>
    rcases Decidable.em (s.Running thread) with ⟨ready, outside⟩ | busy
    · have none : s.call thread = none := Option.isNone_iff_eq_none.mp outside
      have active := active_of_ready inv.lists (.read size) ready (.inl none)
      obtain ⟨usable, transfers, lists⟩ := inv.rtPipeRead ready active
      rw [PipeState.step, if_pos ⟨ready, outside⟩]
      refine .inr ⟨thread, false, size, size.property.1, active, usable, transfers, lists, iff_of_true trivial ?_⟩
      intro inCall
      simp [PipeState.exchange, none] at inCall
    · exact .inl ⟨if_neg busy, trivial⟩
  | write thread buffer size =>
    rcases Decidable.em (s.Running thread) with ⟨ready, outside⟩ | busy
    · have none : s.call thread = none := Option.isNone_iff_eq_none.mp outside
      have active := active_of_ready inv.lists (.write buffer size) ready (.inl none)
      obtain ⟨usable, transfers, lists⟩ := inv.rtPipeWrite buffer ready active
      rw [PipeState.step, if_pos ⟨ready, outside⟩]
      refine .inr ⟨thread, true, size, size.property.1, active, usable, transfers, lists, iff_of_true trivial ?_⟩
      intro inCall
      simp [PipeState.exchange, none] at inCall
    · exact .inl ⟨if_neg busy, trivial⟩
  | wake thread =>
    rcases Decidable.em ((s.threads thread).stat = .ready) with ready | suspended
    · rw [PipeState.step, if_pos ready]
      cases inCall : s.call thread with
      | none =>
        refine .inl ⟨rfl, ?_⟩
        rintro ⟨isSome, -⟩
        rw [inCall] at isSome
        cases isSome
      | some call =>
        have active := active_of_ready inv.lists call ready (.inr inCall)
        have covers := inv.covers_wake ready inCall
        cases call with
        | read size =>
          obtain ⟨usable, transfers, lists⟩ := inv.rtPipeRead ready active
          exact .inr ⟨thread, false, size, size.property.1, active, usable, transfers, lists, covers⟩
        | write buffer size =>
          obtain ⟨usable, transfers, lists⟩ := inv.rtPipeWrite buffer ready active
          exact .inr ⟨thread, true, size, size.property.1, active, usable, transfers, lists, covers⟩
    · exact .inl ⟨if_neg suspended, fun resumed => absurd resumed.2 suspended⟩

theorem Inv.step (inv : Inv s) {event : PipeEvent τ} (covers : s.Covers event) : Inv (s.step event) := by
  rcases inv.step_cases event with ⟨same, -⟩ | ⟨thread, side, size, positive, active, usable, transfers, lists, covered⟩
  · exact same.symm ▸ inv
  · refine ⟨usable, lists, ?_⟩
    rw [transfers]
    exact inv.exchange.transfer active positive (covered.mp covers)

theorem Inv.loses (inv : Inv s) {event : PipeEvent τ} (uncovered : ¬ s.Covers event) :
    ¬ (s.step event).NoLostWakeup := by
  rcases inv.step_cases event with ⟨-, covers⟩ | ⟨thread, side, size, -, -, usable, transfers, lists, covered⟩
  · exact absurd covers uncovered
  · rw [noLostWakeup_iff_exchange usable lists, transfers]
    exact Exchange.transfer_loses (mt covered.mpr uncovered)

end

omit [DecidableEq τ] in
theorem inv_start (buf : ℕ → BitVec 8) {size : ℕ} (small : size < 2 ^ 15) (threads : τ → Thread) :
    Inv (start buf size threads) where
  usable := usable_init buf small
  lists := by simp [ListsSuspended, start]
  exchange := by
    have waiting : (start buf size threads).exchange.waiting = fun _ => [] := by
      funext side
      cases side <;> rfl
    have inv := Exchange.inv_start (τ := τ) (start buf size threads).exchange.level
    rw [← waiting] at inv
    exact inv

/-- The pipe loses no wake-up exactly in the runs in which the last resumed thread always covers the
suspended ones. -/
theorem noLostWakeup_iff (buf : ℕ → BitVec 8) {size : ℕ} (small : size ≤ 32767) (threads : τ → Thread)
    (events : List (PipeEvent τ)) :
    Run.Always step NoLostWakeup (start buf size threads) events ↔
      Run.Along step Covers (start buf size threads) events := by
  have keeps : ∀ (s : PipeState τ) (event : PipeEvent τ), Inv s → s.Covers event → Inv (s.step event) :=
    fun _ _ inv covers => inv.step covers
  have implies : ∀ s : PipeState τ, Inv s → s.NoLostWakeup :=
    fun _ inv => (noLostWakeup_iff_exchange inv.usable inv.lists).mpr inv.exchange.noLostWakeup
  exact Run.always_iff_along keeps implies (fun _ _ inv uncovered => inv.loses uncovered)
    (inv_start buf (Nat.lt_succ_of_le small) threads) events

def twoReaders : PipeState (Fin 3) :=
  start (fun _ => 0) 8 fun _ => { currentPriority := 10, initPriority := 10 }

/-- Both readers wait for one byte, the writer writes two, and the first reader takes one. -/
def secondByte : List (PipeEvent (Fin 3)) :=
  [.read 0 ⟨1, by decide⟩, .read 1 ⟨1, by decide⟩, .write 2 (fun i => BitVec.ofNat 8 i) ⟨2, by decide⟩, .wake 0]

theorem noLostWakeup_iff_twoReaders :
    Run.Always step NoLostWakeup twoReaders secondByte ↔ Run.Along step Covers twoReaders secondByte :=
  noLostWakeup_iff (fun _ => 0) (by decide) _ secondByte

theorem secondByte_not_noLostWakeup : ¬ Run.Always step NoLostWakeup twoReaders secondByte := by
  intro always
  have last := always.last
  have quiet : ∀ thread, ¬ (Run.exec step twoReaders secondByte).Resumed thread := by decide
  have waiting : (Run.exec step twoReaders secondByte).suspendedReadList ≠ [] := by decide
  have empty := (last quiet).2 waiting
  revert empty
  decide

end PipeState
end RtThread
