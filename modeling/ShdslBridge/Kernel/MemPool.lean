import ShdslBridge.Kernel.Heap
import ShdslBridge.Kernel.Thread
import ShdslBridge.Lib.Run

/-! # Memory pools and the threads that wait for a block

A pool cuts its memory into blocks of one size. The word in front of a block links the free blocks
and names the pool of a block that is handed out. A thread that finds no free block sleeps in the
list of the pool, which is counted separately, and tests again when it gets the processor back. A
run interleaves allocations, releases, stores of the users into their blocks, timers that fire and
threads that get the processor back.

The thread timer takes a thread out of the list and knows nothing of the counter. The counter
agrees with the list exactly as long as no timer of a waiting thread fires.
-/

namespace RtThread

open LittleEndian

variable {τ : Type*} [DecidableEq τ]

/-- `struct rt_mempool` at an address. -/
structure RtMempool (τ : Type*) where
  address : ℕ
  startAddress : ℕ
  size : ℕ
  blockSize : ℕ
  blockList : ℕ
  blockTotalCount : ℕ
  blockFreeCount : ℕ
  suspendThread : List τ
  suspendThreadCount : ℕ
  deriving DecidableEq

namespace RtMempool

/-- The bytes from one block to the next: the block and the pointer in front of it. -/
def stride (mp : RtMempool τ) : ℕ := mp.blockSize + 4

/-- `block_ptr + offset * (block_size + sizeof(rt_uint8_t *))`. -/
def blockAddress (mp : RtMempool τ) (offset : ℕ) : ℕ := word32 (mp.startAddress + offset * mp.stride)

/-- The free block list as `rt_mp_init` and `rt_mp_create` build it: the loop, and the null pointer
in the last block. -/
def linkBlocks (mp : RtMempool τ) (bytes : ℕ → BitVec 8) : ℕ → BitVec 8 :=
  let linked := (List.range mp.blockTotalCount).foldl
    (fun bytes offset => writeNat bytes (mp.blockAddress offset) 4 (mp.blockAddress (offset + 1))) bytes
  writeNat linked (mp.blockAddress (sub32 mp.blockTotalCount 1)) 4 0

end RtMempool

/-- The pool that `rt_mp_init` leaves at `address`. -/
def rtMpInit (address start size blockSize : ℕ) : RtMempool τ :=
  let blockTotalCount := rtAlignDown size / (rtAlign blockSize + 4)
  { address
    startAddress := start
    size := rtAlignDown size
    blockSize := rtAlign blockSize
    blockList := start
    blockTotalCount
    blockFreeCount := blockTotalCount
    suspendThread := []
    suspendThreadCount := 0 }

/-- The pool that `rt_mp_create` leaves, with the memory that `rt_malloc` gave for `size` bytes. -/
def rtMpCreate (address start blockCount blockSize : ℕ) : RtMempool τ :=
  { address
    startAddress := start
    size := word32 ((rtAlign blockSize + 4) * blockCount)
    blockSize := rtAlign blockSize
    blockList := start
    blockTotalCount := blockCount
    blockFreeCount := blockCount
    suspendThread := []
    suspendThreadCount := 0 }

/-- A pool, the memory, the threads, and how the calls on the pool stand. -/
structure MpState (τ : Type*) where
  bytes : ℕ → BitVec 8
  mp : RtMempool τ
  threads : τ → Thread
  /-- The waiting time of the `rt_mp_alloc` in whose `rt_schedule` the thread is. -/
  inAlloc : τ → Option (BitVec 32)
  /-- The blocks handed out and not given back, by the address of the pointer in front of them. -/
  live : List ℕ

/-- What happens to a pool. The caller of an allocation is a thread or, as `none`, an interrupt
handler, and `elapsed` are the ticks that the thread slept. -/
inductive MpEvent (τ : Type*)
  | alloc (caller : Option τ) (time : BitVec 32)
  | free (block : ℕ)
  | write (block offset : ℕ) (byte : BitVec 8)
  | timeout (thread : τ)
  | wake (thread : τ) (elapsed : BitVec 32)

namespace MpState

def header (s : MpState τ) (block : ℕ) : ℕ := readNat s.bytes block 4

/-- The thread can call: it is ready and not inside an allocation. -/
def Running (s : MpState τ) (thread : τ) : Prop :=
  (s.threads thread).stat = .ready ∧ s.inAlloc thread = none

instance (s : MpState τ) (thread : τ) : Decidable (s.Running thread) :=
  inferInstanceAs (Decidable (_ ∧ _))

def leave (s : MpState τ) (caller : Option τ) (code : RtErr) : MpState τ :=
  match caller with
  | none => s
  | some thread =>
    { s with
      threads := onThread s.threads thread (Thread.setError code)
      inAlloc := Function.update s.inAlloc thread none }

/-- The part of `rt_mp_alloc` that suspends the caller. An interrupt handler stops at the check of
its context. -/
def wait (s : MpState τ) (caller : Option τ) (time : BitVec 32) : MpState τ :=
  match caller with
  | none => s
  | some thread =>
    { s with
      mp := { s.mp with
        suspendThread := thread :: s.mp.suspendThread
        suspendThreadCount := s.mp.suspendThreadCount + 1 }
      threads := onThread s.threads thread (Thread.enterWait time.toInt)
      inAlloc := Function.update s.inAlloc thread (some time) }

/-- The end of `rt_mp_alloc`. A null block list stops at the assertion, with the counter stepped. -/
def takeBlock (s : MpState τ) : MpState τ :=
  let block := s.mp.blockList
  if block = 0 then { s with mp := { s.mp with blockFreeCount := s.mp.blockFreeCount - 1 } }
  else
    { s with
      mp := { s.mp with blockFreeCount := s.mp.blockFreeCount - 1, blockList := s.header block }
      bytes := writeNat s.bytes block 4 s.mp.address
      live := block :: s.live }

/-- One pass of the loop of `rt_mp_alloc`, to its return or its `rt_schedule`. -/
def allocPass (s : MpState τ) (caller : Option τ) (time : BitVec 32) : MpState τ :=
  if s.mp.blockFreeCount = 0 then
    if time = 0 then s.leave caller .etimeout else s.wait caller time
  else
    match caller with
    | none => s.takeBlock
    | some thread => { s.takeBlock with inAlloc := Function.update s.inAlloc thread none }

/-- The waiting time that is left behind `rt_schedule`. -/
def timeLeft (time elapsed : BitVec 32) : BitVec 32 :=
  if 0 < time.toInt then if (time - elapsed).toInt < 0 then 0 else time - elapsed else time

/-- `rt_mp_alloc` behind its `rt_schedule`. -/
def resumeAlloc (s : MpState τ) (thread : τ) (time elapsed : BitVec 32) : MpState τ :=
  if (s.threads thread).error ≠ .eok then { s with inAlloc := Function.update s.inAlloc thread none }
  else s.allocPass (some thread) (timeLeft time elapsed)

/-- The thread that `rt_mp_free` takes for the first one of the list. In an empty list
`rt_list_entry` makes it out of the pool itself: its field `error` is 72 bytes behind the start of
the pool, and the word there is cleared. `rt_thread_resume` does no more as long as the byte taken
for its `stat` is not `RT_THREAD_SUSPEND`. -/
def resumeFirst (s : MpState τ) : MpState τ :=
  match s.mp.suspendThread with
  | [] => { s with bytes := writeNat s.bytes (s.mp.address + 72) 4 0 }
  | thread :: _ =>
    let (list, threads) :=
      rtIpcListResume s.mp.suspendThread (onThread s.threads thread (Thread.setError .eok))
    { s with mp := { s.mp with suspendThread := list }, threads }

/-- `rt_mp_free` of a block whose pool is this one. -/
def rtMpFree (s : MpState τ) (block : ℕ) : MpState τ :=
  let s := { s with
    mp := { s.mp with blockFreeCount := s.mp.blockFreeCount + 1, blockList := block }
    bytes := writeNat s.bytes block 4 s.mp.blockList
    live := s.live.erase block }
  if 0 < s.mp.suspendThreadCount then
    let s := s.resumeFirst
    { s with mp := { s.mp with suspendThreadCount := s.mp.suspendThreadCount - 1 } }
  else s

def timeoutAlloc (s : MpState τ) (thread : τ) : MpState τ :=
  { s with
    mp := { s.mp with suspendThread := s.mp.suspendThread.erase thread }
    threads := onThread s.threads thread Thread.rtThreadTimeout }

/-- The block can be given back to this pool. -/
def CanFree (s : MpState τ) (block : ℕ) : Prop := block ∈ s.live ∧ s.header block = s.mp.address

instance (s : MpState τ) (block : ℕ) : Decidable (s.CanFree block) := inferInstanceAs (Decidable (_ ∧ _))

/-- One event. An event that cannot happen in the state changes nothing. -/
def step (s : MpState τ) : MpEvent τ → MpState τ
  | .alloc none time => s.allocPass none time
  | .alloc (some thread) time => if s.Running thread then s.allocPass (some thread) time else s
  | .free block => if s.CanFree block then s.rtMpFree block else s
  | .write block offset byte =>
    if block ∈ s.live ∧ offset < s.mp.blockSize then
      { s with bytes := Function.update s.bytes (block + 4 + offset) byte }
    else s
  | .timeout thread => if (s.threads thread).CanTimeout then s.timeoutAlloc thread else s
  | .wake thread elapsed =>
    match s.inAlloc thread with
    | none => s
    | some time => if (s.threads thread).stat = .ready then s.resumeAlloc thread time elapsed else s

/-- A new pool over the memory that its set-up links. -/
def start (mp : RtMempool τ) (bytes : ℕ → BitVec 8) (threads : τ → Thread) : MpState τ :=
  { bytes := mp.linkBlocks bytes, mp, threads, inAlloc := fun _ => none, live := [] }

/-- The counter of the waiting threads is the length of their list. -/
def WaitersCounted (s : MpState τ) : Prop := s.mp.suspendThreadCount = s.mp.suspendThread.length

/-- A release that resumes a thread finds it in the list. -/
def ResumesLinked (s : MpState τ) : MpEvent τ → Prop
  | .free block => s.CanFree block → 0 < s.mp.suspendThreadCount → s.mp.suspendThread ≠ []
  | _ => True

/-- The event is not the timer of a thread in the list. -/
def NoWaiterExpires (s : MpState τ) : MpEvent τ → Prop
  | .timeout thread => (s.threads thread).CanTimeout → thread ∉ s.mp.suspendThread
  | _ => True

structure WaitInv (s : MpState τ) : Prop where
  counted : s.WaitersCounted
  distinct : s.mp.suspendThread.Nodup
  suspended : ∀ thread ∈ s.mp.suspendThread, (s.threads thread).stat = .suspend

variable {s : MpState τ} {caller : Option τ}

omit [DecidableEq τ] in
theorem WaitInv.outside (inv : WaitInv s) {thread : τ} (ready : (s.threads thread).stat = .ready) :
    thread ∉ s.mp.suspendThread := by
  intro member
  have suspended := inv.suspended thread member
  simp [ready] at suspended

theorem WaitInv.change (inv : WaitInv s) {thread : τ} (outside : thread ∉ s.mp.suspendThread) (change : Thread → Thread) :
    WaitInv { s with threads := onThread s.threads thread change } := by
  refine ⟨inv.counted, inv.distinct, ?_⟩
  intro other member
  have ne : other ≠ thread := fun same => outside (same ▸ member)
  simpa [ne] using inv.suspended other member

theorem WaitInv.leave (inv : WaitInv s) (ready : ∀ thread ∈ caller, (s.threads thread).stat = .ready) (code : RtErr) :
    WaitInv (s.leave caller code) := by
  cases caller with
  | none => exact inv
  | some thread =>
    have changed := inv.change (inv.outside (ready thread rfl)) (Thread.setError code)
    exact ⟨changed.counted, changed.distinct, changed.suspended⟩

theorem WaitInv.wait (inv : WaitInv s) (ready : ∀ thread ∈ caller, (s.threads thread).stat = .ready) (time : BitVec 32)
    :
    WaitInv (s.wait caller time) := by
  cases caller with
  | none => exact inv
  | some thread =>
    have isReady := ready thread rfl
    have counted := inv.counted
    constructor
    · simp only [WaitersCounted, MpState.wait, List.length_cons]
      rw [counted]
    · exact List.nodup_cons.mpr ⟨inv.outside isReady, inv.distinct⟩
    · intro other member
      rcases eq_or_ne other thread with rfl | ne
      · simp [MpState.wait, Thread.enterWait_of_ready isReady]
      · have waits : other ∈ s.mp.suspendThread := by simpa [MpState.wait, ne] using member
        simpa [MpState.wait, ne] using inv.suspended other waits

omit [DecidableEq τ] in
theorem WaitInv.takeBlock (inv : WaitInv s) : WaitInv s.takeBlock := by
  unfold MpState.takeBlock
  simp only
  split_ifs
  · exact ⟨inv.counted, inv.distinct, inv.suspended⟩
  · exact ⟨inv.counted, inv.distinct, inv.suspended⟩

theorem WaitInv.allocPass (inv : WaitInv s) (ready : ∀ thread ∈ caller, (s.threads thread).stat = .ready)
    (time : BitVec 32) : WaitInv (s.allocPass caller time) := by
  unfold MpState.allocPass
  split_ifs
  · exact inv.leave ready _
  · exact inv.wait ready time
  · have taken := inv.takeBlock
    cases caller with
    | none => exact taken
    | some thread => exact ⟨taken.counted, taken.distinct, taken.suspended⟩

theorem WaitInv.resumeAlloc (inv : WaitInv s) {thread : τ} (ready : (s.threads thread).stat = .ready)
    (time elapsed : BitVec 32) : WaitInv (s.resumeAlloc thread time elapsed) := by
  unfold MpState.resumeAlloc
  split_ifs
  · exact ⟨inv.counted, inv.distinct, inv.suspended⟩
  · exact inv.allocPass (by simpa using ready) _

theorem WaitInv.rtMpFree (inv : WaitInv s) (block : ℕ) : WaitInv (s.rtMpFree block) := by
  have counted : s.mp.suspendThreadCount = s.mp.suspendThread.length := inv.counted
  rcases queue : s.mp.suspendThread with _ | ⟨thread, rest⟩
  · have nobody : s.mp.suspendThreadCount = 0 := by simp [counted, queue]
    unfold MpState.rtMpFree
    simp only [nobody, Nat.lt_irrefl, if_false]
    exact ⟨by simp [WaitersCounted, queue], inv.distinct, inv.suspended⟩
  · have suspended := inv.suspended thread (by simp [queue])
    have several : 0 < s.mp.suspendThreadCount := by simp [counted, queue]
    obtain ⟨notLater, distinct⟩ := List.nodup_cons.mp (queue ▸ inv.distinct)
    have still : (onThread s.threads thread (Thread.setError .eok) thread).stat = .suspend := by
      simpa [Thread.setError] using suspended
    unfold MpState.rtMpFree
    simp only [several, if_true, MpState.resumeFirst, queue, rtIpcListResume_cons still]
    constructor
    · simp [WaitersCounted, counted, queue]
    · exact distinct
    · intro other member
      have ne : other ≠ thread := fun same => notLater (same ▸ member)
      simpa [ne] using inv.suspended other (by simp [queue, member])

theorem WaitInv.step (inv : WaitInv s) {event : MpEvent τ} (quiet : s.NoWaiterExpires event) :
    WaitInv (s.step event) := by
  cases event with
  | alloc caller time =>
    cases caller with
    | none => exact inv.allocPass (by simp) time
    | some thread =>
      rcases Decidable.em (s.Running thread) with running | busy
      · rw [MpState.step, if_pos running]
        exact inv.allocPass (by simpa using running.1) time
      · rw [MpState.step, if_neg busy]
        exact inv
  | free block =>
    rw [MpState.step]
    split_ifs
    · exact inv.rtMpFree block
    · exact inv
  | write block offset byte =>
    rw [MpState.step]
    split_ifs
    · exact ⟨inv.counted, inv.distinct, inv.suspended⟩
    · exact inv
  | timeout thread =>
    rcases Decidable.em (s.threads thread).CanTimeout with fires | still
    · have outside := quiet fires
      have same : s.mp.suspendThread.erase thread = s.mp.suspendThread := List.erase_of_not_mem outside
      rw [MpState.step, if_pos fires, MpState.timeoutAlloc, same]
      exact inv.change outside Thread.rtThreadTimeout
    · rw [MpState.step, if_neg still]
      exact inv
  | wake thread elapsed =>
    rw [MpState.step]
    split
    · exact inv
    · split_ifs with ready
      · exact inv.resumeAlloc ready _ elapsed
      · exact inv

/-- The timer of a thread in the list leaves the counter one too high. -/
theorem WaitInv.expires (inv : WaitInv s) {event : MpEvent τ} (expires : ¬ s.NoWaiterExpires event) :
    ¬ (s.step event).WaitersCounted := by
  cases event with
  | timeout thread =>
    obtain ⟨fires, member⟩ : (s.threads thread).CanTimeout ∧ thread ∈ s.mp.suspendThread := by
      simpa [NoWaiterExpires] using expires
    have counted : s.mp.suspendThreadCount = s.mp.suspendThread.length := inv.counted
    have positive : 0 < s.mp.suspendThread.length := List.length_pos_of_mem member
    rw [MpState.step, if_pos fires]
    simp only [WaitersCounted, MpState.timeoutAlloc, List.length_erase_of_mem member]
    omega
  | _ => exact absurd trivial expires

omit [DecidableEq τ] in
theorem waitInv_start {mp : RtMempool τ} (empty : mp.suspendThread = []) (none : mp.suspendThreadCount = 0)
    (bytes : ℕ → BitVec 8) (threads : τ → Thread) : WaitInv (start mp bytes threads) := by
  refine ⟨?_, ?_, ?_⟩
  · simp [WaitersCounted, start, empty, none]
  · simp [start, empty]
  · simp [start, empty]

end MpState

/-- The pools that `rt_mp_init` and `rt_mp_create` set up with at least one block, in memory that
ends at the end of the address space or before it. -/
inductive MpSetUp : RtMempool τ → Prop
  | init (address start size blockSize : ℕ) (placed : address < 2 ^ 32) (given : 0 < start)
      (memory : start + rtAlignDown size ≤ 2 ^ 32)
      (oneBlock : 0 < rtAlignDown size / (rtAlign blockSize + 4)) :
      MpSetUp (rtMpInit address start size blockSize)
  | create (address start blockCount blockSize : ℕ) (placed : address < 2 ^ 32) (given : 0 < start)
      (memory : start + word32 ((rtAlign blockSize + 4) * blockCount) ≤ 2 ^ 32)
      (oneBlock : 0 < blockCount) (counted : blockCount < 2 ^ 32) :
      MpSetUp (rtMpCreate address start blockCount blockSize)

omit [DecidableEq τ] in
theorem MpSetUp.nobodyWaits {mp : RtMempool τ} (setUp : MpSetUp mp) :
    mp.suspendThread = [] ∧ mp.suspendThreadCount = 0 := by
  cases setUp with
  | init => exact ⟨rfl, rfl⟩
  | create => exact ⟨rfl, rfl⟩

namespace MpState

/-- The counter of the waiting threads and their list agree, and every release resumes a thread of
the list, exactly in the runs in which no timer of a thread in the list fires. -/
theorem waiters_iff {mp : RtMempool τ} (setUp : MpSetUp mp) (bytes : ℕ → BitVec 8) (threads : τ → Thread)
    (events : List (MpEvent τ)) :
    (Run.Always step WaitersCounted (start mp bytes threads) events ∧
      Run.Along step ResumesLinked (start mp bytes threads) events) ↔
      Run.Along step NoWaiterExpires (start mp bytes threads) events := by
  have inv : WaitInv (start mp bytes threads) := waitInv_start setUp.nobodyWaits.1 setUp.nobodyWaits.2 bytes threads
  have keeps : ∀ (s : MpState τ) (event : MpEvent τ), WaitInv s → s.NoWaiterExpires event → WaitInv (s.step event) :=
    fun _ _ inv quiet => inv.step quiet
  have counted : Run.Always step WaitersCounted (start mp bytes threads) events ↔
      Run.Along step NoWaiterExpires (start mp bytes threads) events :=
    Run.always_iff_along keeps (fun _ inv => inv.counted) (fun _ _ inv expires => inv.expires expires) inv events
  constructor
  · intro agree
    exact counted.mp agree.1
  · intro quiet
    refine ⟨counted.mpr quiet, quiet.along keeps ?_ inv⟩
    intro s event inv _
    cases event with
    | free block =>
      intro _ several empty
      have same : s.mp.suspendThreadCount = s.mp.suspendThread.length := inv.counted
      simp [same, empty] at several
    | _ => trivial

def smallPool : MpState Bool :=
  start (rtMpInit 0x20000000 0x2000003c 24 8) (fun _ => 0) (fun _ => { currentPriority := 10, initPriority := 10 })

/-- One thread takes both blocks, and the other one waits until its timer fires. -/
def expiredWait : List (MpEvent Bool) :=
  [.alloc (some false) 0, .alloc (some false) 0, .alloc (some true) 5, .timeout true]

theorem waiters_iff_smallPool :
    (Run.Always step WaitersCounted smallPool expiredWait ∧ Run.Along step ResumesLinked smallPool expiredWait) ↔
      Run.Along step NoWaiterExpires smallPool expiredWait :=
  waiters_iff (.init 0x20000000 0x2000003c 24 8 (by decide) (by decide) (by decide) (by decide)) (fun _ => 0) _
    expiredWait

theorem expiredWait_not_waitersCounted :
    ¬ (Run.Always step WaitersCounted smallPool expiredWait ∧
      Run.Along step ResumesLinked smallPool expiredWait) := by
  rintro ⟨always, -⟩
  have counted : (Run.exec step smallPool expiredWait).mp.suspendThreadCount =
      (Run.exec step smallPool expiredWait).mp.suspendThread.length := always.last
  revert counted
  decide

end MpState
end RtThread
