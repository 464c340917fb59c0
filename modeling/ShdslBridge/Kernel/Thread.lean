import Mathlib.Data.List.Sort

/-! # Threads and the lists that they wait in

What the blocking calls of the kernel do to threads: suspend the caller into the list of an object,
resume the first thread of a list, and end a wait by the thread's own timer. A thread is named by
an element of an arbitrary type, and the kernel's table of threads is a function on it. The ready
lists of the scheduler are left out: who runs next is the choice of the run.
-/

namespace RtThread

/-- `rt_err_t`, as far as the calls of this development return it. -/
inductive RtErr | eok | error | etimeout | efull
  deriving DecidableEq, Repr

/-- `thread->stat` of a started thread. -/
inductive ThreadStat | ready | suspend
  deriving DecidableEq, Repr

/-- The fields of `struct rt_thread` that waiting and priorities use. -/
structure Thread where
  stat : ThreadStat := .ready
  error : RtErr := .eok
  currentPriority : ℕ
  initPriority : ℕ
  /-- `thread_timer` is running. -/
  threadTimer : Bool := false
  deriving DecidableEq, Repr

/-- `RT_IPC_FLAG_FIFO` and `RT_IPC_FLAG_PRIO`. -/
inductive IpcFlag | fifo | prio
  deriving DecidableEq, Repr

namespace Thread

/-- `thread->error = code`. -/
def setError (code : RtErr) (thread : Thread) : Thread := { thread with error := code }

/-- `rt_thread_suspend`, which refuses a thread that is not ready. -/
def rtThreadSuspend (thread : Thread) : Thread :=
  if thread.stat ≠ .ready then thread else { thread with stat := .suspend, threadTimer := false }

/-- `rt_timer_start` of the thread's timer, for a positive waiting time only. -/
def startTimer (time : ℤ) (thread : Thread) : Thread :=
  if 0 < time then { thread with threadTimer := true } else thread

/-- `rt_thread_resume` of a suspended thread. -/
def rtThreadResume (thread : Thread) : Thread := { thread with stat := .ready, threadTimer := false }

/-- `rt_thread_timeout`, called by the timer that has fired. -/
def rtThreadTimeout (thread : Thread) : Thread :=
  { thread with error := .etimeout, stat := .ready, threadTimer := false }

/-- `rt_thread_control` with `RT_THREAD_CTRL_CHANGE_PRIORITY`. -/
def rtThreadControl (priority : ℕ) (thread : Thread) : Thread :=
  { thread with currentPriority := priority }

/-- The timer of the thread can fire: `rt_thread_timeout` asserts that the thread is suspended. -/
def CanTimeout (thread : Thread) : Prop := thread.stat = .suspend ∧ thread.threadTimer = true

instance (thread : Thread) : Decidable thread.CanTimeout := inferInstanceAs (Decidable (_ ∧ _))

def enterWait (time : ℤ) (thread : Thread) : Thread :=
  ((thread.setError .eok).rtThreadSuspend).startTimer time

theorem enterWait_of_ready {thread : Thread} (ready : thread.stat = .ready) (time : ℤ) :
    thread.enterWait time =
      { thread with error := .eok, stat := .suspend, threadTimer := decide (0 < time) } := by
  rcases lt_or_ge 0 time with positive | none
  · simp [enterWait, setError, rtThreadSuspend, startTimer, ready, positive]
  · simp [enterWait, setError, rtThreadSuspend, startTimer, ready, not_lt.mpr none]

@[simp] theorem enterWait_error (time : ℤ) (thread : Thread) : (thread.enterWait time).error = .eok := by
  unfold enterWait startTimer rtThreadSuspend setError
  split_ifs <;> rfl

@[simp] theorem enterWait_currentPriority (time : ℤ) (thread : Thread) :
    (thread.enterWait time).currentPriority = thread.currentPriority := by
  unfold enterWait startTimer rtThreadSuspend setError
  split_ifs <;> rfl

@[simp] theorem enterWait_initPriority (time : ℤ) (thread : Thread) :
    (thread.enterWait time).initPriority = thread.initPriority := by
  unfold enterWait startTimer rtThreadSuspend setError
  split_ifs <;> rfl

end Thread

variable {τ : Type*}

/-- Where `rt_ipc_list_suspend` puts the caller: at the end, or before the first thread with a
lower priority, that is a larger number. -/
def rtIpcListInsert (flag : IpcFlag) (threads : τ → Thread) (thread : τ) (list : List τ) : List τ :=
  match flag with
  | .fifo => list ++ [thread]
  | .prio => list.orderedInsert
      (fun new old => (threads new).currentPriority < (threads old).currentPriority) thread

variable {threads : τ → Thread}

@[simp] theorem mem_rtIpcListInsert {flag : IpcFlag} {thread other : τ} {list : List τ} :
    other ∈ rtIpcListInsert flag threads thread list ↔ other = thread ∨ other ∈ list := by
  cases flag with
  | fifo => simp [rtIpcListInsert, or_comm]
  | prio => simp [rtIpcListInsert]

theorem rtIpcListInsert_perm (flag : IpcFlag) (threads : τ → Thread) (thread : τ) (list : List τ) :
    (rtIpcListInsert flag threads thread list).Perm (thread :: list) := by
  cases flag with
  | fifo => exact List.perm_append_singleton thread list
  | prio => exact List.perm_orderedInsert _ _ _

theorem rtIpcListInsert_nodup {flag : IpcFlag} {thread : τ} {list : List τ} :
    (rtIpcListInsert flag threads thread list).Nodup ↔ thread ∉ list ∧ list.Nodup := by
  rw [(rtIpcListInsert_perm flag threads thread list).nodup_iff, List.nodup_cons]

variable [DecidableEq τ]

def onThread (threads : τ → Thread) (thread : τ) (change : Thread → Thread) : τ → Thread :=
  Function.update threads thread (change (threads thread))

@[simp] theorem onThread_self (threads : τ → Thread) (thread : τ) (change : Thread → Thread) :
    onThread threads thread change thread = change (threads thread) := by
  simp [onThread]

@[simp] theorem onThread_other (threads : τ → Thread) {thread other : τ} (ne : other ≠ thread)
    (change : Thread → Thread) : onThread threads thread change other = threads other := by
  simp [onThread, ne]

/-- What a change keeps of the thread, it keeps of every thread of the table. -/
theorem onThread_keeps {β : Type*} (field : Thread → β) {thread : τ} {change : Thread → Thread}
    (keeps : field (change (threads thread)) = field (threads thread)) (other : τ) :
    field (onThread threads thread change other) = field (threads other) := by
  rcases eq_or_ne other thread with rfl | ne
  · rw [onThread_self, keeps]
  · rw [onThread_other threads ne]

/-- `rt_ipc_list_resume`: the first thread leaves the list and becomes ready. `rt_thread_resume`
refuses a thread that is not suspended. -/
def rtIpcListResume (list : List τ) (threads : τ → Thread) : List τ × (τ → Thread) :=
  match list with
  | [] => (list, threads)
  | thread :: rest =>
    if (threads thread).stat ≠ .suspend then (list, threads)
    else (rest, onThread threads thread Thread.rtThreadResume)

theorem rtIpcListResume_cons {thread : τ} (suspended : (threads thread).stat = .suspend) (rest : List τ) :
    rtIpcListResume (thread :: rest) threads = (rest, onThread threads thread Thread.rtThreadResume) := by
  simp [rtIpcListResume, suspended]

section

variable {threads : τ → Thread} {list : List τ}

theorem rtIpcListResume_fst (suspended : ∀ thread ∈ list, (threads thread).stat = .suspend) :
    (rtIpcListResume list threads).1 = list.tail := by
  cases list with
  | nil => rfl
  | cons thread rest => rw [rtIpcListResume_cons (suspended thread List.mem_cons_self), List.tail_cons]

theorem rtIpcListResume_outside {other : τ} (outside : other ∉ list) :
    (rtIpcListResume list threads).2 other = threads other := by
  cases list with
  | nil => rfl
  | cons thread rest =>
    have ne : other ≠ thread := fun same => outside (same ▸ List.mem_cons_self)
    simp only [rtIpcListResume]
    split_ifs
    · rfl
    · exact onThread_other threads ne _

/-- A thread of the list is suspended afterwards if it has not been the first one. -/
theorem rtIpcListResume_listed (suspended : ∀ thread ∈ list, (threads thread).stat = .suspend)
    (distinct : list.Nodup) {other : τ} (member : other ∈ list) :
    ((rtIpcListResume list threads).2 other).stat = .suspend ↔ other ∈ list.tail := by
  cases list with
  | nil => cases member
  | cons thread rest =>
    obtain ⟨notLater, -⟩ := List.nodup_cons.mp distinct
    rw [rtIpcListResume_cons (suspended thread List.mem_cons_self), List.tail_cons]
    rcases eq_or_ne other thread with rfl | ne
    · simp [Thread.rtThreadResume, notLater]
    · have later : other ∈ rest := by simpa [ne] using member
      simp [ne, later, suspended other member]

end

end RtThread
