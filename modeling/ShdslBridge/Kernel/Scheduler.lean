import ShdslBridge.Kernel.FindFirstSet
import ShdslBridge.Kernel.Thread
import ShdslBridge.Lib.BitSet
import ShdslBridge.Lib.Run

/-! # The ready queue and its bitmap

A ready thread is linked in the list of its priority, and a bit of `rt_thread_ready_priority_group`
says that this list is not empty. Every thread keeps its own bit in `number_mask`. The calls edit
these four descriptions of readiness one by one, and `rt_schedule` reads the bitmap only.

They agree in every state of a run exactly as long as no thread becomes ready with a priority behind
the table, and no thread is deleted before its start while its `number_mask`, which only a start or
a change of priority sets, happens to name bits of the bitmap.
-/

namespace RtThread

variable {τ ι : Type*} [DecidableEq τ]

/-- `RT_THREAD_PRIORITY_MAX`. -/
def rtThreadPriorityMax : ℕ := 32

/-- `thread->stat`, from the initialization of a thread to its end. -/
inductive LifeStat | init | ready | suspend | close
  deriving DecidableEq, Repr

/-- The fields of `struct rt_thread` that the scheduler uses. -/
structure SchedThread where
  stat : LifeStat := .init
  error : RtErr := .eok
  /-- `_rt_thread_init` asserts that it is a priority of the table. -/
  initPriority : Fin rtThreadPriorityMax
  currentPriority : ℕ := initPriority
  numberMask : BitVec 32 := 0
  deriving DecidableEq

/-- The threads, the ready lists with their bitmap, and the other lists that link threads: those of
the IPC objects and `rt_thread_defunct`. -/
structure SchedState (τ ι : Type*) where
  threads : τ → SchedThread
  /-- `rt_thread_priority_table`. The code does not check its bound. -/
  priorityTable : ℕ → List τ
  readyPriorityGroup : BitVec 32
  suspendThread : ι → List τ
  defunct : List τ
  currentThread : Option τ
  currentPriority : ℕ
  lockNest : ℕ

inductive SchedEvent (τ ι : Type*)
  | startup (thread : τ)
  | suspend (thread : τ)
  | ipcSuspend (thread : τ) (list : ι) (place : ℕ)
  | resume (thread : τ)
  | timeout (thread : τ)
  | yield
  | changePriority (thread : τ) (priority : ℕ)
  | delete (thread : τ)
  | detach (thread : τ) (cleanup : Bool)
  | schedule
  | enterCritical
  | exitCritical

namespace SchedState

def onThread (s : SchedState τ ι) (thread : τ) (change : SchedThread → SchedThread) : SchedState τ ι :=
  { s with threads := Function.update s.threads thread (change (s.threads thread)) }

/-- `rt_list_remove(&(thread->tlist))`: the thread is in no list. -/
def listRemove (s : SchedState τ ι) (thread : τ) : SchedState τ ι :=
  { s with
    priorityTable := fun priority => (s.priorityTable priority).filter (· ≠ thread)
    suspendThread := fun list => (s.suspendThread list).filter (· ≠ thread)
    defunct := s.defunct.filter (· ≠ thread) }

/-- `rt_schedule_insert_thread`. -/
def rtScheduleInsertThread (s : SchedState τ ι) (thread : τ) : SchedState τ ι :=
  let s := s.onThread thread fun t => { t with stat := .ready }
  let priority := (s.threads thread).currentPriority
  { s with
    priorityTable := Function.update s.priorityTable priority (s.priorityTable priority ++ [thread])
    readyPriorityGroup := s.readyPriorityGroup ||| (s.threads thread).numberMask }

/-- `rt_schedule_remove_thread`. -/
def rtScheduleRemoveThread (s : SchedState τ ι) (thread : τ) : SchedState τ ι :=
  let s := s.listRemove thread
  if s.priorityTable (s.threads thread).currentPriority = [] then
    { s with readyPriorityGroup := s.readyPriorityGroup &&& ~~~(s.threads thread).numberMask }
  else s

/-- `rt_schedule`, without the switch of the stacks. -/
def rtSchedule (s : SchedState τ ι) : SchedState τ ι :=
  -- With no ready thread the source reads in front of `rt_thread_priority_table`.
  if s.lockNest = 0 ∧ s.readyPriorityGroup ≠ 0 then
    let highestReadyPriority := rtFfs s.readyPriorityGroup - 1
    match s.priorityTable highestReadyPriority with
    | [] => s
    | toThread :: _ =>
      if s.currentThread ≠ some toThread then
        { s with currentPriority := highestReadyPriority, currentThread := some toThread }
      else s
  else s

/-- `rt_thread_resume`. -/
def rtThreadResume (s : SchedState τ ι) (thread : τ) : SchedState τ ι :=
  if (s.threads thread).stat ≠ .suspend then s else (s.listRemove thread).rtScheduleInsertThread thread

def setPriority (priority : ℕ) (t : SchedThread) : SchedThread :=
  { t with currentPriority := priority, numberMask := 1#32 <<< priority }

/-- `rt_thread_startup`, which asserts that the thread is not started. -/
def rtThreadStartup (s : SchedState τ ι) (thread : τ) : SchedState τ ι :=
  let s := s.onThread thread fun t => { setPriority t.initPriority t with stat := .suspend }
  let s := s.rtThreadResume thread
  if s.currentThread ≠ none then s.rtSchedule else s

/-- `rt_thread_suspend`. -/
def rtThreadSuspend (s : SchedState τ ι) (thread : τ) : SchedState τ ι :=
  if (s.threads thread).stat ≠ .ready then s
  else (s.onThread thread fun t => { t with stat := .suspend }).rtScheduleRemoveThread thread

/-- `rt_ipc_list_suspend`, at the place that the flag of the list asks for. -/
def rtIpcListSuspend [DecidableEq ι] (s : SchedState τ ι) (thread : τ) (list : ι) (place : ℕ) : SchedState τ ι :=
  let s := s.rtThreadSuspend thread
  let waiting := s.suspendThread list
  { s with
    suspendThread := Function.update s.suspendThread list (waiting.take place ++ thread :: waiting.drop place) }

/-- `rt_thread_timeout`, which asserts that the thread is suspended. -/
def rtThreadTimeout (s : SchedState τ ι) (thread : τ) : SchedState τ ι :=
  let s := s.onThread thread fun t => { t with error := .etimeout }
  ((s.listRemove thread).rtScheduleInsertThread thread).rtSchedule

/-- `rt_thread_yield` of the current thread, which does nothing if it is alone in its list. -/
def rtThreadYield (s : SchedState τ ι) (thread : τ) : SchedState τ ι :=
  let priority := (s.threads thread).currentPriority
  if (s.threads thread).stat = .ready ∧ (s.priorityTable priority).length ≠ 1 then
    let s := s.listRemove thread
    rtSchedule { s with
      priorityTable := Function.update s.priorityTable priority (s.priorityTable priority ++ [thread]) }
  else s

/-- `rt_thread_control` with `RT_THREAD_CTRL_CHANGE_PRIORITY`. -/
def changePriority (s : SchedState τ ι) (thread : τ) (priority : ℕ) : SchedState τ ι :=
  if (s.threads thread).stat = .ready then
    ((s.rtScheduleRemoveThread thread).onThread thread (setPriority priority)).rtScheduleInsertThread thread
  else s.onThread thread (setPriority priority)

def close (s : SchedState τ ι) (thread : τ) : SchedState τ ι :=
  (s.rtScheduleRemoveThread thread).onThread thread fun t => { t with stat := .close }

/-- `rt_thread_delete`. -/
def rtThreadDelete (s : SchedState τ ι) (thread : τ) : SchedState τ ι :=
  let s := s.close thread
  { s with defunct := thread :: s.defunct }

/-- `rt_thread_detach`, of a thread with or without a cleanup function. -/
def rtThreadDetach (s : SchedState τ ι) (thread : τ) (cleanup : Bool) : SchedState τ ι :=
  if cleanup then s.rtThreadDelete thread else s.close thread

/-- One event. An event that cannot happen in the state changes nothing. -/
def step [DecidableEq ι] (s : SchedState τ ι) : SchedEvent τ ι → SchedState τ ι
  | .startup thread => if (s.threads thread).stat = .init then s.rtThreadStartup thread else s
  | .suspend thread => s.rtThreadSuspend thread
  | .ipcSuspend thread list place =>
    if (s.threads thread).stat = .ready then s.rtIpcListSuspend thread list place else s
  | .resume thread => s.rtThreadResume thread
  | .timeout thread => if (s.threads thread).stat = .suspend then s.rtThreadTimeout thread else s
  | .yield =>
    match s.currentThread with
    | none => s
    | some thread => s.rtThreadYield thread
  | .changePriority thread priority => s.changePriority thread priority
  | .delete thread => s.rtThreadDelete thread
  | .detach thread cleanup => s.rtThreadDetach thread cleanup
  | .schedule => s.rtSchedule
  | .enterCritical => { s with lockNest := s.lockNest + 1 }
  | .exitCritical =>
    if s.lockNest ≤ 1 then rtSchedule { s with lockNest := 0 } else { s with lockNest := s.lockNest - 1 }

/-- The state after `rt_system_scheduler_init`, with threads that `_rt_thread_init` has set up. It
leaves `number_mask` as the memory has it. -/
def boot (initPriority : τ → Fin rtThreadPriorityMax) (numberMask : τ → BitVec 32) : SchedState τ ι where
  threads thread := { initPriority := initPriority thread, numberMask := numberMask thread }
  priorityTable _ := []
  readyPriorityGroup := 0
  suspendThread _ := []
  defunct := []
  currentThread := none
  currentPriority := rtThreadPriorityMax - 1
  lockNest := 0

/-- Lists, states, priorities and masks agree, and `rt_schedule` selects the head of the highest
list that is not empty. -/
structure Consistent (s : SchedState τ ι) : Prop where
  bits : ∀ priority < rtThreadPriorityMax,
    s.readyPriorityGroup.getLsbD priority = true ↔ s.priorityTable priority ≠ []
  queued : ∀ priority < rtThreadPriorityMax, ∀ thread ∈ s.priorityTable priority,
    (s.threads thread).stat = .ready ∧ (s.threads thread).currentPriority = priority ∧
      (s.threads thread).numberMask = 1#32 <<< priority
  once : ∀ thread, (s.threads thread).stat = .ready →
    (s.threads thread).currentPriority < rtThreadPriorityMax ∧
      (s.priorityTable (s.threads thread).currentPriority).count thread = 1 ∧
      (∀ priority < rtThreadPriorityMax, priority ≠ (s.threads thread).currentPriority →
        thread ∉ s.priorityTable priority) ∧
      (∀ list, thread ∉ s.suspendThread list) ∧ thread ∉ s.defunct
  selects : s.lockNest = 0 → ∀ priority < rtThreadPriorityMax, ∀ thread rest,
    s.priorityTable priority = thread :: rest → (∀ higher < priority, s.priorityTable higher = []) →
      s.rtSchedule.currentThread = some thread

/-- The event makes no thread ready with a priority behind the table, and deletes no thread whose
mask names bits of the bitmap while the list of its priority is empty. -/
def Sound (s : SchedState τ ι) : SchedEvent τ ι → Prop
  | .resume thread | .timeout thread =>
    (s.threads thread).stat = .suspend → (s.threads thread).currentPriority < rtThreadPriorityMax
  | .changePriority thread priority => (s.threads thread).stat = .ready → priority < rtThreadPriorityMax
  | .delete thread | .detach thread _ => s.priorityTable (s.threads thread).currentPriority = [] →
      s.readyPriorityGroup &&& (s.threads thread).numberMask = 0
  | _ => True

/-- The four descriptions of readiness, with at most one thread taken out of all lists. -/
structure Inv (s : SchedState τ ι) (out : Option τ) : Prop where
  bits : ∀ priority < rtThreadPriorityMax,
    s.readyPriorityGroup.getLsbD priority = true ↔ s.priorityTable priority ≠ []
  queued : ∀ priority, ∀ thread ∈ s.priorityTable priority, some thread ≠ out ∧
    priority < rtThreadPriorityMax ∧ (s.threads thread).stat = .ready ∧
      (s.threads thread).currentPriority = priority
  listed : ∀ thread, some thread ≠ out → (s.threads thread).stat = .ready →
    thread ∈ s.priorityTable (s.threads thread).currentPriority
  distinct : ∀ priority, (s.priorityTable priority).Nodup
  waiting : ∀ list, ∀ thread ∈ s.suspendThread list, some thread ≠ out ∧ (s.threads thread).stat = .suspend
  dead : ∀ thread ∈ s.defunct, some thread ≠ out ∧ (s.threads thread).stat = .close
  masks : ∀ thread, some thread ≠ out → (s.threads thread).stat = .ready ∨ (s.threads thread).stat = .suspend →
    (s.threads thread).numberMask = 1#32 <<< (s.threads thread).currentPriority

section Edits

variable {s : SchedState τ ι} {thread : τ} {out : Option τ}

@[simp] theorem onThread_self (s : SchedState τ ι) (thread : τ) (change : SchedThread → SchedThread) :
    (s.onThread thread change).threads thread = change (s.threads thread) := by
  simp [onThread]

@[simp] theorem onThread_other (s : SchedState τ ι) {thread other : τ} (ne : other ≠ thread)
    (change : SchedThread → SchedThread) : (s.onThread thread change).threads other = s.threads other := by
  simp [onThread, ne]

@[simp] theorem listRemove_threads (s : SchedState τ ι) (thread : τ) : (s.listRemove thread).threads = s.threads :=
  rfl

theorem Inv.edit (inv : s.Inv (some thread)) (change : SchedThread → SchedThread) :
    (s.onThread thread change).Inv (some thread) := by
  have same (other : τ) (ne : some other ≠ some thread) : (s.onThread thread change).threads other = s.threads other :=
    onThread_other s (fun equal => ne (congrArg some equal)) change
  refine { inv with queued := ?_, listed := ?_, waiting := ?_, dead := ?_, masks := ?_ }
  · intro priority other member
    obtain ⟨ne, known⟩ := inv.queued priority other member
    exact ⟨ne, same other ne ▸ known⟩
  · intro other ne
    rw [same other ne]
    exact inv.listed other ne
  · intro list other member
    obtain ⟨ne, known⟩ := inv.waiting list other member
    exact ⟨ne, same other ne ▸ known⟩
  · intro other member
    obtain ⟨ne, known⟩ := inv.dead other member
    exact ⟨ne, same other ne ▸ known⟩
  · intro other ne
    rw [same other ne]
    exact inv.masks other ne

/-- `rt_list_remove`, with a bitmap that fits the lists behind it. -/
theorem Inv.unlink (inv : s.Inv none) {group : BitVec 32} (bits : ∀ priority < rtThreadPriorityMax,
      group.getLsbD priority = true ↔ (s.priorityTable priority).filter (· ≠ thread) ≠ []) :
    Inv { s.listRemove thread with readyPriorityGroup := group } (some thread) := by
  constructor
  · exact bits
  · intro priority other member
    obtain ⟨there, ne⟩ := List.mem_filter.mp member
    exact ⟨by simpa using ne, (inv.queued priority other there).2⟩
  · intro other ne ready
    exact List.mem_filter.mpr ⟨inv.listed other (by simp) ready, by simpa using ne⟩
  · exact fun priority => (inv.distinct priority).filter _
  · intro list other member
    obtain ⟨there, ne⟩ := List.mem_filter.mp member
    exact ⟨by simpa using ne, (inv.waiting list other there).2⟩
  · intro other member
    obtain ⟨there, ne⟩ := List.mem_filter.mp member
    exact ⟨by simpa using ne, (inv.dead other there).2⟩
  · exact fun other _ started => inv.masks other (by simp) started

omit [DecidableEq τ] in
theorem Inv.not_mem (inv : s.Inv none) {priority : ℕ}
    (away : (s.threads thread).stat ≠ .ready ∨ (s.threads thread).currentPriority ≠ priority) :
    thread ∉ s.priorityTable priority := by
  intro member
  obtain ⟨-, -, ready, current⟩ := inv.queued priority thread member
  rcases away with idle | elsewhere
  · exact idle ready
  · exact elsewhere current

theorem filter_ne_of_not_mem {list : List τ} (outside : thread ∉ list) : list.filter (· ≠ thread) = list := by
  apply List.filter_eq_self.mpr
  intro other member
  simpa using ne_of_mem_of_not_mem member outside

/-- `rt_list_remove` of a thread that is not ready. -/
theorem Inv.listRemove (inv : s.Inv none) (idle : (s.threads thread).stat ≠ .ready) :
    (s.listRemove thread).Inv (some thread) := by
  apply inv.unlink
  intro priority inside
  rw [filter_ne_of_not_mem (inv.not_mem (.inl idle)), inv.bits priority inside]

/-- `rt_schedule_insert_thread` of a thread that is in no list. -/
theorem Inv.insert (inv : s.Inv (some thread)) (small : (s.threads thread).currentPriority < rtThreadPriorityMax)
    (mask : (s.threads thread).numberMask = 1#32 <<< (s.threads thread).currentPriority) :
    (s.rtScheduleInsertThread thread).Inv none := by
  obtain ⟨home, known⟩ : ∃ home, (s.threads thread).currentPriority = home := ⟨_, rfl⟩
  rw [known] at small mask
  have inserted : s.rtScheduleInsertThread thread =
      { s.onThread thread (fun t => { t with stat := .ready }) with
        priorityTable := Function.update s.priorityTable home (s.priorityTable home ++ [thread])
        readyPriorityGroup := s.readyPriorityGroup ||| 1#32 <<< home } := by
    simp [rtScheduleInsertThread, onThread, known, mask]
  rw [inserted]
  have ready := inv.edit fun t => { t with stat := .ready }
  have lists (priority : ℕ) (other : τ) : other ∈ Function.update s.priorityTable home
      (s.priorityTable home ++ [thread]) priority ↔
        other ∈ s.priorityTable priority ∨ priority = home ∧ other = thread := by
    rcases eq_or_ne priority home with rfl | ne
    · simp
    · simp [ne]
  constructor
  · intro priority inside
    rw [BitVec.getLsbD_or, BitSet.getLsbD_single, Bool.or_eq_true, inv.bits priority inside]
    rcases eq_or_ne priority home with rfl | ne
    · have small : priority < 32 := inside
      simp [small]
    · simp [ne]
  · intro priority other member
    rcases (lists priority other).mp member with old | ⟨rfl, rfl⟩
    · obtain ⟨-, inside, stat, current⟩ := ready.queued priority other old
      exact ⟨by simp, inside, stat, current⟩
    · exact ⟨by simp, small, by simp, by simp [known]⟩
  · intro other _ stat
    rw [lists]
    rcases eq_or_ne other thread with rfl | ne
    · right
      simp [known]
    · left
      exact ready.listed other (by simpa using ne) stat
  · intro priority
    rcases eq_or_ne priority home with rfl | ne
    · have fresh : thread ∉ s.priorityTable priority := fun member => (inv.queued priority thread member).1 rfl
      simpa [List.nodup_append, inv.distinct] using fun other member => ne_of_mem_of_not_mem member fresh
    · simpa [ne] using inv.distinct priority
  · intro list other member
    exact ⟨by simp, (ready.waiting list other member).2⟩
  · intro other member
    exact ⟨by simp, (ready.dead other member).2⟩
  · intro other _ started
    rcases eq_or_ne other thread with rfl | ne
    · simpa [known] using mask
    · exact ready.masks other (by simpa using ne) started

omit [DecidableEq τ] in
/-- A thread that is in no list comes back, as one that is not ready. -/
theorem Inv.rejoin (inv : s.Inv (some thread)) (idle : (s.threads thread).stat ≠ .ready)
    (mask : (s.threads thread).stat = .suspend →
      (s.threads thread).numberMask = 1#32 <<< (s.threads thread).currentPriority) : s.Inv none := by
  refine { inv with queued := ?_, listed := ?_, waiting := ?_, dead := ?_, masks := ?_ }
  · exact fun priority other member => ⟨by simp, (inv.queued priority other member).2⟩
  · intro other _ ready
    exact inv.listed other (fun same => idle (Option.some.inj same ▸ ready)) ready
  · exact fun list other member => ⟨by simp, (inv.waiting list other member).2⟩
  · exact fun other member => ⟨by simp, (inv.dead other member).2⟩
  · intro other _ started
    rcases eq_or_ne other thread with rfl | ne
    · exact mask (started.resolve_left idle)
    · exact inv.masks other (by simpa using ne) started

theorem rtScheduleRemoveThread_eq (s : SchedState τ ι) (thread : τ) :
    s.rtScheduleRemoveThread thread = { s.listRemove thread with
      readyPriorityGroup :=
        if (s.priorityTable (s.threads thread).currentPriority).filter (· ≠ thread) = [] then
          s.readyPriorityGroup &&& ~~~(s.threads thread).numberMask
        else s.readyPriorityGroup } := by
  change (if (s.priorityTable (s.threads thread).currentPriority).filter (· ≠ thread) = [] then
    { s.listRemove thread with
      readyPriorityGroup := s.readyPriorityGroup &&& ~~~(s.threads thread).numberMask }
    else s.listRemove thread) = _
  split_ifs <;> rfl

@[simp] theorem rtScheduleRemoveThread_threads (s : SchedState τ ι) (thread : τ) :
    (s.rtScheduleRemoveThread thread).threads = s.threads := by
  rw [rtScheduleRemoveThread_eq]
  rfl

/-- `rt_schedule_remove_thread` keeps the bitmap right: at most the list of the thread's priority has
become empty. -/
theorem Inv.remove (inv : s.Inv none)
    (sound : s.priorityTable (s.threads thread).currentPriority = [] →
      s.readyPriorityGroup &&& (s.threads thread).numberMask = 0) :
    (s.rtScheduleRemoveThread thread).Inv (some thread) := by
  obtain ⟨home, known⟩ : ∃ home, (s.threads thread).currentPriority = home := ⟨_, rfl⟩
  rw [rtScheduleRemoveThread_eq, known]
  rw [known] at sound
  apply inv.unlink
  intro priority inside
  rcases Decidable.em ((s.threads thread).stat = .ready) with ready | idle
  · have mask := inv.masks thread (by simp) (.inl ready)
    have member := inv.listed thread (by simp) ready
    rw [known] at mask member
    rcases eq_or_ne priority home with rfl | ne
    · split
      · rename_i empty
        have small : priority < 32 := inside
        refine iff_of_false ?_ (not_not.mpr empty)
        rw [mask, BitVec.getLsbD_and, BitVec.getLsbD_not, BitSet.getLsbD_single]
        simp [small]
      · rename_i left
        rw [inv.bits priority inside]
        exact iff_of_true (List.ne_nil_of_mem member) left
    · have elsewhere : thread ∉ s.priorityTable priority := inv.not_mem (.inr fun same => ne (same.symm.trans known))
      rw [filter_ne_of_not_mem elsewhere, ← inv.bits priority inside]
      split
      · have small : priority < 32 := inside
        rw [mask, BitVec.getLsbD_and, BitVec.getLsbD_not, BitSet.getLsbD_single]
        simp [small, ne]
      · rfl
  · rw [filter_ne_of_not_mem (inv.not_mem (.inl idle)), filter_ne_of_not_mem (inv.not_mem (.inl idle)),
      ← inv.bits priority inside]
    split
    · rename_i empty
      have small : priority < 32 := inside
      have apart := congrArg (fun bits : BitVec 32 => bits.getLsbD priority) (sound empty)
      rw [BitVec.getLsbD_and] at apart
      rcases set : s.readyPriorityGroup.getLsbD priority with _ | _
      · simp [set]
      · simpa [set, small] using apart
    · rfl

omit [DecidableEq τ] in
/-- The removal of a thread that is ready or suspended is always sound. -/
theorem Inv.sound_of_started (inv : s.Inv none)
    (started : (s.threads thread).stat = .ready ∨ (s.threads thread).stat = .suspend)
    (empty : s.priorityTable (s.threads thread).currentPriority = []) :
    s.readyPriorityGroup &&& (s.threads thread).numberMask = 0 := by
  apply BitVec.eq_of_getLsbD_eq
  intro bit inside
  rw [BitVec.getLsbD_and, inv.masks thread (by simp) started, BitSet.getLsbD_single]
  rcases eq_or_ne bit (s.threads thread).currentPriority with rfl | ne
  · have unset := (inv.bits _ inside).not.mpr (not_not.mpr empty)
    simp [unset]
  · simp [ne]

theorem remove_onThread (stat : LifeStat) :
    (s.onThread thread fun t => { t with stat }).rtScheduleRemoveThread thread =
      (s.rtScheduleRemoveThread thread).onThread thread fun t => { t with stat } := by
  simp [rtScheduleRemoveThread_eq, SchedState.listRemove, onThread]

/-! ### The calls -/

theorem Inv.rtThreadResume (inv : s.Inv none)
    (sound : (s.threads thread).stat = .suspend → (s.threads thread).currentPriority < rtThreadPriorityMax) :
    (s.rtThreadResume thread).Inv none := by
  unfold SchedState.rtThreadResume
  split
  · exact inv
  · rename_i suspended
    have suspended := not_not.mp suspended
    have mask := inv.masks thread (by simp) (.inr suspended)
    exact (inv.listRemove (by simp [suspended])).insert (sound suspended) mask

theorem Inv.rtThreadSuspend (inv : s.Inv none) : (s.rtThreadSuspend thread).Inv none := by
  unfold SchedState.rtThreadSuspend
  split
  · exact inv
  · rename_i ready
    have ready := not_not.mp ready
    have mask := inv.masks thread (by simp) (.inl ready)
    have removed := inv.remove (inv.sound_of_started (.inl ready))
    rw [remove_onThread]
    apply (removed.edit _).rejoin
    · simp
    · simpa using mask

/-- `rt_schedule` changes the current thread only. -/
theorem rtSchedule_eq (s : SchedState τ ι) : ∃ current priority,
    s.rtSchedule = { s with currentThread := current, currentPriority := priority } := by
  unfold rtSchedule
  split
  · dsimp only
    split
    · exact ⟨s.currentThread, s.currentPriority, rfl⟩
    · split
      · exact ⟨_, _, rfl⟩
      · exact ⟨s.currentThread, s.currentPriority, rfl⟩
  · exact ⟨s.currentThread, s.currentPriority, rfl⟩

theorem Inv.rtSchedule (inv : s.Inv out) : s.rtSchedule.Inv out := by
  obtain ⟨current, priority, same⟩ := s.rtSchedule_eq
  rw [same]
  exact { inv with }

omit [DecidableEq τ] in
theorem Inv.isolate (inv : s.Inv none) (fresh : (s.threads thread).stat = .init) : s.Inv (some thread) := by
  have ne (other : τ) (stat : LifeStat) (known : (s.threads other).stat = stat) (differs : stat ≠ .init) :
      some other ≠ some thread := by
    intro same
    rw [Option.some.inj same, fresh] at known
    exact differs known.symm
  refine { inv with queued := ?_, listed := ?_, waiting := ?_, dead := ?_, masks := ?_ }
  · intro priority other member
    obtain ⟨-, inside, ready, current⟩ := inv.queued priority other member
    exact ⟨ne other _ ready (by simp), inside, ready, current⟩
  · exact fun other _ => inv.listed other (by simp)
  · intro list other member
    obtain ⟨-, suspended⟩ := inv.waiting list other member
    exact ⟨ne other _ suspended (by simp), suspended⟩
  · intro other member
    obtain ⟨-, closed⟩ := inv.dead other member
    exact ⟨ne other _ closed (by simp), closed⟩
  · exact fun other _ => inv.masks other (by simp)

theorem Inv.rtThreadStartup (inv : s.Inv none) (fresh : (s.threads thread).stat = .init) :
    (s.rtThreadStartup thread).Inv none := by
  have set := (inv.isolate fresh).edit fun t => { setPriority t.initPriority t with stat := .suspend }
  have suspended := set.rejoin (by simp) (by simp [setPriority])
  have resumed := @Inv.rtThreadResume _ _ _ _ thread suspended (by simp [setPriority])
  unfold SchedState.rtThreadStartup
  dsimp only
  split
  · exact resumed.rtSchedule
  · exact resumed

theorem Inv.rtIpcListSuspend [DecidableEq ι] (inv : s.Inv none) (ready : (s.threads thread).stat = .ready)
    (list : ι) (place : ℕ) : (s.rtIpcListSuspend thread list place).Inv none := by
  have suspended := @Inv.rtThreadSuspend _ _ _ s thread inv
  have stat : ((s.rtThreadSuspend thread).threads thread).stat = .suspend := by
    simp [SchedState.rtThreadSuspend, ready]
  refine { suspended with waiting := ?_ }
  intro other waiter member
  rcases eq_or_ne other list with rfl | ne
  · simp only [SchedState.rtIpcListSuspend, Function.update_self, List.mem_append, List.mem_cons] at member
    rcases member with before | rfl | behind
    · exact suspended.waiting other waiter (List.mem_of_mem_take before)
    · exact ⟨by simp, stat⟩
    · exact suspended.waiting other waiter (List.mem_of_mem_drop behind)
  · simp only [SchedState.rtIpcListSuspend, Function.update_of_ne ne] at member
    exact suspended.waiting other waiter member

theorem Inv.rtThreadTimeout (inv : s.Inv none) (suspended : (s.threads thread).stat = .suspend)
    (small : (s.threads thread).currentPriority < rtThreadPriorityMax) : (s.rtThreadTimeout thread).Inv none := by
  have idle : (s.threads thread).stat ≠ .ready := by simp [suspended]
  have removed := (inv.listRemove idle).edit fun t => { t with error := .etimeout }
  apply Inv.rtSchedule
  apply removed.insert
  · simpa using small
  · simpa using inv.masks thread (by simp) (.inr suspended)

theorem Inv.mem_moveToEnd (inv : s.Inv none) (ready : (s.threads thread).stat = .ready) (priority : ℕ) (other : τ) :
    other ∈ Function.update (s.listRemove thread).priorityTable (s.threads thread).currentPriority
        ((s.listRemove thread).priorityTable (s.threads thread).currentPriority ++ [thread]) priority ↔
      other ∈ s.priorityTable priority := by
  rcases eq_or_ne priority (s.threads thread).currentPriority with rfl | ne
  · have linked := inv.listed thread (by simp) ready
    rcases eq_or_ne other thread with rfl | ne
    · simpa [SchedState.listRemove] using linked
    · simp [SchedState.listRemove, ne]
  · have elsewhere : thread ∉ s.priorityTable priority := inv.not_mem (.inr ne.symm)
    rw [Function.update_of_ne ne]
    change other ∈ (s.priorityTable priority).filter (· ≠ thread) ↔ _
    rw [filter_ne_of_not_mem elsewhere]

theorem Inv.rtThreadYield (inv : s.Inv none) : (s.rtThreadYield thread).Inv none := by
  unfold SchedState.rtThreadYield
  dsimp only
  split
  · rename_i beside
    obtain ⟨ready, -⟩ := beside
    apply Inv.rtSchedule
    have mem (priority : ℕ) (other : τ) := inv.mem_moveToEnd ready priority other
    constructor
    · intro priority inside
      refine (inv.bits priority inside).trans (not_congr ?_)
      simp only [List.eq_nil_iff_forall_not_mem, mem]
    · intro priority other member
      exact inv.queued priority other ((mem priority other).mp member)
    · intro other there stat
      exact (mem _ other).mpr (inv.listed other there stat)
    · intro priority
      have unlinked := (inv.distinct priority).filter (· ≠ thread)
      rcases eq_or_ne priority (s.threads thread).currentPriority with rfl | ne
      · simpa [SchedState.listRemove, List.nodup_append] using unlinked
      · simpa [SchedState.listRemove, ne] using unlinked
    · intro list other member
      exact inv.waiting list other (List.mem_of_mem_filter member)
    · intro other member
      exact inv.dead other (List.mem_of_mem_filter member)
    · exact inv.masks
  · exact inv

theorem Inv.setPriority (inv : s.Inv none) (idle : (s.threads thread).stat ≠ .ready) (priority : ℕ) :
    (s.onThread thread (SchedState.setPriority priority)).Inv none := by
  have stat (other : τ) : ((s.onThread thread (SchedState.setPriority priority)).threads other).stat =
      (s.threads other).stat := by
    rcases eq_or_ne other thread with rfl | ne
    · simp [SchedState.setPriority]
    · simp [ne]
  refine { inv with queued := ?_, listed := ?_, waiting := ?_, dead := ?_, masks := ?_ }
  · intro home other member
    obtain ⟨there, inside, ready, current⟩ := inv.queued home other member
    have ne : other ≠ thread := fun same => idle (same ▸ ready)
    exact ⟨there, inside, by rwa [stat], by rwa [onThread_other s ne]⟩
  · intro other _ ready
    rw [stat] at ready
    have ne : other ≠ thread := fun same => idle (same ▸ ready)
    rw [onThread_other s ne]
    exact inv.listed other (by simp) ready
  · intro list other member
    rw [stat]
    exact inv.waiting list other member
  · intro other member
    rw [stat]
    exact inv.dead other member
  · intro other _ started
    rw [stat] at started
    rcases eq_or_ne other thread with rfl | ne
    · simp [SchedState.setPriority]
    · rw [onThread_other s ne]
      exact inv.masks other (by simp) started

theorem Inv.changePriority (inv : s.Inv none) {priority : ℕ}
    (sound : (s.threads thread).stat = .ready → priority < rtThreadPriorityMax) :
    (s.changePriority thread priority).Inv none := by
  unfold SchedState.changePriority
  split
  · rename_i ready
    have removed := (inv.remove (inv.sound_of_started (.inl ready))).edit (SchedState.setPriority priority)
    apply removed.insert
    · simpa [SchedState.setPriority] using sound ready
    · simp [SchedState.setPriority]
  · rename_i idle
    exact inv.setPriority idle priority

theorem Inv.close (inv : s.Inv none) (sound : s.priorityTable (s.threads thread).currentPriority = [] →
      s.readyPriorityGroup &&& (s.threads thread).numberMask = 0) : (s.close thread).Inv none := by
  have removed := (inv.remove sound).edit fun t => { t with stat := .close }
  apply removed.rejoin
  · simp
  · simp

theorem Inv.rtThreadDelete (inv : s.Inv none) (sound : s.priorityTable (s.threads thread).currentPriority = [] →
      s.readyPriorityGroup &&& (s.threads thread).numberMask = 0) : (s.rtThreadDelete thread).Inv none := by
  have closed := inv.close sound
  refine { closed with dead := ?_ }
  intro other member
  rcases List.mem_cons.mp member with rfl | old
  · exact ⟨by simp, by simp [SchedState.rtThreadDelete, SchedState.close]⟩
  · exact closed.dead other old

theorem Inv.step [DecidableEq ι] (inv : s.Inv none) {event : SchedEvent τ ι} (sound : s.Sound event) :
    (s.step event).Inv none := by
  cases event with
  | startup thread =>
    rw [SchedState.step]
    split
    · exact inv.rtThreadStartup ‹_›
    · exact inv
  | suspend thread => exact inv.rtThreadSuspend
  | ipcSuspend thread list place =>
    rw [SchedState.step]
    split
    · exact inv.rtIpcListSuspend ‹_› list place
    · exact inv
  | resume thread => exact inv.rtThreadResume sound
  | timeout thread =>
    rw [SchedState.step]
    split
    · rename_i suspended
      exact inv.rtThreadTimeout suspended (sound suspended)
    · exact inv
  | yield =>
    rw [SchedState.step]
    split
    · exact inv
    · exact inv.rtThreadYield
  | changePriority thread priority => exact inv.changePriority sound
  | delete thread => exact inv.rtThreadDelete sound
  | detach thread cleanup =>
    rw [SchedState.step, rtThreadDetach]
    split
    · exact inv.rtThreadDelete sound
    · exact inv.close sound
  | schedule => exact inv.rtSchedule
  | enterCritical => exact { inv with }
  | exitCritical =>
    rw [SchedState.step]
    split
    · have unlocked : Inv { s with lockNest := 0 } none := { inv with }
      exact unlocked.rtSchedule
    · exact { inv with }

/-- The bitmap leads `rt_schedule` to the highest list that is not empty. -/
theorem Inv.selects (inv : s.Inv none) (unlocked : s.lockNest = 0) {priority : ℕ}
    (inside : priority < rtThreadPriorityMax) {rest : List τ} (list : s.priorityTable priority = thread :: rest)
    (highest : ∀ higher < priority, s.priorityTable higher = []) : s.rtSchedule.currentThread = some thread := by
  have set : s.readyPriorityGroup.getLsbD priority = true := (inv.bits priority inside).mpr (by simp [list])
  have nonzero : s.readyPriorityGroup ≠ 0 := by
    intro zero
    simp [zero] at set
  obtain ⟨bit, found, isSet, lower⟩ := rtFfs_spec nonzero
  have same : bit = priority := by
    rcases lt_trichotomy bit priority with lt | same | gt
    · have filled := (inv.bits bit (lt.trans inside)).mp isSet
      exact absurd (highest bit lt) filled
    · exact same
    · exact absurd set (by simp [lower priority gt])
  have head : s.priorityTable (rtFfs s.readyPriorityGroup - 1) = thread :: rest := by
    rw [found, same, Nat.add_sub_cancel, list]
  unfold SchedState.rtSchedule
  rw [if_pos ⟨unlocked, nonzero⟩]
  simp only [head]
  split
  · rfl
  · rename_i current
    exact not_not.mp current

theorem Inv.consistent (inv : s.Inv none) : s.Consistent where
  bits := inv.bits
  queued := by
    intro priority _ thread member
    obtain ⟨-, -, ready, current⟩ := inv.queued priority thread member
    have mask := inv.masks thread (by simp) (.inl ready)
    exact ⟨ready, current, current ▸ mask⟩
  once := by
    intro thread ready
    have member := inv.listed thread (by simp) ready
    have known (priority : ℕ) (there : thread ∈ s.priorityTable priority) := inv.queued priority thread there
    refine ⟨(known _ member).2.1, List.count_eq_one_of_mem (inv.distinct _) member, ?_, ?_, ?_⟩
    · exact fun priority _ ne there => ne (known priority there).2.2.2.symm
    · intro list there
      simpa [ready] using (inv.waiting list thread there).2
    · intro there
      simpa [ready] using (inv.dead thread there).2
  selects := fun unlocked _ inside _ _ list highest => inv.selects unlocked inside list highest

/-! ### The events that break the agreement -/

theorem not_consistent_of_ready (ready : (s.threads thread).stat = .ready)
    (large : ¬ (s.threads thread).currentPriority < rtThreadPriorityMax) : ¬ s.Consistent :=
  fun consistent => large (consistent.once thread ready).1

@[simp] theorem rtSchedule_threads (s : SchedState τ ι) : s.rtSchedule.threads = s.threads := by
  obtain ⟨current, priority, same⟩ := s.rtSchedule_eq
  rw [same]

theorem rtScheduleInsertThread_self (s : SchedState τ ι) (thread : τ) :
    (s.rtScheduleInsertThread thread).threads thread = { s.threads thread with stat := .ready } := by
  simp [rtScheduleInsertThread]

/-- The removal of a thread takes the bit of a list away that is not empty. -/
theorem Inv.close_loses (inv : s.Inv none) (empty : s.priorityTable (s.threads thread).currentPriority = [])
    (named : s.readyPriorityGroup &&& (s.threads thread).numberMask ≠ 0) :
    ∃ bit < rtThreadPriorityMax, (s.close thread).readyPriorityGroup.getLsbD bit = false ∧
      (s.close thread).priorityTable bit ≠ [] := by
  have idle : (s.threads thread).stat ≠ .ready := by
    intro ready
    have member := inv.listed thread (by simp) ready
    simp [empty] at member
  obtain ⟨bit, set, mask⟩ := BitSet.and_ne_zero_iff.mp named
  have inside : bit < rtThreadPriorityMax := BitVec.lt_of_getLsbD set
  have filled := (inv.bits bit inside).mp set
  refine ⟨bit, inside, ?_, ?_⟩
  · simp only [SchedState.close, rtScheduleRemoveThread_eq, empty, List.filter_nil, if_true, onThread]
    rw [BitVec.getLsbD_and, BitVec.getLsbD_not, mask]
    simp
  · simp only [SchedState.close, rtScheduleRemoveThread_eq, onThread]
    change (s.priorityTable bit).filter (· ≠ thread) ≠ []
    rwa [filter_ne_of_not_mem (inv.not_mem (.inl idle))]

theorem Inv.not_consistent_close (inv : s.Inv none)
    (unsound : ¬ (s.priorityTable (s.threads thread).currentPriority = [] →
      s.readyPriorityGroup &&& (s.threads thread).numberMask = 0)) :
    ¬ (s.close thread).Consistent ∧ ¬ (s.rtThreadDelete thread).Consistent := by
  obtain ⟨empty, named⟩ := Classical.not_imp.mp unsound
  obtain ⟨bit, inside, unset, filled⟩ := inv.close_loses empty named
  have lost : ¬ (s.close thread).readyPriorityGroup.getLsbD bit = true := by simp [unset]
  exact ⟨fun consistent => lost ((consistent.bits bit inside).mpr filled),
    fun consistent => lost ((consistent.bits bit inside).mpr filled)⟩

theorem Inv.breaks [DecidableEq ι] (inv : s.Inv none) {event : SchedEvent τ ι} (unsound : ¬ s.Sound event) :
    ¬ (s.step event).Consistent := by
  cases event with
  | resume thread =>
    obtain ⟨suspended, large⟩ := Classical.not_imp.mp unsound
    have resumed : s.step (.resume thread) = (s.listRemove thread).rtScheduleInsertThread thread := by
      simp [SchedState.step, SchedState.rtThreadResume, suspended]
    rw [resumed]
    apply @not_consistent_of_ready _ _ _ _ thread
    · simp [rtScheduleInsertThread_self]
    · simpa [rtScheduleInsertThread_self] using large
  | timeout thread =>
    obtain ⟨suspended, large⟩ := Classical.not_imp.mp unsound
    have woken : s.step (.timeout thread) = s.rtThreadTimeout thread := if_pos suspended
    rw [woken]
    apply @not_consistent_of_ready _ _ _ _ thread
    · simp [SchedState.rtThreadTimeout, rtScheduleInsertThread_self]
    · simpa [SchedState.rtThreadTimeout, rtScheduleInsertThread_self] using large
  | changePriority thread priority =>
    obtain ⟨ready, large⟩ := Classical.not_imp.mp unsound
    apply @not_consistent_of_ready _ _ _ _ thread
    · simp [SchedState.step, SchedState.changePriority, ready, rtScheduleInsertThread_self]
    · simpa [SchedState.step, SchedState.changePriority, ready, rtScheduleInsertThread_self,
        SchedState.setPriority] using large
  | delete thread => exact (inv.not_consistent_close unsound).2
  | detach thread cleanup =>
    cases cleanup with
    | false => exact (inv.not_consistent_close unsound).1
    | true => exact (inv.not_consistent_close unsound).2
  | startup | suspend | ipcSuspend | yield | schedule | enterCritical | exitCritical => exact absurd trivial unsound

end Edits

omit [DecidableEq τ] in
theorem inv_boot (initPriority : τ → Fin rtThreadPriorityMax) (numberMask : τ → BitVec 32) :
    (boot (ι := ι) initPriority numberMask).Inv none := by
  constructor <;> simp [boot]

/-- The ready queue and the bitmap agree in every state of a run exactly as long as no thread
becomes ready with a priority behind the table, and no thread is deleted with a mask that names bits of the
bitmap while the list of its priority is empty. -/
theorem consistent_iff [DecidableEq ι] (initPriority : τ → Fin rtThreadPriorityMax) (numberMask : τ → BitVec 32)
    (events : List (SchedEvent τ ι)) :
    Run.Always step Consistent (boot initPriority numberMask) events ↔
      Run.Along step Sound (boot initPriority numberMask) events := by
  have keeps (s : SchedState τ ι) event (inv : s.Inv none) (sound : s.Sound event) : (s.step event).Inv none :=
    inv.step sound
  apply Run.always_iff_along keeps _ _ (inv_boot initPriority numberMask)
  · exact fun s inv => inv.consistent
  · exact fun s event inv unsound => inv.breaks unsound

/-- A thread of priority 3 is ready. A thread of priority 5 that is not started, and whose memory
has held the mask of priority 3, is deleted: the bit of the ready thread is lost. -/
theorem staleMask_not_consistent :
    ¬ Run.Always step Consistent
      (boot (ι := Unit) (fun started : Bool => if started then ⟨3, by decide⟩ else ⟨5, by decide⟩) fun _ => 0x08)
      [.startup true, .delete false] := by
  intro always
  have bit := (always.last.bits 3 (by decide)).mpr (by decide)
  revert bit
  decide

end SchedState

end RtThread
