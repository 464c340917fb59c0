import ShdslBridge.Kernel.Thread
import ShdslBridge.Lib.Run

/-! # Work queues of the device drivers

One worker thread takes work items from a list and runs their functions. The stretches with the
scheduler locked, and every statement between them, are the steps of a run. The worker tests the
list, suspends itself and takes the first item in three separate steps, without a second test, and
a submitter decides from the state of the worker's thread whether to resume it, after it has
unlocked the scheduler. As long as no submission falls between the test and the suspension, no
cancellation takes the last item from under a worker that is about to take it, and no resumption
reaches a worker that has gone back to sleep or waits inside a work function, every submission is
run once, in order, unless it is withdrawn.
-/

namespace RtThread

/-- Where the worker stands in `_workqueue_thread_entry`: in front of the test of the list, behind a
test that has found it empty, in the `rt_schedule` behind the suspension, in front of the critical
section, inside a work function, blocked by a call of that function, or inside what it has taken
for a work item when the list was empty. -/
inductive WorkerPhase (ω : Type*)
  | testing
  | idle
  | asleep
  | taking
  | running (work : ω)
  | blocked (work : ω)
  | astray
  deriving DecidableEq

/-- A work queue with its worker, the callers of `rt_workqueue_dowork` that have unlocked the
scheduler in order to resume the worker, and a record of the run. The submissions are numbered. -/
structure Workqueue (ω κ : Type*) where
  /-- The items of `work_list`, each with the number of its submission. -/
  workList : List (ℕ × ω)
  phase : WorkerPhase ω
  stat : ThreadStat
  resuming : κ → Bool
  submitted : ℕ := 0
  ran : List ℕ := []
  withdrawn : List ℕ := []

/-- What happens next: the worker goes on, its work function starts to wait or has got what it waited
for, a caller submits, resumes the worker or cancels. -/
inductive WorkEvent (ω κ : Type*)
  | worker
  | block
  | unblock
  | dowork (caller : κ) (work : ω)
  | resume (caller : κ)
  | cancel (work : ω)

/-- The accounts of the submissions with numbers below `submitted`. -/
structure SubmissionLedger (ran withdrawn queued : List ℕ) (submitted : ℕ) : Prop where
  /-- Every submission has been run, or has been withdrawn, or is queued, and only one of these. -/
  accounted : (ran ++ withdrawn ++ queued).Perm (List.range submitted)
  /-- The runs follow the order of the submissions, and so will those of the queued ones. -/
  inOrder : (ran ++ queued).Pairwise (· < ·)

namespace SubmissionLedger

variable {ran withdrawn queued kept removed : List ℕ} {submitted number : ℕ}

theorem withdraw (ledger : SubmissionLedger ran withdrawn queued submitted) (split : (removed ++ kept).Perm queued)
    (sublist : kept.Sublist queued) : SubmissionLedger ran (withdrawn ++ removed) kept submitted where
  accounted := by
    refine List.Perm.trans ?_ ledger.accounted
    simp only [List.append_assoc]
    exact (split.append_left withdrawn).append_left ran
  inOrder := ledger.inOrder.sublist (sublist.append_left ran)

theorem submit (ledger : SubmissionLedger ran withdrawn queued submitted) :
    SubmissionLedger ran withdrawn (queued ++ [submitted]) (submitted + 1) where
  accounted := by
    rw [← List.append_assoc, List.range_succ]
    exact ledger.accounted.append_right [submitted]
  inOrder := by
    rw [← List.append_assoc, List.pairwise_append]
    refine ⟨ledger.inOrder, List.pairwise_singleton .., ?_⟩
    intro earlier member last same
    rw [List.mem_singleton.mp same]
    apply List.mem_range.mp
    apply ledger.accounted.subset
    simp only [List.mem_append] at member ⊢
    tauto

theorem run (ledger : SubmissionLedger ran withdrawn (number :: queued) submitted) :
    SubmissionLedger (ran ++ [number]) withdrawn queued submitted where
  accounted := by
    refine List.Perm.trans ?_ ledger.accounted
    simp only [List.append_assoc, List.singleton_append]
    exact List.perm_middle.symm.append_left ran
  inOrder := by
    rw [List.append_assoc]
    exact ledger.inOrder

end SubmissionLedger

namespace Workqueue

variable {ω κ : Type*} [DecidableEq ω] [DecidableEq κ]

/-- `rt_list_remove` of a work item, which withdraws its submission. -/
def remove (s : Workqueue ω κ) (work : ω) : Workqueue ω κ :=
  { s with
    workList := s.workList.filter (·.2 ≠ work)
    withdrawn := s.withdrawn ++ (s.workList.filter (·.2 = work)).map Prod.fst }

/-- `rt_list_insert_after` the last item. -/
def insertLast (s : Workqueue ω κ) (work : ω) : Workqueue ω κ :=
  { s with workList := s.workList ++ [(s.submitted, work)], submitted := s.submitted + 1 }

/-- `rt_workqueue_dowork` up to the end of its critical section. -/
def rtWorkqueueDowork (s : Workqueue ω κ) (caller : κ) (work : ω) : Workqueue ω κ :=
  let s := (s.remove work).insertLast work
  if s.stat ≠ .ready then { s with resuming := Function.update s.resuming caller true } else s

/-- `rt_thread_resume` of the worker, behind the critical section. -/
def rtThreadResume (s : Workqueue ω κ) (caller : κ) : Workqueue ω κ :=
  { s with stat := .ready, resuming := Function.update s.resuming caller false }

/-- The critical section of the worker. An empty list makes the list head the next work item. -/
def take (s : Workqueue ω κ) : Workqueue ω κ :=
  match s.workList with
  | [] => { s with phase := .astray }
  | (number, work) :: rest => { s with workList := rest, phase := .running work, ran := s.ran ++ [number] }

def workerStep (s : Workqueue ω κ) : Workqueue ω κ :=
  if s.stat ≠ .ready then s
  else
    match s.phase with
    | .testing => { s with phase := if s.workList = [] then .idle else .taking }
    | .idle => { s with stat := .suspend, phase := .asleep }
    | .asleep => { s with phase := .taking }
    | .taking => s.take
    | .running _ => { s with phase := .testing }
    | .blocked _ => s
    | .astray => s

/-- One event. An event that cannot happen changes nothing. -/
def step (s : Workqueue ω κ) : WorkEvent ω κ → Workqueue ω κ
  | .worker => s.workerStep
  | .block =>
    match s.phase with
    | .running work => if s.stat = .ready then { s with stat := .suspend, phase := .blocked work } else s
    | _ => s
  | .unblock =>
    match s.phase with
    | .blocked work => { s with stat := .ready, phase := .running work }
    | _ => s
  | .dowork caller work => if s.resuming caller = true then s else s.rtWorkqueueDowork caller work
  | .resume caller => if s.resuming caller = true then s.rtThreadResume caller else s
  | .cancel work => s.remove work

/-- The queue behind `rt_workqueue_create`. -/
def start : Workqueue ω κ where
  workList := []
  phase := .testing
  stat := .ready
  resuming := fun _ => false

def queued (s : Workqueue ω κ) : List ℕ := s.workList.map Prod.fst

structure Serves (s : Workqueue ω κ) : Prop where
  /-- The worker has run nothing but queued items. -/
  tookQueued : s.phase ≠ .astray
  ledger : SubmissionLedger s.ran s.withdrawn s.queued s.submitted
  /-- The worker sleeps beside a queued item only until the caller that has queued it resumes it. -/
  awake : s.phase = .asleep → s.stat = .suspend → s.workList ≠ [] → ∃ caller, s.resuming caller = true
  /-- A work function that waits is not resumed by a submitter. -/
  undisturbed : ∀ work, s.phase = .blocked work → s.stat = .suspend

/-- The callers come at the right time: no submission between a test that finds the list empty and the
suspension; no resumption of a worker that waits in a work function or that sleeps with an empty
list; and no cancellation of the last item once the worker has been woken for it or has seen it. -/
def InTime (s : Workqueue ω κ) : WorkEvent ω κ → Prop
  | .dowork _ _ => s.phase ≠ .idle
  | .resume _ => (∀ work, s.phase ≠ .blocked work) ∧ (s.phase = .asleep → s.stat = .suspend → s.workList ≠ [])
  | .cancel work => s.phase = .taking ∨ (s.phase = .asleep ∧ s.stat = .ready) → ∃ item ∈ s.workList, item.2 ≠ work
  | _ => True

/-! ## What timely callers keep -/

/-- The promises, and what the worker knows of the list. -/
structure Inv (s : Workqueue ω κ) : Prop where
  serves : s.Serves
  idle : s.phase = .idle → s.workList = []
  taking : s.phase = .taking → s.workList ≠ []
  woken : s.phase = .asleep → s.stat = .ready → s.workList ≠ []

section

variable {s : Workqueue ω κ} {work : ω} {caller : κ}

omit [DecidableEq ω] [DecidableEq κ] in
theorem inv_start : Inv (start : Workqueue ω κ) where
  serves :=
    { tookQueued := by simp [start]
      ledger := ⟨List.Perm.refl _, List.Pairwise.nil⟩
      awake := by simp [start]
      undisturbed := by simp [start] }
  idle := fun _ => rfl
  taking := by simp [start]
  woken := by simp [start]

omit [DecidableEq κ] in
theorem remove_ledger (ledger : SubmissionLedger s.ran s.withdrawn s.queued s.submitted) (work : ω) :
    SubmissionLedger (s.remove work).ran (s.remove work).withdrawn (s.remove work).queued
      (s.remove work).submitted := by
  refine ledger.withdraw ?_ ?_
  · have split := (List.filter_append_perm (fun item : ℕ × ω => decide (item.2 = work)) s.workList).map Prod.fst
    simpa [queued, remove] using split
  · exact List.filter_sublist.map Prod.fst

omit [DecidableEq κ] in
theorem submit_ledger (ledger : SubmissionLedger s.ran s.withdrawn s.queued s.submitted) (work : ω) :
    SubmissionLedger ((s.remove work).insertLast work).ran ((s.remove work).insertLast work).withdrawn
      ((s.remove work).insertLast work).queued ((s.remove work).insertLast work).submitted := by
  have submitted := (remove_ledger ledger work).submit
  simpa [queued, insertLast] using submitted

omit [DecidableEq κ] in
theorem remove_ne_nil (other : ∃ item ∈ s.workList, item.2 ≠ work) : (s.remove work).workList ≠ [] := by
  obtain ⟨item, member, apart⟩ := other
  exact List.ne_nil_of_mem (List.mem_filter.mpr ⟨member, by simpa using apart⟩)

omit [DecidableEq κ] in
theorem Inv.cancel (inv : Inv s)
    (inTime : s.phase = .taking ∨ (s.phase = .asleep ∧ s.stat = .ready) → ∃ item ∈ s.workList, item.2 ≠ work) :
    Inv (s.remove work) where
  serves :=
    { tookQueued := inv.serves.tookQueued
      ledger := remove_ledger inv.serves.ledger work
      awake := by
        intro asleep suspends some
        refine inv.serves.awake asleep suspends ?_
        intro empty
        exact some (by simp [remove, empty])
      undisturbed := inv.serves.undisturbed }
  idle := by
    intro idle
    simp [remove, inv.idle idle]
  taking := fun taking => remove_ne_nil (inTime (.inl taking))
  woken := fun asleep ready => remove_ne_nil (inTime (.inr ⟨asleep, ready⟩))

theorem Inv.dowork (inv : Inv s) (inTime : s.phase ≠ .idle) (caller : κ) (work : ω) :
    Inv (s.rtWorkqueueDowork caller work) := by
  have ledger := submit_ledger inv.serves.ledger work
  have some : ((s.remove work).insertLast work).workList ≠ [] := by simp [insertLast]
  simp only [rtWorkqueueDowork]
  split_ifs with suspends
  · refine ⟨⟨inv.serves.tookQueued, ledger, ?_, inv.serves.undisturbed⟩, fun idle => absurd idle inTime,
      fun _ => some, fun _ _ => some⟩
    intro _ _ _
    exact ⟨caller, by simp⟩
  · refine ⟨⟨inv.serves.tookQueued, ledger, ?_, inv.serves.undisturbed⟩, fun idle => absurd idle inTime,
      fun _ => some, fun _ _ => some⟩
    intro _ suspended
    exact absurd (by rw [suspended]; decide) suspends

omit [DecidableEq ω] in
theorem Inv.resume (inv : Inv s) (running : ∀ work, s.phase ≠ .blocked work)
    (some : s.phase = .asleep → s.stat = .suspend → s.workList ≠ []) (caller : κ) :
    Inv (s.rtThreadResume caller) where
  serves :=
    { tookQueued := inv.serves.tookQueued
      ledger := inv.serves.ledger
      awake := by
        intro _ suspends
        cases suspends
      undisturbed := fun work blocked => absurd blocked (running work) }
  idle := inv.idle
  taking := inv.taking
  woken := by
    intro asleep _
    cases stat : s.stat with
    | ready => exact inv.woken asleep stat
    | suspend => exact some asleep stat

omit [DecidableEq ω] [DecidableEq κ] in
theorem Inv.take (inv : Inv s) (taking : s.phase = .taking) : Inv s.take := by
  obtain ⟨⟨number, work⟩, rest, list⟩ := List.exists_cons_of_ne_nil (inv.taking taking)
  have ledger := inv.serves.ledger
  have result : s.take = { s with workList := rest, phase := .running work, ran := s.ran ++ [number] } := by
    rw [Workqueue.take, list]
  rw [queued, list] at ledger
  rw [result]
  exact ⟨⟨nofun, ledger.run, nofun, nofun⟩, nofun, nofun, nofun⟩

omit [DecidableEq ω] [DecidableEq κ] in
theorem Inv.move (inv : Inv s) {phase : WorkerPhase ω} {stat : ThreadStat} (tookQueued : phase ≠ .astray)
    (awake : phase = .asleep → stat = .suspend → s.workList = [])
    (undisturbed : ∀ work, phase = .blocked work → stat = .suspend) (idle : phase = .idle → s.workList = [])
    (taking : phase = .taking → s.workList ≠ []) (woken : phase = .asleep → stat ≠ .ready) :
    Inv { s with phase, stat } where
  serves :=
    { tookQueued
      ledger := inv.serves.ledger
      awake := fun asleep suspends some => absurd (awake asleep suspends) some
      undisturbed }
  idle := idle
  taking := taking
  woken := fun asleep ready => absurd ready (woken asleep)

omit [DecidableEq ω] [DecidableEq κ] in
theorem Inv.workerStep (inv : Inv s) : Inv s.workerStep := by
  unfold Workqueue.workerStep
  by_cases ready : s.stat ≠ .ready
  · rwa [if_pos ready]
  rw [if_neg ready]
  have stat : s.stat = .ready := not_not.mp ready
  split
  · by_cases empty : s.workList = []
    · rw [if_pos empty]
      exact inv.move nofun nofun nofun (fun _ => empty) nofun nofun
    · rw [if_neg empty]
      exact inv.move nofun nofun nofun nofun (fun _ => empty) nofun
  case h_2 idle => exact inv.move nofun (fun _ _ => inv.idle idle) nofun nofun nofun nofun
  case h_3 asleep => exact inv.move nofun nofun nofun nofun (fun _ => inv.woken asleep stat) nofun
  case h_4 taking => exact inv.take taking
  case h_5 => exact inv.move nofun nofun nofun nofun nofun nofun
  case h_6 => exact inv
  case h_7 => exact inv

theorem Inv.step (inv : Inv s) (event : WorkEvent ω κ) (inTime : s.InTime event) : Inv (s.step event) := by
  cases event with
  | worker => exact inv.workerStep
  | block =>
    simp only [Workqueue.step]
    split
    · split_ifs
      · exact inv.move nofun nofun (fun _ _ => rfl) nofun nofun nofun
      · exact inv
    · exact inv
  | unblock =>
    simp only [Workqueue.step]
    split
    · exact inv.move nofun nofun nofun nofun nofun nofun
    · exact inv
  | dowork caller work =>
    simp only [Workqueue.step]
    split_ifs
    · exact inv
    · exact inv.dowork inTime caller work
  | resume caller =>
    simp only [Workqueue.step]
    split_ifs
    · exact inv.resume inTime.1 inTime.2 caller
    · exact inv
  | cancel work => exact inv.cancel inTime

end

/-- In every run whose callers come at the right time, the work queue keeps its promises in every
state. -/
theorem serves_of_inTime (run : List (WorkEvent ω κ)) (inTime : Run.Along step InTime start run) :
    Run.Always step Serves start run := by
  have keeps : ∀ (s : Workqueue ω κ) event, Inv s → InTime s event → Inv (step s event) :=
    fun _ event inv inTime => inv.step event inTime
  exact inTime.always keeps (fun _ inv => inv.serves) inv_start

/-- The worker sleeps, two items are submitted, the worker is resumed and runs the first, which
waits for a while. -/
theorem serves_of_inTime_twoItems :
    let run : List (WorkEvent ℕ Unit) :=
      [.worker, .worker, .dowork () 7, .resume (), .dowork () 8, .worker, .worker, .block, .unblock, .worker]
    Run.Along step InTime start run ∧ Run.Always step Serves (start : Workqueue ℕ Unit) run := by
  have inTime : Run.Along step InTime (start : Workqueue ℕ Unit)
      [.worker, .worker, .dowork () 7, .resume (), .dowork () 8, .worker, .worker, .block, .unblock,
        .worker] := by
    refine ⟨trivial, trivial, ?_, ?_, ?_, trivial, trivial, trivial, trivial, trivial, trivial⟩
    · change WorkerPhase.asleep ≠ WorkerPhase.idle
      exact nofun
    · change (∀ work : ℕ, WorkerPhase.asleep ≠ WorkerPhase.blocked work) ∧ (_ → _ → [(0, 7)] ≠ [])
      exact ⟨nofun, fun _ _ => by decide⟩
    · change WorkerPhase.asleep ≠ WorkerPhase.idle
      exact nofun
  exact ⟨inTime, serves_of_inTime _ inTime⟩

/-- Three runs that break the promises. A submission between the test and the suspension leaves the
worker asleep beside it, with nobody to resume it. A cancellation behind the test leaves the worker
with the list head for a work item. A submission during a work function that waits resumes the
worker. -/
theorem untimely_not_serves :
    ¬ Serves (Run.exec step (start : Workqueue ℕ Unit) [.worker, .dowork () 7, .worker]) ∧
    ¬ Serves (Run.exec step (start : Workqueue ℕ Unit) [.dowork () 7, .worker, .cancel 7, .worker]) ∧
    ¬ Serves (Run.exec step (start : Workqueue ℕ Unit)
      [.dowork () 7, .worker, .worker, .block, .dowork () 8, .resume ()]) := by
  refine ⟨?_, ?_, ?_⟩
  · intro serves
    obtain ⟨_, resuming⟩ := serves.awake rfl rfl (by decide)
    cases resuming
  · intro serves
    exact serves.tookQueued rfl
  · intro serves
    exact absurd (serves.undisturbed 7 rfl) (by decide)

end Workqueue

end RtThread
