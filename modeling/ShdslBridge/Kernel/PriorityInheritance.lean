import ShdslBridge.Kernel.Mutex

/-! # Priority inheritance

A waiting thread raises the owner of the mutex to its own priority, and the release of the mutex
restores the priority that the owner had when it took the mutex. Two laws of the method are stated
for runs over any number of threads and mutexes: a thread without a mutex runs with the priority it
was started with, and an owner runs at least at the priority of every thread that waits for it.
Each holds in every state of a run exactly under a condition on the single events.
-/

namespace RtThread.MutexState

variable {τ μ : Type*} [DecidableEq τ] [DecidableEq μ]

/-! ### What the events do to priorities, owners and waiting lists -/

variable {s : MutexState τ μ} {thread : τ} {mutex : μ} {event : MutexEvent τ μ}

omit [DecidableEq τ] [DecidableEq μ] in
theorem Structured.running_notWaiting (st : s.Structured) (running : s.Running thread) (mutex : μ) :
    thread ∉ (s.mutexes mutex).suspendThread := by
  simp [(st mutex).waiting, running.2]

theorem takeWait_currentPriority (s : MutexState τ μ) (thread : τ) (mutex : μ) (time : ℤ) (other : τ) :
    ((s.takeWait thread mutex time).threads other).currentPriority =
      if (s.mutexes mutex).owner = some other ∧
          (s.threads thread).currentPriority < (s.threads other).currentPriority then
        (s.threads thread).currentPriority
      else (s.threads other).currentPriority := by
  have waits := @onThread_keeps _ (s.raiseOwner thread mutex) _ _ Thread.currentPriority _ _
    (Thread.enterWait_currentPriority time (s.raiseOwner thread mutex thread)) other
  simp only [takeWait, waits, raiseOwner_apply]
  split <;> rfl

theorem takeWait_initPriority (s : MutexState τ μ) (thread : τ) (mutex : μ) (time : ℤ) (other : τ) :
    ((s.takeWait thread mutex time).threads other).initPriority = (s.threads other).initPriority := by
  have waits := onThread_keeps Thread.initPriority
    (Thread.enterWait_initPriority time (s.raiseOwner thread mutex thread)) other
  simp only [takeWait, waits, raiseOwner_initPriority]

theorem takeWait_owner (s : MutexState τ μ) (thread : τ) (mutex : μ) (time : ℤ) (at_ : μ) :
    ((s.takeWait thread mutex time).mutexes at_).owner = (s.mutexes at_).owner := by
  rcases eq_or_ne at_ mutex with rfl | ne
  · simp [takeWait]
  · simp [takeWait, ne]

theorem mem_takeWait (s : MutexState τ μ) (thread : τ) (mutex : μ) (time : ℤ) (at_ : μ) (other : τ) :
    other ∈ ((s.takeWait thread mutex time).mutexes at_).suspendThread ↔
      (at_ = mutex ∧ other = thread) ∨ other ∈ (s.mutexes at_).suspendThread := by
  rcases eq_or_ne at_ mutex with rfl | ne
  · simp [takeWait]
  · simp [takeWait, ne]

theorem Structured.releaseLast_currentPriority (st : s.Structured) (thread : τ) (mutex : μ) (other : τ) :
    ((s.releaseLast thread mutex).threads other).currentPriority =
      if other = thread then (s.mutexes mutex).originalPriority
      else (s.threads other).currentPriority := by
  have restored : (s.restoreOwner thread mutex other).currentPriority =
      if other = thread then (s.mutexes mutex).originalPriority
      else (s.threads other).currentPriority := by
    rw [restoreOwner_apply]
    split <;> rfl
  rcases queue : (s.mutexes mutex).suspendThread with _ | ⟨first, rest⟩
  · rw [releaseLast_free thread queue]
    exact restored
  · rw [releaseLast_handOver st thread queue, ← restored]
    exact onThread_keeps Thread.currentPriority rfl other

theorem Structured.releaseLast_initPriority (st : s.Structured) (thread : τ) (mutex : μ) (other : τ) :
    ((s.releaseLast thread mutex).threads other).initPriority = (s.threads other).initPriority := by
  rcases queue : (s.mutexes mutex).suspendThread with _ | ⟨first, rest⟩
  · rw [releaseLast_free thread queue]
    exact restoreOwner_initPriority ..
  · rw [releaseLast_handOver st thread queue]
    exact (onThread_keeps Thread.initPriority rfl other).trans (restoreOwner_initPriority ..)

theorem Structured.releaseLast_other (st : s.Structured) (thread : τ) {mutex at_ : μ} (ne : at_ ≠ mutex) :
    (s.releaseLast thread mutex).mutexes at_ = s.mutexes at_ := by
  rcases queue : (s.mutexes mutex).suspendThread with _ | ⟨first, rest⟩
  · simp [releaseLast_free thread queue, ne]
  · simp [releaseLast_handOver st thread queue, ne]

/-- The first waiting thread is the new owner, and the others go on waiting. -/
theorem Structured.releaseLast_self (st : s.Structured) (thread : τ) (mutex : μ) :
    ((s.releaseLast thread mutex).mutexes mutex).owner = (s.mutexes mutex).suspendThread.head? ∧
      ((s.releaseLast thread mutex).mutexes mutex).suspendThread = (s.mutexes mutex).suspendThread.tail := by
  rcases queue : (s.mutexes mutex).suspendThread with _ | ⟨first, rest⟩
  · simp [releaseLast_free thread queue, queue]
  · simp [releaseLast_handOver st thread queue]

/-- A property that each event keeps exactly under its condition, in states with the structure. -/
theorem always_iff_along {good : MutexState τ μ → Prop} {cond : MutexState τ μ → MutexEvent τ μ → Prop}
    {priority : τ → ℕ} {flag : μ → IpcFlag} (begins : good (start priority flag))
    (keeps : ∀ s event, s.Structured → good s → cond s event → good (s.step event))
    (breaks : ∀ s event, s.Structured → good s → ¬ cond s event → ¬ good (s.step event))
    (events : List (MutexEvent τ μ)) :
    Run.Always step good (start priority flag) events ↔ Run.Along step cond (start priority flag) events := by
  have keepsBoth : ∀ s event, s.Structured ∧ good s → cond s event →
      (s.step event).Structured ∧ good (s.step event) := by
    rintro s event ⟨st, holds⟩ meets
    exact ⟨st.step event, keeps s event st holds meets⟩
  exact Run.always_iff_along keepsBoth (fun _ both => both.2)
    (fun s event both fails => breaks s event both.1 both.2 fails)
    ⟨structured_start priority flag, begins⟩ events

/-! ### A thread without a mutex has its own priority -/

/-- A thread that owns no mutex runs with the priority that it was started with. -/
def Restored (s : MutexState τ μ) : Prop :=
  ∀ thread, (∀ mutex, (s.mutexes mutex).owner ≠ some thread) →
    (s.threads thread).currentPriority = (s.threads thread).initPriority

/-- The event does not give up the last mutex of a thread that got that mutex while another one had
raised its priority. -/
def UnraisedLast (s : MutexState τ μ) : MutexEvent τ μ → Prop
  | .release thread mutex => s.Running thread → (s.mutexes mutex).owner = some thread →
    (s.mutexes mutex).hold = 1 → (∀ other, other ≠ mutex → (s.mutexes other).owner ≠ some thread) →
    (s.mutexes mutex).originalPriority = (s.threads thread).initPriority
  | _ => True

omit [DecidableEq τ] [DecidableEq μ] in
theorem Restored.frame {s s' : MutexState τ μ} (restored : s.Restored)
    (current : ∀ thread, (s'.threads thread).currentPriority = (s.threads thread).currentPriority)
    (init : ∀ thread, (s'.threads thread).initPriority = (s.threads thread).initPriority)
    (owners : ∀ thread mutex, (s.mutexes mutex).owner = some thread →
      (s'.mutexes mutex).owner = some thread) : s'.Restored := by
  intro thread without
  rw [current, init]
  exact restored thread fun mutex owner => without mutex (owners thread mutex owner)

theorem Restored.takeWait (restored : s.Restored) (thread : τ) (mutex : μ) (time : ℤ) :
    (s.takeWait thread mutex time).Restored := by
  intro other without
  simp only [takeWait_owner] at without
  rw [takeWait_currentPriority, takeWait_initPriority, if_neg fun raised => without mutex raised.1]
  exact restored other without

theorem Restored.releaseLast (st : s.Structured) (restored : s.Restored) (owner : (s.mutexes mutex).owner = some thread)
    (unraised : (∀ other, other ≠ mutex → (s.mutexes other).owner ≠ some thread) → (s.mutexes mutex).originalPriority = (s.threads thread).initPriority)
    :
    (s.releaseLast thread mutex).Restored := by
  intro other without
  rw [st.releaseLast_currentPriority, st.releaseLast_initPriority]
  have withoutOther : ∀ at_, at_ ≠ mutex → (s.mutexes at_).owner ≠ some other := by
    intro at_ ne
    rw [← st.releaseLast_other thread ne]
    exact without at_
  rcases eq_or_ne other thread with rfl | ne
  · rw [if_pos rfl]
    exact unraised withoutOther
  · rw [if_neg ne]
    apply restored other
    intro at_
    rcases eq_or_ne at_ mutex with rfl | neMutex
    · rw [owner]
      simpa using ne.symm
    · exact withoutOther at_ neMutex

theorem Restored.step (st : s.Structured) (restored : s.Restored) (unraised : s.UnraisedLast event) :
    (s.step event).Restored := by
  have outcome := st.outcome event
  generalize s.step event = after at outcome
  cases outcome with
  | idle => exact restored
  | refused =>
    exact restored.frame (onThread_keeps Thread.currentPriority rfl) (onThread_keeps Thread.initPriority rfl)
      fun _ _ owner => owner
  | nested thread mutex _ _ _ =>
    apply restored.frame (onThread_keeps Thread.currentPriority rfl) (onThread_keeps Thread.initPriority rfl)
    intro other at_ owner
    rcases eq_or_ne at_ mutex with rfl | ne
    · simpa [MutexState.takeNested] using owner
    · simpa [MutexState.takeNested, ne] using owner
  | free thread mutex _ _ free =>
    apply restored.frame (onThread_keeps Thread.currentPriority rfl) (onThread_keeps Thread.initPriority rfl)
    intro other at_ owner
    rcases eq_or_ne at_ mutex with rfl | ne
    · simp [free] at owner
    · simpa [MutexState.takeFree, ne] using owner
  | wait thread mutex time => exact restored.takeWait thread mutex time
  | unnested thread mutex =>
    refine Restored.frame restored ?_ ?_ ?_
    · exact fun _ => rfl
    · exact fun _ => rfl
    · intro other at_ owner
      rcases eq_or_ne at_ mutex with rfl | ne
      · simpa [MutexState.releaseNested] using owner
      · simpa [MutexState.releaseNested, ne] using owner
  | last thread mutex running owner one => exact restored.releaseLast st owner (unraised running owner one)
  | timeout =>
    exact restored.frame (onThread_keeps Thread.currentPriority rfl) (onThread_keeps Thread.initPriority rfl)
      fun _ _ owner => owner
  | wake => exact restored.frame (fun _ => rfl) (fun _ => rfl) fun _ _ owner => owner

/-- The state reached by a release of the last nested take by its owner. -/
theorem step_releaseLast (running : s.Running thread) (owner : (s.mutexes mutex).owner = some thread)
    (one : (s.mutexes mutex).hold = 1) : s.step (.release thread mutex) = s.releaseLast thread mutex := by
  simp [MutexState.step, running, rtMutexRelease, owner, one]

theorem Structured.raisedLast (st : s.Structured) (raised : ¬ s.UnraisedLast event) : ¬ (s.step event).Restored := by
  cases event with
  | release thread mutex =>
    obtain ⟨running, owner, one, only, differs⟩ : s.Running thread ∧ (s.mutexes mutex).owner = some thread ∧
        (s.mutexes mutex).hold = 1 ∧ (∀ other, other ≠ mutex → (s.mutexes other).owner ≠ some thread) ∧
        (s.mutexes mutex).originalPriority ≠ (s.threads thread).initPriority := by
      simpa [UnraisedLast] using raised
    rw [step_releaseLast running owner one]
    intro restored
    have own := restored thread fun at_ => by
      rcases eq_or_ne at_ mutex with rfl | ne
      · rw [(st.releaseLast_self thread at_).1]
        exact fun first => (st at_).apart thread owner (List.mem_of_mem_head? first)
      · rw [st.releaseLast_other thread ne]
        exact only at_ ne
    rw [st.releaseLast_currentPriority, if_pos rfl, st.releaseLast_initPriority] at own
    exact differs own
  | take | timeout | wake => exact absurd trivial raised

/-- Priority inheritance is undone in every state of a run exactly as long as no thread gives up its
last mutex after having got that mutex at a raised priority. -/
theorem restored_iff (priority : τ → ℕ) (flag : μ → IpcFlag) (events : List (MutexEvent τ μ)) :
    Run.Always step Restored (start priority flag) events ↔
      Run.Along step UnraisedLast (start priority flag) events := by
  apply always_iff_along
  · exact fun _ _ => rfl
  · intro s event st restored unraised
    exact restored.step st unraised
  · intro s event st _ raised
    exact st.raisedLast raised

/-- The low thread takes a second mutex while the high one waits for the first: after both releases
it keeps the high priority. -/
def overlappingReleases : List (MutexEvent Bool Bool) :=
  [.take false false (-1), .take true false (-1), .take false true (-1), .release false false,
    .release false true]

theorem overlappingReleases_not_restored :
    ¬ Restored (Run.exec step (start (fun high : Bool => if high then 5 else 20) fun _ : Bool => .prio)
      overlappingReleases) := by
  intro restored
  have own := restored false (by decide)
  revert own
  decide

/-! ### An owner has the priority of the threads that wait for it -/

/-- The owner of a mutex runs at least at the priority of every thread that waits for the mutex. -/
def Inherited (s : MutexState τ μ) : Prop :=
  ∀ mutex owner, (s.mutexes mutex).owner = some owner →
    ∀ waiter ∈ (s.mutexes mutex).suspendThread,
      (s.threads owner).currentPriority ≤ (s.threads waiter).currentPriority

/-- The event makes no thread wait for a lower one. A take that raises the owner finds it running,
or waiting for an owner that is high enough. The last release of a mutex restores a priority that is
high enough for the other mutexes of the thread, and its first waiting thread is the highest. -/
def NoInversion (s : MutexState τ μ) : MutexEvent τ μ → Prop
  | .take thread mutex time => s.Running thread → time ≠ 0 →
    ∀ owner, (s.mutexes mutex).owner = some owner → owner ≠ thread →
      (s.threads thread).currentPriority < (s.threads owner).currentPriority →
      ∀ blocking above, (s.mutexes blocking).owner = some above →
        owner ∈ (s.mutexes blocking).suspendThread →
        (s.threads above).currentPriority ≤ (s.threads thread).currentPriority
  | .release thread mutex => s.Running thread → (s.mutexes mutex).owner = some thread →
    (s.mutexes mutex).hold = 1 →
    (∀ other, other ≠ mutex → (s.mutexes other).owner = some thread →
      ∀ waiter ∈ (s.mutexes other).suspendThread,
        (s.mutexes mutex).originalPriority ≤ (s.threads waiter).currentPriority) ∧
    (∀ first ∈ (s.mutexes mutex).suspendThread.head?, ∀ waiter ∈ (s.mutexes mutex).suspendThread.tail,
      (s.threads first).currentPriority ≤ (s.threads waiter).currentPriority)
  | _ => True

omit [DecidableEq τ] [DecidableEq μ] in
/-- A change that leaves the priorities and adds no owner with a waiting thread. -/
theorem Inherited.frame {s s' : MutexState τ μ} (inherited : s.Inherited)
    (current : ∀ thread, (s'.threads thread).currentPriority = (s.threads thread).currentPriority)
    (pairs : ∀ mutex owner waiter, (s'.mutexes mutex).owner = some owner →
      waiter ∈ (s'.mutexes mutex).suspendThread →
      (s.mutexes mutex).owner = some owner ∧ waiter ∈ (s.mutexes mutex).suspendThread) :
    s'.Inherited := by
  intro mutex owner owned waiter waits
  obtain ⟨owned, waits⟩ := pairs mutex owner waiter owned waits
  rw [current, current]
  exact inherited mutex owner owned waiter waits

theorem Inherited.takeWait (inherited : s.Inherited) {owner : τ} (owned : (s.mutexes mutex).owner = some owner)
    (foreign : owner ≠ thread) (time : ℤ)
    (above : (s.threads thread).currentPriority < (s.threads owner).currentPriority → ∀ blocking above, (s.mutexes blocking).owner = some above → owner ∈ (s.mutexes blocking).suspendThread → (s.threads above).currentPriority ≤ (s.threads thread).currentPriority)
    :
    (s.takeWait thread mutex time).Inherited := by
  intro at_ owner' owned' waiter waits
  rw [takeWait_owner] at owned'
  rw [takeWait_currentPriority, takeWait_currentPriority, owned]
  simp only [Option.some.injEq]
  rcases (mem_takeWait ..).mp waits with ⟨rfl, rfl⟩ | waits
  · -- the caller waits for the owner that it has raised
    obtain rfl : owner = owner' := Option.some.inj (owned.symm.trans owned')
    simp only [foreign, false_and, if_false, true_and]
    split <;> omega
  · -- an old pair: both priorities can only have been raised, the one of the waiting thread to that
    -- of the caller
    have before := inherited at_ owner' owned' waiter waits
    rcases eq_or_ne owner waiter with rfl | ne
    · have enough := fun raised => above raised at_ owner' owned' waits
      split <;> split <;> omega
    · simp only [ne, false_and, if_false]
      split <;> omega

theorem Inherited.releaseLast (st : s.Structured) (inherited : s.Inherited) (running : s.Running thread)
    (others : ∀ other, other ≠ mutex → (s.mutexes other).owner = some thread → ∀ waiter ∈ (s.mutexes other).suspendThread, (s.mutexes mutex).originalPriority ≤ (s.threads waiter).currentPriority)
    (ordered : ∀ first ∈ (s.mutexes mutex).suspendThread.head?, ∀ waiter ∈ (s.mutexes mutex).suspendThread.tail, (s.threads first).currentPriority ≤ (s.threads waiter).currentPriority)
    :
    (s.releaseLast thread mutex).Inherited := by
  intro at_ owner owned waiter waits
  have notThread : ∀ other ∈ (s.mutexes at_).suspendThread, other ≠ thread := by
    rintro other member rfl
    exact st.running_notWaiting running at_ member
  rw [st.releaseLast_currentPriority, st.releaseLast_currentPriority]
  rcases eq_or_ne at_ mutex with rfl | ne
  · obtain ⟨handed, left⟩ := st.releaseLast_self thread at_
    rw [handed] at owned
    rw [left] at waits
    rw [if_neg (notThread owner (List.mem_of_mem_head? owned)),
      if_neg (notThread waiter (List.mem_of_mem_tail waits))]
    exact ordered owner owned waiter waits
  · rw [st.releaseLast_other thread ne] at owned waits
    rw [if_neg (notThread waiter waits)]
    split
    · next same => exact others at_ ne (same ▸ owned) waiter waits
    · exact inherited at_ owner owned waiter waits

theorem Inherited.step (st : s.Structured) (inherited : s.Inherited) (noInversion : s.NoInversion event) :
    (s.step event).Inherited := by
  have outcome := st.outcome event
  generalize s.step event = after at outcome
  cases outcome with
  | idle => exact inherited
  | refused =>
    exact inherited.frame (onThread_keeps Thread.currentPriority rfl) fun _ _ _ owned waits => ⟨owned, waits⟩
  | nested thread mutex _ _ _ =>
    apply inherited.frame (onThread_keeps Thread.currentPriority rfl)
    intro at_ owner waiter owned waits
    rcases eq_or_ne at_ mutex with rfl | ne
    · simpa [MutexState.takeNested] using And.intro owned waits
    · simpa [MutexState.takeNested, ne] using And.intro owned waits
  | free thread mutex _ _ free =>
    apply inherited.frame (onThread_keeps Thread.currentPriority rfl)
    intro at_ owner waiter owned waits
    rcases eq_or_ne at_ mutex with rfl | ne
    · simp [MutexState.takeFree, (st at_).owned free] at waits
    · simpa [MutexState.takeFree, ne] using And.intro owned waits
  | wait thread mutex time owner running owned foreign positive =>
    exact inherited.takeWait owned foreign time (noInversion running positive owner owned foreign)
  | unnested thread mutex =>
    refine Inherited.frame inherited (fun _ => rfl) ?_
    intro at_ owner waiter owned waits
    rcases eq_or_ne at_ mutex with rfl | ne
    · simpa [MutexState.releaseNested] using And.intro owned waits
    · simpa [MutexState.releaseNested, ne] using And.intro owned waits
  | last thread mutex running owner one =>
    obtain ⟨others, ordered⟩ := noInversion running owner one
    exact inherited.releaseLast st running others ordered
  | timeout thread =>
    apply inherited.frame (onThread_keeps Thread.currentPriority rfl)
    exact fun _ _ _ owned waits => ⟨owned, List.mem_of_mem_erase waits⟩
  | wake => exact inherited.frame (fun _ => rfl) fun _ _ _ owned waits => ⟨owned, waits⟩

/-- A take that raises an owner which itself waits for a lower thread. -/
theorem Structured.inversion_take (st : s.Structured) {time : ℤ} {owner above : τ} {blocking : μ}
    (running : s.Running thread) (positive : time ≠ 0) (owned : (s.mutexes mutex).owner = some owner)
    (foreign : owner ≠ thread) (raised : (s.threads thread).currentPriority < (s.threads owner).currentPriority)
    (ownedAbove : (s.mutexes blocking).owner = some above) (waits : owner ∈ (s.mutexes blocking).suspendThread)
    (lower : (s.threads thread).currentPriority < (s.threads above).currentPriority) :
    ¬ (s.step (.take thread mutex time)).Inherited := by
  have unavailable : ¬ 0 < (s.mutexes mutex).value := by simp [(st mutex).value, owned]
  have stepped : s.step (.take thread mutex time) = s.takeWait thread mutex time := by
    simp only [MutexState.step, if_pos running, rtMutexTake, owned, Option.some.injEq, foreign, if_false,
      if_neg unavailable, positive]
  have ne : above ≠ owner := fun same => (st blocking).apart owner (same ▸ ownedAbove) waits
  rw [stepped]
  intro inherited
  have pair := inherited blocking above (by rw [takeWait_owner, ownedAbove]) owner
    ((mem_takeWait ..).mpr (.inr waits))
  rw [takeWait_currentPriority, takeWait_currentPriority, owned] at pair
  simp only [Option.some.injEq, ne.symm, false_and, if_false, raised, and_self, if_true] at pair
  omega

theorem Structured.inversion (st : s.Structured) (inverts : ¬ s.NoInversion event) : ¬ (s.step event).Inherited := by
  cases event with
  | take thread mutex time =>
    simp only [NoInversion] at inverts
    push Not at inverts
    obtain ⟨running, positive, owner, owned, foreign, raised, blocking, above, ownedAbove, waits, lower⟩ :=
      inverts
    exact st.inversion_take running positive owned foreign raised ownedAbove waits lower
  | release thread mutex =>
    simp only [NoInversion] at inverts
    push Not at inverts
    obtain ⟨running, owner, one, inverts⟩ := inverts
    have notThread : ∀ at_, ∀ other ∈ (s.mutexes at_).suspendThread, other ≠ thread := by
      rintro at_ other member rfl
      exact st.running_notWaiting running at_ member
    rw [step_releaseLast running owner one]
    intro inherited
    have priority := st.releaseLast_currentPriority thread mutex
    obtain ⟨first, isFirst, waiter, waits, lower⟩ := inverts (by
      intro other ne owned waiter waits
      have pair := inherited other thread
      rw [st.releaseLast_other thread ne] at pair
      have ordered := pair owned waiter waits
      rwa [priority, priority, if_pos rfl, if_neg (notThread other waiter waits)] at ordered)
    have pair := inherited mutex first
    rw [(st.releaseLast_self thread mutex).1, (st.releaseLast_self thread mutex).2] at pair
    have ordered := pair isFirst waiter waits
    rw [priority, priority, if_neg (notThread mutex first (List.mem_of_mem_head? isFirst)),
      if_neg (notThread mutex waiter (List.mem_of_mem_tail waits))] at ordered
    omega
  | timeout | wake => exact absurd trivial inverts

/-- No thread waits for a lower one in any state of a run exactly as long as no event inverts the
priorities. -/
theorem inherited_iff (priority : τ → ℕ) (flag : μ → IpcFlag) (events : List (MutexEvent τ μ)) :
    Run.Always step Inherited (start priority flag) events ↔
      Run.Along step NoInversion (start priority flag) events := by
  apply always_iff_along
  · intro mutex owner owned
    simp [start, rtMutexInit] at owned
  · intro s event st inherited noInversion
    exact inherited.step st noInversion
  · intro s event st _ inverts
    exact st.inversion inverts

/-- With the FIFO flag the first of two waiting threads gets the mutex although the second is
higher. -/
def fifoHandOver {τ : Type} (first second third : τ) : List (MutexEvent τ Unit) :=
  [.take first () (-1), .take second () (-1), .take third () (-1), .release first ()]

theorem fifoHandOver_not_inherited :
    ¬ Inherited (Run.exec step (start (fun thread : Fin 3 => 20 - 5 * thread.val) fun _ : Unit => .fifo)
      (fifoHandOver 0 1 2)) := by
  intro inherited
  have pair := inherited () 1 (by decide) 2 (by decide)
  revert pair
  decide

end RtThread.MutexState
