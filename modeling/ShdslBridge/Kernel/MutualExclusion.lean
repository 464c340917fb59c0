import ShdslBridge.Kernel.Mutex

/-! # Mutual exclusion with recursion

A thread is inside a mutex while it has taken it more often than it has released it. As long as no
release finds a nesting that has wrapped the eight bits of `hold`, exactly the owner is inside, and
`hold` is the depth of its nesting; the release at a wrapped depth gives the mutex away too early.
-/

namespace RtThread.MutexState

variable {τ μ : Type*} [DecidableEq τ] [DecidableEq μ]

def depth (s : MutexState τ μ) (thread : τ) (mutex : μ) : ℕ := s.taken thread mutex - s.given thread mutex

/-- One thread at most is inside, a free mutex is marked as free, and whoever is not the owner has
released as often as it has taken. -/
structure Exclusive (mutex : μ) (s : MutexState τ μ) : Prop where
  one : ∀ thread other, s.given thread mutex < s.taken thread mutex →
    s.given other mutex < s.taken other mutex → thread = other
  value : (s.mutexes mutex).value = 1 ↔ (s.mutexes mutex).owner = none
  idle : (s.mutexes mutex).owner = none → (s.mutexes mutex).hold = 0
  balanced : ∀ thread, (s.mutexes mutex).owner ≠ some thread → s.taken thread mutex = s.given thread mutex

/-- The event is not a release at a depth that `hold` shows as one although it is more. -/
def NotWrapped (mutex : μ) (s : MutexState τ μ) : MutexEvent τ μ → Prop
  | .release thread released => released = mutex → s.Running thread →
    (s.mutexes mutex).owner = some thread → s.depth thread mutex % 256 = 1 → s.depth thread mutex = 1
  | _ => True

/-- The eight bits count the depth of the owner, and nobody else is inside. -/
structure Counted (mutex : μ) (s : MutexState τ μ) : Prop where
  structured : s.Structured
  inside : ∀ thread, (s.mutexes mutex).owner = some thread → s.given thread mutex < s.taken thread mutex
  hold : ∀ thread, (s.mutexes mutex).owner = some thread →
    (s.mutexes mutex).hold = BitVec.ofNat 8 (s.depth thread mutex)
  outside : ∀ thread, (s.mutexes mutex).owner ≠ some thread → s.taken thread mutex = s.given thread mutex

omit [DecidableEq τ] [DecidableEq μ] in
theorem counted_start (mutex : μ) (priority : τ → ℕ) (flag : μ → IpcFlag) :
    Counted mutex (start priority flag) where
  structured := structured_start priority flag
  inside := by simp [start, rtMutexInit]
  hold := by simp [start, rtMutexInit]
  outside _ _ := rfl

variable {mutex : μ} {s : MutexState τ μ}

omit [DecidableEq τ] [DecidableEq μ] in
theorem Counted.exclusive (counted : s.Counted mutex) : s.Exclusive mutex where
  one thread other taken taken' := by
    have owns : ∀ thread, s.given thread mutex < s.taken thread mutex →
        (s.mutexes mutex).owner = some thread := by
      intro thread open_
      by_contra foreign
      have balanced := counted.outside thread foreign
      omega
    exact Option.some.inj ((owns thread taken).symm.trans (owns other taken'))
  value := by
    rw [(counted.structured mutex).value]
    split <;> simp_all
  idle := (counted.structured mutex).idle
  balanced := counted.outside

omit [DecidableEq τ] [DecidableEq μ] in
theorem Counted.frame {s s' : MutexState τ μ} (counted : s.Counted mutex) (structured : s'.Structured)
    (owner : (s'.mutexes mutex).owner = (s.mutexes mutex).owner)
    (hold : (s'.mutexes mutex).hold = (s.mutexes mutex).hold)
    (taken : ∀ thread, s'.taken thread mutex = s.taken thread mutex)
    (given : ∀ thread, s'.given thread mutex = s.given thread mutex) : s'.Counted mutex where
  structured := structured
  inside thread := by
    rw [owner, taken, given]
    exact counted.inside thread
  hold thread := by
    rw [owner, hold, depth, taken, given]
    exact counted.hold thread
  outside thread := by
    rw [owner, taken, given]
    exact counted.outside thread

@[simp] theorem count_self (counts : τ → μ → ℕ) (thread : τ) (mutex : μ) :
    count counts thread mutex thread mutex = counts thread mutex + 1 := by
  simp [count]

theorem count_thread (counts : τ → μ → ℕ) {thread other : τ} (ne : other ≠ thread) (mutex at_ : μ) :
    count counts thread mutex other at_ = counts other at_ := by
  simp [count, ne]

theorem count_mutex (counts : τ → μ → ℕ) (thread other : τ) {mutex at_ : μ} (ne : at_ ≠ mutex) :
    count counts thread mutex other at_ = counts other at_ := by
  rcases eq_or_ne other thread with rfl | neThread
  · simp [count, ne]
  · simp [count, neThread]

theorem Counted.takeNested (counted : s.Counted mutex) {thread : τ} (owner : (s.mutexes mutex).owner = some thread) :
    (s.takeNested thread mutex).Counted mutex := by
  have inside := counted.inside thread owner
  have hold := counted.hold thread owner
  constructor
  · exact counted.structured.takeNested owner
  · intro other owner'
    obtain rfl : thread = other := by simpa [MutexState.takeNested, owner] using owner'
    simp only [MutexState.takeNested, count_self]
    omega
  · intro other owner'
    obtain rfl : thread = other := by simpa [MutexState.takeNested, owner] using owner'
    simp only [MutexState.takeNested, Function.update_self, depth, count_self] at hold ⊢
    rw [hold, Nat.succ_sub (Nat.le_of_lt inside), Nat.succ_eq_add_one, BitVec.ofNat_add]
    rfl
  · intro other foreign
    have ne : other ≠ thread := by
      rintro rfl
      simp [MutexState.takeNested, owner] at foreign
    simp only [MutexState.takeNested, count_thread _ ne]
    exact counted.outside other (by simpa [MutexState.takeNested] using foreign)

omit [DecidableEq τ] [DecidableEq μ] in
/-- A mutex that goes from nobody to a thread, or from its owner to a waiting thread. -/
theorem Counted.acquired {s' : MutexState τ μ} (structured : s'.Structured) (thread : τ)
    (owner : (s'.mutexes mutex).owner = some thread) (hold : (s'.mutexes mutex).hold = 1)
    (once : s'.taken thread mutex = s'.given thread mutex + 1)
    (balanced : ∀ other, other ≠ thread → s'.taken other mutex = s'.given other mutex) : s'.Counted mutex where
  structured := structured
  inside other owner' := by
    obtain rfl := Option.some.inj (owner.symm.trans owner')
    omega
  hold other owner' := by
    obtain rfl := Option.some.inj (owner.symm.trans owner')
    rw [hold, depth, once, Nat.add_sub_cancel_left]
    rfl
  outside other foreign := balanced other fun same => foreign (same ▸ owner)

theorem Counted.takeFree (counted : s.Counted mutex) (thread : τ) (free : (s.mutexes mutex).owner = none) :
    (s.takeFree thread mutex).Counted mutex := by
  have balanced : ∀ other, s.taken other mutex = s.given other mutex := fun other =>
    counted.outside other (by simp [free])
  apply Counted.acquired (counted.structured.takeFree thread free) thread
  · simp [MutexState.takeFree]
  · simp [MutexState.takeFree, (counted.structured mutex).idle free]
  · simp [MutexState.takeFree, balanced]
  · intro other ne
    simp [MutexState.takeFree, count_thread _ ne, balanced]

theorem Counted.releaseNested (counted : s.Counted mutex) {thread : τ} (owner : (s.mutexes mutex).owner = some thread)
    (more : (s.mutexes mutex).hold ≠ 1) : (s.releaseNested thread mutex).Counted mutex := by
  have inside := counted.inside thread owner
  have hold := counted.hold thread owner
  have deep : s.depth thread mutex ≠ 1 := fun one => more (by rw [hold, one]; rfl)
  simp only [depth] at hold deep
  constructor
  · exact counted.structured.releaseNested owner
  · intro other owner'
    obtain rfl : thread = other := by simpa [MutexState.releaseNested, owner] using owner'
    simp only [MutexState.releaseNested, count_self]
    omega
  · intro other owner'
    obtain rfl : thread = other := by simpa [MutexState.releaseNested, owner] using owner'
    obtain ⟨left, open_⟩ : ∃ left, s.taken thread mutex - s.given thread mutex = left + 1 :=
      ⟨s.taken thread mutex - s.given thread mutex - 1, by omega⟩
    have closed : s.taken thread mutex - (s.given thread mutex + 1) = left := by omega
    simp only [MutexState.releaseNested, Function.update_self, depth, count_self, hold, open_, closed]
    rw [BitVec.ofNat_add]
    exact BitVec.add_sub_cancel _ _
  · intro other foreign
    have ne : other ≠ thread := by
      rintro rfl
      simp [MutexState.releaseNested, owner] at foreign
    simp only [MutexState.releaseNested, count_thread _ ne]
    exact counted.outside other (by simpa [MutexState.releaseNested] using foreign)

/-- The last release at depth one leaves a free mutex or one that the first waiting thread has taken
once. -/
theorem Counted.releaseLast (counted : s.Counted mutex) {thread : τ} (owner : (s.mutexes mutex).owner = some thread)
    (one : s.depth thread mutex = 1) : (s.releaseLast thread mutex).Counted mutex := by
  have structured := counted.structured.releaseLast owner
  have balanced : ∀ other, other ≠ thread → s.taken other mutex = s.given other mutex := by
    intro other ne
    exact counted.outside other (by simpa [owner] using ne.symm)
  simp only [depth] at one
  rcases queue : (s.mutexes mutex).suspendThread with _ | ⟨first, rest⟩
  · rw [releaseLast_free thread queue] at structured ⊢
    constructor
    · exact structured
    · intro other owner'
      simp at owner'
    · intro other owner'
      simp at owner'
    · intro other _
      rcases eq_or_ne other thread with rfl | ne
      · simp only [count_self]
        omega
      · simp only [count_thread _ ne]
        exact balanced other ne
  · rw [releaseLast_handOver counted.structured thread queue] at structured ⊢
    have ne : first ≠ thread := by
      rintro rfl
      exact (counted.structured mutex).apart first owner (by simp [queue])
    apply Counted.acquired structured first
    · simp
    · simp
    · simp [count_thread _ ne, balanced first ne]
    · intro other neFirst
      simp only [count_thread _ neFirst]
      rcases eq_or_ne other thread with rfl | neThread
      · simp only [count_self]
        omega
      · simp only [count_thread _ neThread]
        exact balanced other neThread

theorem Counted.step (counted : s.Counted mutex) {event : MutexEvent τ μ} (notWrapped : s.NotWrapped mutex event) :
    (s.step event).Counted mutex := by
  have structured := counted.structured.step event
  have outcome := counted.structured.outcome event
  generalize s.step event = after at outcome structured
  cases outcome with
  | idle => exact counted
  | refused => exact counted.frame structured rfl rfl (fun _ => rfl) (fun _ => rfl)
  | nested thread at_ time _ owner =>
    rcases eq_or_ne mutex at_ with rfl | ne
    · exact counted.takeNested owner
    · apply counted.frame structured
      · simp [MutexState.takeNested, ne]
      · simp [MutexState.takeNested, ne]
      · exact fun other => count_mutex _ _ _ ne
      · exact fun _ => rfl
  | free thread at_ time _ free =>
    rcases eq_or_ne mutex at_ with rfl | ne
    · exact counted.takeFree thread free
    · apply counted.frame structured
      · simp [MutexState.takeFree, ne]
      · simp [MutexState.takeFree, ne]
      · exact fun other => count_mutex _ _ _ ne
      · exact fun _ => rfl
  | wait thread at_ time =>
    apply counted.frame structured
    · rcases eq_or_ne mutex at_ with rfl | ne
      · simp [MutexState.takeWait]
      · simp [MutexState.takeWait, ne]
    · rcases eq_or_ne mutex at_ with rfl | ne
      · simp [MutexState.takeWait]
      · simp [MutexState.takeWait, ne]
    · exact fun _ => rfl
    · exact fun _ => rfl
  | unnested thread at_ _ owner more =>
    rcases eq_or_ne mutex at_ with rfl | ne
    · exact counted.releaseNested owner more
    · apply counted.frame structured
      · simp [MutexState.releaseNested, ne]
      · simp [MutexState.releaseNested, ne]
      · exact fun _ => rfl
      · exact fun other => count_mutex _ _ _ ne
  | last thread at_ running owner one =>
    rcases eq_or_ne mutex at_ with rfl | ne
    · refine counted.releaseLast owner (notWrapped rfl running owner ?_)
      have hold := congrArg BitVec.toNat (counted.hold thread owner)
      simpa [one] using hold.symm
    · rcases queue : (s.mutexes at_).suspendThread with _ | ⟨first, rest⟩
      · rw [releaseLast_free thread queue] at structured ⊢
        apply counted.frame structured
        · simp [ne]
        · simp [ne]
        · exact fun _ => rfl
        · exact fun other => count_mutex _ _ _ ne
      · rw [releaseLast_handOver counted.structured thread queue] at structured ⊢
        apply counted.frame structured
        · simp [ne]
        · simp [ne]
        · exact fun other => count_mutex _ _ _ ne
        · exact fun other => count_mutex _ _ _ ne
  | timeout => exact counted.frame structured rfl rfl (fun _ => rfl) (fun _ => rfl)
  | wake => exact counted.frame structured rfl rfl (fun _ => rfl) (fun _ => rfl)

/-- A release out of a wrapped nesting gives the mutex away while the thread is still inside. -/
theorem Counted.wrapped (counted : s.Counted mutex) {event : MutexEvent τ μ} (wraps : ¬ s.NotWrapped mutex event) :
    ¬ (s.step event).Exclusive mutex := by
  cases event with
  | release thread released =>
    obtain ⟨rfl, running, owner, shown, deep⟩ : released = mutex ∧ s.Running thread ∧
        (s.mutexes mutex).owner = some thread ∧ s.depth thread mutex % 256 = 1 ∧ s.depth thread mutex ≠ 1 := by
      simpa [NotWrapped] using wraps
    have inside := counted.inside thread owner
    have one : (s.mutexes released).hold = 1 := by
      rw [counted.hold thread owner]
      exact BitVec.eq_of_toNat_eq (by simpa using shown)
    have stepped : s.step (.release thread released) = s.releaseLast thread released := by
      simp [MutexState.step, running, rtMutexRelease, owner, one]
    simp only [depth] at deep
    intro exclusive
    rw [stepped] at exclusive
    rcases queue : (s.mutexes released).suspendThread with _ | ⟨first, rest⟩
    · rw [releaseLast_free thread queue] at exclusive
      have balanced := exclusive.balanced thread (by simp)
      simp only [count_self] at balanced
      omega
    · rw [releaseLast_handOver counted.structured thread queue] at exclusive
      have ne : first ≠ thread := by
        rintro rfl
        exact (counted.structured released).apart first owner (by simp [queue])
      have balanced := exclusive.balanced thread (by simpa using ne)
      simp only [count_self, count_thread _ ne.symm] at balanced
      omega
  | take | timeout | wake => exact absurd trivial wraps

/-- One thread at most is inside a mutex, and it alone ends its nesting, in every state of a run
exactly as long as no release finds a wrapped depth. -/
theorem exclusive_iff (mutex : μ) (priority : τ → ℕ) (flag : μ → IpcFlag) (events : List (MutexEvent τ μ)) :
    Run.Always step (Exclusive mutex) (start priority flag) events ↔
      Run.Along step (NotWrapped mutex) (start priority flag) events := by
  apply Run.always_iff_along _ _ _ (counted_start mutex priority flag)
  · intro s event counted notWrapped
    exact counted.step notWrapped
  · intro s counted
    exact counted.exclusive
  · intro s event counted wraps
    exact counted.wrapped wraps

/-- A thread that takes a free mutex again and again is inside as deep as it has taken. -/
theorem nestedTakes (mutex : μ) (thread : τ) (priority : τ → ℕ) (flag : μ → IpcFlag) (more : ℕ) :
    let s := Run.exec step (start priority flag) (List.replicate (more + 1) (.take thread mutex 0))
    s.Running thread ∧ (s.mutexes mutex).owner = some thread ∧ s.Counted mutex ∧
      s.taken thread mutex = more + 1 ∧ s.given thread mutex = 0 := by
  induction more with
  | zero =>
    have running : (start priority flag).Running thread := ⟨rfl, rfl⟩
    have counted := (counted_start mutex priority flag).takeFree thread rfl
    have first : (start priority flag).step (.take thread mutex 0) =
        (start priority flag).takeFree thread mutex := by
      simp only [MutexState.step, if_pos running]
      simp [rtMutexTake, start, rtMutexInit]
    simp only [Nat.zero_add, List.replicate_one, Run.exec_cons, Run.exec_nil, first]
    refine ⟨?_, ?_, counted, ?_, rfl⟩
    · simp [MutexState.takeFree, Running, start, Thread.setError, Thread.started]
    · simp [MutexState.takeFree]
    · simp [MutexState.takeFree, start]
  | succ more ih =>
    rw [List.replicate_succ', Run.exec_append]
    generalize Run.exec step (start priority flag) (List.replicate (more + 1) (.take thread mutex 0)) = s at ih ⊢
    obtain ⟨running, owner, counted, taken, given⟩ := ih
    have next : s.step (.take thread mutex 0) = s.takeNested thread mutex := by
      simp [MutexState.step, running, rtMutexTake, owner]
    simp only [Run.exec_cons, Run.exec_nil, next]
    refine ⟨?_, ?_, counted.takeNested owner, ?_, given⟩
    · simpa [MutexState.takeNested, Running, Thread.setError] using running
    · simp [MutexState.takeNested, owner]
    · simp [MutexState.takeNested, taken]

/-- A release out of a nesting that `hold` shows as one frees the mutex with takes not released. -/
theorem wrappedTakes_not_exclusive (mutex : μ) (thread : τ) (priority : τ → ℕ) (flag : μ → IpcFlag) {more : ℕ}
    (wraps : more % 256 = 0) (deep : more ≠ 0) :
    ¬ Exclusive mutex (Run.exec step (start priority flag)
      (List.replicate (more + 1) (.take thread mutex 0) ++ [.release thread mutex])) := by
  obtain ⟨running, owner, counted, taken, given⟩ := nestedTakes mutex thread priority flag more
  rw [Run.exec_append, Run.exec_cons, Run.exec_nil]
  refine counted.wrapped fun fits => deep ?_
  have shown := fits rfl running owner
  simp only [depth, taken, given] at shown
  omega

/-- After 257 takes the first release frees the mutex, with 256 takes not released. -/
theorem deepNesting_not_exclusive :
    ¬ Exclusive () (Run.exec step (start (fun _ : Unit => 10) fun _ : Unit => .fifo)
      (List.replicate (256 + 1) (.take () () 0) ++ [.release () ()])) :=
  wrappedTakes_not_exclusive () () _ _ (by decide) (by decide)

end RtThread.MutexState
