import Mathlib.Data.Nat.Basic

/-! # Recursive locks

A lock is free or held by one thread, and its holder may take it again. The holder is stored with the
number of times beyond the first, so a lock that is held without a count cannot be written down.
-/

/-- A recursive lock. -/
structure RecursiveLock (Thread : Type*) where
  holder : Option (Thread × ℕ)

namespace RecursiveLock

variable {Thread : Type*} [DecidableEq Thread]

/-- How many times the thread holds the lock. -/
def count (lock : RecursiveLock Thread) (thread : Thread) : ℕ :=
  match lock.holder with
  | none => 0
  | some (other, more) => if other = thread then more + 1 else 0

/-- The lock behind an acquisition, `none` while another thread holds it. -/
def take (lock : RecursiveLock Thread) (thread : Thread) : Option (RecursiveLock Thread) :=
  match lock.holder with
  | none => some ⟨some (thread, 0)⟩
  | some (other, more) => if other = thread then some ⟨some (thread, more + 1)⟩ else none

/-- The lock behind a release; it stays as it is where the thread does not hold it. -/
def release (lock : RecursiveLock Thread) (thread : Thread) : RecursiveLock Thread :=
  match lock.holder with
  | none => lock
  | some (other, more) =>
    if other = thread then
      match more with
      | 0 => ⟨none⟩
      | more + 1 => ⟨some (thread, more)⟩
    else lock

variable {lock taken : RecursiveLock Thread} {thread other : Thread}

/-- Two threads do not hold the lock at once. -/
theorem count_exclusive (holds : 0 < lock.count thread) (different : other ≠ thread) : lock.count other = 0 := by
  obtain ⟨- | ⟨holder, more⟩⟩ := lock
  · rfl
  · rw [count] at holds ⊢
    dsimp only at holds ⊢
    split_ifs at holds with same
    · exact if_neg fun also => different (also.symm.trans same)
    · exact absurd holds (lt_irrefl 0)

theorem count_take (acquired : lock.take thread = some taken) : taken.count thread = lock.count thread + 1 := by
  obtain ⟨- | ⟨holder, more⟩⟩ := lock
  · obtain rfl := Option.some.inj acquired
    exact if_pos rfl
  · rw [take] at acquired
    dsimp only at acquired
    split_ifs at acquired with same
    obtain rfl := Option.some.inj acquired
    subst same
    rw [count, count]
    dsimp only
    rw [if_pos rfl, if_pos rfl]

theorem count_take_of_ne (acquired : lock.take thread = some taken) (different : other ≠ thread) :
    taken.count other = lock.count other := by
  have own : 0 < taken.count thread := by
    rw [count_take acquired]
    exact Nat.succ_pos _
  rw [count_exclusive own different]
  obtain ⟨- | ⟨holder, more⟩⟩ := lock
  · rfl
  · rw [take] at acquired
    dsimp only at acquired
    split_ifs at acquired with same
    exact (if_neg fun also => different (also.symm.trans same)).symm

theorem count_release (lock : RecursiveLock Thread) (thread : Thread) :
    (lock.release thread).count thread = lock.count thread - 1 := by
  obtain ⟨- | ⟨holder, more⟩⟩ := lock
  · rfl
  · rw [release, count, count]
    dsimp only
    by_cases same : holder = thread
    · rw [if_pos same, if_pos same]
      cases more with
      | zero => rfl
      | succ more =>
        dsimp only
        rw [if_pos rfl]
        rfl
    · rw [if_neg same, if_neg same]
      dsimp only
      rw [if_neg same]

theorem count_release_of_ne (lock : RecursiveLock Thread) (different : other ≠ thread) :
    (lock.release thread).count other = lock.count other := by
  obtain ⟨- | ⟨holder, more⟩⟩ := lock
  · rfl
  · rw [release]
    dsimp only
    split_ifs with same
    · subst same
      have outside : count ⟨some (holder, more)⟩ other = 0 := if_neg fun also => different also.symm
      rw [outside]
      cases more with
      | zero => rfl
      | succ more => exact if_neg fun also => different also.symm
    · rfl

end RecursiveLock
