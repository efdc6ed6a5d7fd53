import Mathlib.Data.Finset.Basic
import Mathlib.Logic.Function.Basic

/-!
A reader-writer mutex: one thread holds it exclusively, or any number of threads
share it. What an operation does is told by the mode in which each thread holds
the mutex: the mode of the thread that calls it changes, every other one stays.
-/
namespace Concurrency

inductive HoldMode where
  | exclusive
  | shared
  deriving DecidableEq, Repr

inductive SharedMutex (ι : Type) where
  | exclusive (t : ι)
  | shared (readers : Finset ι)
  deriving DecidableEq

namespace SharedMutex
variable {ι : Type}

def free : SharedMutex ι := .shared ∅

def unlock : SharedMutex ι → SharedMutex ι
  | .exclusive _ => free
  | .shared readers => .shared readers

variable [DecidableEq ι] {m m' : SharedMutex ι} {t u : ι}

def mode : SharedMutex ι → ι → Option HoldMode
  | .exclusive u, t => if t = u then some .exclusive else none
  | .shared readers, t => if t ∈ readers then some .shared else none

/-- Refused, the caller waiting, while anybody holds the mutex. -/
def lock (m : SharedMutex ι) (t : ι) : Option (SharedMutex ι) :=
  match m with
  | .exclusive _ => none
  | .shared readers => if readers = ∅ then some (.exclusive t) else none

/-- Refused while a thread holds the mutex exclusively. -/
def lockShared (m : SharedMutex ι) (t : ι) : Option (SharedMutex ι) :=
  match m with
  | .exclusive _ => none
  | .shared readers => some (.shared (insert t readers))

def unlockShared (m : SharedMutex ι) (t : ι) : SharedMutex ι :=
  match m with
  | .exclusive u => .exclusive u
  | .shared readers => .shared (readers.erase t)

@[simp] theorem mode_free : (free : SharedMutex ι).mode t = none := by
  simp [mode, free]

theorem held_exclusive (held : m.mode t = some .exclusive) : m = .exclusive t := by
  cases m with
  | exclusive u =>
    by_cases own : t = u
    · rw [own]
    · simp [mode, own] at held
  | shared readers =>
    by_cases member : t ∈ readers <;> simp [mode, member] at held

theorem exclusive_excludes (held : m.mode t = some .exclusive) (other : u ≠ t) :
    m.mode u = none := by
  rw [held_exclusive held]
  simp [mode, other]

theorem lock_mode (h : m.lock t = some m') :
    m'.mode = Function.update m.mode t (some .exclusive) := by
  unfold lock at h
  split at h
  · contradiction
  · split at h
    · rename_i empty
      cases h
      funext u
      by_cases own : u = t <;> simp [mode, empty, own]
    · contradiction

theorem lockShared_mode (h : m.lockShared t = some m') :
    m'.mode = Function.update m.mode t (some .shared) := by
  unfold lockShared at h
  split at h
  · contradiction
  · cases h
    funext u
    by_cases own : u = t <;> simp [mode, own]

theorem unlock_mode (held : m.mode t = some .exclusive) :
    m.unlock.mode = Function.update m.mode t none := by
  rw [held_exclusive held]
  funext u
  by_cases own : u = t <;> simp [unlock, free, mode, own]

theorem unlockShared_mode (held : m.mode t = some .shared) :
    (m.unlockShared t).mode = Function.update m.mode t none := by
  cases m with
  | exclusive u => by_cases own : t = u <;> simp [mode, own] at held
  | shared readers =>
    funext u
    by_cases own : u = t <;> simp [unlockShared, mode, own]

end SharedMutex

end Concurrency
