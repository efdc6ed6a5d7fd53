import Mathlib.Data.List.Basic

/-!
A condition variable as a scheduler sees it: who sleeps on it, and who has been
notified but has not yet come back from `wait`. A thread may also wake up with
no notification at all. The mutex that goes with a wait is the caller's.
-/
namespace Concurrency

structure CondVar (θ : Type) where
  blocked : List θ
  notified : List θ
  deriving DecidableEq, Repr

namespace CondVar
variable {θ : Type}

def empty : CondVar θ := ⟨[], []⟩

def wait (c : CondVar θ) (t : θ) : CondVar θ := { c with blocked := t :: c.blocked }

/-- The sleeper that a `notify_one` wakes is the scheduler's choice; there is no
    choice to make exactly when nobody sleeps. -/
def notifyOne [DecidableEq θ] (c : CondVar θ) : Option θ → Option (CondVar θ)
  | none => if c.blocked = [] then some c else none
  | some t =>
    if t ∈ c.blocked then some ⟨c.blocked.filter (· ≠ t), t :: c.notified⟩ else none

def notifyAll (c : CondVar θ) : CondVar θ := ⟨[], c.blocked ++ c.notified⟩

/-- A spurious wake-up. -/
def wake [DecidableEq θ] (c : CondVar θ) (t : θ) : CondVar θ :=
  { c with blocked := c.blocked.filter (· ≠ t) }

def resume [DecidableEq θ] (c : CondVar θ) (t : θ) : CondVar θ :=
  { c with notified := c.notified.filter (· ≠ t) }

@[simp] theorem blocked_wait (c : CondVar θ) (t : θ) : (c.wait t).blocked = t :: c.blocked := rfl

variable [DecidableEq θ]

@[simp] theorem blocked_resume (c : CondVar θ) (t : θ) : (c.resume t).blocked = c.blocked := rfl

@[simp] theorem mem_blocked_wake (c : CondVar θ) (t u : θ) :
    u ∈ (c.wake t).blocked ↔ u ∈ c.blocked ∧ u ≠ t := by
  simp [wake]

@[simp] theorem mem_notified_resume (c : CondVar θ) (t u : θ) :
    u ∈ (c.resume t).notified ↔ u ∈ c.notified ∧ u ≠ t := by
  simp [resume]

theorem notifyOne_cases {c c' : CondVar θ} {choice : Option θ} (h : c.notifyOne choice = some c') :
    c.blocked = [] ∧ c' = c ∨
      ∃ t ∈ c.blocked, c' = ⟨c.blocked.filter (· ≠ t), t :: c.notified⟩ := by
  cases choice with
  | none =>
    simp only [notifyOne, Option.ite_none_right_eq_some, Option.some.injEq] at h
    exact Or.inl ⟨h.1, h.2.symm⟩
  | some t =>
    simp only [notifyOne, Option.ite_none_right_eq_some, Option.some.injEq] at h
    exact Or.inr ⟨t, h.1, h.2.symm⟩

theorem notifyOne_blocked {c c' : CondVar θ} {choice : Option θ} {u : θ}
    (h : c.notifyOne choice = some c') (asleep : u ∈ c'.blocked) : u ∈ c.blocked := by
  rcases notifyOne_cases h with ⟨_, rfl⟩ | ⟨t, _, rfl⟩
  · exact asleep
  · exact (List.mem_filter.mp asleep).1

theorem notifyOne_notified {c c' : CondVar θ} {choice : Option θ} {u : θ}
    (h : c.notifyOne choice = some c') (told : u ∈ c.notified) : u ∈ c'.notified := by
  rcases notifyOne_cases h with ⟨_, rfl⟩ | ⟨t, _, rfl⟩
  · exact told
  · exact List.mem_cons_of_mem t told

theorem notifyOne_wakes {c c' : CondVar θ} {choice : Option θ}
    (h : c.notifyOne choice = some c') (sleepers : c.blocked ≠ []) :
    ∃ t ∈ c.blocked, t ∈ c'.notified := by
  rcases notifyOne_cases h with ⟨nobody, _⟩ | ⟨t, asleep, rfl⟩
  · exact absurd nobody sleepers
  · exact ⟨t, asleep, List.mem_cons_self⟩

theorem notifyOne_possible (c : CondVar θ) : ∃ choice c', c.notifyOne choice = some c' := by
  cases h : c.blocked with
  | nil => exact ⟨none, c, by simp [notifyOne, h]⟩
  | cons t rest => exact ⟨some t, _, by simp [notifyOne, h]; rfl⟩

end CondVar

end Concurrency
