import MappedQueue.Concurrency.CondVar

/-!
The latching event. `NotifyAll` stores the flag and wakes the waiters in two
steps and without the mutex; `Wait` holds the mutex from its test of the flag to
the moment it falls asleep. The callback of `Wait()` always answers 1.
-/
namespace MappedQueue
open Concurrency

structure Event (ι : Type) where
  notifyFlag : Bool
  mutx : Option ι
  condVar : CondVar ι
  deriving DecidableEq, Repr

/-- Where a thread stands inside `Wait`. `wait` covers the sleep itself and the
    attempts to take the mutex back after it. -/
inductive WaitPc where
  | lock
  | test
  | block
  | wait
  | unlock
  deriving DecidableEq, Repr

namespace Event
variable {ι : Type}

def create : Event ι := ⟨false, none, CondVar.empty⟩

def storeFlag (e : Event ι) : Event ι := { e with notifyFlag := true }

def notifyAll (e : Event ι) : Event ι := { e with condVar := e.condVar.notifyAll }

/-- One step of thread `t` inside `Wait`. No next position means that the call returns. -/
def waitStep [DecidableEq ι] (e : Event ι) (t : ι) : WaitPc → Option (Event ι × Option WaitPc)
  | .lock => if e.mutx = none then some ({ e with mutx := some t }, some .test) else none
  | .test => some (e, some (if e.notifyFlag then .unlock else .block))
  | .block => some ({ e with mutx := none, condVar := e.condVar.wait t }, some .wait)
  | .wait =>
    if t ∉ e.condVar.blocked ∧ e.mutx = none then
      some ({ e with mutx := some t, condVar := e.condVar.resume t }, some .test)
    else none
  | .unlock => some ({ e with mutx := none }, none)

def wake [DecidableEq ι] (e : Event ι) (t : ι) : Event ι := { e with condVar := e.condVar.wake t }

variable [DecidableEq ι]

theorem waitStep_notifyFlag {e e' : Event ι} {t : ι} {pc : WaitPc} {next : Option WaitPc}
    (h : e.waitStep t pc = some (e', next)) : e'.notifyFlag = e.notifyFlag := by
  cases pc <;> simp only [waitStep, Option.ite_none_right_eq_some, Option.some.injEq,
    Prod.mk.injEq] at h
  case test | block | unlock => obtain ⟨rfl, _⟩ := h; rfl
  case lock | wait => obtain ⟨_, rfl, _⟩ := h; rfl

theorem waitStep_passes {e e' : Event ι} {t : ι} {pc : WaitPc}
    (h : e.waitStep t pc = some (e', some .unlock)) : e.notifyFlag = true := by
  cases pc with
  | test =>
    cases flag : e.notifyFlag with
    | true => rfl
    | false => simp [waitStep, flag] at h
  | lock | block | wait | unlock => simp [waitStep] at h

theorem waitStep_returns {e e' : Event ι} {t : ι} {pc : WaitPc}
    (h : e.waitStep t pc = some (e', none)) : pc = .unlock := by
  cases pc <;> simp_all [waitStep]

end Event

end MappedQueue
