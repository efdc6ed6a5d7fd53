import Mathlib.Data.Fintype.Basic
import Mathlib.Logic.Function.Basic
import MappedQueue.Concurrency.Machine
import MappedQueue.Event

/-!
One event with any number of threads in `Wait` and in `NotifyAll`. A waiter holds
the mutex from its test of the flag until it sleeps, a notifier never takes it: a
`notify_all` that comes between the two wakes nobody, and the waiter sleeps over a
stored flag. Runs in which no `notify_all` comes there leave no waiter behind.
-/
namespace MappedQueue
open Concurrency

inductive EventPc where
  | idle
  | wait (pc : WaitPc)
  | storeFlag
  | notifyAll
  deriving DecidableEq, Repr

inductive EventEntry (ι : Type) where
  | notified (t : ι)
  | waited (t : ι)
  deriving DecidableEq, Repr

inductive EventAction (ι : Type) where
  | callWait (t : ι)
  | callNotifyAll (t : ι)
  | step (t : ι)
  | wake (t : ι)
  deriving DecidableEq, Repr

structure EventThreads (ι : Type) where
  event : Event ι
  threads : ι → EventPc

namespace EventThreads
variable {ι : Type} [DecidableEq ι]

def create : EventThreads ι := ⟨Event.create, fun _ => .idle⟩

def goto (s : EventThreads ι) (t : ι) (pc : EventPc) : EventThreads ι :=
  { s with threads := Function.update s.threads t pc }

abbrev Next (ι : Type) := Option (EventThreads ι × Option (EventEntry ι))

def enter (s : EventThreads ι) (t : ι) (pc : EventPc) : Next ι :=
  match s.threads t with
  | .idle => some (s.goto t pc, none)
  | _ => none

def threadStep (s : EventThreads ι) (t : ι) : Next ι :=
  match s.threads t with
  | .idle => none
  | .wait pos =>
    match s.event.waitStep t pos with
    | none => none
    | some (event, some next) => some ({ s with event := event }.goto t (.wait next), none)
    | some (event, none) => some ({ s with event := event }.goto t .idle, some (.waited t))
  | .storeFlag => some ({ s with event := s.event.storeFlag }.goto t .notifyAll, none)
  | .notifyAll => some ({ s with event := s.event.notifyAll }.goto t .idle, some (.notified t))

def step (s : EventThreads ι) : EventAction ι → Next ι
  | .callWait t => s.enter t (.wait .lock)
  | .callNotifyAll t => s.enter t .storeFlag
  | .step t => s.threadStep t
  | .wake t => some ({ s with event := s.event.wake t }, none)

end EventThreads

def eventMachine (ι : Type) [DecidableEq ι] :
    Machine (EventThreads ι) (EventAction ι) (EventEntry ι) where
  init := EventThreads.create
  step := EventThreads.step

namespace EventThreads
variable {ι : Type}

/-- Once a `NotifyAll` call has completed, nobody sleeps un-notified. -/
def NoWaiterLeft (s : EventThreads ι) (log : List (EventEntry ι)) : Prop :=
  (∃ t, .notified t ∈ log) → s.event.condVar.blocked = []

/-- No `notify_all` is executed while a waiter is between a test that found the flag
    unset and its sleep. -/
def NotifiesAsleep (s : EventThreads ι) : EventAction ι → Prop
  | .step t => s.threads t = .notifyAll → ∀ u, s.threads u ≠ .wait .block
  | _ => True

instance [Fintype ι] (s : EventThreads ι) (a : EventAction ι) : Decidable (s.NotifiesAsleep a) := by
  rcases a with _ | _ | _ | _ <;> dsimp only [NotifiesAsleep] <;> infer_instance

/-- A notifier on its way has stored the flag; with one `NotifyAll` call completed,
    the flag is stored and every waiter is past its sleep or still to test. -/
structure Settled (s : EventThreads ι) (log : List (EventEntry ι)) : Prop where
  stored : ∀ t, s.threads t = .notifyAll → s.event.notifyFlag = true
  flag : (∃ t, .notified t ∈ log) → s.event.notifyFlag = true
  awake : (∃ t, .notified t ∈ log) → s.event.condVar.blocked = []
  window : (∃ t, .notified t ∈ log) → ∀ u, s.threads u ≠ .wait .block

section Steps
variable [DecidableEq ι] {s s' : EventThreads ι} {log : List (EventEntry ι)}
  {out : Option (EventEntry ι)} {t : ι}

inductive ThreadMove (s : EventThreads ι) (t : ι) :
    EventThreads ι → Option (EventEntry ι) → Prop where
  | wait {pos event next} (pc : s.threads t = .wait pos)
      (inside : s.event.waitStep t pos = some (event, some next)) :
      ThreadMove s t ({ s with event := event }.goto t (.wait next)) none
  | waited {pos event} (pc : s.threads t = .wait pos)
      (inside : s.event.waitStep t pos = some (event, none)) :
      ThreadMove s t ({ s with event := event }.goto t .idle) (some (.waited t))
  | storeFlag (pc : s.threads t = .storeFlag) :
      ThreadMove s t ({ s with event := s.event.storeFlag }.goto t .notifyAll) none
  | notifyAll (pc : s.threads t = .notifyAll) :
      ThreadMove s t ({ s with event := s.event.notifyAll }.goto t .idle) (some (.notified t))

theorem thread_moves (h : s.threadStep t = some (s', out)) : ThreadMove s t s' out := by
  unfold threadStep at h
  split at h
  · contradiction
  · split at h <;> cases h
    · exact ThreadMove.wait ‹_› ‹_›
    · exact ThreadMove.waited ‹_› ‹_›
  · cases h; exact ThreadMove.storeFlag ‹_›
  · cases h; exact ThreadMove.notifyAll ‹_›

theorem enter_moves {pc : EventPc} (h : s.enter t pc = some (s', out)) :
    s.threads t = .idle ∧ s' = s.goto t pc ∧ out = none := by
  unfold enter at h
  split at h
  · cases h; exact ⟨‹_›, rfl, rfl⟩
  · contradiction

theorem goto_threads {u : ι} {pc there : EventPc} (h : (s.goto t pc).threads u = there) :
    there = pc ∨ s.threads u = there := by
  by_cases own : u = t
  · subst own
    exact Or.inl (by simpa [goto] using h.symm)
  · exact Or.inr (by simpa [goto, own] using h)

theorem wait_over_flag {event : Event ι} {pos next : WaitPc} (flag : s.event.notifyFlag = true)
    (awake : pos ≠ .block) (inside : s.event.waitStep t pos = some (event, some next)) :
    next ≠ .block ∧ event.condVar.blocked = s.event.condVar.blocked := by
  cases pos with
  | lock =>
    simp only [Event.waitStep, Option.ite_none_right_eq_some, Option.some.injEq,
      Prod.mk.injEq] at inside
    obtain ⟨_, rfl, rfl⟩ := inside
    exact ⟨by simp, rfl⟩
  | test =>
    simp only [Event.waitStep, flag, Option.some.injEq, Prod.mk.injEq] at inside
    obtain ⟨rfl, rfl⟩ := inside
    exact ⟨by simp, rfl⟩
  | block => exact absurd rfl awake
  | wait =>
    simp only [Event.waitStep, Option.ite_none_right_eq_some, Option.some.injEq,
      Prod.mk.injEq] at inside
    obtain ⟨_, rfl, rfl⟩ := inside
    exact ⟨by simp, rfl⟩
  | unlock => simp [Event.waitStep] at inside

theorem settled_goto {event : Event ι} {pc : EventPc} {log' : List (EventEntry ι)}
    (h : s.Settled log) (kept : s.event.notifyFlag = true → event.notifyFlag = true)
    (stored : pc = .notifyAll → event.notifyFlag = true)
    (flag : (∃ t, .notified t ∈ log') → event.notifyFlag = true)
    (awake : (∃ t, .notified t ∈ log') → event.condVar.blocked = [])
    (window : (∃ t, .notified t ∈ log') → pc ≠ .wait .block ∧ ∀ u, s.threads u ≠ .wait .block) :
    ({ s with event := event }.goto t pc).Settled log' := by
  constructor
  · intro u there
    rcases goto_threads there with eq | before
    · exact stored eq.symm
    · exact kept (h.stored u before)
  · exact flag
  · exact awake
  · intro done u there
    rcases goto_threads there with eq | before
    · exact (window done).1 eq.symm
    · exact (window done).2 u before

theorem settled_enter {pc : EventPc} (h : s.Settled log) (entered : pc ≠ .notifyAll)
    (awake : pc ≠ .wait .block) : (s.goto t pc).Settled log :=
  settled_goto h id (fun eq => absurd eq entered) h.flag h.awake
    fun done => ⟨awake, h.window done⟩

theorem settled_wait {pos next : WaitPc} {event : Event ι} (h : s.Settled log)
    (pc : s.threads t = .wait pos) (inside : s.event.waitStep t pos = some (event, some next)) :
    ({ s with event := event }.goto t (.wait next)).Settled log := by
  have flag := Event.waitStep_notifyFlag inside
  have past : (∃ u, .notified u ∈ log) →
      next ≠ .block ∧ event.condVar.blocked = s.event.condVar.blocked := by
    intro done
    have still : pos ≠ .block := fun eq => h.window done t (eq ▸ pc)
    exact wait_over_flag (h.flag done) still inside
  apply settled_goto h flag.trans
  · intro eq
    contradiction
  · intro done
    exact flag.trans (h.flag done)
  · intro done
    exact (past done).2.trans (h.awake done)
  · intro done
    exact ⟨fun eq => (past done).1 (EventPc.wait.inj eq), h.window done⟩

theorem settled_waited {pos : WaitPc} {event : Event ι} (h : s.Settled log)
    (inside : s.event.waitStep t pos = some (event, none)) :
    ({ s with event := event }.goto t .idle).Settled (log ++ [EventEntry.waited t]) := by
  have flag := Event.waitStep_notifyFlag inside
  have before : (∃ u, .notified u ∈ log ++ [.waited t]) → ∃ u, .notified u ∈ log := by simp
  apply settled_goto h flag.trans
  · intro eq
    contradiction
  · intro done
    exact flag.trans (h.flag (before done))
  · intro done
    obtain rfl := Event.waitStep_returns inside
    simp only [Event.waitStep, Option.some.injEq, Prod.mk.injEq] at inside
    obtain ⟨rfl, _⟩ := inside
    exact h.awake (before done)
  · intro done
    exact ⟨by simp, h.window (before done)⟩

theorem settled_move (h : s.Settled log) (asleep : s.NotifiesAsleep (.step t))
    (move : ThreadMove s t s' out) : s'.Settled (log ++ out.toList) := by
  cases move with
  | wait pc inside =>
    rw [Option.toList_none, List.append_nil]
    exact settled_wait h pc inside
  | waited pc inside => exact settled_waited h inside
  | storeFlag pc =>
    rw [Option.toList_none, List.append_nil]
    apply settled_goto h
    · intro _
      rfl
    · intro _
      rfl
    · intro _
      rfl
    · exact h.awake
    · intro done
      exact ⟨by simp, h.window done⟩
  | notifyAll pc =>
    have flag := h.stored t pc
    apply settled_goto h
    · intro stored
      exact stored
    · intro eq
      contradiction
    · intro _
      exact flag
    · intro _
      rfl
    · intro _
      exact ⟨by simp, asleep pc⟩

theorem settled_step {a : EventAction ι} (h : s.Settled log) (asleep : s.NotifiesAsleep a)
    (step : s.step a = some (s', out)) : s'.Settled (log ++ out.toList) := by
  cases a with
  | callWait t =>
    obtain ⟨_, rfl, rfl⟩ := enter_moves step
    simpa using settled_enter h (by simp) (by simp)
  | callNotifyAll t =>
    obtain ⟨_, rfl, rfl⟩ := enter_moves step
    simpa using settled_enter h (by simp) (by simp)
  | step t => exact settled_move h asleep (thread_moves step)
  | wake t =>
    cases step
    rw [Option.toList_none, List.append_nil]
    refine ⟨h.stored, h.flag, ?_, h.window⟩
    intro done
    simp [Event.wake, CondVar.wake, h.awake done]

end Steps

end EventThreads

section Runs
variable {ι : Type} [DecidableEq ι] {s : EventThreads ι} {log : List (EventEntry ι)}

theorem event_leaves_no_waiter
    (run : (eventMachine ι).Reach (fun s _ a => s.NotifiesAsleep a) s log) : s.NoWaiterLeft log := by
  have settled : s.Settled log := by
    refine Machine.reach_invariant (I := fun s log => s.Settled log) ?_ ?_ run
    · constructor <;> simp [eventMachine, EventThreads.create]
    · intro s log a s' out _ h asleep step
      exact EventThreads.settled_step h asleep step
  exact settled.awake

/-- A `notify_all` in the window does leave the waiter behind: its next step puts it to
    sleep with the call completed. -/
theorem notify_in_window_leaves_waiter {t u : ι} (notifier : s.threads t = .notifyAll)
    (waiter : s.threads u = .wait .block) :
    ∃ s' log', (eventMachine ι).Continues s log s' log' ∧ ¬ s'.NoWaiterLeft log' := by
  have other : u ≠ t := by
    rintro rfl
    simp [notifier] at waiter
  have notify : (eventMachine ι).step s (.step t) = some
      ({ s with event := s.event.notifyAll }.goto t .idle, some (.notified t)) := by
    simp [eventMachine, EventThreads.step, EventThreads.threadStep, notifier]
  have asleep : (eventMachine ι).step ({ s with event := s.event.notifyAll }.goto t .idle)
      (.step u) = some (({ s with event := { s.event.notifyAll with
        mutx := none, condVar := s.event.notifyAll.condVar.wait u } }.goto t .idle).goto u
          (.wait .wait), none) := by
    simp [eventMachine, EventThreads.step, EventThreads.threadStep, EventThreads.goto, other,
      waiter, Event.waitStep]
  refine ⟨_, _, Machine.Continues.next (Machine.Continues.next Machine.Continues.refl notify)
    asleep, ?_⟩
  intro none_left
  have empty := none_left ⟨t, by simp⟩
  simp [EventThreads.goto] at empty

end Runs

section Schedules

theorem waiters_before_and_after :
    ∃ s log, (eventMachine (Fin 3)).Reach (fun s _ a => s.NotifiesAsleep a) s log ∧
      log = [.notified 0, .waited 1, .waited 2] ∧ s.NoWaiterLeft log := by
  obtain ⟨s, log, run, parts⟩ := Machine.reach_of_exec (eventMachine (Fin 3))
    (fun s _ a => s.NotifiesAsleep a)
    [.callWait 1, .step 1, .step 1, .step 1, .callNotifyAll 0, .step 0, .step 0, .step 1, .step 1,
      .step 1, .callWait 2, .step 2, .step 2, .step 2]
    (fun _ log => log = [.notified 0, .waited 1, .waited 2]) (by decide)
  exact ⟨s, log, run, parts, event_leaves_no_waiter run⟩

/-- The flag is stored and notified between the waiter's test and its sleep. -/
theorem waiter_left_asleep :
    ∃ s log, (eventMachine (Fin 2)).Reachable s log ∧ log = [.notified 0] ∧
      s.event.notifyFlag = true ∧ s.threads 0 = .idle ∧ s.event.condVar.blocked = [1] ∧
      ¬ s.NoWaiterLeft log := by
  obtain ⟨s, log, run, parts, flag, idle, asleep⟩ := Machine.reachable_of_exec (eventMachine (Fin 2))
    [.callWait 1, .step 1, .step 1, .callNotifyAll 0, .step 0, .step 0, .step 1]
    (fun s log => log = [.notified 0] ∧ s.event.notifyFlag = true ∧ s.threads 0 = .idle ∧
      s.event.condVar.blocked = [1]) (by decide)
  refine ⟨s, log, run, parts, flag, idle, asleep, ?_⟩
  intro none_left
  have empty := none_left ⟨0, by simp [parts]⟩
  simp [asleep] at empty

end Schedules

end MappedQueue
