import MappedQueue.ConsumerRounds
import MappedQueue.Overflow

/-!
How the notifications for free room keep up with the pops. A round that ends in a
delivery sends one notification, a round whose lookup answers null sends none, and
until the stop is requested the loop leaves no round unfinished.
-/
namespace MappedQueue
open Concurrency

def answersNull {Map Listener : Type} : Sections Map (Option Listener) → Bool
  | .ret none => true
  | _ => false

variable {Key Value Listener ι : Type}

def Entry.isCapacityEvent : Entry Key Value Listener ι → Bool
  | .capacityNotified => true
  | _ => false

def Entry.isUnknownQueue : Entry Key Value Listener ι → Bool
  | .unknownQueue _ => true
  | _ => false

def capacityEvents (log : List (Entry Key Value Listener ι)) : Nat :=
  log.countP Entry.isCapacityEvent

def unknownQueues (log : List (Entry Key Value Listener ι)) : Nat :=
  log.countP Entry.isUnknownQueue

namespace Round

def unsettled : Round Key Value → Nat
  | idle => 0
  | called => 0
  | _ => 1

end Round

theorem foreign_announces_nothing {x : Entry Key Value Listener ι} (silent : x.ofConsumer = false) :
    x.pop? = none ∧ x.isCapacityEvent = false ∧ x.isUnknownQueue = false := by
  cases x with
  | called | pushed | returned | stopRequested | destructNotified => exact ⟨rfl, rfl, rfl⟩
  | _ => simp [Entry.ofConsumer] at silent

/-- Every element popped has been announced, has been reported as unknown, or is
    still in the consumer's hands. -/
theorem pops_eq_events_unknown {log : List (Entry Key Value Listener ι)} {round : Round Key Value}
    (h : Rounds log round) :
    (pops log).length = capacityEvents log + unknownQueues log + round.unsettled := by
  induction h with
  | nil => rfl
  | concat before follows ih =>
    simp only [pops_append, List.length_append, capacityEvents, unknownQueues, List.countP_append,
      List.countP_singleton] at ih ⊢
    cases follows with
    | foreign silent =>
      obtain ⟨pop, event, unknown⟩ := foreign_announces_nothing silent
      simp only [pops, List.filterMap_cons, pop, event, unknown, List.filterMap_nil] at ih ⊢
      simpa using ih
    | _ =>
      simp only [pops, List.filterMap_cons, Entry.pop?, Entry.isCapacityEvent,
        Entry.isUnknownQueue, Round.unsettled, List.filterMap_nil, List.length_cons] at ih ⊢
      simp at ih ⊢
      omega

namespace QueuePool
variable {T : DefaultTraits Key Value Listener}

/-- The step at which the lookup of the popped element's key finds its answer, and that
    answer is null. -/
def lookupMisses (s : QueuePool T ι) : Action Key Value Listener ι → Bool
  | .consumer _ =>
    match s.consumer.pc with
    | .lookup => answersNull (T.mapTraits.getFromMap s.consumer.node.key)
    | .getFromMap (.atomic _ next) => answersNull (next s.map)
    | _ => false
  | _ => false

def unreported (s : QueuePool T ι) : Nat :=
  match s.consumer.pc with
  | .getFromMap rest => (answersNull rest).toNat
  | .testListener listener => listener.isNone.toNat
  | _ => 0

variable [DecidableEq ι] {s s' : QueuePool T ι} {a : Action Key Value Listener ι}
  {out : Option (Entry Key Value Listener ι)}

theorem client_reports_nothing {t : ι} (move : ClientMove s t s' out) :
    unknownQueues out.toList = 0 := by
  cases move <;> rfl

theorem consumer_reports {woken : Option ι} (move : ConsumerMove s woken s' out) :
    unknownQueues out.toList + s'.unreported =
      s.unreported + (s.lookupMisses (.consumer woken)).toNat := by
  cases move with
  | pop pc | miss pc =>
    rcases pc with ⟨pc, rfl⟩ | ⟨pc, rfl⟩ <;>
      simp [unknownQueues, unreported, lookupMisses, pc, Entry.isUnknownQueue]
  | lookup pc => simp [unknownQueues, unreported, lookupMisses, pc, Entry.isUnknownQueue]
  | mapSection pc => simp [unknownQueues, unreported, lookupMisses, pc, answersNull]
  | @mapReturn listener pc =>
    cases listener <;> simp [unknownQueues, unreported, lookupMisses, pc, answersNull]
  | unknownQueue pc => simp [unknownQueues, unreported, lookupMisses, pc, Entry.isUnknownQueue]
  | _ pc => simp [unknownQueues, unreported, lookupMisses, pc, Entry.isUnknownQueue]

theorem reports_step (log : List (Entry Key Value Listener ι)) (step : s.step a = some (s', out)) :
    unknownQueues (log ++ out.toList) + s'.unreported =
      unknownQueues log + s.unreported + (s.lookupMisses a).toNat := by
  have split : unknownQueues (log ++ out.toList) = unknownQueues log + unknownQueues out.toList :=
    List.countP_append
  rw [split]
  cases step_moves step with
  | client move =>
    have same : s'.unreported = s.unreported := by
      unfold unreported
      rw [client_keeps_consumer move]
    rw [client_reports_nothing move, same]
    rfl
  | consumer move =>
    have reported := consumer_reports move
    omega
  | call | wakeProducer | wakeWaiter | wakeConsumer => rfl

end QueuePool

section Runs
variable [DecidableEq ι] {T : DefaultTraits Key Value Listener}
  {sign : Option (SignConsumerFinished ι)} {junk : QueueNode Key Value} {s : QueuePool T ι}
  {log : List (Entry Key Value Listener ι)}
  {schedule : List (QueuePool.Action Key Value Listener ι)}

theorem pops_settled_at_loop_head (run : (poolMachine T sign junk).Reachable s log)
    (head : s.consumer.pc = .loopHead) (running : s.stopCommand = false) :
    (pops log).length = capacityEvents log + unknownQueues log := by
  obtain ⟨round, rounds, there⟩ := in_round_run run
  have idle : round = .idle := by simpa [QueuePool.AtRound, head, running] using there
  subst idle
  simpa [Round.unsettled] using pops_eq_events_unknown rounds

theorem no_report_iff
    (run : (poolMachine T sign junk).exec (fun _ _ _ => True) (poolMachine T sign junk).init []
      schedule = some (s, log)) (head : s.consumer.pc = .loopHead) :
    unknownQueues log = 0 ↔
      (poolMachine T sign junk).exec (fun s _ a => s.lookupMisses a = false)
        (poolMachine T sign junk).init [] schedule = some (s, log) := by
  have kept : ∀ s log a s' out, (poolMachine T sign junk).step s a = some (s', out) →
      s.lookupMisses a = false →
      unknownQueues (log ++ out.toList) + s'.unreported = unknownQueues log + s.unreported := by
    intro s log a s' out step found
    have reported := QueuePool.reports_step log step
    rwa [found] at reported
  have raised : ∀ s log a s' out, (poolMachine T sign junk).step s a = some (s', out) →
      ¬ s.lookupMisses a = false →
      unknownQueues log + s.unreported < unknownQueues (log ++ out.toList) + s'.unreported := by
    intro s log a s' out step missed
    have reported := QueuePool.reports_step log step
    rw [Bool.not_eq_false] at missed
    rw [missed] at reported
    exact Nat.lt_of_lt_of_eq (Nat.lt_succ_self _) reported.symm
  have counted := (Machine.exec_keeps_iff (fun s log => unknownQueues log + s.unreported)
    kept raised run).2
  have back : s.unreported = 0 := by simp [QueuePool.unreported, head]
  rw [back] at counted
  exact counted

/-- At the loop head of a run not stopped, the notifications match the pops if and only if
    every lookup of the run has answered with a listener. -/
theorem every_pop_announced_iff
    (run : (poolMachine T sign junk).exec (fun _ _ _ => True) (poolMachine T sign junk).init []
      schedule = some (s, log)) (head : s.consumer.pc = .loopHead)
    (running : s.stopCommand = false) :
    capacityEvents log = (pops log).length ↔
      (poolMachine T sign junk).exec (fun s _ a => s.lookupMisses a = false)
        (poolMachine T sign junk).init [] schedule = some (s, log) := by
  have reachable := Machine.exec_reach Machine.Reach.init run
  have settled := pops_settled_at_loop_head reachable head running
  rw [← no_report_iff run head]
  omega

end Runs

instance {Map : Type} (pc : ConsumerPc Map Listener) : Decidable (pc = .loopHead) := by
  rcases pc with ⟨⟩ <;> first | exact isTrue rfl | exact isFalse nofun

section Schedules
open QueuePool

theorem subscribed_pops_announced :
    ∃ schedule s log, oneSlot.exec (fun _ _ _ => True) oneSlot.init [] schedule = some (s, log) ∧
      (pops log).length = 2 ∧ capacityEvents log = 2 ∧
      (capacityEvents log = (pops log).length ↔
        oneSlot.exec (fun s _ a => s.lookupMisses a = false) oneSlot.init [] schedule =
          some (s, log)) := by
  let schedule : List (Action Nat Nat Nat (Fin 2)) :=
    [.call 0 (.subscribe 1 (some 7)), .client 0, .call 0 (.enqueue ⟨1, 10⟩), .client 0, .client 0,
      .consumer none, .consumer none, .consumer none, .consumer none, .consumer none,
      .consumer none, .consumer none, .consumer none, .consumer none, .consumer none,
      .consumer none, .call 1 (.enqueue ⟨1, 20⟩), .client 1, .client 1,
      .consumer none, .consumer none, .consumer none, .consumer none, .consumer none,
      .consumer none, .consumer none, .consumer none, .consumer none]
  have followed : (oneSlot.exec (fun _ _ _ => True) oneSlot.init [] schedule).any (fun p =>
      decide ((pops p.2).length = 2 ∧ p.1.consumer.pc = .loopHead ∧ p.1.stopCommand = false ∧
        capacityEvents p.2 = 2)) = true := by decide
  obtain ⟨⟨s, log⟩, run, holds⟩ := (Option.any_eq_true _ _).mp followed
  obtain ⟨popped, head, running, sent⟩ := of_decide_eq_true holds
  exact ⟨schedule, s, log, run, popped, sent, every_pop_announced_iff run head running⟩

/-- An element of a key that nobody has subscribed to frees its slot in silence. -/
theorem unknown_pop_not_announced :
    ∃ s log, oneSlot.Reachable s log ∧ s.consumer.pc = .loopHead ∧ s.stopCommand = false ∧
      pops log = [⟨2, 20⟩] ∧ .unknownQueue ⟨2, 20⟩ ∈ log ∧ capacityEvents log = 0 ∧
      capacityEvents log ≠ (pops log).length := by
  obtain ⟨s, log, run, head, running, popped, unknown, silent⟩ := Machine.reachable_of_exec oneSlot
    [.call 0 (.enqueue ⟨2, 20⟩), .client 0, .client 0, .consumer none, .consumer none,
      .consumer none, .consumer none, .consumer none, .consumer none, .consumer none,
      .consumer none, .consumer none]
    (fun s log => s.consumer.pc = .loopHead ∧ s.stopCommand = false ∧ pops log = [⟨2, 20⟩] ∧
      .unknownQueue ⟨2, 20⟩ ∈ log ∧ capacityEvents log = 0) (by decide)
  exact ⟨s, log, run, head, running, popped, unknown, silent, by simp [silent, popped]⟩

end Schedules

end MappedQueue
