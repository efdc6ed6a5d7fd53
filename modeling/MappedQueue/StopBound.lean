import MappedQueue.ConsumerRounds

/-!
How much the consumer still does once the stop is requested. The stop is read at
the loop head, in the wait predicate and before the delivery; wherever the request
lands, the consumer has at most one pop or one delivery between itself and the next
of these.
-/
namespace MappedQueue
open Concurrency

variable {Key Value Listener ι : Type}

def Entry.consume? : Entry Key Value Listener ι → Option (Listener × QueueNode Key Value)
  | .consumed listener node => some (listener, node)
  | _ => none

def consumes (log : List (Entry Key Value Listener ι)) : List (Listener × QueueNode Key Value) :=
  log.filterMap Entry.consume?

def workDone (log : List (Entry Key Value Listener ι)) : Nat :=
  (pops log).length + (consumes log).length

theorem work_done_append (log more : List (Entry Key Value Listener ι)) :
    workDone (log ++ more) = workDone log + workDone more := by
  simp only [workDone, consumes, pops_append, List.filterMap_append, List.length_append]
  omega

theorem foreign_does_no_work {out : Option (Entry Key Value Listener ι)}
    (silent : ∀ x, out = some x → x.ofConsumer = false) : workDone out.toList = 0 := by
  cases out with
  | none => rfl
  | some x =>
    have foreign := silent x rfl
    cases x with
    | called | pushed | returned | stopRequested | destructNotified => rfl
    | _ => simp [Entry.ofConsumer] at foreign

namespace QueuePool
variable {T : DefaultTraits Key Value Listener}

def workLeft (s : QueuePool T ι) : Nat :=
  match s.consumer.pc with
  | .dequeue => 1
  | .lockConsume => 1
  | .testDequeue => 1
  | .blockConsume => 1
  | .waitConsume => 1
  | .lookup => 1
  | .getFromMap _ => 1
  | .testListener _ => 1
  | _ => 0

theorem work_left_le_one (s : QueuePool T ι) : s.workLeft ≤ 1 := by
  unfold workLeft
  split <;> omega

section Steps
variable [DecidableEq ι] {s s' : QueuePool T ι} {out : Option (Entry Key Value Listener ι)}
  {a : Action Key Value Listener ι}

theorem consumer_spends_work {woken : Option ι} (move : ConsumerMove s woken s' out)
    (stop : s.stopCommand = true) : workDone out.toList + s'.workLeft ≤ s.workLeft := by
  cases move with
  | loopEnter pc running | testFalse pc value running | checkPassed pc running =>
    simp [stop] at running
  | pop pc | miss pc =>
    rcases pc with ⟨pc, rfl⟩ | ⟨pc, rfl⟩
    all_goals
      simp [workLeft, pc, workDone, pops, consumes, List.filterMap_cons, Entry.pop?, Entry.consume?]
  | _ pc =>
    simp [workLeft, pc, workDone, pops, consumes, List.filterMap_cons, Entry.pop?, Entry.consume?,
      consumerAt]

theorem step_spends_work (step : s.step a = some (s', out)) (stop : s.stopCommand = true) :
    workDone out.toList + s'.workLeft ≤ s.workLeft := by
  have idle : s'.consumer = s.consumer → (∀ x, out = some x → x.ofConsumer = false) →
      workDone out.toList + s'.workLeft ≤ s.workLeft := by
    intro same silent
    rw [foreign_does_no_work silent, workLeft, workLeft, same]
    omega
  cases step_moves step with
  | client move => exact idle (client_keeps_consumer move) (client_writes_no_round move)
  | consumer move => exact consumer_spends_work move stop
  | call => exact idle rfl (by simp [Entry.ofConsumer])
  | wakeProducer | wakeWaiter | wakeConsumer => exact idle rfl (by simp)

theorem stop_entry_stops (step : s.step a = some (s', some .stopRequested)) :
    s'.stopCommand = true := by
  cases step_moves step with
  | client move => cases move; rfl
  | consumer move => cases move

end Steps

end QueuePool

section Runs
variable [DecidableEq ι] {T : DefaultTraits Key Value Listener}
  {sign : Option (SignConsumerFinished ι)} {junk : QueueNode Key Value} {s : QueuePool T ι}
  {log : List (Entry Key Value Listener ι)}

/-- What has been done since a stop request and what can still be done come to one
    at most. -/
theorem stop_bound_run (run : (poolMachine T sign junk).Reachable s log) :
    ∀ before after, log = before ++ .stopRequested :: after →
      s.stopCommand = true ∧ workDone after + s.workLeft ≤ 1 := by
  refine Machine.reach_invariant (I := fun s log => ∀ before after,
    log = before ++ .stopRequested :: after →
      s.stopCommand = true ∧ workDone after + s.workLeft ≤ 1) ?_ ?_ run
  · intro before after parts
    simp at parts
  · intro s log a s' out _ h _ step before after parts
    rcases append_toList_split parts with ⟨rfl, _, rfl⟩ | ⟨rest, rfl, earlier⟩
    · have left := QueuePool.work_left_le_one s'
      exact ⟨QueuePool.stop_entry_stops step, by simpa [workDone, pops, consumes] using left⟩
    · obtain ⟨stop, bound⟩ := h before rest earlier
      have spent := QueuePool.step_spends_work step stop
      rw [work_done_append]
      exact ⟨QueuePool.step_keeps_stop step stop, by omega⟩

/-- After any stop request, at most one more element is popped or delivered. -/
theorem bounded_work_after_stop {before after : List (Entry Key Value Listener ι)}
    (run : (poolMachine T sign junk).Reachable s log)
    (request : log = before ++ .stopRequested :: after) :
    (pops after).length + (consumes after).length ≤ 1 := by
  have bound := (stop_bound_run run before after request).2
  unfold workDone at bound
  omega

end Runs

section Schedules
open QueuePool

/-- The request lands on the way into `Dequeue`, with two elements in the queue. -/
theorem one_pop_after_stop :
    ∃ s log before after, mutexPool.Reachable s log ∧ log = before ++ .stopRequested :: after ∧
      pops after = [⟨1, 10⟩] ∧ s.contents = [⟨1, 20⟩] ∧
      (pops after).length + (consumes after).length ≤ 1 := by
  obtain ⟨s, log, run, parts, popped, rest⟩ := Machine.reachable_of_exec mutexPool
    [.call 0 (.enqueue ⟨1, 10⟩), .client 0, .client 0, .call 0 (.enqueue ⟨1, 20⟩), .client 0,
      .client 0, .consumer none, .consumer none, .consumer none, .call 0 (.finish .stopProcessing),
      .client 0, .consumer none, .consumer none, .consumer none, .consumer none]
    (fun s log => log = log.take 8 ++ .stopRequested :: log.drop 9 ∧
      pops (log.drop 9) = [⟨1, 10⟩] ∧ s.contents = [⟨1, 20⟩]) (by decide)
  exact ⟨s, log, _, _, run, parts, popped, rest, bounded_work_after_stop run parts⟩

end Schedules

end MappedQueue
