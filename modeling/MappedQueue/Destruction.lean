import MappedQueue.Completion

/-!
Destroying a pool that was created without a completion signature. The destructor
requests the stop, notifies and returns. Unless the consumer thread has ended by
then, it goes on to use the pool: wherever it stands, some schedule takes it to its
next access.
-/
namespace MappedQueue
open Concurrency

variable {Key Value Listener ι : Type} [DecidableEq ι]

namespace QueuePool
variable {T : DefaultTraits Key Value Listener}

def UsesPoolNext (s : QueuePool T ι) : Prop :=
  s.consumer.pc.usesPool = true ∧ ∃ woken next, s.step (.consumer woken) = some next

end QueuePool

instance {Map : Type} (pc : ConsumerPc Map Listener) : Decidable (pc = .finished) := by
  rcases pc with ⟨⟩ <;> first | exact isTrue rfl | exact isFalse nofun

def ConsumerPc.holdsMutex {Map : Type} : ConsumerPc Map Listener → Bool
  | .testDequeue => true
  | .testStop => true
  | .blockConsume => true
  | .unlockConsume => true
  | _ => false

namespace QueuePool
variable {T : DefaultTraits Key Value Listener}

structure Unsigned (s : QueuePool T ι) : Prop where
  pointer : s.consumersFinished = none
  counting : ∀ pos, s.consumer.pc ≠ .decreasing pos
  mutex : s.conditConsumeMutex = s.consumer.pc.holdsMutex

omit [DecidableEq ι] in
theorem dequeue_possible (s : QueuePool T ι) (found missed : ConsumerPc T.mapTraits.Map Listener) :
    ∃ next, s.dequeueInto found missed = some next := by
  unfold dequeueInto
  split <;> exact ⟨_, rfl⟩

section Steps
variable {s s' : QueuePool T ι} {out : Option (Entry Key Value Listener ι)}
  {a : Action Key Value Listener ι}

theorem client_unsigned {t : ι} (h : s.Unsigned) (move : ClientMove s t s' out) : s'.Unsigned := by
  have pointer := h.pointer
  cases move with
  | waitStep pc some | waitReturn pc some => simp [pointer] at some
  | _ => exact ⟨pointer, h.counting, h.mutex⟩

theorem consumer_condit_consume {woken : Option ι}
    (consume : s.conditConsumeMutex = s.consumer.pc.holdsMutex)
    (move : ConsumerMove s woken s' out) :
    s'.conditConsumeMutex = s'.consumer.pc.holdsMutex := by
  cases move with
  | block | lock | resume | unlock => rfl
  | pop pc | miss pc =>
    rcases pc with ⟨pc, rfl⟩ | ⟨pc, rfl⟩
    all_goals
      rw [pc] at consume
      exact consume
  | _ pc =>
    rw [pc] at consume
    exact consume

theorem consumer_unsigned {woken : Option ι} (h : s.Unsigned) (move : ConsumerMove s woken s' out) :
    s'.Unsigned := by
  have pointer := h.pointer
  have mutex := consumer_condit_consume h.mutex move
  cases move with
  | decrease pc some | decreaseStep pc some | decreaseReturn pc some => simp [pointer] at some
  | pop pc | miss pc =>
    rcases pc with ⟨pc, rfl⟩ | ⟨pc, rfl⟩
    all_goals exact ⟨pointer, by simp, mutex⟩
  | increase pc => exact ⟨by simp [consumerAt, pointer], by simp [consumerAt], mutex⟩
  | _ => exact ⟨pointer, by simp [consumerAt], mutex⟩

theorem unsigned_step (h : s.Unsigned) (step : s.step a = some (s', out)) : s'.Unsigned := by
  cases step_moves step with
  | client move => exact client_unsigned h move
  | consumer move => exact consumer_unsigned h move
  | wakeWaiter => exact ⟨by simp [h.pointer], h.counting, h.mutex⟩
  | call | wakeProducer | wakeConsumer => exact ⟨h.pointer, h.counting, h.mutex⟩

/-- No access of the consumer to the pool has to wait, a sleep apart. -/
theorem access_possible (h : s.Unsigned) (uses : s.consumer.pc.usesPool = true)
    (awake : s.consumer.pc = .waitConsume → s.consumeCondvar = false) : s.UsesPoolNext := by
  refine ⟨uses, ?_⟩
  have mutex := h.mutex
  cases pc : s.consumer.pc with
  | dequeue =>
    obtain ⟨next, eq⟩ := dequeue_possible s .checkStop .lockConsume
    exact ⟨none, next, by simpa [step, consumerStep, pc] using eq⟩
  | testDequeue =>
    obtain ⟨next, eq⟩ := dequeue_possible s .testStop .testStop
    exact ⟨none, next, by simpa [step, consumerStep, pc] using eq⟩
  | lockConsume =>
    have free : s.conditConsumeMutex = false := by rw [mutex, pc]; rfl
    exact ⟨none, _, by simp [step, consumerStep, pc, free]; rfl⟩
  | waitConsume =>
    have free : s.conditConsumeMutex = false := by rw [mutex, pc]; rfl
    exact ⟨none, _, by simp [step, consumerStep, pc, free, awake pc]; rfl⟩
  | getFromMap rest =>
    cases rest with
    | ret listener => exact ⟨none, _, by simp [step, consumerStep, pc]; rfl⟩
    | atomic update next => exact ⟨none, _, by simp [step, consumerStep, pc]; rfl⟩
  | startEndCapacityEvent =>
    obtain ⟨woken, condvar, eq⟩ := CondVar.notifyOne_possible s.enqueueCondvar
    exact ⟨woken, _, by simp [step, consumerStep, pc, eq]; rfl⟩
  | decreaseConsumersLeft =>
    exact ⟨none, _, by simp [step, consumerStep, pc, h.pointer]; rfl⟩
  | getStopToken | increaseConsumersLeft | blockConsume | unlockConsume | lookup =>
    exact ⟨none, _, by simp [step, consumerStep, pc]; rfl⟩
  | loopHead | testStop | checkStop | testListener | consuming | decreasing | finished =>
    simp [pc, ConsumerPc.usesPool] at uses

end Steps

section Futures
variable {junk : QueueNode Key Value} {s s' : QueuePool T ι}
  {log : List (Entry Key Value Listener ι)} {out : Option (Entry Key Value Listener ι)}
  {a : Action Key Value Listener ι}

def ComesToPool (junk : QueueNode Key Value) (s : QueuePool T ι)
    (log : List (Entry Key Value Listener ι)) : Prop :=
  ∃ s' log', (poolMachine T none junk).Continues s log s' log' ∧ s'.UsesPoolNext

theorem comes_after (step : s.step a = some (s', out))
    (later : ComesToPool junk s' (log ++ out.toList)) : ComesToPool junk s log := by
  obtain ⟨s₁, log₁, run, uses⟩ := later
  have first : (poolMachine T none junk).Continues s log s' (log ++ out.toList) :=
    Machine.Continues.next Machine.Continues.refl step
  exact ⟨s₁, log₁, Machine.continues_trans first run, uses⟩

theorem comes_when_using (h : s.Unsigned) (uses : s.consumer.pc.usesPool = true) :
    ComesToPool junk s log := by
  have awake : s.step .wakeConsumer = some ({ s with consumeCondvar := false }, none) := rfl
  refine comes_after awake ⟨_, _, Machine.Continues.refl, ?_⟩
  exact access_possible (unsigned_step h awake) uses fun _ => rfl

theorem comes_at_loopHead (h : s.Unsigned) (pc : s.consumer.pc = .loopHead) :
    ComesToPool junk s log := by
  cases stop : s.stopCommand with
  | true =>
    have exits : s.step (.consumer none) = some (s.consumerAt .decreaseConsumersLeft, none) := by
      simp [step, consumerStep, pc, stop]
    exact comes_after exits (comes_when_using (unsigned_step h exits) rfl)
  | false =>
    have enters : s.step (.consumer none) = some (s.consumerAt .dequeue, some .dequeueCalled) := by
      simp [step, consumerStep, pc, stop]
    exact comes_after enters (comes_when_using (unsigned_step h enters) rfl)

theorem comes_at_consuming {listener : Listener} (h : s.Unsigned)
    (pc : s.consumer.pc = .consuming listener) : ComesToPool junk s log := by
  have returns : s.step (.consumer none) =
      some (s.consumerAt .startEndCapacityEvent, some .consumeReturned) := by
    simp [step, consumerStep, pc]
  exact comes_after returns (comes_when_using (unsigned_step h returns) rfl)

theorem comes_to_pool (h : s.Unsigned) (going : s.consumer.pc ≠ .finished) :
    ComesToPool junk s log := by
  cases pc : s.consumer.pc with
  | finished => exact absurd pc going
  | decreasing pos => exact absurd pc (h.counting pos)
  | loopHead => exact comes_at_loopHead h pc
  | consuming listener => exact comes_at_consuming h pc
  | testStop =>
    by_cases holds : s.consumer.hasValue = true ∨ s.stopCommand = true
    · have passes : s.step (.consumer none) = some (s.consumerAt .unlockConsume, none) := by
        simp [step, consumerStep, pc, holds]
      exact comes_after passes (comes_when_using (unsigned_step h passes) rfl)
    · have waits : s.step (.consumer none) = some (s.consumerAt .blockConsume, none) := by
        simp [step, consumerStep, pc, holds]
      exact comes_after waits (comes_when_using (unsigned_step h waits) rfl)
  | checkStop =>
    cases stop : s.stopCommand with
    | true =>
      have leaves : s.step (.consumer none) = some (s.consumerAt .loopHead, none) := by
        simp [step, consumerStep, pc, stop]
      exact comes_after leaves (comes_at_loopHead (unsigned_step h leaves) rfl)
    | false =>
      have passes : s.step (.consumer none) = some (s.consumerAt .lookup, none) := by
        simp [step, consumerStep, pc, stop]
      exact comes_after passes (comes_when_using (unsigned_step h passes) rfl)
  | testListener listener =>
    cases listener with
    | none =>
      have reports : s.step (.consumer none) =
          some (s.consumerAt .loopHead, some (.unknownQueue s.consumer.node)) := by
        simp [step, consumerStep, pc]
      exact comes_after reports (comes_at_loopHead (unsigned_step h reports) rfl)
    | some listener =>
      have consumes : s.step (.consumer none) = some (s.consumerAt (.consuming listener),
          some (.consumed listener s.consumer.node)) := by
        simp [step, consumerStep, pc]
      exact comes_after consumes (comes_at_consuming (unsigned_step h consumes) rfl)
  | _ => exact comes_when_using h (by rw [pc]; rfl)

end Futures

end QueuePool

section Runs
variable {T : DefaultTraits Key Value Listener} {junk : QueueNode Key Value} {s s' : QueuePool T ι}
  {log : List (Entry Key Value Listener ι)}

theorem unsigned_run (run : (poolMachine T none junk).Reachable s log) : s.Unsigned := by
  refine Machine.reach_invariant (I := fun s _ => s.Unsigned) ?_ ?_ run
  · exact ⟨rfl, by simp [poolMachine, QueuePool.create], rfl⟩
  · intro s log a s' out _ h _ step
    exact QueuePool.unsigned_step h step

/-- The pool is left alone after its destructor exactly when the consumer thread had
    ended before the destructor returned. -/
theorem destroyed_pool_unused_iff {t : ι} {c : CallId ι}
    (run : (poolMachine T none junk).Reachable s log)
    (destroy : s.step (.client t) = some (s', some (.returned c (.finish .destructor)))) :
    (∀ s₁ log₁, (poolMachine T none junk).Continues s'
        (log ++ [.returned c (.finish .destructor)]) s₁ log₁ → ¬ s₁.UsesPoolNext) ↔
      s.consumer.pc = .finished := by
  have same : s'.consumer = s.consumer := by
    cases QueuePool.step_moves destroy with
    | client move => exact QueuePool.client_keeps_consumer move
  constructor
  · intro unused
    by_contra going
    obtain ⟨s₁, log₁, later, uses⟩ := QueuePool.comes_to_pool
      (QueuePool.unsigned_step (unsigned_run run) destroy) (same ▸ going)
    exact unused s₁ log₁ later uses
  · intro ended s₁ log₁ later uses
    have past : s'.consumer.pc.pastFlag = true := by
      rw [same, ended]
      rfl
    have unused := (quiescent_past_flag rfl past s₁ log₁ later).2.1
    exact Bool.false_ne_true (unused.symm.trans uses.1)

end Runs

section Schedules
open QueuePool

theorem destructor_after_consumer :
    ∃ s s' log, mutexPool.Reachable s log ∧
      s.step (.client 0) = some (s', some (.returned (0, 0) (.finish .destructor))) ∧
      ∀ s₁ log₁, mutexPool.Continues s' (log ++ [.returned (0, 0) (.finish .destructor)]) s₁ log₁ →
        ¬ s₁.UsesPoolNext := by
  obtain ⟨s, log, run, ended, destroy⟩ := Machine.reachable_of_exec mutexPool
    [.call 0 (.finish .destructor), .client 0, .client 0, .consumer none, .consumer none,
      .consumer none, .consumer none]
    (fun s _ => s.consumer.pc = .finished ∧ (s.step (.client 0)).map Prod.snd =
      some (some (.returned (0, 0) (.finish .destructor)))) (by decide)
  obtain ⟨⟨s', out⟩, step, rfl⟩ := Option.map_eq_some_iff.mp destroy
  exact ⟨s, s', log, run, step, (destroyed_pool_unused_iff run step).mpr ended⟩

/-- The destructor has returned, and the thread has yet to ask the pool for its stop token. -/
theorem destructor_before_consumer :
    ∃ s log, mutexPool.Reachable s log ∧ .returned (0, 0) (.finish .destructor) ∈ log ∧
      s.UsesPoolNext := by
  obtain ⟨s, log, run, returned, uses, possible⟩ := Machine.reachable_of_exec mutexPool
    [.call 0 (.finish .destructor), .client 0, .client 0, .client 0]
    (fun s log => .returned (0, 0) (.finish .destructor) ∈ log ∧ s.consumer.pc.usesPool = true ∧
      (s.step (.consumer none)).isSome = true) (by decide)
  obtain ⟨next, step⟩ := Option.isSome_iff_exists.mp possible
  exact ⟨s, log, run, returned, uses, none, next, step⟩

end Schedules

end MappedQueue
