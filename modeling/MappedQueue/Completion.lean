import MappedQueue.ConsumerRounds

/-!
When the consumer thread has let go of the pool. With a completion signature the
calls that wait return only over the event's flag, and the flag is stored by the
consumer itself, past its last access to the pool. Without a signature nobody waits
for the consumer.
-/
namespace MappedQueue
open Concurrency

variable {Key Value Listener ι : Type}

def ConsumerPc.leftFunction {Map : Type} : ConsumerPc Map Listener → Bool
  | .decreaseConsumersLeft => true
  | .decreasing _ => true
  | .finished => true
  | _ => false

/-- The thread's next step reads or writes a member of the pool. Its stop token, its
    locals, a listener it holds and the signature are none. -/
def ConsumerPc.usesPool {Map : Type} : ConsumerPc Map Listener → Bool
  | .loopHead => false
  | .testStop => false
  | .checkStop => false
  | .testListener _ => false
  | .consuming _ => false
  | .decreasing _ => false
  | .finished => false
  | _ => true

def ConsumerPc.pastFlag {Map : Type} : ConsumerPc Map Listener → Bool
  | .decreasing .notifyAll => true
  | .finished => true
  | _ => false

theorem past_flag_is_out {Map : Type} {pc : ConsumerPc Map Listener} (past : pc.pastFlag = true) :
    pc.leftFunction = true ∧ pc.usesPool = false := by
  cases pc with
  | decreasing pos => exact ⟨rfl, rfl⟩
  | finished => exact ⟨rfl, rfl⟩
  | _ => simp [ConsumerPc.pastFlag] at past

namespace QueuePool
variable {T : DefaultTraits Key Value Listener}

def notifyFlag (s : QueuePool T ι) : Option Bool :=
  s.consumersFinished.map fun sign => sign.event.notifyFlag

structure Completing (s : QueuePool T ι) (log : List (Entry Key Value Listener ι)) : Prop where
  pointer : s.notifyFlag ≠ none
  stored : s.notifyFlag = some true → s.consumer.pc.pastFlag = true
  passed : ∀ t call, (s.clients t).pc = .finish call (.wait .unlock) → s.notifyFlag = some true
  returned : ∀ c call, .returned c (.finish call) ∈ log → s.notifyFlag = some true

section Steps
variable [DecidableEq ι] {s s' : QueuePool T ι} {log : List (Entry Key Value Listener ι)}
  {out : Option (Entry Key Value Listener ι)} {a : Action Key Value Listener ι}

theorem client_keeps_flag {t : ι} (move : ClientMove s t s' out) :
    s'.notifyFlag = s.notifyFlag := by
  cases move with
  | waitStep pc pointer inside | waitReturn pc pointer inside =>
    simp [notifyFlag, goto, leave, pointer, Event.waitStep_notifyFlag inside]
  | _ => rfl

theorem consumer_stores_flag {woken : Option ι} (move : ConsumerMove s woken s' out) :
    s'.notifyFlag = s.notifyFlag ∨ s'.consumer.pc.pastFlag = true ∧ s'.notifyFlag = some true := by
  cases move with
  | increase pc =>
    refine Or.inl ?_
    cases sign : s.consumersFinished <;> simp [notifyFlag, consumerAt, sign,
      SignConsumerFinished.increaseConsumersLeft]
  | @decreaseStep pos next sign sign' pc pointer inside =>
    cases pos with
    | decrement | testLeft =>
      obtain ⟨rfl, _⟩ := Prod.mk.inj inside
      exact Or.inl (by simp [notifyFlag, consumerAt, pointer])
    | storeFlag =>
      obtain ⟨rfl, eq⟩ := Prod.mk.inj inside
      obtain rfl := Option.some.inj eq
      exact Or.inr ⟨rfl, rfl⟩
    | notifyAll => simp [SignConsumerFinished.decreaseStep] at inside
  | @decreaseReturn pos sign sign' pc pointer inside =>
    cases pos with
    | testLeft | notifyAll =>
      obtain ⟨rfl, _⟩ := Prod.mk.inj inside
      exact Or.inl (by simp [notifyFlag, consumerAt, pointer, Event.notifyAll])
    | decrement | storeFlag => simp [SignConsumerFinished.decreaseStep] at inside
  | _ => exact Or.inl rfl

theorem past_flag_stays {woken : Option ι} (move : ConsumerMove s woken s' out)
    (past : s.consumer.pc.pastFlag = true) : s'.consumer.pc.pastFlag = true ∧ out = none := by
  cases move with
  | @decreaseStep pos next sign sign' pc pointer inside =>
    cases pos with
    | notifyAll => simp [SignConsumerFinished.decreaseStep] at inside
    | _ => simp [pc, ConsumerPc.pastFlag] at past
  | decreaseReturn => exact ⟨rfl, rfl⟩
  | pop pc | miss pc => rcases pc with ⟨pc, _⟩ | ⟨pc, _⟩ <;> simp [pc, ConsumerPc.pastFlag] at past
  | _ pc => simp [pc, ConsumerPc.pastFlag] at past

theorem step_stores_flag (step : s.step a = some (s', out)) :
    s'.notifyFlag = s.notifyFlag ∨ s'.consumer.pc.pastFlag = true ∧ s'.notifyFlag = some true := by
  cases step_moves step with
  | client move => exact Or.inl (client_keeps_flag move)
  | consumer move => exact consumer_stores_flag move
  | wakeWaiter => cases sign : s.consumersFinished <;> simp [notifyFlag, sign, Event.wake]
  | call | wakeProducer | wakeConsumer => exact Or.inl rfl

theorem step_stays_past (step : s.step a = some (s', out)) (past : s.consumer.pc.pastFlag = true) :
    s'.consumer.pc.pastFlag = true ∧ outcomes out.toList = [] := by
  cases step_moves step with
  | client move =>
    rw [client_keeps_consumer move]
    exact ⟨past, client_writes_no_outcome move⟩
  | consumer move =>
    obtain ⟨still, rfl⟩ := past_flag_stays move past
    exact ⟨still, rfl⟩
  | call | wakeProducer | wakeWaiter | wakeConsumer => exact ⟨past, rfl⟩

theorem client_passes_over_flag {t : ι} {call : FinishCall} (move : ClientMove s t s' out)
    (pc : (s'.clients t).pc = .finish call (.wait .unlock)) : s'.notifyFlag = some true := by
  cases move with
  | waitStep pc' pointer inside =>
    simp only [goto, Function.update_self, ClientPc.finish.injEq, FinishPc.wait.injEq] at pc
    obtain ⟨_, rfl⟩ := pc
    simp [notifyFlag, goto, Event.waitStep_notifyFlag inside, Event.waitStep_passes inside]
  | _ => simp [goto, leave] at pc

theorem client_returns_over_flag {t : ι} {c : CallId ι} {call : FinishCall} (h : s.Completing log)
    (move : ClientMove s t s' (some (.returned c (.finish call)))) :
    s.notifyFlag = some true := by
  cases move with
  | noSign pc null =>
    have pointer := h.pointer
    simp [notifyFlag, null] at pointer
  | waitReturn pc pointer inside =>
    cases Event.waitStep_returns inside
    exact h.passed _ _ pc

theorem entrance_not_waiting (call : Call Key Value Listener) (finish : FinishCall) (pos : WaitPc) :
    entrance call ≠ .finish finish (.wait pos) := by
  cases call with
  | finish call => cases call <;> simp [entrance]
  | _ => simp [entrance]

theorem completing_step (h : s.Completing log) (step : s.step a = some (s', out)) :
    s'.Completing (log ++ out.toList) := by
  have kept : s.notifyFlag = some true → s'.notifyFlag = some true := fun before => by
    rcases step_stores_flag step with same | ⟨_, now⟩
    · exact same.trans before
    · exact now
  constructor
  · rcases step_stores_flag step with same | ⟨_, now⟩
    · exact same ▸ h.pointer
    · simp [now]
  · intro flag
    rcases step_stores_flag step with same | ⟨past, _⟩
    · exact (step_stays_past step (h.stored (same ▸ flag))).1
    · exact past
  · intro u call pc
    rcases step_client step u with same | move | ⟨call', here, _⟩
    · exact kept (h.passed u call (same ▸ pc))
    · exact client_passes_over_flag move pc
    · rw [here] at pc
      exact absurd pc (entrance_not_waiting call' call .unlock)
  · intro c call logged
    rcases List.mem_append.mp logged with earlier | now
    · exact kept (h.returned c call earlier)
    · obtain rfl := Option.mem_toList.mp now
      cases step_moves step with
      | client move => exact kept (client_returns_over_flag h move)
      | consumer move => cases move

end Steps

end QueuePool

/-- From here on the consumer is out of its function, touches no member of the pool and
    comes to no further outcome, so no listener of the pool is called any more. -/
def Quiescent [DecidableEq ι] {T : DefaultTraits Key Value Listener}
    (m : Machine (QueuePool T ι) (QueuePool.Action Key Value Listener ι)
      (Entry Key Value Listener ι)) (s : QueuePool T ι) (log : List (Entry Key Value Listener ι)) :
    Prop :=
  ∀ s' log', m.Continues s log s' log' →
    s'.consumer.pc.leftFunction = true ∧ s'.consumer.pc.usesPool = false ∧
      outcomes log' = outcomes log

section Runs
variable [DecidableEq ι] {T : DefaultTraits Key Value Listener} {junk : QueueNode Key Value}
  {s : QueuePool T ι} {log : List (Entry Key Value Listener ι)}

theorem completing_run
    (run : (poolMachine T (some SignConsumerFinished.create) junk).Reachable s log) :
    s.Completing log := by
  refine Machine.reach_invariant ?_ ?_ run
  · exact ⟨by simp [poolMachine, QueuePool.create, QueuePool.notifyFlag],
      by simp [poolMachine, QueuePool.create, QueuePool.notifyFlag, SignConsumerFinished.create,
        Event.create], by simp [poolMachine, QueuePool.create], by simp⟩
  · intro s log a s' out _ h _ step
    exact QueuePool.completing_step h step

theorem quiescent_past_flag {m : Machine (QueuePool T ι) (QueuePool.Action Key Value Listener ι)
      (Entry Key Value Listener ι)} (pool : m.step = QueuePool.step)
    (past : s.consumer.pc.pastFlag = true) : Quiescent m s log := by
  intro s' log' later
  have still : s'.consumer.pc.pastFlag = true ∧ outcomes log' = outcomes log := by
    induction later with
    | refl => exact ⟨past, rfl⟩
    | next before step ih =>
      rw [pool] at step
      obtain ⟨there, silent⟩ := QueuePool.step_stays_past step ih.1
      exact ⟨there, by rw [outcomes_append, silent, List.append_nil, ih.2]⟩
  obtain ⟨left, unused⟩ := past_flag_is_out still.1
  exact ⟨left, unused, still.2⟩

/-- Once any call that waits for the consumer has returned, the consumer is done with
    the pool. -/
theorem waiting_call_leaves_quiescence {c : CallId ι} {call : FinishCall}
    (run : (poolMachine T (some SignConsumerFinished.create) junk).Reachable s log)
    (returned : .returned c (.finish call) ∈ log) :
    Quiescent (poolMachine T (some SignConsumerFinished.create) junk) s log := by
  have completing := completing_run run
  exact quiescent_past_flag rfl (completing.stored (completing.returned c call returned))

end Runs

section Schedules
open QueuePool

abbrev signedPool : Machine
    (QueuePool ⟨QueueWithMutexTraits Nat Nat 1, MapWithMutexTraits Nat Nat⟩ (Fin 1))
    (Action Nat Nat Nat (Fin 1)) (Entry Nat Nat Nat (Fin 1)) :=
  poolMachine _ (some SignConsumerFinished.create) ⟨0, 0⟩

/-- The stop is requested and waited for before the consumer thread takes its first step. -/
theorem quiescence_after_early_stop :
    ∃ s log, signedPool.Reachable s log ∧
      .returned (0, 0) (.finish .stopProcessing) ∈ log ∧ Quiescent signedPool s log := by
  obtain ⟨s, log, run, returned⟩ := Machine.reachable_of_exec signedPool
    [.call 0 (.finish .stopProcessing), .client 0, .client 0, .client 0, .client 0, .client 0,
      .client 0, .consumer none, .consumer none, .consumer none, .consumer none, .consumer none,
      .consumer none, .consumer none, .consumer none, .client 0, .client 0, .client 0]
    (fun _ log => .returned (0, 0) (.finish .stopProcessing) ∈ log) (by decide)
  exact ⟨s, log, run, returned, waiting_call_leaves_quiescence run returned⟩

end Schedules

end MappedQueue
