import MappedQueue.QueuePool

/-!
What one step of a pool can do, said once: a list of moves for the client threads
and one for the consumer thread, each with the guard it needs, the pool it leaves
and the entry it writes. Every later argument about runs goes by cases on these.
-/
namespace MappedQueue
open Concurrency

namespace QueuePool
variable {Key Value Listener ι : Type} {T : DefaultTraits Key Value Listener} [DecidableEq ι]

attribute [simp] goto leave consumerAt startHasValueEvent startDestructEvent

inductive ClientMove (s : QueuePool T ι) (t : ι) :
    QueuePool T ι → Option (Entry Key Value Listener ι) → Prop where
  | tryPush {node queue} (pc : (s.clients t).pc = .enqueue node .tryEnqueue)
      (push : T.queueTraits.enqueue s.queue node = (queue, true)) :
      ClientMove s t ({ s with queue := queue }.goto t (.enqueue node .startHasValueEvent))
        (some (.pushed (s.callId t) node))
  | tryRefused {node queue} (pc : (s.clients t).pc = .enqueue node .tryEnqueue)
      (push : T.queueTraits.enqueue s.queue node = (queue, false)) :
      ClientMove s t ({ s with queue := queue }.goto t (.enqueue node .lock)) none
  | lock {node} (pc : (s.clients t).pc = .enqueue node .lock)
      (free : s.conditEnqueueMutex = none) :
      ClientMove s t ({ s with conditEnqueueMutex := some t }.goto t (.enqueue node .test)) none
  | predicatePush {node pos queue} (pc : (s.clients t).pc = .enqueue node pos)
      (testing : pos = .test ∨ ∃ notified, pos = .retest notified)
      (push : T.queueTraits.enqueue s.queue node = (queue, true)) :
      ClientMove s t ({ s with queue := queue }.goto t (.enqueue node .block))
        (some (.pushed (s.callId t) node))
  | predicateRefused {node pos queue} (pc : (s.clients t).pc = .enqueue node pos)
      (testing : pos = .test ∨ ∃ notified, pos = .retest notified)
      (push : T.queueTraits.enqueue s.queue node = (queue, false)) :
      ClientMove s t ({ s with queue := queue }.goto t (.enqueue node .unlock)) none
  | block {node} (pc : (s.clients t).pc = .enqueue node .block) :
      ClientMove s t ({ s with
        conditEnqueueMutex := none, enqueueCondvar := s.enqueueCondvar.wait t }.goto t
          (.enqueue node .wait)) none
  | resume {node} (pc : (s.clients t).pc = .enqueue node .wait)
      (awake : t ∉ s.enqueueCondvar.blocked) (free : s.conditEnqueueMutex = none) :
      ClientMove s t ({ s with
        conditEnqueueMutex := some t, enqueueCondvar := s.enqueueCondvar.resume t }.goto t
          (.enqueue node (.retest (decide (t ∈ s.enqueueCondvar.notified))))) none
  | unlock {node} (pc : (s.clients t).pc = .enqueue node .unlock) :
      ClientMove s t
        ({ s with conditEnqueueMutex := none }.goto t (.enqueue node .startHasValueEvent)) none
  | hasValueEvent {node} (pc : (s.clients t).pc = .enqueue node .startHasValueEvent) :
      ClientMove s t (s.startHasValueEvent.leave t)
        (some (.returned (s.callId t) (.enqueue node)))
  | subscribe {key listener} (pc : (s.clients t).pc = .subscribe key listener) :
      ClientMove s t ({ s with map := T.mapTraits.addToMap s.map key listener }.leave t)
        (some (.returned (s.callId t) (.subscribe key listener)))
  | requestStop {call} (pc : (s.clients t).pc = .finish call .requestStop) :
      ClientMove s t ({ s with stopCommand := true }.goto t (.finish call .startDestructEvent))
        (some .stopRequested)
  | destructEvent {call} (pc : (s.clients t).pc = .finish call .startDestructEvent) :
      ClientMove s t (s.startDestructEvent.goto t (.finish call .waitForConsumersFinished))
        (some .destructNotified)
  | noSign {call} (pc : (s.clients t).pc = .finish call .waitForConsumersFinished)
      (null : s.consumersFinished = none) :
      ClientMove s t
        ({ s with destroyed := s.destroyed || call == FinishCall.destructor }.leave t)
        (some (.returned (s.callId t) (.finish call)))
  | enterWait {call sign} (pc : (s.clients t).pc = .finish call .waitForConsumersFinished)
      (pointer : s.consumersFinished = some sign) :
      ClientMove s t (s.goto t (.finish call (.wait .lock))) none
  | waitStep {call pos sign event next} (pc : (s.clients t).pc = .finish call (.wait pos))
      (pointer : s.consumersFinished = some sign)
      (inside : sign.event.waitStep t pos = some (event, some next)) :
      ClientMove s t ({ s with consumersFinished := some { sign with event := event } }.goto t
        (.finish call (.wait next))) none
  | waitReturn {call pos sign event} (pc : (s.clients t).pc = .finish call (.wait pos))
      (pointer : s.consumersFinished = some sign)
      (inside : sign.event.waitStep t pos = some (event, none)) :
      ClientMove s t ({ s with
        consumersFinished := some { sign with event := event },
        destroyed := s.destroyed || call == FinishCall.destructor }.leave t)
        (some (.returned (s.callId t) (.finish call)))

theorem predicate_moves {s s' : QueuePool T ι} {t : ι} {node : QueueNode Key Value}
    {pos : EnqueuePc} {out : Option (Entry Key Value Listener ι)}
    (pc : (s.clients t).pc = .enqueue node pos)
    (testing : pos = .test ∨ ∃ notified, pos = .retest notified)
    (h : s.enqueuePredicate t node = some (s', out)) : ClientMove s t s' out := by
  unfold enqueuePredicate at h
  split at h <;> cases h
  · exact ClientMove.predicatePush pc testing ‹_›
  · exact ClientMove.predicateRefused pc testing ‹_›

theorem enqueue_moves {s s' : QueuePool T ι} {t : ι} {node : QueueNode Key Value}
    {pos : EnqueuePc} {out : Option (Entry Key Value Listener ι)}
    (pc : (s.clients t).pc = .enqueue node pos)
    (h : s.enqueueStep t node pos = some (s', out)) : ClientMove s t s' out := by
  cases pos with
  | tryEnqueue =>
    simp only [enqueueStep] at h
    split at h <;> cases h
    · exact ClientMove.tryPush pc ‹_›
    · exact ClientMove.tryRefused pc ‹_›
  | lock =>
    simp only [enqueueStep] at h
    split at h <;> cases h
    exact ClientMove.lock pc ‹_›
  | test => exact predicate_moves pc (Or.inl rfl) h
  | block => cases h; exact ClientMove.block pc
  | wait =>
    simp only [enqueueStep] at h
    split at h <;> cases h
    rename_i guard
    exact ClientMove.resume pc guard.1 guard.2
  | retest notified => exact predicate_moves pc (Or.inr ⟨notified, rfl⟩) h
  | unlock => cases h; exact ClientMove.unlock pc
  | startHasValueEvent => cases h; exact ClientMove.hasValueEvent pc

theorem finish_moves {s s' : QueuePool T ι} {t : ι} {call : FinishCall} {pos : FinishPc}
    {out : Option (Entry Key Value Listener ι)} (pc : (s.clients t).pc = .finish call pos)
    (h : s.finishStep t call pos = some (s', out)) : ClientMove s t s' out := by
  cases pos with
  | requestStop => cases h; exact ClientMove.requestStop pc
  | startDestructEvent => cases h; exact ClientMove.destructEvent pc
  | waitForConsumersFinished =>
    simp only [finishStep] at h
    split at h <;> cases h
    · exact ClientMove.noSign pc ‹_›
    · exact ClientMove.enterWait pc ‹_›
  | wait pos =>
    simp only [finishStep] at h
    split at h
    · contradiction
    · split at h <;> cases h
      · exact ClientMove.waitStep pc ‹_› ‹_›
      · exact ClientMove.waitReturn pc ‹_› ‹_›

theorem client_moves {s s' : QueuePool T ι} {t : ι} {out : Option (Entry Key Value Listener ι)}
    (h : s.clientStep t = some (s', out)) : ClientMove s t s' out := by
  unfold clientStep at h
  split at h
  · contradiction
  · exact enqueue_moves ‹_› h
  · cases h; exact ClientMove.subscribe ‹_›
  · exact finish_moves ‹_› h

/- `pop` and `miss` stand for both places where a `Dequeue` call asks the queue. -/
inductive ConsumerMove (s : QueuePool T ι) (woken : Option ι) :
    QueuePool T ι → Option (Entry Key Value Listener ι) → Prop where
  | getStopToken (pc : s.consumer.pc = .getStopToken) :
      ConsumerMove s woken (s.consumerAt .increaseConsumersLeft) none
  | increase (pc : s.consumer.pc = .increaseConsumersLeft) :
      ConsumerMove s woken ({ s with
        consumersFinished := s.consumersFinished.map SignConsumerFinished.increaseConsumersLeft
        }.consumerAt .loopHead) none
  | loopExit (pc : s.consumer.pc = .loopHead) (stop : s.stopCommand = true) :
      ConsumerMove s woken (s.consumerAt .decreaseConsumersLeft) none
  | loopEnter (pc : s.consumer.pc = .loopHead) (stop : s.stopCommand = false) :
      ConsumerMove s woken (s.consumerAt .dequeue) (some .dequeueCalled)
  | pop {found queue node} (pc : s.consumer.pc = .dequeue ∧ found = .checkStop ∨
        s.consumer.pc = .testDequeue ∧ found = .testStop)
      (taken : T.queueTraits.dequeue s.queue s.consumer.node = (queue, node, true)) :
      ConsumerMove s woken { s with queue := queue, consumer := ⟨found, node, true⟩ }
        (some (.popped node))
  | miss {missed queue node} (pc : s.consumer.pc = .dequeue ∧ missed = .lockConsume ∨
        s.consumer.pc = .testDequeue ∧ missed = .testStop)
      (empty : T.queueTraits.dequeue s.queue s.consumer.node = (queue, node, false)) :
      ConsumerMove s woken { s with queue := queue, consumer := ⟨missed, node, false⟩ } none
  | lock (pc : s.consumer.pc = .lockConsume) (free : s.conditConsumeMutex = false) :
      ConsumerMove s woken ({ s with conditConsumeMutex := true }.consumerAt .testDequeue) none
  | testTrue (pc : s.consumer.pc = .testStop)
      (holds : s.consumer.hasValue = true ∨ s.stopCommand = true) :
      ConsumerMove s woken (s.consumerAt .unlockConsume) none
  | testFalse (pc : s.consumer.pc = .testStop) (value : s.consumer.hasValue = false)
      (stop : s.stopCommand = false) : ConsumerMove s woken (s.consumerAt .blockConsume) none
  | block (pc : s.consumer.pc = .blockConsume) :
      ConsumerMove s woken
        ({ s with conditConsumeMutex := false, consumeCondvar := true }.consumerAt .waitConsume) none
  | resume (pc : s.consumer.pc = .waitConsume) (awake : s.consumeCondvar = false)
      (free : s.conditConsumeMutex = false) :
      ConsumerMove s woken ({ s with conditConsumeMutex := true }.consumerAt .testDequeue) none
  | unlock (pc : s.consumer.pc = .unlockConsume) :
      ConsumerMove s woken ({ s with conditConsumeMutex := false }.consumerAt .checkStop) none
  | checkStopped (pc : s.consumer.pc = .checkStop) (stop : s.stopCommand = true) :
      ConsumerMove s woken (s.consumerAt .loopHead) none
  | checkPassed (pc : s.consumer.pc = .checkStop) (stop : s.stopCommand = false) :
      ConsumerMove s woken (s.consumerAt .lookup) none
  | lookup (pc : s.consumer.pc = .lookup) :
      ConsumerMove s woken
        (s.consumerAt (.getFromMap (T.mapTraits.getFromMap s.consumer.node.key)))
        (some (.lookedUp s.consumer.node))
  | mapSection {update next} (pc : s.consumer.pc = .getFromMap (.atomic update next)) :
      ConsumerMove s woken
        ({ s with map := update s.map }.consumerAt (.getFromMap (next s.map))) none
  | mapReturn {listener} (pc : s.consumer.pc = .getFromMap (.ret listener)) :
      ConsumerMove s woken (s.consumerAt (.testListener listener)) none
  | consume {listener} (pc : s.consumer.pc = .testListener (some listener)) :
      ConsumerMove s woken (s.consumerAt (.consuming listener))
        (some (.consumed listener s.consumer.node))
  | unknownQueue (pc : s.consumer.pc = .testListener none) :
      ConsumerMove s woken (s.consumerAt .loopHead) (some (.unknownQueue s.consumer.node))
  | consumeReturn {listener} (pc : s.consumer.pc = .consuming listener) :
      ConsumerMove s woken (s.consumerAt .startEndCapacityEvent) (some .consumeReturned)
  | capacityEvent {condvar} (pc : s.consumer.pc = .startEndCapacityEvent)
      (notify : s.enqueueCondvar.notifyOne woken = some condvar) :
      ConsumerMove s woken ({ s with enqueueCondvar := condvar }.consumerAt .loopHead)
        (some .capacityNotified)
  | noSign (pc : s.consumer.pc = .decreaseConsumersLeft) (null : s.consumersFinished = none) :
      ConsumerMove s woken (s.consumerAt .finished) none
  | decrease {sign} (pc : s.consumer.pc = .decreaseConsumersLeft)
      (pointer : s.consumersFinished = some sign) :
      ConsumerMove s woken (s.consumerAt (.decreasing .decrement)) none
  | decreaseStep {pos next sign sign'} (pc : s.consumer.pc = .decreasing pos)
      (pointer : s.consumersFinished = some sign) (inside : sign.decreaseStep pos = (sign', some next)) :
      ConsumerMove s woken
        ({ s with consumersFinished := some sign' }.consumerAt (.decreasing next)) none
  | decreaseReturn {pos sign sign'} (pc : s.consumer.pc = .decreasing pos)
      (pointer : s.consumersFinished = some sign) (inside : sign.decreaseStep pos = (sign', none)) :
      ConsumerMove s woken ({ s with consumersFinished := some sign' }.consumerAt .finished) none

theorem dequeue_moves {s s' : QueuePool T ι} {woken : Option ι}
    {found missed : ConsumerPc T.mapTraits.Map Listener}
    {out : Option (Entry Key Value Listener ι)}
    (pc : s.consumer.pc = .dequeue ∧ found = .checkStop ∧ missed = .lockConsume ∨
      s.consumer.pc = .testDequeue ∧ found = .testStop ∧ missed = .testStop)
    (h : s.dequeueInto found missed = some (s', out)) : ConsumerMove s woken s' out := by
  unfold dequeueInto at h
  split at h <;> cases h
  · exact ConsumerMove.pop (pc.imp (fun p => ⟨p.1, p.2.1⟩) fun p => ⟨p.1, p.2.1⟩) ‹_›
  · exact ConsumerMove.miss (pc.imp (fun p => ⟨p.1, p.2.2⟩) fun p => ⟨p.1, p.2.2⟩) ‹_›

theorem decrease_moves {s : QueuePool T ι} {woken : Option ι} {sign : SignConsumerFinished ι}
    {pos : DecreasePc} (pc : s.consumer.pc = .decreasing pos)
    (pointer : s.consumersFinished = some sign) :
    ConsumerMove s woken (s.decreaseConsumersLeft sign pos) none := by
  unfold decreaseConsumersLeft
  split
  · exact ConsumerMove.decreaseStep pc pointer ‹_›
  · exact ConsumerMove.decreaseReturn pc pointer ‹_›

theorem consumer_moves {s s' : QueuePool T ι} {woken : Option ι}
    {out : Option (Entry Key Value Listener ι)}
    (h : s.consumerStep woken = some (s', out)) : ConsumerMove s woken s' out := by
  unfold consumerStep at h
  split at h
  case h_1 pc => cases h; exact ConsumerMove.getStopToken pc
  case h_2 pc => cases h; exact ConsumerMove.increase pc
  case h_3 pc =>
    split at h <;> cases h
    · exact ConsumerMove.loopExit pc ‹_›
    · exact ConsumerMove.loopEnter pc (Bool.eq_false_iff.mpr ‹_›)
  case h_4 pc => exact dequeue_moves (Or.inl ⟨pc, rfl, rfl⟩) h
  case h_5 pc =>
    split at h <;> cases h
    exact ConsumerMove.lock pc (Bool.eq_false_iff.mpr ‹_›)
  case h_6 pc => exact dequeue_moves (Or.inr ⟨pc, rfl, rfl⟩) h
  case h_7 pc =>
    split at h <;> cases h
    · exact ConsumerMove.testTrue pc (by simpa using ‹(_ || _) = true›)
    · rename_i fails
      simp only [Bool.or_eq_true, not_or, Bool.not_eq_true] at fails
      exact ConsumerMove.testFalse pc fails.1 fails.2
  case h_8 pc => cases h; exact ConsumerMove.block pc
  case h_9 pc =>
    split at h <;> cases h
    rename_i awake
    simp only [Bool.or_eq_true, not_or, Bool.not_eq_true] at awake
    exact ConsumerMove.resume pc awake.1 awake.2
  case h_10 pc => cases h; exact ConsumerMove.unlock pc
  case h_11 pc =>
    cases stop : s.stopCommand <;> simp only [stop] at h <;> cases h
    · exact ConsumerMove.checkPassed pc stop
    · exact ConsumerMove.checkStopped pc stop
  case h_12 pc => cases h; exact ConsumerMove.lookup pc
  case h_13 pc => cases h; exact ConsumerMove.mapSection pc
  case h_14 pc => cases h; exact ConsumerMove.mapReturn pc
  case h_15 pc => cases h; exact ConsumerMove.consume pc
  case h_16 pc => cases h; exact ConsumerMove.unknownQueue pc
  case h_17 pc => cases h; exact ConsumerMove.consumeReturn pc
  case h_18 pc =>
    split at h <;> cases h
    exact ConsumerMove.capacityEvent pc ‹_›
  case h_19 pc =>
    split at h <;> cases h
    · exact ConsumerMove.noSign pc ‹_›
    · exact ConsumerMove.decrease pc ‹_›
  case h_20 pc =>
    split at h <;> cases h
    exact decrease_moves pc ‹_›
  case h_21 pc => contradiction

/- One step of the whole pool. -/
inductive Move (s : QueuePool T ι) : Action Key Value Listener ι → QueuePool T ι →
    Option (Entry Key Value Listener ι) → Prop where
  | call {t call} (pc : (s.clients t).pc = .idle) (alive : s.destroyed = false) :
      Move s (.call t call) (s.goto t (entrance call)) (some (.called (s.callId t) call))
  | client {t s' out} (move : ClientMove s t s' out) : Move s (.client t) s' out
  | consumer {woken s' out} (move : ConsumerMove s woken s' out) : Move s (.consumer woken) s' out
  | wakeProducer {t} :
      Move s (.wakeProducer t) { s with enqueueCondvar := s.enqueueCondvar.wake t } none
  | wakeWaiter {t} :
      Move s (.wakeWaiter t) { s with
        consumersFinished := s.consumersFinished.map fun sign =>
          { sign with event := sign.event.wake t } } none
  | wakeConsumer : Move s .wakeConsumer { s with consumeCondvar := false } none

theorem step_moves {s s' : QueuePool T ι} {a : Action Key Value Listener ι}
    {out : Option (Entry Key Value Listener ι)} (h : s.step a = some (s', out)) :
    Move s a s' out := by
  cases a with
  | call t call =>
    simp only [step, callStep] at h
    split at h
    · split at h <;> cases h
      exact Move.call ‹_› (Bool.eq_false_iff.mpr ‹_›)
    · contradiction
  | client t => exact Move.client (client_moves h)
  | consumer woken => exact Move.consumer (consumer_moves h)
  | wakeProducer t => cases h; exact Move.wakeProducer
  | wakeWaiter t => cases h; exact Move.wakeWaiter
  | wakeConsumer => cases h; exact Move.wakeConsumer

section Frames
variable {s s' : QueuePool T ι} {t : ι} {woken : Option ι} {a : Action Key Value Listener ι}
  {out : Option (Entry Key Value Listener ι)}

theorem client_keeps_consumer (move : ClientMove s t s' out) : s'.consumer = s.consumer := by
  cases move <;> rfl

theorem client_keeps_others {u : ι} (move : ClientMove s t s' out) (other : u ≠ t) :
    s'.clients u = s.clients u ∧
      (u ∈ s'.enqueueCondvar.blocked → u ∈ s.enqueueCondvar.blocked) := by
  cases move <;> simp [goto, leave, startHasValueEvent, startDestructEvent, other]

/-- A client thread changes the queue only by a push, and logs it. The pushing call
    goes on either to its notification or, from the wait predicate, to sleep. -/
theorem client_contents (move : ClientMove s t s' out) :
    (s'.contents = s.contents ∧ ∀ c node, out ≠ some (.pushed c node)) ∨
    ∃ node pos, out = some (.pushed (s.callId t) node) ∧ s'.contents = s.contents ++ [node] ∧
      s'.clients t = ⟨(s.clients t).calls, .enqueue node pos⟩ ∧
      (pos = .startHasValueEvent ∨ pos = .block) := by
  cases move with
  | tryPush pc push =>
    exact Or.inr ⟨_, _, rfl, T.queueTraits.enqueue_accepts push, by simp [goto], Or.inl rfl⟩
  | predicatePush pc testing push =>
    exact Or.inr ⟨_, _, rfl, T.queueTraits.enqueue_accepts push, by simp [goto], Or.inr rfl⟩
  | tryRefused pc push =>
    exact Or.inl ⟨congrArg T.queueTraits.contents (T.queueTraits.enqueue_refuses push), by simp⟩
  | predicateRefused pc testing push =>
    exact Or.inl ⟨congrArg T.queueTraits.contents (T.queueTraits.enqueue_refuses push), by simp⟩
  | _ => exact Or.inl ⟨rfl, by simp⟩

theorem consumer_keeps_clients (move : ConsumerMove s woken s' out) : s'.clients = s.clients := by
  cases move <;> rfl

theorem consumer_keeps_blocked {u : ι} (move : ConsumerMove s woken s' out)
    (asleep : u ∈ s'.enqueueCondvar.blocked) : u ∈ s.enqueueCondvar.blocked := by
  cases move with
  | capacityEvent pc notify => exact CondVar.notifyOne_blocked notify asleep
  | _ => exact asleep

theorem consumer_contents (move : ConsumerMove s woken s' out) :
    (s'.contents = s.contents ∧ ∀ node, out ≠ some (.popped node)) ∨
    ∃ node, out = some (.popped node) ∧ s.contents = node :: s'.contents := by
  cases move with
  | pop pc taken => exact Or.inr ⟨_, rfl, T.queueTraits.dequeue_takes taken⟩
  | miss pc empty =>
    obtain ⟨_, same, _⟩ := T.queueTraits.dequeue_fails empty
    exact Or.inl ⟨congrArg T.queueTraits.contents same, by simp⟩
  | _ => exact Or.inl ⟨rfl, by simp⟩

/-- A step leaves a thread as it was, or is a move of the thread, or its next call. -/
theorem step_client (h : s.step a = some (s', out)) (u : ι) :
    s'.clients u = s.clients u ∨ ClientMove s u s' out ∨
      ∃ call, s'.clients u = ⟨(s.clients u).calls, entrance call⟩ ∧
        out = some (.called (s.callId u) call) := by
  cases step_moves h with
  | @client t _ _ move =>
    by_cases own : u = t
    · subst own
      exact Or.inr (Or.inl move)
    · exact Or.inl (client_keeps_others move own).1
  | consumer move => exact Or.inl (by rw [consumer_keeps_clients move])
  | @call t call pc alive =>
    by_cases own : u = t
    · subst own
      exact Or.inr (Or.inr ⟨call, Function.update_self .., rfl⟩)
    · exact Or.inl (Function.update_of_ne own ..)
  | wakeProducer | wakeWaiter | wakeConsumer => exact Or.inl rfl

theorem step_keeps_stop (h : s.step a = some (s', out)) (stop : s.stopCommand = true) :
    s'.stopCommand = true := by
  cases step_moves h with
  | client move => cases move <;> first | exact stop | rfl
  | consumer move => cases move <;> exact stop
  | call | wakeProducer | wakeWaiter | wakeConsumer => exact stop

theorem running_before (h : s.step a = some (s', out)) (running : s'.stopCommand = false) :
    s.stopCommand = false := by
  cases stop : s.stopCommand with
  | false => rfl
  | true => simp [step_keeps_stop h stop] at running

end Frames

end QueuePool

end MappedQueue
