import MappedQueue.Concurrency.Machine
import MappedQueue.SignConsumerFinished
import MappedQueue.QueueTraits
import MappedQueue.MapTraits

/-!
The pool as a machine: its members, the threads inside its calls, the detached
consumer thread and the completion signature, advanced one shared access at a
time. Any number of client threads call the pool, each one call after another.
A queue operation, a locked access to the map, taking and giving up a mutex,
falling asleep and notifying are one step each, and any sleeper may wake up
spuriously. The log keeps what an observer of the calls and of the queue sees.
-/
namespace MappedQueue
open Concurrency

structure DefaultTraits (Key Value Listener : Type) where
  queueTraits : QueueTraits Key Value
  mapTraits : MapTraits Key Listener

inductive FinishCall where
  | stopProcessing
  | destructor
  | waitForConsumersFinished
  deriving DecidableEq, Repr

inductive Call (Key Value Listener : Type) where
  | enqueue (node : QueueNode Key Value)
  | subscribe (key : Key) (listener : Option Listener)
  | finish (call : FinishCall)
  deriving DecidableEq, Repr

/-- Where a thread stands inside `Enqueue`. `retest` is the evaluation of the
    predicate after a sleep, which a notification or nothing at all has ended. -/
inductive EnqueuePc where
  | tryEnqueue
  | lock
  | test
  | block
  | wait
  | retest (notified : Bool)
  | unlock
  | startHasValueEvent
  deriving DecidableEq, Repr

inductive FinishPc where
  | requestStop
  | startDestructEvent
  | waitForConsumersFinished
  | wait (pc : WaitPc)
  deriving DecidableEq, Repr

inductive ClientPc (Key Value Listener : Type) where
  | idle
  | enqueue (node : QueueNode Key Value) (pc : EnqueuePc)
  | subscribe (key : Key) (listener : Option Listener)
  | finish (call : FinishCall) (pc : FinishPc)
  deriving DecidableEq, Repr

structure Client (Key Value Listener : Type) where
  calls : Nat
  pc : ClientPc Key Value Listener
  deriving DecidableEq, Repr

inductive ConsumerPc (Map Listener : Type) where
  | getStopToken
  | increaseConsumersLeft
  | loopHead
  | dequeue
  | lockConsume
  | testDequeue
  | testStop
  | blockConsume
  | waitConsume
  | unlockConsume
  | checkStop
  | lookup
  | getFromMap (rest : Sections Map (Option Listener))
  | testListener (listener : Option Listener)
  | consuming (listener : Listener)
  | startEndCapacityEvent
  | decreaseConsumersLeft
  | decreasing (pc : DecreasePc)
  | finished

structure Consumer (Key Value Map Listener : Type) where
  pc : ConsumerPc Map Listener
  node : QueueNode Key Value
  hasValue : Bool

abbrev CallId (ι : Type) := ι × Nat

inductive Entry (Key Value Listener ι : Type) where
  | called (c : CallId ι) (call : Call Key Value Listener)
  | pushed (c : CallId ι) (node : QueueNode Key Value)
  | returned (c : CallId ι) (call : Call Key Value Listener)
  | stopRequested
  | destructNotified
  | dequeueCalled
  | popped (node : QueueNode Key Value)
  | lookedUp (node : QueueNode Key Value)
  | consumed (listener : Listener) (node : QueueNode Key Value)
  | consumeReturned
  | unknownQueue (node : QueueNode Key Value)
  | capacityNotified
  deriving DecidableEq, Repr

variable {Key Value Listener ι : Type}

/-- `consumeCondvar` says that the consumer sleeps on that condition variable
    with no notification yet, there being no other thread that ever waits on it.
    `consumersFinished` is the pointer together with what it points to. -/
structure QueuePool (T : DefaultTraits Key Value Listener) (ι : Type) where
  stopCommand : Bool
  consumeCondvar : Bool
  consumersFinished : Option (SignConsumerFinished ι)
  queue : T.queueTraits.Queue
  map : T.mapTraits.Map
  conditConsumeMutex : Bool
  conditEnqueueMutex : Option ι
  enqueueCondvar : CondVar ι
  destroyed : Bool
  consumer : Consumer Key Value T.mapTraits.Map Listener
  clients : ι → Client Key Value Listener

namespace QueuePool
variable {T : DefaultTraits Key Value Listener}

def contents (s : QueuePool T ι) : List (QueueNode Key Value) := T.queueTraits.contents s.queue

/-- The pool as `Create` leaves it, the thread created and not yet run. `junk` is
    what a node holds before anything is assigned to it. -/
def create (sign : Option (SignConsumerFinished ι)) (junk : QueueNode Key Value) :
    QueuePool T ι where
  stopCommand := false
  consumeCondvar := false
  consumersFinished := sign
  queue := T.queueTraits.empty
  map := T.mapTraits.empty
  conditConsumeMutex := false
  conditEnqueueMutex := none
  enqueueCondvar := CondVar.empty
  destroyed := false
  consumer := ⟨.getStopToken, junk, false⟩
  clients := fun _ => ⟨0, .idle⟩

def callId (s : QueuePool T ι) (t : ι) : CallId ι := (t, (s.clients t).calls)

def isIdle (s : QueuePool T ι) (t : ι) : Bool :=
  match (s.clients t).pc with
  | .idle => true
  | _ => false

theorem isIdle_iff {s : QueuePool T ι} {t : ι} : s.isIdle t = true ↔ (s.clients t).pc = .idle := by
  unfold isIdle
  split
  · simp [*]
  · simp_all

def startHasValueEvent (s : QueuePool T ι) : QueuePool T ι := { s with consumeCondvar := false }

def startDestructEvent (s : QueuePool T ι) : QueuePool T ι := { s with consumeCondvar := false }

def consumerAt (s : QueuePool T ι) (pc : ConsumerPc T.mapTraits.Map Listener) : QueuePool T ι :=
  { s with consumer := { s.consumer with pc := pc } }

variable [DecidableEq ι]

def goto (s : QueuePool T ι) (t : ι) (pc : ClientPc Key Value Listener) : QueuePool T ι :=
  { s with clients := Function.update s.clients t ⟨(s.clients t).calls, pc⟩ }

def leave (s : QueuePool T ι) (t : ι) : QueuePool T ι :=
  { s with clients := Function.update s.clients t ⟨(s.clients t).calls + 1, .idle⟩ }

abbrev Next (T : DefaultTraits Key Value Listener) (ι : Type) :=
  Option (QueuePool T ι × Option (Entry Key Value Listener ι))

/-- The wait predicate pushes and asks for more waiting when the push succeeded. -/
def enqueuePredicate (s : QueuePool T ι) (t : ι) (node : QueueNode Key Value) : Next T ι :=
  match T.queueTraits.enqueue s.queue node with
  | (queue, true) =>
    some ({ s with queue := queue }.goto t (.enqueue node .block), some (.pushed (s.callId t) node))
  | (queue, false) => some ({ s with queue := queue }.goto t (.enqueue node .unlock), none)

def enqueueStep (s : QueuePool T ι) (t : ι) (node : QueueNode Key Value) : EnqueuePc → Next T ι
  | .tryEnqueue =>
    match T.queueTraits.enqueue s.queue node with
    | (queue, true) =>
      some ({ s with queue := queue }.goto t (.enqueue node .startHasValueEvent),
        some (.pushed (s.callId t) node))
    | (queue, false) => some ({ s with queue := queue }.goto t (.enqueue node .lock), none)
  | .lock =>
    if s.conditEnqueueMutex = none then
      some ({ s with conditEnqueueMutex := some t }.goto t (.enqueue node .test), none)
    else none
  | .test => s.enqueuePredicate t node
  | .block =>
    some ({ s with conditEnqueueMutex := none, enqueueCondvar := s.enqueueCondvar.wait t }.goto t
      (.enqueue node .wait), none)
  | .wait =>
    if t ∉ s.enqueueCondvar.blocked ∧ s.conditEnqueueMutex = none then
      some ({ s with
        conditEnqueueMutex := some t, enqueueCondvar := s.enqueueCondvar.resume t }.goto t
          (.enqueue node (.retest (decide (t ∈ s.enqueueCondvar.notified)))), none)
    else none
  | .retest _ => s.enqueuePredicate t node
  | .unlock =>
    some ({ s with conditEnqueueMutex := none }.goto t (.enqueue node .startHasValueEvent), none)
  | .startHasValueEvent =>
    some (s.startHasValueEvent.leave t, some (.returned (s.callId t) (.enqueue node)))

def finishReturn (s : QueuePool T ι) (t : ι) (call : FinishCall) : Next T ι :=
  some ({ s with destroyed := s.destroyed || call == FinishCall.destructor }.leave t,
    some (.returned (s.callId t) (.finish call)))

def finishStep (s : QueuePool T ι) (t : ι) (call : FinishCall) : FinishPc → Next T ι
  | .requestStop =>
    some ({ s with stopCommand := true }.goto t (.finish call .startDestructEvent),
      some .stopRequested)
  | .startDestructEvent =>
    some (s.startDestructEvent.goto t (.finish call .waitForConsumersFinished),
      some .destructNotified)
  | .waitForConsumersFinished =>
    match s.consumersFinished with
    | none => s.finishReturn t call
    | some _ => some (s.goto t (.finish call (.wait .lock)), none)
  | .wait pc =>
    match s.consumersFinished with
    | none => none
    | some sign =>
      match sign.event.waitStep t pc with
      | none => none
      | some (event, some next) =>
        some ({ s with consumersFinished := some { sign with event := event } }.goto t
          (.finish call (.wait next)), none)
      | some (event, none) =>
        { s with consumersFinished := some { sign with event := event } }.finishReturn t call

def clientStep (s : QueuePool T ι) (t : ι) : Next T ι :=
  match (s.clients t).pc with
  | .idle => none
  | .enqueue node pc => s.enqueueStep t node pc
  | .subscribe key listener =>
    some ({ s with map := T.mapTraits.addToMap s.map key listener }.leave t,
      some (.returned (s.callId t) (.subscribe key listener)))
  | .finish call pc => s.finishStep t call pc

def entrance : Call Key Value Listener → ClientPc Key Value Listener
  | .enqueue node => .enqueue node .tryEnqueue
  | .subscribe key listener => .subscribe key listener
  | .finish .waitForConsumersFinished => .finish .waitForConsumersFinished .waitForConsumersFinished
  | .finish call => .finish call .requestStop

/-- A thread calls nothing on a pool that has been destroyed. -/
def callStep (s : QueuePool T ι) (t : ι) (call : Call Key Value Listener) : Next T ι :=
  match (s.clients t).pc with
  | .idle =>
    if s.destroyed then none
    else some (s.goto t (entrance call), some (.called (s.callId t) call))
  | _ => none

/-- `Traits::Dequeue` into the local node, the flag becoming `has_value`. -/
def dequeueInto (s : QueuePool T ι) (found missed : ConsumerPc T.mapTraits.Map Listener) :
    Next T ι :=
  match T.queueTraits.dequeue s.queue s.consumer.node with
  | (queue, node, true) =>
    some ({ s with queue := queue, consumer := ⟨found, node, true⟩ }, some (.popped node))
  | (queue, node, false) =>
    some ({ s with queue := queue, consumer := ⟨missed, node, false⟩ }, none)

def decreaseConsumersLeft (s : QueuePool T ι) (sign : SignConsumerFinished ι) (pc : DecreasePc) :
    QueuePool T ι :=
  match sign.decreaseStep pc with
  | (sign, some next) =>
    { s with consumersFinished := some sign }.consumerAt (.decreasing next)
  | (sign, none) => { s with consumersFinished := some sign }.consumerAt .finished

/-- One step of the consumer thread. `woken` is the producer that the
    `notify_one` of `StartEndCapacityEvent` wakes. -/
def consumerStep (s : QueuePool T ι) (woken : Option ι) : Next T ι :=
  match s.consumer.pc with
  | .getStopToken => some (s.consumerAt .increaseConsumersLeft, none)
  | .increaseConsumersLeft =>
    some ({ s with
      consumersFinished := s.consumersFinished.map SignConsumerFinished.increaseConsumersLeft
      }.consumerAt .loopHead, none)
  | .loopHead =>
    if s.stopCommand then some (s.consumerAt .decreaseConsumersLeft, none)
    else some (s.consumerAt .dequeue, some .dequeueCalled)
  | .dequeue => s.dequeueInto .checkStop .lockConsume
  | .lockConsume =>
    if s.conditConsumeMutex then none
    else some ({ s with conditConsumeMutex := true }.consumerAt .testDequeue, none)
  | .testDequeue => s.dequeueInto .testStop .testStop
  | .testStop =>
    if s.consumer.hasValue || s.stopCommand then some (s.consumerAt .unlockConsume, none)
    else some (s.consumerAt .blockConsume, none)
  | .blockConsume =>
    some ({ s with conditConsumeMutex := false, consumeCondvar := true }.consumerAt .waitConsume,
      none)
  | .waitConsume =>
    if s.consumeCondvar || s.conditConsumeMutex then none
    else some ({ s with conditConsumeMutex := true }.consumerAt .testDequeue, none)
  | .unlockConsume => some ({ s with conditConsumeMutex := false }.consumerAt .checkStop, none)
  | .checkStop => some (s.consumerAt (if s.stopCommand then .loopHead else .lookup), none)
  | .lookup =>
    some (s.consumerAt (.getFromMap (T.mapTraits.getFromMap s.consumer.node.key)),
      some (.lookedUp s.consumer.node))
  | .getFromMap (.atomic update next) =>
    some ({ s with map := update s.map }.consumerAt (.getFromMap (next s.map)), none)
  | .getFromMap (.ret listener) => some (s.consumerAt (.testListener listener), none)
  | .testListener (some listener) =>
    some (s.consumerAt (.consuming listener), some (.consumed listener s.consumer.node))
  | .testListener none => some (s.consumerAt .loopHead, some (.unknownQueue s.consumer.node))
  | .consuming _ => some (s.consumerAt .startEndCapacityEvent, some .consumeReturned)
  | .startEndCapacityEvent =>
    match s.enqueueCondvar.notifyOne woken with
    | none => none
    | some condvar =>
      some ({ s with enqueueCondvar := condvar }.consumerAt .loopHead, some .capacityNotified)
  | .decreaseConsumersLeft =>
    match s.consumersFinished with
    | none => some (s.consumerAt .finished, none)
    | some _ => some (s.consumerAt (.decreasing .decrement), none)
  | .decreasing pc =>
    match s.consumersFinished with
    | none => none
    | some sign => some (s.decreaseConsumersLeft sign pc, none)
  | .finished => none

inductive Action (Key Value Listener ι : Type) where
  | call (t : ι) (call : Call Key Value Listener)
  | client (t : ι)
  | consumer (woken : Option ι)
  | wakeProducer (t : ι)
  | wakeWaiter (t : ι)
  | wakeConsumer

/-- The three spurious wake-ups take only sleepers from their condition variable. -/
def step (s : QueuePool T ι) : Action Key Value Listener ι → Next T ι
  | .call t call => s.callStep t call
  | .client t => s.clientStep t
  | .consumer woken => s.consumerStep woken
  | .wakeProducer t => some ({ s with enqueueCondvar := s.enqueueCondvar.wake t }, none)
  | .wakeWaiter t =>
    some ({ s with
      consumersFinished := s.consumersFinished.map fun sign =>
        { sign with event := sign.event.wake t } }, none)
  | .wakeConsumer => some ({ s with consumeCondvar := false }, none)

end QueuePool

/-- A pool made by `Create`, with every schedule of its threads. -/
def poolMachine [DecidableEq ι] (T : DefaultTraits Key Value Listener)
    (sign : Option (SignConsumerFinished ι)) (junk : QueueNode Key Value) :
    Machine (QueuePool T ι) (QueuePool.Action Key Value Listener ι)
      (Entry Key Value Listener ι) where
  init := QueuePool.create sign junk
  step := QueuePool.step

abbrev mutexPool : Machine
    (QueuePool ⟨QueueWithMutexTraits Nat Nat 1, MapWithMutexTraits Nat Nat⟩ (Fin 1))
    (QueuePool.Action Nat Nat Nat (Fin 1)) (Entry Nat Nat Nat (Fin 1)) :=
  poolMachine _ none ⟨0, 0⟩

end MappedQueue
