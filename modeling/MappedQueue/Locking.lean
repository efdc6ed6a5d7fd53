import MappedQueue.PoolMoves
import MappedQueue.Concurrency.LockOrder
import MappedQueue.Concurrency.SharedMutex

/-!
The pool with the mutexes inside its queue and its map. What the pool's machine does
in one step under such a mutex is two steps here: a thread acquires the mutex, then it
makes its access and releases the mutex. The mutexes of the pool's own conditions and
of the event are in that machine already. The consumer thread is one of the threads;
the calls it makes are those of its listeners, made during `Consume`.
-/
namespace MappedQueue
open Concurrency

inductive Mutex where
  | conditConsumeMutex
  | conditEnqueueMutex
  | mutx
  | queueMutex
  | mapMutex (bucket : Nat)
  deriving DecidableEq, Repr

structure QueueLocks (Key Value : Type) where
  traits : QueueTraits Key Value
  hasMutex : Bool

/-- A map, the mutex that guards each key, and the mode in which a lookup locks it for
    each of its sections. -/
structure MapLocks (Key Listener : Type) where
  traits : MapTraits Key Listener
  bucket : Key → Nat
  lookupMode : Nat → HoldMode

def queueWithMutexLocks (Key Value : Type) (capacity : Nat) : QueueLocks Key Value where
  traits := QueueWithMutexTraits Key Value capacity
  hasMutex := true

def lockfreeQueueLocks (Key Value : Type) (capacity : Nat) : QueueLocks Key Value where
  traits := FixedSizeLockfreeQueueTraits Key Value capacity
  hasMutex := false

def mapWithMutexLocks (Key Listener : Type) [DecidableEq Key] : MapLocks Key Listener where
  traits := MapWithMutexTraits Key Listener
  bucket := fun _ => 0
  lookupMode := fun _ => .exclusive

/-- `GetAndCreate` reads under the shared lock and, on a miss, emplaces under the
    exclusive one in between. -/
def safeMapLocks {Key : Type} (Listener : Type) [DecidableEq Key] (h : Hashing Key) :
    MapLocks Key Listener where
  traits := SafeMapTraits Listener h
  bucket := fun key => h.bucket key
  lookupMode := fun done => if done = 1 then .exclusive else .shared

structure LockedTraits (Key Value Listener : Type) where
  queue : QueueLocks Key Value
  map : MapLocks Key Listener

def lockedTraits (Key Value Listener : Type) [DecidableEq Key] (capacity : Nat) (h : Hashing Key)
    (listQueue bucketedMap : Bool) : LockedTraits Key Value Listener where
  queue :=
    if listQueue then queueWithMutexLocks Key Value capacity
    else lockfreeQueueLocks Key Value capacity
  map := if bucketedMap then safeMapLocks Listener h else mapWithMutexLocks Key Listener

variable {Key Value Listener ι : Type}

namespace LockedTraits

abbrev pool (T : LockedTraits Key Value Listener) : DefaultTraits Key Value Listener :=
  ⟨T.queue.traits, T.map.traits⟩

def queueDemand (T : LockedTraits Key Value Listener) : Option (Mutex × HoldMode) :=
  if T.queue.hasMutex then some (.queueMutex, .exclusive) else none

def clientDemand (T : LockedTraits Key Value Listener) :
    ClientPc Key Value Listener → Option (Mutex × HoldMode)
  | .enqueue _ .tryEnqueue => T.queueDemand
  | .enqueue _ .test => T.queueDemand
  | .enqueue _ (.retest _) => T.queueDemand
  | .subscribe key _ => some (.mapMutex (T.map.bucket key), .exclusive)
  | _ => none

def consumerDemand {Map : Type} (T : LockedTraits Key Value Listener)
    (consumer : Consumer Key Value Map Listener) (done : Nat) : Option (Mutex × HoldMode) :=
  match consumer.pc with
  | .dequeue => T.queueDemand
  | .testDequeue => T.queueDemand
  | .getFromMap (.atomic _ _) =>
    some (.mapMutex (T.map.bucket consumer.node.key), T.map.lookupMode done)
  | _ => none

end LockedTraits

def ConsumerPc.isConsuming {Map L : Type} : ConsumerPc Map L → Bool
  | .consuming _ => true
  | _ => false

structure LockedPool (T : LockedTraits Key Value Listener) (ι : Type) where
  pool : QueuePool T.pool ι
  inner : List (ι × Mutex × HoldMode)
  sections : Nat

namespace LockedPool
variable {T : LockedTraits Key Value Listener}

def create (signed : Bool) (junk : QueueNode Key Value) : LockedPool T ι where
  pool := QueuePool.create (if signed then some SignConsumerFinished.create else none) junk
  inner := []
  sections := 0

/-- A listener calls the pool from its `Consume`, which does not return before the call. -/
def mayStep [DecidableEq ι] (thrd : ι) (s : LockedPool T ι) :
    QueuePool.Action Key Value Listener ι → Bool
  | .call t _ => t ≠ thrd || s.pool.consumer.pc.isConsuming
  | .consumer _ => !s.pool.consumer.pc.isConsuming || s.pool.isIdle thrd
  | _ => true

def demand (thrd : ι) (s : LockedPool T ι) :
    QueuePool.Action Key Value Listener ι → Option (ι × Mutex × HoldMode)
  | .client t => (T.clientDemand (s.pool.clients t).pc).map fun need => (t, need)
  | .consumer _ => (T.consumerDemand s.pool.consumer s.sections).map fun need => (thrd, need)
  | _ => none

/-- Shared holders let each other in. A holder does not let itself in. -/
def isFree (s : LockedPool T ι) (mutex : Mutex) : HoldMode → Bool
  | .exclusive => s.inner.all fun held => held.2.1 ≠ mutex
  | .shared => s.inner.all fun held => held.2.1 ≠ mutex || held.2.2 == .shared

def sectionsAfter (s : LockedPool T ι) : QueuePool.Action Key Value Listener ι → Nat
  | .consumer _ =>
    match s.pool.consumer.pc with
    | .lookup => 0
    | .getFromMap _ => s.sections + 1
    | _ => s.sections
  | _ => s.sections

variable [DecidableEq ι]

abbrev Next (T : LockedTraits Key Value Listener) (ι : Type) :=
  Option (LockedPool T ι × Option (Entry Key Value Listener ι))

def access (s : LockedPool T ι) (a : QueuePool.Action Key Value Listener ι)
    (inner : List (ι × Mutex × HoldMode)) : Next T ι :=
  match s.pool.step a with
  | none => none
  | some (pool, out) => some (⟨pool, inner, s.sectionsAfter a⟩, out)

/-- A step that needs a mutex of queue or map is the acquisition if the thread has not got
    it, and otherwise the access with the release. -/
def step (thrd : ι) (s : LockedPool T ι) (a : QueuePool.Action Key Value Listener ι) : Next T ι :=
  if s.mayStep thrd a then
    match s.demand thrd a with
    | none => s.access a s.inner
    | some need =>
      if need ∈ s.inner then s.access a (s.inner.filter fun held => held ≠ need)
      else if s.isFree need.2.1 need.2.2 then some ({ s with inner := need :: s.inner }, none)
      else none
  else none

end LockedPool

def lockedMachine [DecidableEq ι] (T : LockedTraits Key Value Listener) (thrd : ι) (signed : Bool)
    (junk : QueueNode Key Value) : Machine (LockedPool T ι)
      (QueuePool.Action Key Value Listener ι) (Entry Key Value Listener ι) where
  init := LockedPool.create signed junk
  step := LockedPool.step thrd

namespace LockedPool
variable {T : LockedTraits Key Value Listener}

def Holds (thrd : ι) (s : LockedPool T ι) (t : ι) : Mutex → Prop
  | .conditConsumeMutex => t = thrd ∧ s.pool.conditConsumeMutex = true
  | .conditEnqueueMutex => s.pool.conditEnqueueMutex = some t
  | .mutx => ∃ sign, s.pool.consumersFinished = some sign ∧ sign.event.mutx = some t
  | mutex => ∃ mode, (t, mutex, mode) ∈ s.inner

/-- Thread `t` can move once it has been given the mutex. A sleeper tries for the mutex of
    its condition only when it has been woken. -/
def Tries [DecidableEq ι] (thrd : ι) (s : LockedPool T ι) (t : ι) : Mutex → Prop
  | .conditConsumeMutex =>
    t = thrd ∧ (s.pool.consumer.pc = .lockConsume ∨
      s.pool.consumer.pc = .waitConsume ∧ s.pool.consumeCondvar = false)
  | .conditEnqueueMutex =>
    ∃ node, (s.pool.clients t).pc = .enqueue node .lock ∨
      (s.pool.clients t).pc = .enqueue node .wait ∧ t ∉ s.pool.enqueueCondvar.blocked
  | .mutx =>
    ∃ sign call, s.pool.consumersFinished = some sign ∧
      ((s.pool.clients t).pc = .finish call (.wait .lock) ∨
        (s.pool.clients t).pc = .finish call (.wait .wait) ∧ t ∉ sign.event.condVar.blocked)
  | mutex =>
    ∃ a mode, s.demand thrd a = some (t, mutex, mode) ∧ (t, mutex, mode) ∉ s.inner

end LockedPool

end MappedQueue
