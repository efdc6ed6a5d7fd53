import MappedQueue.BalkingPool
import MappedQueue.LockfreeAlone

/-!
The pool on the lock-free queue itself. Where the pool's machine pushes or pops in one
step, a thread here begins a call of the queue, makes the accesses of the call one by one,
among those of all other threads, and goes on in the pool with the reply. The queue's
thread `none` is the consumer.
-/
namespace MappedQueue
open Concurrency

variable {Key Value Listener ι : Type}

def EnqueuePc.asksQueue : EnqueuePc → Bool
  | .tryEnqueue => true
  | .test => true
  | .retest _ => true
  | _ => false

def ClientPc.pushes? : ClientPc Key Value Listener → Option (QueueNode Key Value)
  | .enqueue node pc => if pc.asksQueue then some node else none
  | _ => none

def ConsumerPc.asksQueue {Map : Type} : ConsumerPc Map Listener → Bool
  | .dequeue => true
  | .testDequeue => true
  | _ => false

/-- `Enqueue` goes on with what `Traits::Enqueue` returned, on the fast path or in the
    wait predicate. -/
def Client.answered (client : Client Key Value Listener) (accepted : Bool) :
    Client Key Value Listener :=
  match client.pc with
  | .enqueue node .tryEnqueue =>
    ⟨client.calls, .enqueue node (if accepted then .startHasValueEvent else .lock)⟩
  | .enqueue node .test => ⟨client.calls, .enqueue node (if accepted then .block else .unlock)⟩
  | .enqueue node (.retest _) =>
    ⟨client.calls, .enqueue node (if accepted then .block else .unlock)⟩
  | _ => client

def Consumer.answered {Map : Type} (consumer : Consumer Key Value Map Listener)
    (node : QueueNode Key Value) (success : Bool) : Consumer Key Value Map Listener :=
  match consumer.pc with
  | .dequeue => ⟨if success then .checkStop else .lockConsume, node, success⟩
  | .testDequeue => ⟨.testStop, node, success⟩
  | _ => consumer

abbrev QueueEntry (Key Value ι : Type) := LockfreeEntry (QueueNode Key Value) (Option ι)

namespace QueuePool
variable {T : DefaultTraits Key Value Listener}

/-- The pool after its thread's step inside the queue. -/
def resumed [DecidableEq ι] (s : QueuePool T ι) : Option (QueueEntry Key Value ι) → QueuePool T ι
  | some (.returned (some t, _) (.pushed accepted)) =>
    { s with clients := Function.update s.clients t ((s.clients t).answered accepted) }
  | some (.returned (none, _) (.popped node success)) =>
    { s with consumer := s.consumer.answered node success }
  | _ => s

def reported (s : QueuePool T ι) :
    Option (QueueEntry Key Value ι) → Option (Entry Key Value Listener ι)
  | some (.effect (some t, _) (.pushed node)) => some (.pushed (s.callId t) node)
  | some (.effect (none, _) (.popped node)) => some (.popped node)
  | _ => none

end QueuePool

structure LockfreePool (Value : Type) (M : MapTraits Key Listener) (ι : Type) where
  pool : QueuePool (balkingTraits Value M) ι
  queue : LockfreeThreads (QueueNode Key Value) (Option ι)

abbrev LockfreePoolAction (Key Value Listener ι : Type) :=
  QueuePool.Action Key Value Listener ι × Bool

def clientSteps (t : ι) (count : Nat) : List (LockfreePoolAction Key Value Listener ι) :=
  List.replicate count (.client t, false)

def consumerSteps (count : Nat) : List (LockfreePoolAction Key Value Listener ι) :=
  List.replicate count (.consumer none, false)

abbrev LockfreePoolEntry (Key Value Listener ι : Type) :=
  Option (Entry Key Value Listener ι) × Option (QueueEntry Key Value ι)

def poolLog (log : List (LockfreePoolEntry Key Value Listener ι)) :
    List (Entry Key Value Listener ι) :=
  log.filterMap Prod.fst

def queueLog (log : List (LockfreePoolEntry Key Value Listener ι)) :
    List (QueueEntry Key Value ι) :=
  log.filterMap Prod.snd

namespace LockfreePool
variable {M : MapTraits Key Listener}

def create [Inhabited (QueueNode Key Value)] (capacity : Nat)
    (sign : Option (SignConsumerFinished ι)) (junk : QueueNode Key Value) :
    LockfreePool Value M ι :=
  ⟨QueuePool.create sign junk, LockfreeThreads.create capacity⟩

/-- The queue's thread that an action moves, and the call it is in or begins. -/
def demand (s : LockfreePool Value M ι) : QueuePool.Action Key Value Listener ι →
    Option (Option ι × LockfreeCall (QueueNode Key Value))
  | .client t => (s.pool.clients t).pc.pushes?.map fun node => (some t, .boundedPush node)
  | .consumer _ =>
    if s.pool.consumer.pc.asksQueue then some (none, .pop s.pool.consumer.node) else none
  | _ => none

def queueAction (s : LockfreePool Value M ι) (t : Option ι)
    (call : LockfreeCall (QueueNode Key Value)) (spurious : Bool) :
    LockfreeAction (QueueNode Key Value) (Option ι) :=
  match (s.queue.threads t).pc with
  | .idle => .call t call
  | _ => .step t spurious

variable [DecidableEq ι] [Inhabited (QueueNode Key Value)]

def step (capacity : Nat) (s : LockfreePool Value M ι)
    (a : LockfreePoolAction Key Value Listener ι) :
    Option (LockfreePool Value M ι × Option (LockfreePoolEntry Key Value Listener ι)) :=
  match s.demand a.1 with
  | none =>
    match s.pool.step a.1 with
    | none => none
    | some (pool, out) => some (⟨pool, s.queue⟩, some (out, none))
  | some (t, call) =>
    match (lockfreeMachine (QueueNode Key Value) (Option ι) capacity).step s.queue
      (s.queueAction t call a.2) with
    | none => none
    | some (queue, out) => some (⟨s.pool.resumed out, queue⟩, some (s.pool.reported out, out))

end LockfreePool

def lockfreePoolMachine [DecidableEq ι] [Inhabited (QueueNode Key Value)]
    (M : MapTraits Key Listener) (capacity : Nat) (sign : Option (SignConsumerFinished ι))
    (junk : QueueNode Key Value) : Machine (LockfreePool Value M ι)
      (LockfreePoolAction Key Value Listener ι) (LockfreePoolEntry Key Value Listener ι) where
  init := LockfreePool.create capacity sign junk
  step := LockfreePool.step capacity

namespace LockfreePool
variable {M : MapTraits Key Listener}

def PoolTagsFresh (s : LockfreePool Value M ι)
    (log : List (LockfreePoolEntry Key Value Listener ι))
    (a : LockfreePoolAction Key Value Listener ι) : Prop :=
  ∀ need ∈ (s.demand a.1).toList,
    TagsFresh s.queue (queueLog log) (s.queueAction need.1 need.2 a.2)

instance (s : LockfreePool Value M ι) (log : List (LockfreePoolEntry Key Value Listener ι))
    (a : LockfreePoolAction Key Value Listener ι) : Decidable (PoolTagsFresh s log a) :=
  inferInstanceAs (Decidable (∀ need ∈ (s.demand a.1).toList,
    TagsFresh s.queue (queueLog log) (s.queueAction need.1 need.2 a.2)))

end LockfreePool

end MappedQueue
