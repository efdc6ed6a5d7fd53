import Mathlib.Logic.Function.Basic
import MappedQueue.Concurrency.Machine

/-!
`boost::lockfree::queue` of fixed size with the freelist its nodes come from,
advanced by one access to the shared memory at a time. The nodes lie in an array
and are addressed by index, the index behind the last node being the null handle.
A free node keeps its pointer in the same word in which a queued node does. A
`compare_exchange_weak` may fail for no reason, as the scheduler decides.
-/
namespace MappedQueue
open Concurrency

/-- An index with the number of changes that were counted in its tag. -/
structure TaggedIndex where
  index : Nat
  version : Nat
  deriving DecidableEq, Repr

namespace TaggedIndex

/-- The tag holds the lowest sixteen bits of the count. -/
def tags : Nat := 65536

def tag (word : TaggedIndex) : Nat := word.version % tags

def same (word other : TaggedIndex) : Bool := word.index == other.index && word.tag == other.tag

/-- An index with the tag that `get_next_tag` gives. -/
def tagged (word : TaggedIndex) (index : Nat) : TaggedIndex := ⟨index, word.version + 1⟩

def setIndex (word : TaggedIndex) (index : Nat) : TaggedIndex := ⟨index, word.version⟩

end TaggedIndex

structure QueueMemory (T : Type) where
  head : TaggedIndex
  tail : TaggedIndex
  pool : TaggedIndex
  next : Nat → TaggedIndex
  data : Nat → T

def nullHandle (capacity : Nat) : Nat := capacity + 1

namespace QueueMemory
variable {T : Type}

def setNext (m : QueueMemory T) (node : Nat) (word : TaggedIndex) : QueueMemory T :=
  { m with next := Function.update m.next node word }

def deallocateUnsafe (m : QueueMemory T) (node : Nat) : QueueMemory T :=
  { m.setNext node ((m.next node).setIndex m.pool.index) with pool := m.pool.setIndex node }

def initializePool [Inhabited T] (null : Nat) : QueueMemory T :=
  (List.range null).foldl
    (fun m node => (m.setNext node ((m.next node).setIndex null)).deallocateUnsafe node)
    ⟨⟨0, 0⟩, ⟨0, 0⟩, ⟨null, 0⟩, fun _ => ⟨0, 0⟩, fun _ => default⟩

/-- The constructor takes one node for a dummy. -/
def create [Inhabited T] (capacity : Nat) : QueueMemory T :=
  let m := initializePool (nullHandle capacity)
  let dummy : TaggedIndex := ⟨m.pool.index, 0⟩
  { m.setNext dummy.index ⟨nullHandle capacity, 0⟩ with
    head := dummy, tail := dummy, pool := m.pool.tagged (m.next m.pool.index).index }

end QueueMemory

/-- The places inside `do_push`, those of the freelist and of the node's constructor
    first. The words are the local variables at that place. -/
inductive PushPc where
  | loadPool
  | loadFree (oldPool : TaggedIndex)
  | takeNode (oldPool : TaggedIndex) (index : Nat)
  | writeData (node : Nat)
  | loadOldNext (node : Nat)
  | storeNext (node : Nat) (oldNext : TaggedIndex)
  | loadTail (node : Nat)
  | loadNext (node : Nat) (tail : TaggedIndex)
  | checkTail (node : Nat) (tail next : TaggedIndex)
  | link (node : Nat) (tail next : TaggedIndex)
  | swingTail (node : Nat) (tail : TaggedIndex)
  | helpTail (node : Nat) (tail next : TaggedIndex)
  deriving DecidableEq, Repr

/-- The places inside `pop`, those of `deallocate_impl` last. -/
inductive PopPc where
  | loadHead
  | loadTail (head : TaggedIndex)
  | loadNext (head tail : TaggedIndex)
  | checkHead (head tail next : TaggedIndex)
  | helpTail (tail next : TaggedIndex)
  | copyPayload (head next : TaggedIndex)
  | swingHead (head next : TaggedIndex)
  | loadPool (node : Nat)
  | storeFree (node : Nat) (oldPool : TaggedIndex)
  | putNode (node : Nat) (oldPool : TaggedIndex)
  deriving DecidableEq, Repr

inductive LockfreeCall (T : Type) where
  | boundedPush (t : T)
  | pop (ret : T)
  deriving DecidableEq, Repr

/-- A `pop` gives back what is in the caller's `ret` afterwards. -/
inductive LockfreeReply (T : Type) where
  | pushed (success : Bool)
  | popped (ret : T) (success : Bool)
  deriving DecidableEq, Repr

inductive LockfreePc (T : Type) where
  | idle
  | push (t : T) (pc : PushPc)
  | pop (ret : T) (pc : PopPc)
  | returning (reply : LockfreeReply T)
  deriving DecidableEq, Repr

inductive QueueEffect (T : Type) where
  | pushed (t : T)
  | popped (t : T)
  | refused
  | sawEmpty
  deriving DecidableEq, Repr

namespace QueueMemory
variable {T : Type}

abbrev Outcome (T : Type) := QueueMemory T × LockfreePc T × Option (QueueEffect T)

/-- The head of the loop in `allocate_impl`, with the value of `pool_` just read. -/
def allocate (m : QueueMemory T) (null : Nat) (t : T) : Outcome T :=
  if m.pool.index = null then (m, .returning (.pushed false), some .refused)
  else (m, .push t (.loadFree m.pool), none)

def exchangeTail (m : QueueMemory T) (tail : TaggedIndex) (index : Nat) : QueueMemory T :=
  if m.tail.same tail then { m with tail := tail.tagged index } else m

def pushStep (m : QueueMemory T) (null : Nat) (spurious : Bool) (t : T) : PushPc → Outcome T
  | .loadPool => m.allocate null t
  | .loadFree oldPool => (m, .push t (.takeNode oldPool (m.next oldPool.index).index), none)
  | .takeNode oldPool index =>
    if m.pool.same oldPool && !spurious then
      ({ m with pool := oldPool.tagged index }, .push t (.writeData oldPool.index), none)
    else m.allocate null t
  | .writeData node =>
    ({ m with data := Function.update m.data node t }, .push t (.loadOldNext node), none)
  | .loadOldNext node => (m, .push t (.storeNext node (m.next node)), none)
  | .storeNext node oldNext =>
    (m.setNext node (oldNext.tagged null), .push t (.loadTail node), none)
  | .loadTail node => (m, .push t (.loadNext node m.tail), none)
  | .loadNext node tail => (m, .push t (.checkTail node tail (m.next tail.index)), none)
  | .checkTail node tail next =>
    if m.tail.same tail then
      if next.index = null then (m, .push t (.link node tail next), none)
      else (m, .push t (.helpTail node tail next), none)
    else (m, .push t (.loadTail node), none)
  | .link node tail next =>
    if (m.next tail.index).same next && !spurious then
      (m.setNext tail.index (next.tagged node), .push t (.swingTail node tail), some (.pushed t))
    else (m, .push t (.loadTail node), none)
  | .swingTail node tail => (m.exchangeTail tail node, .returning (.pushed true), none)
  | .helpTail node tail next => (m.exchangeTail tail next.index, .push t (.loadTail node), none)

/-- A `pop` that loads a null pointer behind the head while nothing has been popped
    since it loaded the head has seen the queue empty. -/
def popStep (m : QueueMemory T) (null : Nat) (spurious : Bool) (ret : T) : PopPc → Outcome T
  | .loadHead => (m, .pop ret (.loadTail m.head), none)
  | .loadTail head => (m, .pop ret (.loadNext head m.tail), none)
  | .loadNext head tail =>
    (m, .pop ret (.checkHead head tail (m.next head.index)),
      if m.head = head ∧ (m.next head.index).index = null then some .sawEmpty else none)
  | .checkHead head tail next =>
    if m.head.same head then
      if head.index = tail.index then
        if next.index = null then (m, .returning (.popped ret false), none)
        else (m, .pop ret (.helpTail tail next), none)
      else if next.index = null then (m, .pop ret .loadHead, none)
      else (m, .pop ret (.copyPayload head next), none)
    else (m, .pop ret .loadHead, none)
  | .helpTail tail next => (m.exchangeTail tail next.index, .pop ret .loadHead, none)
  | .copyPayload head next => (m, .pop (m.data next.index) (.swingHead head next), none)
  | .swingHead head next =>
    if m.head.same head && !spurious then
      ({ m with head := head.tagged next.index }, .pop ret (.loadPool head.index),
        some (.popped ret))
    else (m, .pop ret .loadHead, none)
  | .loadPool node => (m, .pop ret (.storeFree node m.pool), none)
  | .storeFree node oldPool =>
    (m.setNext node ((m.next node).setIndex oldPool.index), .pop ret (.putNode node oldPool), none)
  | .putNode node oldPool =>
    if m.pool.same oldPool && !spurious then
      ({ m with pool := oldPool.setIndex node }, .returning (.popped ret true), none)
    else (m, .pop ret (.storeFree node m.pool), none)

def access (m : QueueMemory T) (null : Nat) (spurious : Bool) : LockfreePc T → Option (Outcome T)
  | .push t pc => some (m.pushStep null spurious t pc)
  | .pop ret pc => some (m.popStep null spurious ret pc)
  | _ => none

end QueueMemory

structure LockfreeThread (T : Type) where
  calls : Nat
  pc : LockfreePc T
  deriving DecidableEq, Repr

structure LockfreeThreads (T ι : Type) where
  memory : QueueMemory T
  threads : ι → LockfreeThread T

inductive LockfreeEntry (T ι : Type) where
  | called (c : ι × Nat) (call : LockfreeCall T)
  | effect (c : ι × Nat) (e : QueueEffect T)
  | returned (c : ι × Nat) (reply : LockfreeReply T)
  deriving DecidableEq, Repr

inductive LockfreeAction (T ι : Type) where
  | call (t : ι) (call : LockfreeCall T)
  | step (t : ι) (spurious : Bool)
  deriving DecidableEq, Repr

def LockfreeAction.thread {T ι : Type} : LockfreeAction T ι → ι
  | .call t _ => t
  | .step t _ => t

def stepsOf {T ι : Type} (t : ι) (count : Nat) : List (LockfreeAction T ι) :=
  List.replicate count (.step t false)

def LockfreeCall.entrance {T : Type} : LockfreeCall T → LockfreePc T
  | .boundedPush t => .push t .loadPool
  | .pop ret => .pop ret .loadHead

namespace LockfreeThreads
variable {T ι : Type}

def create [Inhabited T] (capacity : Nat) : LockfreeThreads T ι :=
  ⟨QueueMemory.create capacity, fun _ => ⟨0, .idle⟩⟩

def callId (s : LockfreeThreads T ι) (t : ι) : ι × Nat := (t, (s.threads t).calls)

variable [DecidableEq ι]

def goto (s : LockfreeThreads T ι) (t : ι) (m : QueueMemory T) (pc : LockfreePc T) :
    LockfreeThreads T ι :=
  ⟨m, Function.update s.threads t ⟨(s.threads t).calls, pc⟩⟩

def leave (s : LockfreeThreads T ι) (t : ι) : LockfreeThreads T ι :=
  ⟨s.memory, Function.update s.threads t ⟨(s.threads t).calls + 1, .idle⟩⟩

def callStep (s : LockfreeThreads T ι) (t : ι) (call : LockfreeCall T) :
    Option (LockfreeThreads T ι × Option (LockfreeEntry T ι)) :=
  match (s.threads t).pc with
  | .idle => some (s.goto t s.memory call.entrance, some (.called (s.callId t) call))
  | _ => none

def threadStep (s : LockfreeThreads T ι) (null : Nat) (t : ι) (spurious : Bool) :
    Option (LockfreeThreads T ι × Option (LockfreeEntry T ι)) :=
  match (s.threads t).pc with
  | .returning reply => some (s.leave t, some (.returned (s.callId t) reply))
  | pc =>
    match s.memory.access null spurious pc with
    | some (m, pc', e) => some (s.goto t m pc', e.map (.effect (s.callId t)))
    | none => none

end LockfreeThreads

def lockfreeMachine (T ι : Type) [Inhabited T] [DecidableEq ι] (capacity : Nat) :
    Machine (LockfreeThreads T ι) (LockfreeAction T ι) (LockfreeEntry T ι) where
  init := LockfreeThreads.create capacity
  step := fun s a =>
    match a with
    | .call t call => s.callStep t call
    | .step t spurious => s.threadStep (nullHandle capacity) t spurious

def LockfreePc.comparison {T : Type} (m : QueueMemory T) :
    LockfreePc T → Option (TaggedIndex × TaggedIndex)
  | .push _ (.takeNode oldPool _) => some (m.pool, oldPool)
  | .push _ (.checkTail _ tail _) => some (m.tail, tail)
  | .push _ (.link _ tail next) => some (m.next tail.index, next)
  | .push _ (.swingTail _ tail) => some (m.tail, tail)
  | .push _ (.helpTail _ tail _) => some (m.tail, tail)
  | .pop _ (.checkHead head _ _) => some (m.head, head)
  | .pop _ (.helpTail tail _) => some (m.tail, tail)
  | .pop _ (.swingHead head _) => some (m.head, head)
  | .pop _ (.putNode _ oldPool) => some (m.pool, oldPool)
  | _ => none

/-- A word that is compared has not changed so often since it was read that its tag
    came round again. -/
def TagsFresh {T ι : Type} (s : LockfreeThreads T ι) (_log : List (LockfreeEntry T ι))
    (a : LockfreeAction T ι) : Prop :=
  ∀ words ∈ ((s.threads a.thread).pc.comparison s.memory).toList,
    words.1.version < words.2.version + TaggedIndex.tags

instance {T ι : Type} (s : LockfreeThreads T ι) (log : List (LockfreeEntry T ι))
    (a : LockfreeAction T ι) : Decidable (TagsFresh s log a) :=
  inferInstanceAs (Decidable (∀ words ∈ ((s.threads a.thread).pc.comparison s.memory).toList,
    words.1.version < words.2.version + TaggedIndex.tags))

end MappedQueue
