import MappedQueue.Concurrency.Linearization
import MappedQueue.Concurrency.SharedMutex
import MappedQueue.Bucketing

/-!
One bucket and the threads inside its calls, advanced by one acquisition of its
mutex, one release or one access to the map at a time. An iterator is the node it
denotes, and a node is told apart from every other that was ever allocated: after
the entry has been erased it denotes nothing, whatever is emplaced for the key. A
thread that holds a `Reference` reads through it and gives it up before it calls
again, since it would take a mutex that it holds.
-/
namespace MappedQueue
open Concurrency

structure Node (Key : Type) where
  key : Key
  address : Nat
  deriving DecidableEq, Repr

structure BucketMemory (Key Value : Type) where
  data : Bucket Key Value
  address : Key → Nat
  allocated : Nat

namespace BucketMemory
variable {Key Value : Type}

def empty : BucketMemory Key Value := ⟨∅, fun _ => 0, 0⟩

variable [DecidableEq Key]

/-- The iterator to the entry, `end()` being `none`. -/
def find (m : BucketMemory Key Value) (key : Key) : Option (Node Key) :=
  if key ∈ m.data then some ⟨key, m.address key⟩ else none

/-- A new node unless the key has one; the iterator returned is `find key` after it. -/
def emplace (m : BucketMemory Key Value) (key : Key) (value : Value) : BucketMemory Key Value :=
  if key ∈ m.data then m
  else ⟨m.data.set key value, Function.update m.address key m.allocated, m.allocated + 1⟩

def erase (m : BucketMemory Key Value) (key : Key) : BucketMemory Key Value :=
  { m with data := m.data.erase key }

def read (m : BucketMemory Key Value) (pointer : Option (Node Key)) : Option Value :=
  pointer.bind fun node => if m.find node.key = some node then m.data.lookup node.key else none

variable {m : BucketMemory Key Value} {key other : Key} {node : Node Key}

theorem find_isSome : (m.find key).isSome = true ↔ key ∈ m.data := by
  unfold find
  split <;> simp_all

theorem find_present (entry : m.find key = some node) : key ∈ m.data := by
  rw [← find_isSome, entry]
  rfl

theorem find_key (entry : m.find key = some node) : node.key = key := by
  unfold find at entry
  split at entry
  · cases entry
    rfl
  · contradiction

theorem emplace_data (m : BucketMemory Key Value) (key : Key) (value : Value) :
    (m.emplace key value).data = m.data.emplace key value := by
  unfold emplace StdMap.emplace
  split
  · rfl
  · rename_i absent
    simp [Bucket.set, StdMap.emplace, absent]

theorem erase_data (m : BucketMemory Key Value) (key : Key) :
    (m.erase key).data = AList.erase key m.data := Bucket.erase_eq m.data key

theorem find_emplace (value : Value) (entry : m.find other = some node) :
    (m.emplace key value).find other = some node := by
  have present : other ∈ m.data := find_present entry
  by_cases member : key ∈ m.data
  · rw [emplace, if_pos member]
    exact entry
  · have ne : other ≠ key := fun same => member (same ▸ present)
    simp only [find, present, if_true] at entry
    simp [find, emplace, member, Bucket.set, StdMap.emplace, AList.mem_insert, present, ne, entry]

theorem find_emplaced (m : BucketMemory Key Value) (key : Key) (value : Value) :
    ((m.emplace key value).find key).isSome = true := by
  apply find_isSome.mpr
  rw [emplace_data, ← AList.lookup_isSome, StdMap.lookup_emplace]
  rfl

theorem find_erase (m : BucketMemory Key Value) (key : Key) : (m.erase key).find key = none := by
  simp [find, erase_data, AList.mem_erase]

theorem find_erase_ne (ne : other ≠ key) : (m.erase key).find other = m.find other := by
  simp [find, erase_data, AList.mem_erase, ne]
  rfl

theorem read_found {found : Option (Node Key)} (entry : m.find key = found) :
    m.read found = m.data.lookup key := by
  cases found with
  | none =>
    have absent : key ∉ m.data := by
      intro member
      simpa [entry] using find_isSome.mpr member
    rw [AList.lookup_eq_none.mpr absent]
    rfl
  | some node =>
    have same := find_key entry
    subst same
    simp [read, entry]

end BucketMemory

inductive WritePc where
  | lock
  | write
  | unlock
  deriving DecidableEq, Repr

/-- `found` is the iterator, which outlives the lock it was obtained under. -/
inductive GetAndCreatePc (Key : Type) where
  | lockShared
  | find
  | unlockShared
  | lock
  | emplace
  | unlock (found : Option (Node Key))
  | relockShared (found : Option (Node Key))
  | dereference (found : Option (Node Key))
  deriving DecidableEq, Repr

/-- Where a thread stands; `reference` is after the return, the `Reference` in use. -/
inductive BucketPc (Key Value : Type) where
  | idle
  | set (key : Key) (value : Value) (pc : WritePc)
  | erase (key : Key) (pc : WritePc)
  | getAndCreate (key : Key) (pc : GetAndCreatePc Key)
  | reference (key : Key) (pointer : Option (Node Key))
  deriving DecidableEq, Repr

structure BucketThread (Key Value : Type) where
  calls : Nat
  pc : BucketPc Key Value
  deriving DecidableEq, Repr

inductive BucketEntry (Key Value ι : Type) where
  | mark (m : Mark (ι × Nat) (BucketCall Key Value))
  | read (c : ι × Nat) (value : Option Value)
  deriving DecidableEq, Repr

inductive BucketAction (Key Value ι : Type) where
  | call (t : ι) (call : BucketCall Key Value)
  | step (t : ι)
  | read (t : ι)
  deriving DecidableEq, Repr

def BucketAction.thread {Key Value ι : Type} : BucketAction Key Value ι → ι
  | .call t _ => t
  | .step t => t
  | .read t => t

structure BucketThreads (Key Value ι : Type) where
  memory : BucketMemory Key Value
  mutex : SharedMutex ι
  threads : ι → BucketThread Key Value

namespace BucketThreads
variable {Key Value ι : Type}

def create : BucketThreads Key Value ι := ⟨BucketMemory.empty, SharedMutex.free, fun _ => ⟨0, .idle⟩⟩

def callId (s : BucketThreads Key Value ι) (t : ι) : ι × Nat := (t, (s.threads t).calls)

abbrev Next (Key Value ι : Type) :=
  Option (BucketThreads Key Value ι × Option (BucketEntry Key Value ι))

variable [DecidableEq ι]

def goto (s : BucketThreads Key Value ι) (t : ι) (pc : BucketPc Key Value) :
    BucketThreads Key Value ι :=
  { s with threads := Function.update s.threads t ⟨(s.threads t).calls, pc⟩ }

def leave (s : BucketThreads Key Value ι) (t : ι) : BucketThreads Key Value ι :=
  { s with threads := Function.update s.threads t ⟨(s.threads t).calls + 1, .idle⟩ }

def lock (s : BucketThreads Key Value ι) (t : ι) (pc : BucketPc Key Value) : Next Key Value ι :=
  match s.mutex.lock t with
  | some mutex => some ({ s with mutex := mutex }.goto t pc, none)
  | none => none

def lockShared (s : BucketThreads Key Value ι) (t : ι) (pc : BucketPc Key Value) :
    Next Key Value ι :=
  match s.mutex.lockShared t with
  | some mutex => some ({ s with mutex := mutex }.goto t pc, none)
  | none => none

def entrance : BucketCall Key Value → BucketPc Key Value
  | .set key value => .set key value .lock
  | .erase key => .erase key .lock
  | .getAndCreate key => .getAndCreate key .lockShared

def callStep (s : BucketThreads Key Value ι) (t : ι) (call : BucketCall Key Value) :
    Next Key Value ι :=
  match (s.threads t).pc with
  | .idle => some (s.goto t (entrance call), some (.mark (.called (s.callId t) call)))
  | _ => none

variable [DecidableEq Key]

/-- A call is marked as applied at the access that settles what it does. -/
def setStep (s : BucketThreads Key Value ι) (t : ι) (key : Key) (value : Value) :
    WritePc → Next Key Value ι
  | .lock => s.lock t (.set key value .write)
  | .write =>
    some ({ s with memory := s.memory.emplace key value }.goto t (.set key value .unlock),
      some (.mark (.applied (s.callId t) (.set key value))))
  | .unlock =>
    some ({ s with mutex := s.mutex.unlock }.leave t, some (.mark (.returned (s.callId t))))

def eraseStep (s : BucketThreads Key Value ι) (t : ι) (key : Key) : WritePc → Next Key Value ι
  | .lock => s.lock t (.erase key .write)
  | .write =>
    some ({ s with memory := s.memory.erase key }.goto t (.erase key .unlock),
      some (.mark (.applied (s.callId t) (.erase key))))
  | .unlock =>
    some ({ s with mutex := s.mutex.unlock }.leave t, some (.mark (.returned (s.callId t))))

def getAndCreateStep [Inhabited Value] (s : BucketThreads Key Value ι) (t : ι) (key : Key) :
    GetAndCreatePc Key → Next Key Value ι
  | .lockShared => s.lockShared t (.getAndCreate key .find)
  | .find =>
    match s.memory.find key with
    | some node =>
      some (s.goto t (.getAndCreate key (.dereference (some node))),
        some (.mark (.applied (s.callId t) (.getAndCreate key))))
    | none => some (s.goto t (.getAndCreate key .unlockShared), none)
  | .unlockShared =>
    some ({ s with mutex := s.mutex.unlockShared t }.goto t (.getAndCreate key .lock), none)
  | .lock => s.lock t (.getAndCreate key .emplace)
  | .emplace =>
    some ({ s with memory := s.memory.emplace key default }.goto t
        (.getAndCreate key (.unlock ((s.memory.emplace key default).find key))),
      some (.mark (.applied (s.callId t) (.getAndCreate key))))
  | .unlock found =>
    some ({ s with mutex := s.mutex.unlock }.goto t (.getAndCreate key (.relockShared found)), none)
  | .relockShared found => s.lockShared t (.getAndCreate key (.dereference found))
  | .dereference found =>
    some (s.goto t (.reference key found), some (.mark (.returned (s.callId t))))

/-- The destructor of a `Reference` gives up the shared lock that it holds. -/
def threadStep [Inhabited Value] (s : BucketThreads Key Value ι) (t : ι) : Next Key Value ι :=
  match (s.threads t).pc with
  | .idle => none
  | .set key value pc => s.setStep t key value pc
  | .erase key pc => s.eraseStep t key pc
  | .getAndCreate key pc => s.getAndCreateStep t key pc
  | .reference _ _ => some ({ s with mutex := s.mutex.unlockShared t }.leave t, none)

def readStep (s : BucketThreads Key Value ι) (t : ι) : Next Key Value ι :=
  match (s.threads t).pc with
  | .reference _ pointer => some (s, some (.read (s.callId t) (s.memory.read pointer)))
  | _ => none

end BucketThreads

/-- A new bucket, called by threads that make only the calls `served` tells. -/
def bucketMachine {Key Value : Type} (ι : Type) [DecidableEq ι] [DecidableEq Key]
    [Inhabited Value] (served : BucketCall Key Value → Bool) :
    Machine (BucketThreads Key Value ι) (BucketAction Key Value ι) (BucketEntry Key Value ι) where
  init := BucketThreads.create
  step := fun s a =>
    match a with
    | .call t call => if served call then s.callStep t call else none
    | .step t => s.threadStep t
    | .read t => s.readStep t

end MappedQueue
