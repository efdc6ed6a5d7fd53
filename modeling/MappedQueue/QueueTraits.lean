import Mathlib.Data.List.Basic

/-!
The two queues a pool can be built on. Both keep their nodes in order, so one
structure describes what the pool asks of either: the operations as the traits
offer them, the nodes inside, and how the operations change these.
-/
namespace MappedQueue

structure QueueNode (Key Value : Type) where
  key : Key
  value : Value
  deriving DecidableEq, Repr

/-- `dequeue` gets the caller's node and gives back what is in it afterwards. -/
structure QueueTraits (Key Value : Type) where
  Queue : Type
  empty : Queue
  enqueue : Queue → QueueNode Key Value → Queue × Bool
  dequeue : Queue → QueueNode Key Value → Queue × QueueNode Key Value × Bool
  contents : Queue → List (QueueNode Key Value)
  contents_empty : contents empty = []
  enqueue_accepts : ∀ {q q' n}, enqueue q n = (q', true) → contents q' = contents q ++ [n]
  enqueue_refuses : ∀ {q q' n}, enqueue q n = (q', false) → q' = q
  dequeue_takes : ∀ {q q' r n}, dequeue q r = (q', n, true) → contents q = n :: contents q'
  dequeue_fails : ∀ {q q' r n}, dequeue q r = (q', n, false) →
    contents q = [] ∧ q' = q ∧ n = r

variable {Key Value : Type}

/-- A `std::list` under its own mutex. The capacity is a parameter that nothing reads. -/
def QueueWithMutexTraits (Key Value : Type) (_capacity : Nat) : QueueTraits Key Value where
  Queue := List (QueueNode Key Value)
  empty := []
  enqueue data node := (data ++ [node], true)
  dequeue data result :=
    match data with
    | [] => ([], result, false)
    | front :: rest => (rest, front, true)
  contents data := data
  contents_empty := rfl
  enqueue_accepts := by
    intro q q' n h
    simp only [Prod.mk.injEq] at h
    exact h.1.symm
  enqueue_refuses := by simp
  dequeue_takes := by
    intro q q' r n h
    cases q with
    | nil => simp at h
    | cons front rest =>
      simp only [Prod.mk.injEq] at h
      obtain ⟨rfl, rfl, _⟩ := h
      rfl
  dequeue_fails := by
    intro q q' r n h
    cases q with
    | nil =>
      simp only [Prod.mk.injEq] at h
      exact ⟨rfl, h.1.symm, h.2.1.symm⟩
    | cons front rest => simp at h

structure BoundedQueue (Key Value : Type) (capacity : Nat) where
  nodes : List (QueueNode Key Value)
  bounded : nodes.length ≤ capacity

namespace BoundedQueue
variable {capacity : Nat}

def boundedPush (q : BoundedQueue Key Value capacity) (node : QueueNode Key Value) :
    BoundedQueue Key Value capacity × Bool :=
  if room : q.nodes.length < capacity then
    (⟨q.nodes ++ [node], by simpa using Nat.succ_le_of_lt room⟩, true)
  else (q, false)

def pop (q : BoundedQueue Key Value capacity) (result : QueueNode Key Value) :
    BoundedQueue Key Value capacity × QueueNode Key Value × Bool :=
  match q with
  | ⟨[], bounded⟩ => (⟨[], bounded⟩, result, false)
  | ⟨front :: rest, bounded⟩ => (⟨rest, Nat.le_of_succ_le bounded⟩, front, true)

theorem boundedPush_accepts {q q' : BoundedQueue Key Value capacity} {node : QueueNode Key Value}
    (h : q.boundedPush node = (q', true)) :
    q.nodes.length < capacity ∧ q'.nodes = q.nodes ++ [node] := by
  unfold boundedPush at h
  split at h
  · rename_i room
    obtain ⟨rfl, _⟩ := Prod.mk.inj h
    exact ⟨room, rfl⟩
  · simp at h

theorem boundedPush_refuses {q q' : BoundedQueue Key Value capacity} {node : QueueNode Key Value}
    (h : q.boundedPush node = (q', false)) : q.nodes.length = capacity ∧ q' = q := by
  unfold boundedPush at h
  split at h
  · simp at h
  · rename_i full
    simp only [Prod.mk.injEq] at h
    exact ⟨Nat.le_antisymm q.bounded (Nat.le_of_not_lt full), h.1.symm⟩

end BoundedQueue

/-- The lock-free queue, taken as a first-in first-out queue with atomic
    operations that refuses a push exactly when `capacity` nodes are inside. -/
def FixedSizeLockfreeQueueTraits (Key Value : Type) (capacity : Nat) : QueueTraits Key Value where
  Queue := BoundedQueue Key Value capacity
  empty := ⟨[], Nat.zero_le _⟩
  enqueue := BoundedQueue.boundedPush
  dequeue := BoundedQueue.pop
  contents := BoundedQueue.nodes
  contents_empty := rfl
  enqueue_accepts h := (BoundedQueue.boundedPush_accepts h).2
  enqueue_refuses h := (BoundedQueue.boundedPush_refuses h).2
  dequeue_takes := by
    rintro ⟨nodes, bounded⟩ q' r n h
    cases nodes with
    | nil => simp [BoundedQueue.pop] at h
    | cons front rest =>
      simp only [BoundedQueue.pop, Prod.mk.injEq] at h
      obtain ⟨rfl, rfl, _⟩ := h
      rfl
  dequeue_fails := by
    rintro ⟨nodes, bounded⟩ q' r n h
    cases nodes with
    | nil =>
      simp only [BoundedQueue.pop, Prod.mk.injEq] at h
      exact ⟨rfl, h.1.symm, h.2.1.symm⟩
    | cons front rest => simp [BoundedQueue.pop] at h

end MappedQueue
