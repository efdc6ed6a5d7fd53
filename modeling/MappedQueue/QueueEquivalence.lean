import MappedQueue.QueueTraits

/-!
What the two queues answer to one sequence of calls. The list under a mutex accepts
every node, the lock-free queue refuses a node over its capacity, and nothing else
tells them apart: they agree on exactly the sequences that never enqueue over a full
capacity.
-/
namespace MappedQueue

variable {Key Value : Type}

/-- A dequeue gets the node that the caller has prepared for the result. -/
inductive QueueCall (Key Value : Type) where
  | enqueue (node : QueueNode Key Value)
  | dequeue (result : QueueNode Key Value)
  deriving DecidableEq, Repr

inductive QueueReply (Key Value : Type) where
  | enqueued (success : Bool)
  | dequeued (result : QueueNode Key Value) (success : Bool)
  deriving DecidableEq, Repr

namespace QueueTraits

def perform (T : QueueTraits Key Value) (queue : T.Queue) :
    QueueCall Key Value → T.Queue × QueueReply Key Value
  | .enqueue node => ((T.enqueue queue node).1, .enqueued (T.enqueue queue node).2)
  | .dequeue result =>
    ((T.dequeue queue result).1,
      .dequeued (T.dequeue queue result).2.1 (T.dequeue queue result).2.2)

def replies (T : QueueTraits Key Value) : T.Queue → List (QueueCall Key Value) →
    List (QueueReply Key Value)
  | _, [] => []
  | queue, call :: rest => (T.perform queue call).2 :: replies T (T.perform queue call).1 rest

def after (T : QueueTraits Key Value) (queue : T.Queue) (calls : List (QueueCall Key Value)) :
    T.Queue :=
  calls.foldl (fun queue call => (T.perform queue call).1) queue

end QueueTraits

def QueueCall.count (inside : Nat) : QueueCall Key Value → Nat
  | .enqueue _ => inside + 1
  | .dequeue _ => inside - 1

def elementsInside (inside : Nat) (calls : List (QueueCall Key Value)) : Nat :=
  calls.foldl QueueCall.count inside

/-- No call enqueues with `capacity` elements inside. -/
def NeverOverfills (capacity inside : Nat) (calls : List (QueueCall Key Value)) : Prop :=
  ∀ before node after, calls = before ++ .enqueue node :: after →
    elementsInside inside before < capacity

theorem never_overfills_cons {capacity inside : Nat} {call : QueueCall Key Value}
    {rest : List (QueueCall Key Value)} : NeverOverfills capacity inside (call :: rest) ↔
      (∀ node, call = .enqueue node → inside < capacity) ∧
        NeverOverfills capacity (call.count inside) rest := by
  constructor
  · intro fits
    constructor
    · intro node eq
      exact fits [] node rest (by rw [eq]; rfl)
    · intro before node after parts
      exact fits (call :: before) node after (by rw [parts]; rfl)
  · rintro ⟨first, fits⟩ before node after parts
    cases before with
    | nil => exact first node (List.cons.inj parts).1
    | cons head before =>
      obtain ⟨rfl, split⟩ := List.cons.inj parts
      exact fits before node after split

section Steps
variable {capacity : Nat} {q : BoundedQueue Key Value capacity}

theorem perform_agrees {call : QueueCall Key Value}
    (fits : ∀ node, call = .enqueue node → q.nodes.length < capacity) :
    (QueueWithMutexTraits Key Value capacity).perform q.nodes call =
      (((FixedSizeLockfreeQueueTraits Key Value capacity).perform q call).1.nodes,
        ((FixedSizeLockfreeQueueTraits Key Value capacity).perform q call).2) := by
  cases call with
  | enqueue node =>
    have room := fits node rfl
    simp [QueueTraits.perform, QueueWithMutexTraits, FixedSizeLockfreeQueueTraits,
      BoundedQueue.boundedPush, room]
  | dequeue result =>
    obtain ⟨nodes, bounded⟩ := q
    cases nodes <;> rfl

theorem perform_counts {call : QueueCall Key Value}
    (fits : ∀ node, call = .enqueue node → q.nodes.length < capacity) :
    ((FixedSizeLockfreeQueueTraits Key Value capacity).perform q call).1.nodes.length =
      call.count q.nodes.length := by
  cases call with
  | enqueue node =>
    have room := fits node rfl
    simp [QueueTraits.perform, FixedSizeLockfreeQueueTraits, BoundedQueue.boundedPush, room,
      QueueCall.count]
  | dequeue result =>
    obtain ⟨nodes, bounded⟩ := q
    cases nodes <;> rfl

theorem perform_differs {node : QueueNode Key Value} (full : ¬ q.nodes.length < capacity) :
    ((QueueWithMutexTraits Key Value capacity).perform q.nodes (.enqueue node)).2 ≠
      ((FixedSizeLockfreeQueueTraits Key Value capacity).perform q (.enqueue node)).2 := by
  simp [QueueTraits.perform, QueueWithMutexTraits, FixedSizeLockfreeQueueTraits,
    BoundedQueue.boundedPush, full]

end Steps

theorem replies_agree_iff {capacity : Nat} (q : BoundedQueue Key Value capacity)
    (calls : List (QueueCall Key Value)) :
    (QueueWithMutexTraits Key Value capacity).replies q.nodes calls =
        (FixedSizeLockfreeQueueTraits Key Value capacity).replies q calls ↔
      NeverOverfills capacity q.nodes.length calls := by
  induction calls generalizing q with
  | nil => simp [QueueTraits.replies, NeverOverfills]
  | cons call rest ih =>
    rw [never_overfills_cons]
    by_cases fits : ∀ node, call = .enqueue node → q.nodes.length < capacity
    · have later := ih ((FixedSizeLockfreeQueueTraits Key Value capacity).perform q call).1
      rw [perform_counts fits] at later
      simp only [QueueTraits.replies, perform_agrees fits, List.cons.injEq, true_and]
      rw [later]
      exact ⟨fun rest => ⟨fits, rest⟩, And.right⟩
    · constructor
      · intro same
        obtain ⟨node, refused⟩ := not_forall.mp fits
        obtain ⟨rfl, full⟩ := Classical.not_imp.mp refused
        exact absurd (List.cons.inj same).1 (perform_differs full)
      · intro both
        exact absurd both.1 fits

theorem after_agrees {capacity : Nat} (q : BoundedQueue Key Value capacity)
    (calls : List (QueueCall Key Value)) (fits : NeverOverfills capacity q.nodes.length calls) :
    (QueueWithMutexTraits Key Value capacity).after q.nodes calls =
      ((FixedSizeLockfreeQueueTraits Key Value capacity).after q calls).nodes := by
  induction calls generalizing q with
  | nil => rfl
  | cons call rest ih =>
    obtain ⟨first, later⟩ := never_overfills_cons.mp fits
    rw [← perform_counts first] at later
    have same := congrArg Prod.fst (perform_agrees first)
    exact (congrArg (fun queue => QueueTraits.after _ queue rest) same).trans (ih _ later)

/-- From an empty queue, the same replies, the same nodes left, and no more of them
    than the capacity allows. -/
def QueuesAgree (capacity : Nat) (calls : List (QueueCall Key Value)) : Prop :=
  let mutexed := QueueWithMutexTraits Key Value capacity
  let lockfree := FixedSizeLockfreeQueueTraits Key Value capacity
  mutexed.replies mutexed.empty calls = lockfree.replies lockfree.empty calls ∧
    mutexed.contents (mutexed.after mutexed.empty calls) =
      lockfree.contents (lockfree.after lockfree.empty calls) ∧
    (mutexed.contents (mutexed.after mutexed.empty calls)).length ≤ capacity

theorem queues_agree_iff (capacity : Nat) (calls : List (QueueCall Key Value)) :
    QueuesAgree capacity calls ↔ NeverOverfills capacity 0 calls := by
  have same := replies_agree_iff (FixedSizeLockfreeQueueTraits Key Value capacity).empty calls
  constructor
  · intro agree
    exact same.mp agree.1
  · intro fits
    have left := after_agrees (FixedSizeLockfreeQueueTraits Key Value capacity).empty calls fits
    refine ⟨same.mpr fits, left, ?_⟩
    have bounded :=
      ((FixedSizeLockfreeQueueTraits Key Value capacity).after
        (FixedSizeLockfreeQueueTraits Key Value capacity).empty calls).bounded
    exact Nat.le_trans (Nat.le_of_eq (congrArg List.length left)) bounded

/-- With one slot, the second of two enqueues is accepted by one queue only, which
    then holds two nodes. -/
theorem queues_differ_at_capacity :
    (QueueWithMutexTraits Nat Nat 1).replies [] [.enqueue ⟨1, 10⟩, .enqueue ⟨1, 20⟩] =
        [.enqueued true, .enqueued true] ∧
      (FixedSizeLockfreeQueueTraits Nat Nat 1).replies ⟨[], Nat.zero_le _⟩
        [.enqueue ⟨1, 10⟩, .enqueue ⟨1, 20⟩] = [.enqueued true, .enqueued false] ∧
      ((QueueWithMutexTraits Nat Nat 1).after [] [.enqueue ⟨1, 10⟩, .enqueue ⟨1, 20⟩]).length = 2 ∧
      ¬ QueuesAgree 1 [.enqueue (⟨1, 10⟩ : QueueNode Nat Nat), .enqueue ⟨1, 20⟩] := by
  refine ⟨by decide, by decide, by decide, ?_⟩
  intro agree
  exact absurd agree.1 (by decide)

end MappedQueue
