import MappedQueue.PoolOverlay

/-!
A step of the pool on the lock-free queue is one of the pool outside its queue, or one of
a thread inside the queue. The latter is a step of the pool on an atomic queue when it
settles what the call returns, and otherwise changes nothing there.
-/
namespace MappedQueue
open Concurrency TaggedIndex QueueMemory

variable {Key Value Listener ι : Type}

section Logs
variable (log : List (LockfreePoolEntry Key Value Listener ι))
  (x : Option (Entry Key Value Listener ι)) (y : Option (QueueEntry Key Value ι))

theorem poolLog_append : poolLog (log ++ (some (x, y)).toList) = poolLog log ++ x.toList := by
  cases x <;> simp [poolLog]

theorem queueLog_append : queueLog (log ++ (some (x, y)).toList) = queueLog log ++ y.toList := by
  cases y <;> simp [queueLog]

end Logs

namespace QueuePool
variable {M : MapTraits Key Listener} {s : QueuePool (balkingTraits Value M) ι}
  {nodes : List (QueueNode Key Value)} {ready : Bool} {node : QueueNode Key Value} {t : ι}
  {g g' : Consumer Key Value M.Map Listener → Consumer Key Value M.Map Listener}
  {h h' : ι → Client Key Value Listener → Client Key Value Listener} [DecidableEq ι]

theorem overlay_moved {q : List (QueueNode Key Value) × Bool} {pc : ClientPc Key Value Listener}
    (before : h t (s.clients t) = s.clients t)
    (after : h' t (s.clients t) = ⟨(s.clients t).calls, pc⟩) (others : ∀ u, u ≠ t → h' u = h u) :
    (s.overlay q g h).goto t pc = s.overlay q g h' := by
  have moved : Function.update (fun u => h u (s.clients u)) t ⟨(s.clients t).calls, pc⟩ =
      fun u => h' u (s.clients u) := by
    funext u
    by_cases own : u = t
    · subst own
      simp [after]
    · simp [own, others u own]
  unfold overlay goto
  simp only [before, moved]

theorem push_overlay (pushes : (s.clients t).pc.pushes? = some node)
    (before : h t (s.clients t) = s.clients t)
    (after : h' t (s.clients t) = (s.clients t).answered ready)
    (others : ∀ u, u ≠ t → h' u = h u) :
    (s.overlay (nodes, ready) g h).clientStep t =
      some (s.overlay (if ready then nodes ++ [node] else nodes, ready) g h',
        if ready then some (.pushed (s.callId t) node) else none) := by
  have here : (s.overlay (nodes, ready) g h).clients t = s.clients t := before
  have named : (s.overlay (nodes, ready) g h).callId t = s.callId t := by
    rw [callId, here]
    rfl
  cases pc : (s.clients t).pc with
  | enqueue node' pos =>
    rw [pc] at pushes
    cases pos with
    | tryEnqueue | test | retest notified =>
      obtain rfl : node' = node := by simpa [ClientPc.pushes?, EnqueuePc.asksQueue] using pushes
      simp only [Client.answered, pc] at after
      have moved := overlay_moved (q := (if ready then nodes ++ [node'] else nodes, ready)) (g := g)
        before after others
      simp only [clientStep, here, pc, enqueueStep, enqueuePredicate, named]
      cases ready <;> exact congrArg (fun pool => some (pool, _)) moved
    | _ => simp [ClientPc.pushes?, EnqueuePc.asksQueue] at pushes
  | _ => simp [pc, ClientPc.pushes?] at pushes

theorem pop_overlay {woken : Option ι} (asks : s.consumer.pc.asksQueue = true)
    (before : g s.consumer = s.consumer) (after : g' s.consumer = s.consumer.answered node true) :
    (s.overlay (node :: nodes, ready) g h).consumerStep woken =
      some (s.overlay (nodes, ready) g' h, some (.popped node)) := by
  have here : (s.overlay (node :: nodes, ready) g h).consumer = s.consumer := before
  unfold consumerStep
  rw [here]
  cases pc : s.consumer.pc with
  | dequeue | testDequeue =>
    simp only [Consumer.answered, pc] at after
    unfold overlay
    rw [after]
    rfl
  | _ => simp [pc, ConsumerPc.asksQueue] at asks

theorem miss_overlay {woken : Option ι} (asks : s.consumer.pc.asksQueue = true)
    (before : g s.consumer = s.consumer)
    (after : g' s.consumer = s.consumer.answered s.consumer.node false) :
    (s.overlay ([], ready) g h).consumerStep woken = some (s.overlay ([], ready) g' h, none) := by
  have here : (s.overlay ([], ready) g h).consumer = s.consumer := before
  unfold consumerStep
  rw [here]
  cases pc : s.consumer.pc with
  | dequeue | testDequeue =>
    simp only [Consumer.answered, pc] at after
    simp only [dequeueInto, here]
    exact congrArg (fun consumer => some ({ s.overlay ([], ready) g h with consumer := consumer },
      none)) after.symm
  | _ => simp [pc, ConsumerPc.asksQueue] at asks

end QueuePool

namespace LockfreePool
variable {M : MapTraits Key Listener} {s s' : LockfreePool Value M ι} {capacity : Nat}
  {a : LockfreePoolAction Key Value Listener ι} [DecidableEq ι] [Inhabited (QueueNode Key Value)]
  {out : Option (LockfreePoolEntry Key Value Listener ι)}

/-- A step is one of the pool outside its queue, or one inside the queue. -/
inductive Move (capacity : Nat) (s : LockfreePool Value M ι)
    (a : LockfreePoolAction Key Value Listener ι) :
    LockfreePool Value M ι → Option (LockfreePoolEntry Key Value Listener ι) → Prop where
  | outside {pool x} (plain : s.demand a.1 = none) (step : s.pool.step a.1 = some (pool, x)) :
      Move capacity s a ⟨pool, s.queue⟩ (some (x, none))
  | inside {t call queue x} (demand : s.demand a.1 = some (t, call))
      (step : (lockfreeMachine (QueueNode Key Value) (Option ι) capacity).step s.queue
        (s.queueAction t call a.2) = some (queue, x)) :
      Move capacity s a ⟨s.pool.resumed x, queue⟩ (some (s.pool.reported x, x))

theorem pool_moves (h : s.step capacity a = some (s', out)) : Move capacity s a s' out := by
  unfold step at h
  split at h
  · split at h <;> cases h
    exact Move.outside ‹_› ‹_›
  · split at h <;> cases h
    exact Move.inside ‹_› ‹_›

variable {queue : LockfreeThreads (QueueNode Key Value) (Option ι)}
  {x : Option (QueueEntry Key Value ι)} {t : Option ι}
  {call : LockfreeCall (QueueNode Key Value)} {spurious : Bool}

theorem queue_moves (h : (lockfreeMachine (QueueNode Key Value) (Option ι) capacity).step s.queue
    (s.queueAction t call spurious) = some (queue, x)) :
    ((s.queue.threads t).pc = .idle ∧ queue = s.queue.goto t s.queue.memory call.entrance ∧
      x = some (.called (s.queue.callId t) call)) ∨
    (∃ o, s.queue.memory.access (nullHandle capacity) spurious (s.queue.threads t).pc = some o ∧
      queue = s.queue.goto t o.1 o.2.1 ∧ x = o.2.2.map (.effect (s.queue.callId t))) ∨
    ∃ reply, (s.queue.threads t).pc = .returning reply ∧ queue = s.queue.leave t ∧
      x = some (.returned (s.queue.callId t) reply) := by
  have moved := lockfree_step h
  generalize action : s.queueAction t call spurious = b at moved
  unfold queueAction at action
  split at action
  · rename_i idle
    subst action
    cases moved with
    | call _ => exact Or.inl ⟨idle, rfl, rfl⟩
  · subst action
    cases moved with
    | access access => exact Or.inr (Or.inl ⟨_, access, rfl, rfl⟩)
    | leave returning => exact Or.inr (Or.inr ⟨_, returning, rfl, rfl⟩)

end LockfreePool

end MappedQueue
