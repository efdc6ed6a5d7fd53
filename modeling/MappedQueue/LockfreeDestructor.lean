import MappedQueue.LockfreeProgress

/-!
The destructor of the lock-free queue, which runs after the last call has returned.
It pops until nothing is left, without synchronization, and gives the dummy back, so
that in the end every node is in the freelist again, whatever was done before while
the tags stayed fresh.
-/
namespace MappedQueue
open Concurrency QueueMemory

namespace QueueMemory
variable {T : Type}

/-- One turn of the loop in `unsynchronized_pop`: the queue, what is in `ret`, and the
    reply if there is one. -/
def unsynchronizedTurn (m : QueueMemory T) (null : Nat) (ret : T) :
    QueueMemory T × T × Option Bool :=
  let next := m.next m.head.index
  if m.head.index = m.tail.index then
    if next.index = null then (m, ret, some false)
    else ({ m with tail := m.tail.tagged next.index }, ret, none)
  else if next.index = null then (m, ret, none)
  else
    (deallocateUnsafe { m with head := m.head.tagged next.index } m.head.index,
      m.data next.index, some true)

def unsynchronizedPop (null : Nat) : Nat → QueueMemory T → T → Option (QueueMemory T × T × Bool)
  | 0, _, _ => none
  | fuel + 1, m, ret =>
    match m.unsynchronizedTurn null ret with
    | (m', ret', some success) => some (m', ret', success)
    | (m', ret', none) => unsynchronizedPop null fuel m' ret'

def popAll (null : Nat) : Nat → QueueMemory T → T → Option (QueueMemory T × List T)
  | 0, _, _ => none
  | fuel + 1, m, dummy =>
    match unsynchronizedPop null (fuel + 1) m dummy with
    | some (m', popped, true) =>
      (popAll null fuel m' popped).map fun left => (left.1, popped :: left.2)
    | some (m', _, false) => some (m', [])
    | none => none

def destroy (m : QueueMemory T) (null fuel : Nat) (dummy : T) : Option (QueueMemory T × List T) :=
  (popAll null fuel m dummy).map fun left => (left.1.deallocateUnsafe left.1.head.index, left.2)

def Resting (null : Nat) (m : QueueMemory T) (chain free : List Nat) : Prop :=
  QueueShape (ι := Unit) null m chain free (fun _ => none) []

end QueueMemory

section Turns
variable {T : Type} {null fuel : Nat} {m : QueueMemory T} {chain free : List Nat}

theorem resting_of_shape {ι : Type} {owned : ι → Option Nat} {holders : List (ι × Nat)}
    (shape : QueueShape null m chain free owned holders) (idle : ∀ t, owned t = none) :
    Resting null m chain free := by
  have nobody : holders = [] := by
    rw [List.eq_nil_iff_forall_not_mem]
    rintro ⟨t, node⟩ member
    have holds := (shape.ledger.holds t node).mp member
    rw [idle t] at holds
    contradiction
  have everything := shape.ledger.everything
  rw [nobody] at everything
  exact ⟨shape.queued, shape.pooled, shape.tail, shape.lag,
    ⟨everything, shape.ledger.once, by simp⟩⟩

theorem resting_pop (ret : T) (rest : Resting null m chain free)
    (passed : m.tail.index ≠ m.head.index) :
    ∃ chain' m', m.unsynchronizedTurn null ret = (m', m.data (m.pointer m.head.index), some true) ∧
      m.contents chain = m.data (m.pointer m.head.index) :: m'.contents chain' ∧
      Resting null m' chain' (m.head.index :: free) := by
  have second := passed_present rest fun _ => passed
  obtain ⟨chain', rfl⟩ := shape_head rest
  have swung : QueueMove null m (m.head.index :: chain') free none _ chain' free
    (some m.head.index) _ := QueueMove.swingHead second passed
  obtain ⟨_, held⟩ := shape_move (t := ()) rest rfl swung
  have stored := shape_store (t := ()) held (Function.update_self ..)
    ((m.next m.head.index).setIndex m.pool.index)
  have aimed : (QueueMemory.setNext { m with head := m.head.tagged (m.pointer m.head.index) }
      m.head.index ((m.next m.head.index).setIndex m.pool.index)).pointer m.head.index =
        m.pool.index := by
    rw [QueueMemory.pointer_setNext]
    exact Function.update_self ..
  obtain ⟨_, given⟩ := shape_move (t := ()) stored (Function.update_self ..) (QueueMove.put aimed)
  have resting : Resting null
      (deallocateUnsafe { m with head := m.head.tagged (m.pointer m.head.index) } m.head.index)
      chain' (m.head.index :: free) := resting_of_shape given fun t => Function.update_self ..
  have contents := move_contents (t := ()) rest rfl swung
  have present : (m.next m.head.index).index ≠ null := second
  have turn : m.unsynchronizedTurn null ret = (deallocateUnsafe
      { m with head := m.head.tagged (m.pointer m.head.index) } m.head.index,
      m.data (m.pointer m.head.index), some true) := by
    simp only [unsynchronizedTurn, if_neg passed.symm, if_neg present]
    rfl
  exact ⟨chain', _, turn, contents, resting⟩

theorem resting_help (ret : T) (rest : Resting null m chain free)
    (same : m.tail.index = m.head.index) (second : m.pointer m.head.index ≠ null) :
    ∃ m', m.unsynchronizedTurn null ret = (m', ret, none) ∧ Resting null m' chain free ∧
      m'.contents chain = m.contents chain ∧ m'.tail.index ≠ m'.head.index := by
  have behind : m.pointer m.tail.index ≠ null := by
    rw [same]
    exact second
  have swung : QueueMove null m chain free none _ chain free none none :=
    QueueMove.swingTail behind
  obtain ⟨_, later⟩ := shape_move (t := ()) rest rfl swung
  have first := linked_next_ne_start rest.queued (shape_chain_nodup rest) rest.tail behind
  refine ⟨_, ?_, resting_of_shape later fun _ => Function.update_self .., rfl, first⟩
  have present : (m.next m.head.index).index ≠ null := second
  simp only [unsynchronizedTurn, if_pos same.symm, if_neg present]
  rw [← same]
  rfl

theorem resting_empty (ret : T) (rest : Resting null m chain free)
    (alone : m.pointer m.head.index = null) :
    chain = [m.head.index] ∧ m.unsynchronizedTurn null ret = (m, ret, some false) := by
  have only := shape_alone rest alone
  have tail := rest.tail
  rw [only] at tail
  have none : (m.next m.head.index).index = null := alone
  refine ⟨only, ?_⟩
  simp only [unsynchronizedTurn, if_pos (List.mem_singleton.mp tail).symm, if_pos none]

/-- Two turns are enough to pop, as the tail is at most one node behind. -/
theorem unsynchronized_pop_pops (ret : T) (rest : Resting null m chain free) (enough : 2 ≤ fuel)
    (second : m.pointer m.head.index ≠ null) :
    ∃ chain' free' m' v, unsynchronizedPop null fuel m ret = some (m', v, true) ∧
      m.contents chain = v :: m'.contents chain' ∧ Resting null m' chain' free' := by
  obtain ⟨fuel, rfl⟩ : ∃ n, fuel = n + 2 := ⟨fuel - 2, by omega⟩
  by_cases same : m.tail.index = m.head.index
  · obtain ⟨m₁, turn, later, contents, passed⟩ := resting_help ret rest same second
    obtain ⟨chain', m', again, split, given⟩ := resting_pop ret later passed
    refine ⟨chain', _, m', _, ?_, contents ▸ split, given⟩
    simp only [unsynchronizedPop, turn, again]
  · obtain ⟨chain', m', turn, split, given⟩ := resting_pop ret rest same
    refine ⟨chain', _, m', _, ?_, split, given⟩
    simp only [unsynchronizedPop, turn]

theorem pop_all_empties (ret : T) (rest : Resting null m chain free)
    (enough : (m.contents chain).length + 2 ≤ fuel) :
    ∃ m' dummy free', popAll null fuel m ret = some (m', m.contents chain) ∧
      Resting null m' [dummy] free' := by
  induction fuel generalizing m chain free ret with
  | zero => omega
  | succ fuel ih =>
    by_cases alone : m.pointer m.head.index = null
    · obtain ⟨only, turn⟩ := resting_empty ret rest alone
      refine ⟨m, m.head.index, free, ?_, only ▸ rest⟩
      simp only [popAll, unsynchronizedPop, turn]
      rw [only]
      rfl
    · obtain ⟨chain', free', m', v, popped, split, later⟩ :=
        unsynchronized_pop_pops ret rest (by omega : 2 ≤ fuel + 1) alone
      rw [split, List.length_cons] at enough
      obtain ⟨last, dummy, left, all, resting⟩ := ih v later (by omega)
      refine ⟨last, dummy, left, ?_, resting⟩
      simp only [popAll, popped, all, Option.map_some, split]

theorem destroy_returns (ret : T) (rest : Resting null m chain free)
    (enough : (m.contents chain).length + 2 ≤ fuel) :
    ∃ m' all, m.destroy null fuel ret = some (m', m.contents chain) ∧
      Linked m'.pointer null m'.pool.index all ∧ all.Perm (List.range null) := by
  obtain ⟨m', dummy, free', popped, last⟩ := pop_all_empties ret rest enough
  have outside := shape_apart last (List.mem_singleton_self dummy)
  obtain ⟨first, present, _⟩ := last.queued
  refine ⟨m'.deallocateUnsafe m'.head.index, dummy :: free', ?_, ?_, ?_⟩
  · rw [destroy, popped]
    rfl
  · rw [first]
    change Linked (m'.setNext dummy _).pointer null dummy (dummy :: free')
    rw [m'.pointer_setNext]
    exact linked_cons last.pooled outside present
  · have everything := last.ledger.everything
    rwa [List.map_nil, List.append_nil, List.singleton_append] at everything

end Turns

/-- Destroyed after a run with fresh tags, the queue drops what was inside and loses
    no node. -/
theorem destructor_returns_nodes {T ι : Type} [Inhabited T] [DecidableEq ι] {capacity fuel : Nat}
    {s : LockfreeThreads T ι} {log : List (LockfreeEntry T ι)}
    (run : (lockfreeMachine T ι capacity).Reach TagsFresh s log)
    (outside : ∀ t, (s.threads t).pc = .idle) (enough : capacity + 2 ≤ fuel) (dummy : T) :
    ∃ m all, s.memory.destroy (nullHandle capacity) fuel dummy = some (m, inside log) ∧
      Linked m.pointer (nullHandle capacity) m.pool.index all ∧
      all.Perm (List.range (capacity + 1)) := by
  obtain ⟨chain, free, holders, sound⟩ := sound_run run
  have resting : Resting (nullHandle capacity) s.memory chain free := by
    apply resting_of_shape sound.shape
    intro t
    rw [LockfreeThreads.owners, outside t]
    rfl
  have few := (lockfree_fifo run).2
  rw [inside_eq sound.fifo] at few ⊢
  exact destroy_returns dummy resting (by omega)

theorem destructor_returns_three : ∃ s log, (lockfreeMachine Nat (Fin 2) 2).Reach TagsFresh s log ∧
    inside log = [6] ∧ ∃ m all, s.memory.destroy (nullHandle 2) 4 0 = some (m, [6]) ∧
      Linked m.pointer (nullHandle 2) m.pool.index all ∧ all.Perm (List.range 3) := by
  obtain ⟨s, log, run, left, idle⟩ := Machine.reach_of_exec
    (lockfreeMachine Nat (Fin 2) 2) TagsFresh
    (List.flatten [[.call 0 (.boundedPush 5)], stepsOf 0 12, [.call 1 (.boundedPush 6)],
      stepsOf 1 12, [.call 0 (.pop 0)], stepsOf 0 10])
    (fun s log => inside log = [6] ∧ ∀ t, (s.threads t).pc = .idle) (by decide +kernel)
  exact ⟨s, log, run, left, left ▸ destructor_returns_nodes run idle (Nat.le_refl 4) 0⟩

end MappedQueue
