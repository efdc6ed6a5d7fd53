import MappedQueue.LockfreeSteps

/-!
Runs of the lock-free queue. The log tells what was pushed and popped, and what has
been pushed and not popped is what the chain of queued nodes holds, in order. A node
is inside the queue, in the freelist or with one thread, so that the queue never
holds more than its capacity.
-/
namespace MappedQueue
open Concurrency TaggedIndex QueueMemory

namespace LockfreeEntry
variable {T ι : Type}

def pushedValue : LockfreeEntry T ι → Option T
  | .effect _ (.pushed t) => some t
  | _ => none

def poppedValue : LockfreeEntry T ι → Option T
  | .effect _ (.popped t) => some t
  | _ => none

end LockfreeEntry

section Logs
variable {T ι : Type}

def pushedValues (log : List (LockfreeEntry T ι)) : List T :=
  log.filterMap LockfreeEntry.pushedValue

def poppedValues (log : List (LockfreeEntry T ι)) : List T :=
  log.filterMap LockfreeEntry.poppedValue

@[simp] theorem pushedValues_append (past rest : List (LockfreeEntry T ι)) :
    pushedValues (past ++ rest) = pushedValues past ++ pushedValues rest := List.filterMap_append

@[simp] theorem poppedValues_append (past rest : List (LockfreeEntry T ι)) :
    poppedValues (past ++ rest) = poppedValues past ++ poppedValues rest := List.filterMap_append

@[simp] theorem pushedValues_singleton (x : LockfreeEntry T ι) :
    pushedValues [x] = x.pushedValue.toList := by
  cases h : x.pushedValue <;> simp [pushedValues, h]

@[simp] theorem poppedValues_singleton (x : LockfreeEntry T ι) :
    poppedValues [x] = x.poppedValue.toList := by
  cases h : x.poppedValue <;> simp [poppedValues, h]

/-- What has been pushed and not popped, first to last. -/
def inside (log : List (LockfreeEntry T ι)) : List T :=
  (pushedValues log).drop (poppedValues log).length

end Logs

section Create
variable {T : Type}

theorem pointer_deallocate (m : QueueMemory T) (null node : Nat) :
    ((m.setNext node ((m.next node).setIndex null)).deallocateUnsafe node).pointer =
      Function.update m.pointer node m.pool.index := by
  funext other
  by_cases own : other = node
  · subst own
    simp [pointer, deallocateUnsafe, setNext, setIndex]
  · simp [pointer, deallocateUnsafe, setNext, own]

theorem initialize_pooled [Inhabited T] (null count : Nat) (few : count ≤ null) :
    let m : QueueMemory T := (List.range count).foldl
      (fun m node => (m.setNext node ((m.next node).setIndex null)).deallocateUnsafe node)
      ⟨⟨0, 0⟩, ⟨0, 0⟩, ⟨null, 0⟩, fun _ => ⟨0, 0⟩, fun _ => default⟩
    Linked m.pointer null m.pool.index (List.range count).reverse := by
  induction count with
  | zero => rfl
  | succ count ih =>
    have earlier := ih (by omega)
    rw [List.range_succ, List.foldl_append, List.reverse_append]
    simp only [List.foldl_cons, List.foldl_nil] at earlier ⊢
    generalize List.foldl _ _ (List.range count) = m at earlier
    rw [pointer_deallocate]
    apply linked_cons earlier
    · simp
    · omega

theorem initialize_linked [Inhabited T] (null : Nat) :
    Linked (initializePool null : QueueMemory T).pointer null
      (initializePool null : QueueMemory T).pool.index (List.range null).reverse :=
  initialize_pooled null null (Nat.le_refl _)

theorem create_shape [Inhabited T] {ι : Type} (capacity : Nat) :
    QueueShape (nullHandle capacity) (QueueMemory.create capacity : QueueMemory T) [capacity]
      (List.range capacity).reverse (fun _ : ι => none) [] := by
  have pooled := initialize_linked (T := T) (nullHandle capacity)
  have split : (List.range (nullHandle capacity)).reverse =
      capacity :: (List.range capacity).reverse := by
    rw [nullHandle, List.range_succ, List.reverse_append]
    rfl
  rw [split] at pooled
  obtain ⟨top, present, rest⟩ := pooled
  unfold QueueMemory.create
  generalize (initializePool (nullHandle capacity) : QueueMemory T) = m at top rest
  subst top
  have null_behind : (m.setNext m.pool.index ⟨nullHandle m.pool.index, 0⟩).pointer m.pool.index =
      nullHandle m.pool.index := by
    rw [m.pointer_setNext]
    exact Function.update_self ..
  refine ⟨⟨rfl, present, null_behind⟩, ?_, List.mem_singleton_self _, Or.inl null_behind, ?_⟩
  · change Linked (m.setNext m.pool.index _).pointer _ (m.pointer m.pool.index) _
    rw [m.pointer_setNext]
    apply linked_update rest
    simp
  · refine ⟨?_, List.nodup_range, by simp⟩
    rw [List.singleton_append, ← split, List.map_nil, List.append_nil]
    exact List.reverse_perm _

end Create

def LockfreeThreads.owners {T ι : Type} (s : LockfreeThreads T ι) : ι → Option Nat :=
  fun t => (s.threads t).pc.node

inductive LockfreeStep {T ι : Type} [DecidableEq ι] (null : Nat) (s : LockfreeThreads T ι) :
    LockfreeAction T ι → LockfreeThreads T ι → Option (LockfreeEntry T ι) → Prop where
  | call {t call} (idle : (s.threads t).pc = .idle) :
      LockfreeStep null s (.call t call) (s.goto t s.memory call.entrance)
        (some (.called (s.callId t) call))
  | access {t spurious} {o : Outcome T}
      (access : s.memory.access null spurious (s.threads t).pc = some o) :
      LockfreeStep null s (.step t spurious) (s.goto t o.1 o.2.1)
        (o.2.2.map (.effect (s.callId t)))
  | leave {t spurious reply} (returning : (s.threads t).pc = .returning reply) :
      LockfreeStep null s (.step t spurious) (s.leave t) (some (.returned (s.callId t) reply))

section Runs
variable {T ι : Type} [Inhabited T] [DecidableEq ι] {capacity : Nat} {s s' : LockfreeThreads T ι}
  {log : List (LockfreeEntry T ι)} {a : LockfreeAction T ι} {out : Option (LockfreeEntry T ι)}
  {chain free : List Nat} {holders : List (ι × Nat)} {t : ι}

theorem lockfree_step (step : (lockfreeMachine T ι capacity).step s a = some (s', out)) :
    LockfreeStep (nullHandle capacity) s a s' out := by
  cases a with
  | call t call =>
    change s.callStep t call = _ at step
    unfold LockfreeThreads.callStep at step
    split at step
    · rename_i idle
      cases step
      exact LockfreeStep.call idle
    · contradiction
  | step t spurious =>
    change s.threadStep (nullHandle capacity) t spurious = _ at step
    unfold LockfreeThreads.threadStep at step
    split at step
    · rename_i returning
      cases step
      exact LockfreeStep.leave returning
    · split at step
      · rename_i access
        cases step
        exact LockfreeStep.access access
      · contradiction

theorem lockfree_access {spurious : Bool} {o : Outcome T}
    (access : s.memory.access (nullHandle capacity) spurious (s.threads t).pc = some o) :
    (lockfreeMachine T ι capacity).step s (.step t spurious) =
      some (s.goto t o.1 o.2.1, o.2.2.map (.effect (s.callId t))) := by
  change s.threadStep (nullHandle capacity) t spurious = _
  unfold LockfreeThreads.threadStep
  split
  · rename_i returning
    rw [returning] at access
    contradiction
  · rw [access]

/-- What every run keeps, for the chains that the pointers form. -/
structure LockfreeSound (capacity : Nat) (s : LockfreeThreads T ι)
    (log : List (LockfreeEntry T ι)) (chain free : List Nat) (holders : List (ι × Nat)) : Prop where
  shape : QueueShape (nullHandle capacity) s.memory chain free s.owners holders
  knows : ∀ t, (s.threads t).pc.Knows (nullHandle capacity) s.memory free
  fifo : pushedValues log = poppedValues log ++ s.memory.contents chain

omit [Inhabited T] [DecidableEq ι] in
theorem fifo_effect {before after : List T} {e : Option (QueueEffect T)}
    (fifo : pushedValues log = poppedValues log ++ before)
    (changes : QueueEffect.Changes e before after)
    (c : ι × Nat) : pushedValues (log ++ (e.map (LockfreeEntry.effect c)).toList) =
      poppedValues (log ++ (e.map (LockfreeEntry.effect c)).toList) ++ after := by
  cases e with
  | none =>
    cases changes
    simpa using fifo
  | some effect =>
    cases effect with
    | pushed v =>
      cases changes
      simp [LockfreeEntry.pushedValue, LockfreeEntry.poppedValue, fifo]
    | popped v =>
      cases changes
      simp [LockfreeEntry.pushedValue, LockfreeEntry.poppedValue, fifo]
    | refused =>
      cases changes
      simp [LockfreeEntry.pushedValue, LockfreeEntry.poppedValue, fifo]
    | sawEmpty =>
      obtain ⟨rfl, rfl⟩ := changes
      simp [LockfreeEntry.pushedValue, LockfreeEntry.poppedValue, fifo]

omit [Inhabited T] [DecidableEq ι] in
theorem fifo_silent {before after : List T} {x : LockfreeEntry T ι}
    (silent : x.pushedValue = none ∧ x.poppedValue = none)
    (fifo : pushedValues log = poppedValues log ++ before)
    (same : after = before) : pushedValues (log ++ [x]) = poppedValues (log ++ [x]) ++ after := by
  simp [silent.1, silent.2, fifo, same]

omit [Inhabited T] in
theorem sound_move (shape : QueueShape (nullHandle capacity) s.memory chain free s.owners holders)
    (knows : ∀ u, (s.threads u).pc.Knows (nullHandle capacity) s.memory free)
    (threads : ι → LockfreeThread T) {o : Outcome T}
    (same : ∀ u, u ≠ t → (threads u).pc = (s.threads u).pc) (own : (threads t).pc = o.2.1)
    (moves : Moves (nullHandle capacity) s.memory chain free (s.threads t).pc.node o) :
    ∃ chain' free' left, QueueShape (nullHandle capacity) o.1 chain' free'
        (LockfreeThreads.owners ⟨o.1, threads⟩) left ∧
      (∀ u, (threads u).pc.Knows (nullHandle capacity) o.1 free') ∧
      QueueEffect.Changes o.2.2 (s.memory.contents chain) (o.1.contents chain') := by
  obtain ⟨chain', free', move, later⟩ := moves
  obtain ⟨left, after⟩ := shape_move shape rfl move
  have frame := move_frame (t := t) shape rfl move
  refine ⟨chain', free', left, ?_, ?_, move_contents (t := t) shape rfl move⟩
  · have owners : LockfreeThreads.owners ⟨o.1, threads⟩ =
        Function.update s.owners t o.2.1.node := by
      funext u
      by_cases eq : u = t
      · subst eq
        simp [LockfreeThreads.owners, own]
      · simp [LockfreeThreads.owners, eq, same u eq]
    rw [owners]
    exact after
  · intro u
    by_cases eq : u = t
    · subst eq
      rw [own]
      exact later
    · rw [same u eq]
      apply knows_frame shape frame _ (knows u)
      intro node holds
      obtain ⟨unqueued, unpooled, _⟩ := shape_owned (t := u) shape holds
      refine ⟨unqueued, unpooled, ?_⟩
      intro shared
      exact eq (ledger_owner (t := u) (u := t) shape.ledger holds shared.symm)

theorem sound_start : LockfreeSound capacity (lockfreeMachine T ι capacity).init [] [capacity]
    (List.range capacity).reverse [] :=
  ⟨create_shape capacity, fun _ => trivial, rfl⟩

omit [Inhabited T] in
theorem sound_step (sound : LockfreeSound capacity s log chain free holders)
    (fresh : TagsFresh s log a) (step : LockfreeStep (nullHandle capacity) s a s' out) :
    ∃ chain' free' left, LockfreeSound capacity s' (log ++ out.toList) chain' free' left := by
  obtain ⟨shape, knows, fifo⟩ := sound
  cases step with
  | @call t call idle =>
    have moves : Moves (nullHandle capacity) s.memory chain free (s.threads t).pc.node
        (s.memory, call.entrance, none) := by
      refine ⟨chain, free, ?_, ?_⟩
      · rw [idle]
        cases call <;> exact QueueMove.stay
      · cases call <;> trivial
    obtain ⟨chain', free', left, after, later, changes⟩ := sound_move shape knows
      (s.goto t s.memory call.entrance).threads
      (fun u ne => by simp [LockfreeThreads.goto, ne]) (by simp [LockfreeThreads.goto]) moves
    exact ⟨chain', free', left, after, later, fifo_silent ⟨rfl, rfl⟩ fifo changes⟩
  | @access t spurious o access =>
    have moves := access_moves (t := t) shape rfl (knows t) fresh access
    obtain ⟨chain', free', left, after, later, changes⟩ := sound_move shape knows
      (s.goto t o.1 o.2.1).threads
      (fun u ne => by simp [LockfreeThreads.goto, ne]) (by simp [LockfreeThreads.goto]) moves
    exact ⟨chain', free', left, after, later, fifo_effect fifo changes _⟩
  | @leave t spurious reply returning =>
    have moves : Moves (nullHandle capacity) s.memory chain free (s.threads t).pc.node
        (s.memory, .idle, none) := by
      rw [returning]
      exact moves_stay .idle trivial
    obtain ⟨chain', free', left, after, later, changes⟩ := sound_move shape knows
      (s.leave t).threads
      (fun u ne => by simp [LockfreeThreads.leave, ne]) (by simp [LockfreeThreads.leave]) moves
    exact ⟨chain', free', left, after, later, fifo_silent ⟨rfl, rfl⟩ fifo changes⟩

omit [Inhabited T] in
theorem head_seen (sound : LockfreeSound capacity s log chain free holders)
    (fresh : TagsFresh s log a) (step : LockfreeStep (nullHandle capacity) s a s' out) :
    Seen s.memory.head s'.memory.head := by
  cases step with
  | call | leave => exact seen_refl _
  | @access t spurious o access =>
    obtain ⟨chain', free', move, _⟩ :=
      access_moves (t := t) sound.shape rfl (sound.knows t) fresh access
    exact (move_frame (t := t) sound.shape rfl move).head

theorem sound_run (run : (lockfreeMachine T ι capacity).Reach TagsFresh s log) :
    ∃ chain free holders, LockfreeSound capacity s log chain free holders := by
  refine Machine.reach_invariant
    (I := fun s log => ∃ chain free holders, LockfreeSound capacity s log chain free holders)
    ⟨_, _, _, sound_start⟩ ?_ run
  rintro s log a s' out _ ⟨chain, free, holders, sound⟩ fresh step
  exact sound_step sound fresh (lockfree_step step)

end Runs

end MappedQueue
