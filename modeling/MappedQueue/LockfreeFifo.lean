import MappedQueue.LockfreeRuns

/-!
The lock-free queue as its callers see it: what they push comes out in order, each
of it once, and at every moment the queue is a first-in first-out queue of at most
`capacity` elements. A push is refused when every node is inside or in the hands of
a thread that has not finished its call, which can be below the capacity.
-/
namespace MappedQueue
open Concurrency TaggedIndex QueueMemory

section Effects
variable {T ι : Type}

def AtomicEffect (capacity : Nat) (past : List (LockfreeEntry T ι)) : LockfreeEntry T ι → Prop
  | .effect _ (.pushed _) => (inside past).length < capacity
  | .effect _ (.popped t) => (inside past).head? = some t
  | .effect _ .sawEmpty => inside past = []
  | _ => True

variable {log : List (LockfreeEntry T ι)}

theorem inside_eq {contents : List T} (fifo : pushedValues log = poppedValues log ++ contents) :
    inside log = contents := by
  rw [inside, fifo]
  exact List.drop_left

end Effects

section Runs
variable {T ι : Type} [Inhabited T] [DecidableEq ι] {capacity : Nat} {s s' : LockfreeThreads T ι}
  {log : List (LockfreeEntry T ι)} {a : LockfreeAction T ι}
  {chain free : List Nat} {holders : List (ι × Nat)}

omit [Inhabited T] [DecidableEq ι] in
theorem sound_count (sound : LockfreeSound capacity s log chain free holders) :
    (inside log).length + free.length + holders.length = capacity := by
  rw [inside_eq sound.fifo]
  have count := shape_contents sound.shape
  unfold nullHandle at count
  omega

omit [Inhabited T] in
theorem effect_move (sound : LockfreeSound capacity s log chain free holders)
    (fresh : TagsFresh s log a) {c : ι × Nat} {e : QueueEffect T}
    (step : LockfreeStep (nullHandle capacity) s a s' (some (.effect c e))) :
    ∃ t m chain' free' mine', c = s.callId t ∧ QueueMove (nullHandle capacity) s.memory chain free
        (s.owners t) m chain' free' mine' (some e) := by
  generalize hout : some (LockfreeEntry.effect c e) = out at step
  cases step with
  | call idle => cases hout
  | leave returning => cases hout
  | @access t spurious o access =>
    obtain ⟨chain', free', move, _⟩ :=
      access_moves (t := t) sound.shape rfl (sound.knows t) fresh access
    obtain ⟨m, pc, e'⟩ := o
    cases e' with
    | none => contradiction
    | some e' =>
      cases hout
      exact ⟨t, m, chain', free', _, rfl, move⟩

omit [Inhabited T] in
theorem effect_atomic (sound : LockfreeSound capacity s log chain free holders)
    (fresh : TagsFresh s log a) {x : LockfreeEntry T ι}
    (step : LockfreeStep (nullHandle capacity) s a s' (some x)) : AtomicEffect capacity log x := by
  cases x with
  | called c call | returned c reply => trivial
  | effect c e =>
    obtain ⟨chain', free', left, later⟩ := sound_step sound fresh step
    obtain ⟨t, m, _, _, _, _, move⟩ := effect_move sound fresh step
    have changes := move_contents (t := t) sound.shape rfl move
    rw [← inside_eq sound.fifo] at changes
    cases e with
    | pushed v =>
      have grown : inside (log ++ [.effect c (.pushed v)]) = inside log ++ [v] := by
        apply inside_eq
        simp [sound.fifo, inside_eq sound.fifo, LockfreeEntry.pushedValue,
          LockfreeEntry.poppedValue]
      have count := sound_count later
      simp only [Option.toList_some] at count
      rw [grown, List.length_append, List.length_singleton] at count
      change (inside log).length < capacity
      omega
    | popped v =>
      change (inside log).head? = some v
      rw [changes]
      rfl
    | refused => trivial
    | sawEmpty => exact changes.1

theorem effects_atomic (run : (lockfreeMachine T ι capacity).Reach TagsFresh s log) :
    Whenever (AtomicEffect capacity) log := by
  refine Machine.reach_whenever ?_ run
  intro s log a s' x before fresh step
  obtain ⟨chain, free, holders, sound⟩ := sound_run before
  exact effect_atomic sound fresh (lockfree_step step)

theorem lockfree_fifo (run : (lockfreeMachine T ι capacity).Reach TagsFresh s log) :
    pushedValues log = poppedValues log ++ inside log ∧ (inside log).length ≤ capacity := by
  obtain ⟨chain, free, holders, sound⟩ := sound_run run
  have count := sound_count sound
  constructor
  · rw [inside_eq sound.fifo]
    exact sound.fifo
  · omega

omit [Inhabited T] in
theorem refusal_exhausted (sound : LockfreeSound capacity s log chain free holders)
    (fresh : TagsFresh s log a) {c : ι × Nat}
    (step : LockfreeStep (nullHandle capacity) s a s' (some (.effect c .refused))) :
    s.owners c.1 = none ∧ (inside log).length + holders.length = capacity := by
  have count := sound_count sound
  obtain ⟨t, m, chain', free', mine', rfl, move⟩ := effect_move sound fresh step
  generalize hmine : s.owners t = mine at move
  cases move with
  | refuse exhausted =>
    have pooled := sound.shape.pooled
    rw [exhausted] at pooled
    rw [linked_nil pooled] at count
    exact ⟨hmine, by simpa using count⟩

/-- A push is refused only when the threads that hold a node make up what is missing to
    the capacity, and one that begins then is refused. -/
theorem refused_push_counts (run : (lockfreeMachine T ι capacity).Reach TagsFresh s log) :
    ∃ holding : List ι, holding.Nodup ∧ (∀ u, u ∈ holding ↔ (s.owners u).isSome = true) ∧
      (∀ a s' c, TagsFresh s log a →
        (lockfreeMachine T ι capacity).step s a = some (s', some (.effect c .refused)) →
        c.1 ∉ holding ∧ (inside log).length + holding.length = capacity) ∧
      ∀ t v spurious, (s.threads t).pc = .push v .loadPool →
        (inside log).length + holding.length = capacity →
        ∃ s', (lockfreeMachine T ι capacity).step s (.step t spurious) =
          some (s', some (.effect (s.callId t) .refused)) := by
  obtain ⟨chain, free, holders, sound⟩ := sound_run run
  have count := sound_count sound
  obtain ⟨distinct, owners⟩ := ledger_owners sound.shape.ledger
  refine ⟨holders.map Prod.fst, distinct, owners, ?_, ?_⟩
  · intro a s' c fresh step
    obtain ⟨empty_handed, full⟩ := refusal_exhausted sound fresh (lockfree_step step)
    rw [owners, empty_handed, List.length_map]
    exact ⟨by simp, full⟩
  · intro t v spurious place full
    rw [List.length_map] at full
    have pooled := sound.shape.pooled
    rw [List.eq_nil_of_length_eq_zero (show free.length = 0 by omega)] at pooled
    have exhausted : s.memory.pool.index = nullHandle capacity := pooled
    have access : s.memory.access (nullHandle capacity) spurious (s.threads t).pc =
        some (s.memory, .returning (.pushed false), some .refused) := by
      rw [place]
      simp only [QueueMemory.access, pushStep, allocate, if_pos exhausted]
    exact ⟨_, lockfree_access access⟩

/-- A thread that has popped the only element still holds a node when another one pushes. -/
theorem push_refused_when_empty : ∃ s log, (lockfreeMachine Nat (Fin 2) 1).Reach TagsFresh s log ∧
    inside log = [] ∧ ∃ s', (lockfreeMachine Nat (Fin 2) 1).step s (.step 0 false) =
      some (s', some (.effect (s.callId 0) .refused)) := by
  obtain ⟨s, log, run, nothing, place, holds⟩ := Machine.reach_of_exec
    (lockfreeMachine Nat (Fin 2) 1) TagsFresh
    (List.flatten [[.call 0 (.boundedPush 5)], stepsOf 0 12, [.call 1 (.pop 0)], stepsOf 1 7,
      [.call 0 (.boundedPush 6)]])
    (fun s log => inside log = [] ∧ (s.threads 0).pc = .push 6 .loadPool ∧
      s.owners 1 = some 1) (by decide +kernel)
  obtain ⟨holding, distinct, owners, _, refused⟩ := refused_push_counts run
  have same : holding.Perm [1] := by
    rw [List.perm_ext_iff_of_nodup distinct (List.nodup_singleton 1)]
    intro u
    rw [owners, List.mem_singleton]
    match u with
    | 0 => simp [LockfreeThreads.owners, place, LockfreePc.node, PushPc.node]
    | 1 => simp [holds]
  exact ⟨s, log, run, nothing, refused 0 6 false place (by rw [nothing, same.length_eq]; rfl)⟩

end Runs

end MappedQueue
