import MappedQueue.ExactlyOnce

/-!
`Enqueue` on a queue of fixed size. A call that finds the queue full and whose
wait predicate finds it full again returns with nothing pushed; a call whose
predicate finds room falls asleep and pushes again whenever it wakes up to room.
-/
namespace MappedQueue
open Concurrency

variable {Key Value Listener ι : Type} [DecidableEq ι]

/-- Every call has pushed at most once, and exactly its own node when it returned. -/
def ExactlyOnce (log : List (Entry Key Value Listener ι)) : Prop :=
  ∀ c, (pushesOf c log).length ≤ 1 ∧
    ∀ node, .returned c (.enqueue node) ∈ log → pushesOf c log = [node]

abbrev lockfree (Value : Type) (capacity : Nat) (M : MapTraits Key Listener) :
    DefaultTraits Key Value Listener :=
  ⟨FixedSizeLockfreeQueueTraits Key Value capacity, M⟩

variable {capacity : Nat} {M : MapTraits Key Listener}

/-- The wait predicate finds room the first time it is evaluated in a call and
    a full queue whenever it is evaluated again. -/
def RoomThenFull (s : QueuePool (lockfree Value capacity M) ι) :
    QueuePool.Action Key Value Listener ι → Prop
  | .client t =>
    match (s.clients t).pc with
    | .enqueue _ .test => s.contents.length < capacity
    | .enqueue _ (.retest _) => s.contents.length = capacity
    | _ => True
  | _ => True

instance (s : QueuePool (lockfree Value capacity M) ι) (a : QueuePool.Action Key Value Listener ι) :
    Decidable (RoomThenFull s a) := by
  rcases a with _ | t | _ | _ | _ | _
  case client =>
    dsimp only [RoomThenFull]
    generalize (s.clients t).pc = pc
    rcases pc with _ | ⟨node, pos⟩ | _ | _
    case enqueue => rcases pos with ⟨⟩ <;> infer_instance
    all_goals infer_instance
  all_goals exact isTrue trivial

omit [DecidableEq ι] in
theorem accepts_iff_room (s : QueuePool (lockfree Value capacity M) ι)
    (node : QueueNode Key Value) :
    ((lockfree Value capacity M).queueTraits.enqueue s.queue node).2 = true ↔
      s.contents.length < capacity := by
  change (s.queue.boundedPush node).2 = true ↔ s.queue.nodes.length < capacity
  unfold BoundedQueue.boundedPush
  split <;> simp_all

omit [DecidableEq ι] in
theorem room_then_full_pushes_once {s : QueuePool (lockfree Value capacity M) ι}
    {a : QueuePool.Action Key Value Listener ι} (h : RoomThenFull s a) : PushesOnce s a := by
  cases a with
  | client t =>
    simp only [RoomThenFull] at h
    simp only [PushesOnce]
    split
    · rename_i node pc
      rw [pc] at h
      exact (accepts_iff_room s node).mpr h
    · rename_i node notified pc
      rw [pc] at h
      refine Bool.eq_false_iff.mpr fun accepted => ?_
      have room := (accepts_iff_room s node).mp accepted
      simp only at h
      omega
    · trivial
  | _ => trivial

theorem enqueue_pushes_exactly_once {sign : Option (SignConsumerFinished ι)}
    {junk : QueueNode Key Value} {s : QueuePool (lockfree Value capacity M) ι}
    {log : List (Entry Key Value Listener ι)}
    (run : (poolMachine (lockfree Value capacity M) sign junk).Reach
      (fun s _ a => RoomThenFull s a) s log) : ExactlyOnce log := by
  have orderly := orderly_run
    (Machine.reach_mono (fun _ _ _ _ => room_then_full_pushes_once) run)
  intro c
  constructor
  · exact at_most_one_push orderly c
  · intro node returned
    rw [← pushes_of_call, returned_call_is_whole orderly returned]
    simp [wholeCall, pushesOf, List.filterMap_cons, Entry.pushedBy]

section Schedules
open QueuePool

abbrev oneSlot : Machine (QueuePool (lockfree Nat 1 (MapWithMutexTraits Nat Nat)) (Fin 2))
    (Action Nat Nat Nat (Fin 2)) (Entry Nat Nat Nat (Fin 2)) :=
  poolMachine _ none ⟨0, 0⟩

theorem enqueue_exactly_once_on_slow_path :
    ∃ s log, oneSlot.Reach (fun s _ a => RoomThenFull s a) s log ∧
      .returned (1, 0) (.enqueue ⟨2, 20⟩) ∈ log ∧ ExactlyOnce log := by
  obtain ⟨s, log, run, returned⟩ := Machine.reach_of_exec oneSlot (fun s _ a => RoomThenFull s a)
    [.call 0 (.enqueue ⟨1, 10⟩), .client 0, .call 1 (.enqueue ⟨2, 20⟩), .client 1,
      .consumer none, .consumer none, .consumer none, .consumer none, .client 1, .client 1,
      .client 1, .wakeProducer 1, .client 1, .client 1, .client 1, .client 1]
    (fun _ log => .returned (1, 0) (.enqueue ⟨2, 20⟩) ∈ log) (by decide)
  exact ⟨s, log, run, returned, enqueue_pushes_exactly_once run⟩

/-- On a full queue the second call returns with nothing pushed. With the queue
    emptied behind its back it pushes its node twice. -/
theorem overflow_loses_and_duplicates :
    (∃ s log, oneSlot.Reachable s log ∧ .returned (0, 1) (.enqueue ⟨2, 20⟩) ∈ log ∧
      pushesOf (0, 1) log = [] ∧ ¬ ExactlyOnce log) ∧
    ∃ s log, oneSlot.Reachable s log ∧
      pushesOf (1, 0) log = [⟨2, 20⟩, ⟨2, 20⟩] ∧ ¬ ExactlyOnce log := by
  constructor
  · obtain ⟨s, log, run, returned, lost⟩ := Machine.reachable_of_exec oneSlot
      [.call 0 (.enqueue ⟨1, 10⟩), .client 0, .client 0, .call 0 (.enqueue ⟨2, 20⟩), .client 0,
        .client 0, .client 0, .client 0, .client 0]
      (fun _ log => .returned (0, 1) (.enqueue ⟨2, 20⟩) ∈ log ∧ pushesOf (0, 1) log = [])
      (by decide)
    refine ⟨s, log, run, returned, lost, fun once => ?_⟩
    have pushed := (once (0, 1)).2 _ returned
    simp [lost] at pushed
  · obtain ⟨s, log, run, twice⟩ := Machine.reachable_of_exec oneSlot
      [.call 0 (.enqueue ⟨1, 10⟩), .client 0, .call 1 (.enqueue ⟨2, 20⟩), .client 1,
        .consumer none, .consumer none, .consumer none, .consumer none, .client 1, .client 1,
        .client 1, .consumer none, .consumer none, .consumer none, .consumer none, .consumer none,
        .consumer none, .consumer none, .wakeProducer 1, .client 1, .client 1]
      (fun _ log => pushesOf (1, 0) log = [⟨2, 20⟩, ⟨2, 20⟩]) (by decide)
    refine ⟨s, log, run, twice, fun once => ?_⟩
    have few := (once (1, 0)).1
    simp [twice] at few

end Schedules

end MappedQueue
