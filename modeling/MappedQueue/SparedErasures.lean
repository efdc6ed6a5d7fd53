import MappedQueue.BucketLinearization

/-!
A bucket whose entries may be erased. As long as no `Erase` takes away an entry that
a `GetAndCreate` keeps an iterator to without a lock, what is read through a
`Reference` is what its call returns in the order in which the calls take effect.
-/
namespace MappedQueue
open Concurrency

namespace BucketThreads
variable {Key Value ι : Type} [DecidableEq Key] [DecidableEq ι] [Inhabited Value]
  {s s' : BucketThreads Key Value ι} {served : BucketCall Key Value → Bool}
  {log : List (BucketEntry Key Value ι)} {t : ι} {out : Option (BucketEntry Key Value ι)}
  {key : Key}

def Returns (order : List ((ι × Nat) × BucketCall Key Value)) (c : ι × Nat) (key : Key)
    (value : Option Value) : Prop :=
  ∃ past rest, order = past ++ (c, .getAndCreate key) :: rest ∧
    value = ((BucketCall.getAndCreate key).atomically
      ((flatMap Key Value).after (past.map Prod.snd))).2

omit [DecidableEq ι] in
theorem returns_append {order : List ((ι × Nat) × BucketCall Key Value)} {c : ι × Nat}
    {value : Option Value} (returns : Returns order c key value)
    (more : List ((ι × Nat) × BucketCall Key Value)) : Returns (order ++ more) c key value := by
  obtain ⟨past, rest, split, reply⟩ := returns
  exact ⟨past, rest ++ more, by rw [split, List.append_assoc, List.cons_append], reply⟩

attribute [local simp] goto leave callId BucketPc.found in
theorem found_moves (move : Move s t s' out) {found : Option (Node Key)}
    (keeps : (s'.threads t).pc.found = some (key, found)) : s'.callId t = s.callId t ∧
      ((s.threads t).pc.found = some (key, found) ∧ s'.memory = s.memory ∨
        out = some (.mark (.applied (s.callId t) (.getAndCreate key)))) := by
  cases move with
  | unlock pc | relockShared pc | dereference pc | read pc =>
    refine ⟨by simp, Or.inl ⟨?_, rfl⟩⟩
    simpa [pc] using keeps
  | @hit here node pc entry =>
    obtain ⟨rfl, _⟩ : here = key ∧ some node = found := by simpa using keeps
    exact ⟨by simp, Or.inr rfl⟩
  | @emplace here pc =>
    obtain ⟨rfl, _⟩ : here = key ∧ (s.memory.emplace here default).find here = found := by
      simpa using keeps
    exact ⟨by simp, Or.inr rfl⟩
  | @call call pc => cases call <;> simp [entrance] at keeps
  | _ pc => simp at keeps

theorem stored_outlasts (move : Move s t s' out) (before : key ∈ s.memory.data)
    (after : key ∈ s'.memory.data) :
    s'.memory.data.lookup key = s.memory.data.lookup key := by
  obtain ⟨value, stored⟩ := Option.isSome_iff_exists.mp (AList.lookup_isSome.mpr before)
  rcases move_memory move with same | ⟨_, ⟨other, x, same⟩ | ⟨erased, _, same⟩⟩
  · rw [same]
  · rw [same, BucketMemory.emplace_data, stored]
    exact StdMap.lookup_emplace_hit other x stored
  · have ne : key ≠ erased := by
      intro eq
      rw [same, BucketMemory.erase_data, eq] at after
      simp [AList.mem_erase] at after
    rw [same, BucketMemory.erase_data]
    exact AList.lookup_erase_ne ne

/-- What is stored for a key to which a thread keeps an iterator is what its call returns. -/
theorem kept_run (run : (bucketMachine ι served).Reach (fun s _ a => s.SparesPending a) s log) :
    ∀ t key found, (s.threads t).pc.found = some (key, found) →
      Returns (Mark.effects (history log)) (s.callId t) key (s.memory.data.lookup key) := by
  refine Machine.reach_invariant (I := fun s log => ∀ t key found,
    (s.threads t).pc.found = some (key, found) → Returns (Mark.effects (history log))
      (s.callId t) key (s.memory.data.lookup key)) ?_ ?_ run
  · intro t key found keeps
    contradiction
  · intro s log a s' out run before spares step t key found keeps
    have move := (step_moves step).1
    have live := iterators_run run
    have later := iterators_run (Machine.Reach.next run spares step)
    rw [history_append, Mark.effects_append]
    by_cases own : t = a.thread
    · subst own
      obtain ⟨id, ⟨kept, same⟩ | settled⟩ := found_moves move keeps
      · rw [id, same]
        exact returns_append (before _ key found kept) _
      · rw [id]
        refine ⟨Mark.effects (history log), [], by rw [settled]; rfl, ?_⟩
        rcases move_data move with ⟨c, call, eq, applied⟩ | ⟨other, _⟩
        · rw [settled] at eq
          cases eq
          rw [applied, data_run (Machine.reach_reachable run)]
          rfl
        · exact absurd settled (other _ _)
    · have id : s'.callId t = s.callId t := by
        rw [callId, callId, move_threads move, Function.update_of_ne own]
      have kept : (s.threads t).pc.found = some (key, found) := by
        rwa [move_threads move, Function.update_of_ne own] at keeps
      have there : ∀ {s : BucketThreads Key Value ι}, s.memory.find key = found →
          found.isSome = true → key ∈ s.memory.data := by
        intro s entry present
        rw [← entry] at present
        exact BucketMemory.find_isSome.mp present
      obtain ⟨entry, present⟩ := live t key found kept
      obtain ⟨entry', _⟩ := later t key found keeps
      rw [id, stored_outlasts move (there entry present) (there entry' present)]
      exact returns_append (before t key found kept) _

/-- A bucket is linearizable with erasures too, where these spare what is pending. -/
theorem spared_linearized
    (run : (bucketMachine ι served).Reach (fun s _ a => s.SparesPending a) s log) :
    LinearizedBy (Mark.effects (history log)) s log where
  realTime := effects_linearize (accounted_run (Machine.reach_reachable run)).timed
  map := data_run (Machine.reach_reachable run)
  reads := by
    refine Machine.reach_invariant (I := fun _ log => ∀ c value, .read c value ∈ log →
      ∃ past call rest, Mark.effects (history log) = past ++ (c, call) :: rest ∧
        value.isSome = true ∧
        value = (call.atomically ((flatMap Key Value).after (past.map Prod.snd))).2) ?_ ?_ run
    · intro c value member
      contradiction
    · intro s log a s' out run before _ step c value member
      rw [history_append, Mark.effects_append]
      rcases List.mem_append.mp member with earlier | now
      · obtain ⟨past, call, rest, order, reply⟩ := before c value earlier
        exact ⟨past, call, _, by rw [order, List.append_assoc, List.cons_append], reply⟩
      · have eq := Option.mem_toList.mp now
        subst eq
        obtain ⟨key, pointer, pc, rfl, rfl⟩ := read_moves (step_moves step).1
        obtain ⟨entry, present⟩ := iterators_run run a.thread key pointer (by rw [pc]; rfl)
        obtain ⟨past, rest, order, reply⟩ := kept_run run a.thread key pointer (by rw [pc]; rfl)
        have stored : s.memory.read pointer = s.memory.data.lookup key :=
          BucketMemory.read_found entry
        refine ⟨past, _, _, by rw [order, List.append_assoc, List.cons_append], ?_, ?_⟩
        · rw [stored, AList.lookup_isSome]
          apply BucketMemory.find_isSome.mp
          rw [entry]
          exact present
        · rw [stored]
          exact reply

end BucketThreads

end MappedQueue
