import MappedQueue.ReferenceLifetime

/-!
The calls of the threads of one bucket in the order in which they take effect: `Set`
and `Erase` where they write, `GetAndCreate` where it finds the entry or emplaces
it. As long as nobody erases, an entry that is there stays, so whatever falls between
the locks of a `GetAndCreate` leaves it the value that this order gives it.
-/
namespace MappedQueue
open Concurrency

variable {Key Value ι : Type}

def BucketCall.inserts : BucketCall Key Value → Bool
  | .set _ _ => true
  | .erase _ => false
  | .getAndCreate _ => true

namespace BucketThreads

def history (log : List (BucketEntry Key Value ι)) : List (Mark (ι × Nat) (BucketCall Key Value)) :=
  log.filterMap BucketEntry.toMark

theorem history_append (log : List (BucketEntry Key Value ι)) (out : Option (BucketEntry Key Value ι)) :
    history (log ++ out.toList) = history log ++ (out.bind BucketEntry.toMark).toList := by
  unfold history
  rw [List.filterMap_append]
  cases out with
  | none => rfl
  | some x => cases x <;> rfl

theorem mem_history {log : List (BucketEntry Key Value ι)}
    {m : Mark (ι × Nat) (BucketCall Key Value)} : m ∈ history log ↔ .mark m ∈ log := by
  unfold history
  rw [List.mem_filterMap]
  constructor
  · rintro ⟨x, member, eq⟩
    cases x with
    | mark other =>
      cases eq
      exact member
    | read c value => contradiction
  · intro member
    exact ⟨_, member, rfl⟩

variable [DecidableEq Key] [DecidableEq ι] [Inhabited Value] {s : BucketThreads Key Value ι}
  {served : BucketCall Key Value → Bool} {log : List (BucketEntry Key Value ι)}

theorem accounted_run (run : (bucketMachine ι served).Reachable s log) :
    Accounted (fun t => (s.threads t).caller) (history log) := by
  refine Machine.reach_invariant (I := fun s log => Accounted (fun t => (s.threads t).caller)
    (history log)) accounted_start ?_ run
  intro s log a s' out _ accounted _ step
  have move := (step_moves step).1
  have callers : (fun t => (s'.threads t).caller) =
      Function.update (fun t => (s.threads t).caller) a.thread (s'.threads a.thread).caller := by
    funext t
    by_cases own : t = a.thread
    · subst own
      simp
    · rw [move_threads move]
      simp [own]
  rw [callers, history_append]
  exact accounted_move accounted (move_caller move)

theorem data_run (run : (bucketMachine ι served).Reachable s log) :
    s.memory.data = (flatMap Key Value).after ((Mark.effects (history log)).map Prod.snd) := by
  refine Machine.reach_invariant (I := fun s log => s.memory.data =
    (flatMap Key Value).after ((Mark.effects (history log)).map Prod.snd)) rfl ?_ run
  intro s log a s' out _ data _ step
  rw [history_append, Mark.effects_append, List.map_append]
  rcases move_data (step_moves step).1 with ⟨c, call, rfl, applied⟩ | ⟨other, same⟩
  · rw [applied, data]
    exact (SequentialObject.after_append (o := flatMap Key Value) _ call).symm
  · have silent : Mark.effects (out.bind BucketEntry.toMark).toList = [] := by
      apply Mark.effects_silent
      intro c call eq
      obtain ⟨x, rfl, mark⟩ := Option.bind_eq_some_iff.mp eq
      cases x with
      | mark m =>
        cases mark
        exact other c call rfl
      | read _ _ => contradiction
    rw [silent, same, data, List.map_nil, List.append_nil]

theorem called_served (run : (bucketMachine ι served).Reachable s log) :
    ∀ c call, .mark (.called c call) ∈ log → served call = true := by
  refine Machine.reach_invariant (I := fun _ log => ∀ c call, .mark (.called c call) ∈ log →
    served call = true) ?_ ?_ run
  · intro c call member
    contradiction
  · intro s log a s' out _ before _ step c call member
    rcases List.mem_append.mp member with earlier | now
    · exact before c call earlier
    · exact (step_moves step).2 c call (Option.mem_toList.mp now)

theorem current_served (run : (bucketMachine ι served).Reachable s log) {t : ι}
    {call : BucketCall Key Value} (current : (s.threads t).pc.call = some call) :
    served call = true := by
  have called := (accounted_run run).recorded.called t call current
  exact called_served run _ call (mem_history.mp called)

theorem effects_served (run : (bucketMachine ι served).Reachable s log) :
    ∀ call ∈ (Mark.effects (history log)).map Prod.snd, served call = true := by
  intro call member
  obtain ⟨⟨c, call⟩, applied, rfl⟩ := List.mem_map.mp member
  have called := (effects_linearize (accounted_run run).timed).called c call applied
  exact called_served run c call (mem_history.mp called)

section Insertions
variable {t : ι}

omit [DecidableEq ι] in
theorem inserts_keeps {call : BucketCall Key Value} (inserts : call.inserts = true) {key : Key}
    {value : Value} {data : StdMap Key Value} (entry : data.lookup key = some value) :
    (call.atomically data).1.lookup key = some value := by
  cases call with
  | set other x => exact StdMap.lookup_emplace_hit other x entry
  | erase other => contradiction
  | getAndCreate other => exact StdMap.lookup_emplace_hit other default entry

theorem nobody_erases (run : (bucketMachine ι BucketCall.inserts).Reachable s log) {key : Key}
    {pos : WritePc} : (s.threads t).pc ≠ .erase key pos := by
  intro pc
  have served : BucketCall.inserts (.erase key : BucketCall Key Value) = true := by
    apply current_served run
    rw [pc]
    rfl
  contradiction

theorem insertions_spare (run : (bucketMachine ι BucketCall.inserts).Reachable s log) :
    (bucketMachine ι BucketCall.inserts).Reach (fun s _ a => s.SparesPending a) s log := by
  refine Machine.reach_mono ?_ run
  intro s log a run _
  unfold SparesPending
  split
  · rename_i key pc
    exact absurd pc (nobody_erases run)
  · trivial

theorem entry_stays (run : (bucketMachine ι BucketCall.inserts).Reachable s log) {key : Key}
    {node : Node Key} {value : Value} {s' : BucketThreads Key Value ι} {log' : List _}
    (entry : s.memory.find key = some node) (stored : s.memory.data.lookup key = some value)
    (later : (bucketMachine ι BucketCall.inserts).Continues s log s' log') :
    s'.memory.find key = some node ∧ s'.memory.data.lookup key = some value := by
  induction later with
  | refl => exact ⟨entry, stored⟩
  | @next s₁ s₂ log₁ a out before step ih =>
    obtain ⟨entry, stored⟩ := ih
    have reached := Machine.continues_reachable run before
    rcases move_memory (step_moves step).1 with same | ⟨_, ⟨other, x, same⟩ | ⟨other, pc, _⟩⟩
    · rw [same]
      exact ⟨entry, stored⟩
    · rw [same, BucketMemory.emplace_data]
      exact ⟨BucketMemory.find_emplace x entry, StdMap.lookup_emplace_hit other x stored⟩
    · exact absurd pc (nobody_erases reached)

/-- The order of the calls says what each of them has done, up to this moment: the
    calls are in it when they have returned and in real-time order, executed in it one
    by one they leave the map there is, and each reads what its `Reference` reads. -/
structure LinearizedBy (order : List ((ι × Nat) × BucketCall Key Value))
    (s : BucketThreads Key Value ι) (log : List (BucketEntry Key Value ι)) : Prop where
  realTime : Linearizes order (history log)
  map : s.memory.data = (flatMap Key Value).after (order.map Prod.snd)
  reads : ∀ c value, .read c value ∈ log → ∃ past call rest, order = past ++ (c, call) :: rest ∧
    value.isSome = true ∧
    value = (call.atomically ((flatMap Key Value).after (past.map Prod.snd))).2

/-- What a `GetAndCreate` returns in its place in an order of insertions is what is
    stored for its key at the end. -/
theorem reply_stays {past rest : List (BucketCall Key Value)} {key : Key}
    (inserts : ∀ call ∈ rest, call.inserts = true) :
    ((flatMap Key Value).after (past ++ .getAndCreate key :: rest)).lookup key =
      ((BucketCall.getAndCreate key).atomically ((flatMap Key Value).after past)).2 := by
  let data := (flatMap Key Value).after past
  have now : ((flatMap Key Value).after (past ++ [.getAndCreate key])).lookup key =
      some ((data.lookup key).getD default) := by
    rw [SequentialObject.after_append]
    exact StdMap.lookup_emplace data key default
  have later : ((flatMap Key Value).after (past ++ [.getAndCreate key] ++ rest)).lookup key =
      some ((data.lookup key).getD default) := by
    apply SequentialObject.after_keeps (o := flatMap Key Value)
      (I := fun m => m.lookup key = some ((data.lookup key).getD default)) _ rest now
    intro m call member entry
    exact inserts_keeps (inserts call member) entry
  rw [List.append_cons, later]
  exact (StdMap.lookup_emplace data key default).symm

theorem read_moves {s' : BucketThreads Key Value ι} {c : ι × Nat} {value : Option Value}
    (move : Move s t s' (some (.read c value))) : ∃ key pointer,
      (s.threads t).pc = .reference key pointer ∧ c = s.callId t ∧
        value = s.memory.read pointer := by
  cases move with
  | read pc => exact ⟨_, _, pc, rfl, rfl⟩

theorem read_now (run : (bucketMachine ι BucketCall.inserts).Reachable s log) {key : Key}
    {pointer : Option (Node Key)} (pc : (s.threads t).pc = .reference key pointer) :
    ∃ past rest, Mark.effects (history log) = past ++ (s.callId t, .getAndCreate key) :: rest ∧
      (s.memory.read pointer).isSome = true ∧ s.memory.read pointer =
        ((BucketCall.getAndCreate key).atomically
          ((flatMap Key Value).after (past.map Prod.snd))).2 := by
  have live := iterators_run (insertions_spare run)
  obtain ⟨entry, present⟩ := live t key pointer (by rw [pc]; rfl)
  have applied := (accounted_run run).recorded.applied t (.getAndCreate key)
    (by rw [BucketThread.caller, pc]; rfl) (by rw [BucketThread.caller, pc]; rfl)
  obtain ⟨past, rest, order⟩ := List.append_of_mem (Mark.mem_effects.mpr applied)
  have inserts : ∀ call ∈ rest.map Prod.snd, call.inserts = true := by
    intro call member
    apply effects_served run call
    rw [order, List.map_append, List.map_cons]
    exact List.mem_append_right _ (List.mem_cons_of_mem _ member)
  have stored : s.memory.read pointer = s.memory.data.lookup key := BucketMemory.read_found entry
  refine ⟨past, rest, order, ?_, ?_⟩
  · rw [stored, AList.lookup_isSome]
    apply BucketMemory.find_isSome.mp
    rw [entry]
    exact present
  · rw [stored, data_run run, order, List.map_append, List.map_cons]
    exact reply_stays inserts

theorem linearized_run (run : (bucketMachine ι BucketCall.inserts).Reachable s log) :
    LinearizedBy (Mark.effects (history log)) s log where
  realTime := effects_linearize (accounted_run run).timed
  map := data_run run
  reads := by
    refine Machine.reach_invariant (I := fun _ log => ∀ c value, .read c value ∈ log →
      ∃ past call rest, Mark.effects (history log) = past ++ (c, call) :: rest ∧
        value.isSome = true ∧
        value = (call.atomically ((flatMap Key Value).after (past.map Prod.snd))).2) ?_ ?_ run
    · intro c value member
      contradiction
    · intro s log a s' out run before _ step c value member
      rw [history_append, Mark.effects_append]
      rcases List.mem_append.mp member with earlier | now
      · obtain ⟨past, call, rest, order, reply⟩ := before c value earlier
        exact ⟨past, call, _, by rw [order, List.append_assoc, List.cons_append], reply⟩
      · have eq := Option.mem_toList.mp now
        subst eq
        obtain ⟨key, pointer, pc, rfl, rfl⟩ := read_moves (step_moves step).1
        obtain ⟨past, rest, order, reply⟩ := read_now run pc
        exact ⟨past, _, _, by rw [order, List.append_assoc, List.cons_append], reply⟩

/-- However the threads that call `Set` and `GetAndCreate` on a bucket interleave, the
    calls are linearizable, no entry is replaced, removed or duplicated, and no
    `Reference` is null. -/
theorem set_and_getAndCreate_linearizable
    (run : (bucketMachine ι BucketCall.inserts).Reachable s log) :
    (∃ order, LinearizedBy order s log) ∧ s.memory.data.keys.Nodup ∧
      (∀ t key pointer, (s.threads t).pc = .reference key pointer →
        pointer ≠ none ∧ s.memory.find key = pointer) ∧
      ∀ s' log', (bucketMachine ι BucketCall.inserts).Continues s log s' log' →
        ∀ key node value, s.memory.find key = some node →
          s.memory.data.lookup key = some value →
            s'.memory.find key = some node ∧ s'.memory.data.lookup key = some value := by
  refine ⟨⟨_, linearized_run run⟩, s.memory.data.keys_nodup, ?_, ?_⟩
  · intro t key pointer pc
    obtain ⟨entry, present⟩ := iterators_run (insertions_spare run) t key pointer (by rw [pc]; rfl)
    refine ⟨?_, entry⟩
    rintro rfl
    contradiction
  · intro s' log' later key node value entry stored
    exact entry_stays run entry stored later

/-- A `Set` of the same key falls between the locks of a `GetAndCreate` that has missed. -/
theorem raced_getAndCreate_linearizable : ∃ s log,
    (bucketMachine (Fin 2) (BucketCall.inserts : BucketCall Nat Nat → Bool)).Reachable s log ∧
    .read (0, 0) (some 7) ∈ log ∧ ∃ order, LinearizedBy order s log := by
  obtain ⟨s, log, run, read⟩ := Machine.reachable_of_exec
    (bucketMachine (Fin 2) (BucketCall.inserts : BucketCall Nat Nat → Bool))
    [.call 0 (.getAndCreate 1), .step 0, .step 0, .step 0, .call 1 (.set 1 7), .step 1, .step 1,
      .step 1, .step 0, .step 0, .step 0, .step 0, .step 0, .read 0]
    (fun _ log => .read (0, 0) (some 7) ∈ log) (by decide)
  exact ⟨s, log, run, read, (set_and_getAndCreate_linearizable run).1⟩

end Insertions

end BucketThreads

end MappedQueue
