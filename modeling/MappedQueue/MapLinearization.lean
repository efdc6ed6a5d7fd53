import MappedQueue.MapThreads

/-!
The threads of the whole `SafeUnorderedMap` beside one flat `std::map`. What a call
does and returns depends on what is stored for its key, and that is decided in one
bucket, so the orders of all the buckets merge into one order of the calls on one map.
-/
namespace MappedQueue
open Concurrency

section Keys
variable {Key Value : Type} [DecidableEq Key] [Inhabited Value] {data data' : StdMap Key Value}

theorem atomically_local (call : BucketCall Key Value)
    (same : data.lookup call.key = data'.lookup call.key) :
    (call.atomically data).1.lookup call.key = (call.atomically data').1.lookup call.key ∧
      (call.atomically data).2 = (call.atomically data').2 := by
  cases call with
  | set key value =>
    refine ⟨?_, rfl⟩
    have entry : data.lookup key = data'.lookup key := same
    change (data.emplace key value).lookup key = (data'.emplace key value).lookup key
    rw [StdMap.lookup_emplace, StdMap.lookup_emplace, entry]
  | erase key =>
    refine ⟨?_, rfl⟩
    change (AList.erase key data).lookup key = (AList.erase key data').lookup key
    rw [AList.lookup_erase, AList.lookup_erase]
  | getAndCreate key =>
    have entry : data.lookup key = data'.lookup key := same
    have stored :
        (data.emplace key default).lookup key = (data'.emplace key default).lookup key := by
      rw [StdMap.lookup_emplace, StdMap.lookup_emplace, entry]
    exact ⟨stored, stored⟩

theorem lookup_after_filter (calls : List (BucketCall Key Value))
    (kept : BucketCall Key Value → Bool) {key : Key}
    (own : ∀ call ∈ calls, call.key = key → kept call = true) :
    ((flatMap Key Value).after calls).lookup key =
      ((flatMap Key Value).after (calls.filter kept)).lookup key := by
  induction calls using List.reverseRecOn with
  | nil => rfl
  | append_singleton calls call ih =>
    have before := ih fun other member => own other (List.mem_append_left _ member)
    have here := own call (by simp)
    rw [List.filter_append, SequentialObject.after_append]
    change (call.atomically _).1.lookup key = _
    by_cases same : call.key = key
    · subst same
      rw [List.filter_cons_of_pos (here rfl), List.filter_nil, SequentialObject.after_append]
      exact (atomically_local call before).1
    · rw [SafeUnorderedMap.atomically_lookup_ne _ call (Ne.symm same), before]
      cases chosen : kept call with
      | false => simp [chosen]
      | true =>
        rw [List.filter_cons_of_pos chosen, List.filter_nil, SequentialObject.after_append]
        exact (SafeUnorderedMap.atomically_lookup_ne _ call (Ne.symm same)).symm

theorem called_of_mem {calls : List (BucketCall Key Value)} {key : Key}
    (member : key ∈ (flatMap Key Value).after calls) : ∃ call ∈ calls, call.key = key := by
  by_contra nobody
  have nothing : ((flatMap Key Value).after calls).lookup key = none := by
    rw [lookup_after_filter calls fun _ => false]
    · rw [List.filter_eq_nil_iff.mpr (by simp)]
      rfl
    · intro call called same
      exact absurd ⟨call, called, same⟩ nobody
  exact AList.lookup_eq_none.mp nothing member

end Keys

namespace MapThreads
variable {Key Value ι : Type} [DecidableEq Key] [DecidableEq ι] [Inhabited Value] {h : Hashing Key}
  {served : BucketCall Key Value → Bool} {s s' : MapThreads h Value ι} {log : Log h Value ι}

/-- No `Erase` takes away an entry that a `GetAndCreate` keeps an iterator to, while
    this is between its two locks. -/
def SparesPending (s : MapThreads h Value ι)
    (a : Fin h.numberOfBuckets × BucketAction Key Value ι) : Prop :=
  (s a.1).SparesPending a.2

instance [Fintype ι] (s : MapThreads h Value ι)
    (a : Fin h.numberOfBuckets × BucketAction Key Value ι) : Decidable (SparesPending s a) :=
  inferInstanceAs (Decidable ((s a.1).SparesPending a.2))

theorem bucket_run (run : (mapMachine ι h served).Reachable s log) (b : Fin h.numberOfBuckets) :
    (bucketMachine ι served).Reachable (s b) (Machine.component b log) :=
  Machine.reach_component (fun _ _ _ _ => True) (fun _ _ _ _ => trivial) run b

theorem bucket_spared (run : (mapMachine ι h served).Reach (fun s _ a => SparesPending s a) s log)
    (b : Fin h.numberOfBuckets) : (bucketMachine ι served).Reach
      (fun s _ a => s.SparesPending a) (s b) (Machine.component b log) := by
  refine Machine.reach_component (fun _ s _ a => s.SparesPending a) ?_ run b
  intro s log a spares
  exact spares

def ofBucket (b : Fin h.numberOfBuckets)
    (order : List ((Fin h.numberOfBuckets × (ι × Nat)) × BucketCall Key Value)) :
    List ((ι × Nat) × BucketCall Key Value) :=
  order.filterMap fun x => if x.1.1 = b then some (x.1.2, x.2) else none

def Placed (order : List ((Fin h.numberOfBuckets × (ι × Nat)) × BucketCall Key Value)) : Prop :=
  ∀ x ∈ order, h.bucket x.2.key = x.1.1

omit [DecidableEq Key] [DecidableEq ι] [Inhabited Value] in
theorem calls_ofBucket (b : Fin h.numberOfBuckets)
    {order : List ((Fin h.numberOfBuckets × (ι × Nat)) × BucketCall Key Value)}
    (placed : Placed order) : (ofBucket b order).map Prod.snd =
      (order.map Prod.snd).filter fun call => decide (h.bucket call.key = b) := by
  induction order with
  | nil => rfl
  | cons x order ih =>
    have rest := ih fun y member => placed y (List.mem_cons_of_mem _ member)
    have here := placed x List.mem_cons_self
    unfold ofBucket at rest ⊢
    by_cases own : x.1.1 = b
    · simp [own, here, rest]
    · simp [own, here, rest]

omit [DecidableEq ι] in
theorem lookup_after_bucket
    {order : List ((Fin h.numberOfBuckets × (ι × Nat)) × BucketCall Key Value)}
    (placed : Placed order) (key : Key) :
    ((flatMap Key Value).after (order.map Prod.snd)).lookup key =
      ((flatMap Key Value).after ((ofBucket (h.bucket key) order).map Prod.snd)).lookup key := by
  rw [calls_ofBucket _ placed]
  apply lookup_after_filter
  intro call _ same
  rw [same]
  exact decide_eq_true rfl

theorem called_action {s s' : BucketThreads Key Value ι} {a : BucketAction Key Value ι}
    {c : ι × Nat} {call : BucketCall Key Value}
    (step : (bucketMachine ι served).step s a = some (s', some (.mark (.called c call)))) :
    ∃ t, a = .call t call := by
  have idle : ∃ t other, a = .call t other := by
    cases a with
    | call t other => exact ⟨t, other, rfl⟩
    | step t =>
      change s.threadStep t = _ at step
      generalize entry : some (BucketEntry.mark (Mark.called c call)) = out at step
      cases BucketThreads.thread_moves step with
      | call pc => simp [BucketThreads.threadStep, pc] at step
      | _ => cases entry
    | read t =>
      change s.readStep t = _ at step
      unfold BucketThreads.readStep at step
      split at step <;> cases step
  obtain ⟨t, other, rfl⟩ := idle
  simp only [bucketMachine] at step
  split at step
  · unfold BucketThreads.callStep at step
    split at step
    · cases step
      exact ⟨t, rfl⟩
    · contradiction
  · contradiction

theorem called_placed (run : (mapMachine ι h served).Reachable s log) :
    ∀ b c call, (b, .mark (.called c call)) ∈ log → h.bucket call.key = b := by
  refine Machine.reach_invariant (I := fun _ log => ∀ b c call,
    (b, .mark (.called c call)) ∈ log → h.bucket call.key = b) ?_ ?_ run
  · intro b c call member
    contradiction
  · rintro s log ⟨d, a⟩ s' out _ before _ step b c call member
    rcases List.mem_append.mp member with earlier | now
    · exact before b c call earlier
    · obtain ⟨admitted, next, entry, moved, _, rfl⟩ := Machine.family_step step
      obtain ⟨x, rfl, same⟩ := Option.map_eq_some_iff.mp (Option.mem_toList.mp now)
      cases same
      obtain ⟨t, rfl⟩ := called_action moved
      exact admitted.1

theorem map_timed (run : (mapMachine ι h served).Reachable s log) :
    Whenever Timed (history log) := by
  apply timed_of_local
  intro b
  rw [history_component]
  exact (BucketThreads.accounted_run (bucket_run run b)).timed

theorem effects_placed (run : (mapMachine ι h served).Reachable s log) :
    Placed (Mark.effects (history log)) := by
  rintro ⟨⟨b, c⟩, call⟩ member
  have called := (effects_linearize (map_timed run)).called (b, c) call member
  exact called_placed run b c call (mem_history.mp called)

omit [DecidableEq Key] [DecidableEq ι] [Inhabited Value] in
theorem effects_ofBucket (b : Fin h.numberOfBuckets) (log : Log h Value ι) :
    Mark.effects (BucketThreads.history (Machine.component b log)) =
      ofBucket b (Mark.effects (history log)) := by
  rw [← history_component, Mark.effects_localTo]
  rfl

/-- The order of the calls says what each of them has done, up to this moment: the
    calls are in it when they have returned and in real-time order, executed in it one
    by one on one flat map they store for every key what its bucket stores, and each
    reads what its `Reference` reads. -/
structure LinearizedBy
    (order : List ((Fin h.numberOfBuckets × (ι × Nat)) × BucketCall Key Value))
    (s : MapThreads h Value ι) (log : Log h Value ι) : Prop where
  realTime : Linearizes order (history log)
  map : ∀ key, (s (h.bucket key)).memory.data.lookup key =
    ((flatMap Key Value).after (order.map Prod.snd)).lookup key
  reads : ∀ b c value, (b, .read c value) ∈ log → ∃ past call rest,
    order = past ++ ((b, c), call) :: rest ∧ value.isSome = true ∧
      value = (call.atomically ((flatMap Key Value).after (past.map Prod.snd))).2

omit [DecidableEq Key] [DecidableEq ι] [Inhabited Value] in
theorem ofBucket_split {b : Fin h.numberOfBuckets} {c : ι × Nat} {call : BucketCall Key Value}
    {order : List ((Fin h.numberOfBuckets × (ι × Nat)) × BucketCall Key Value)}
    {front back : List ((ι × Nat) × BucketCall Key Value)}
    (split : ofBucket b order = front ++ (c, call) :: back) :
    ∃ past rest, order = past ++ ((b, c), call) :: rest ∧ ofBucket b past = front := by
  obtain ⟨first, second, rfl, same, later⟩ := List.filterMap_eq_append_iff.mp split
  obtain ⟨between, x, rest, rfl, others, here, _⟩ := List.filterMap_eq_cons_iff.mp later
  simp only [Option.ite_none_right_eq_some, Option.some.injEq, Prod.mk.injEq] at here
  obtain ⟨rfl, rfl, rfl⟩ := here
  refine ⟨first ++ between, rest, by rw [List.append_assoc], ?_⟩
  unfold ofBucket
  rw [List.filterMap_append, same, List.filterMap_eq_nil_iff.mpr others, List.append_nil]

/-- Whatever the hash and the number of buckets, and however the threads interleave,
    the calls are linearizable to calls on one flat map, as long as the erasures spare
    what is pending, and no entry is in another bucket than its key hashes to. -/
theorem map_linearizable
    (run : (mapMachine ι h served).Reach (fun s _ a => SparesPending s a) s log) :
    (∃ order, LinearizedBy order s log) ∧
      ∀ b key, key ∈ (s b).memory.data → h.bucket key = b := by
  have reached := Machine.reach_reachable run
  have placed := effects_placed reached
  refine ⟨⟨Mark.effects (history log), effects_linearize (map_timed reached), ?_, ?_⟩, ?_⟩
  · intro key
    rw [BucketThreads.data_run (bucket_run reached (h.bucket key)), effects_ofBucket]
    exact (lookup_after_bucket placed key).symm
  · intro b c value member
    obtain ⟨front, call, back, split, present, reply⟩ :=
      (BucketThreads.spared_linearized (bucket_spared run b)).reads c value
        (Machine.mem_component.mpr member)
    rw [effects_ofBucket] at split
    obtain ⟨past, rest, order, rfl⟩ := ofBucket_split split
    refine ⟨past, call, rest, order, present, ?_⟩
    have here : h.bucket call.key = b := placed ((b, c), call) (by rw [order]; simp)
    have before : Placed past := by
      intro x earlier
      apply placed
      rw [order]
      exact List.mem_append_left _ earlier
    have stored := lookup_after_bucket before call.key
    rw [here] at stored
    rw [reply]
    exact (atomically_local call stored).2.symm
  · intro b key member
    rw [BucketThreads.data_run (bucket_run reached b), effects_ofBucket, calls_ofBucket b placed]
      at member
    obtain ⟨call, called, rfl⟩ := called_of_mem member
    exact of_decide_eq_true (List.mem_filter.mp called).2

/-- Keys by their parity, with a `Set` between the locks of a `GetAndCreate`, and a call
    to the other bucket while a `Reference` is in use. -/
theorem two_buckets_linearizable :
    let h : Hashing Nat := ⟨id, 2, by decide⟩
    ∃ s log, (mapMachine (Fin 2) h fun _ : BucketCall Nat Nat => true).Reach
        (fun s _ a => SparesPending s a) s log ∧
      (1, .read (0, 0) (some 7)) ∈ log ∧ (0, .mark (.applied (0, 0) (.set 2 9))) ∈ log ∧
      ∃ order, LinearizedBy order s log := by
  intro h
  obtain ⟨s, log, run, read, set⟩ := Machine.reach_of_exec
    (mapMachine (Fin 2) h fun _ : BucketCall Nat Nat => true) (fun s _ a => SparesPending s a)
    [(1, .call 0 (.getAndCreate 1)), (1, .step 0), (1, .step 0), (1, .step 0),
      (1, .call 1 (.set 1 7)), (1, .step 1), (1, .step 1), (1, .step 1), (0, .call 1 (.erase 2)),
      (1, .step 0), (1, .step 0), (0, .step 1), (0, .step 1), (0, .step 1), (1, .step 0),
      (1, .step 0), (1, .step 0), (0, .call 0 (.set 2 9)), (0, .step 0), (0, .step 0),
      (0, .step 0), (1, .read 0)]
    (fun _ log => (1, .read (0, 0) (some 7)) ∈ log ∧
      (0, .mark (.applied (0, 0) (.set 2 9))) ∈ log) (by decide +kernel)
  exact ⟨s, log, run, read, set, (map_linearizable run).1⟩

end MapThreads

end MappedQueue
