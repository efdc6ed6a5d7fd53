import MappedQueue.ConsumerRounds

/-!
Subscriptions on the bucketed map. No step of a pool ever replaces an entry of it,
so the entry that is there first stays: the listener, if `Subscribe` comes first, or
the null that a lookup has put there. Runs are followed in which the subscription of
a key finds no entry.
-/
namespace MappedQueue
open Concurrency

variable {Key Value Listener ι : Type} [DecidableEq Key]

def subscriptions (key : Key) (log : List (Entry Key Value Listener ι)) :
    List (Option Listener) :=
  log.filterMap fun x => match x with
    | .called _ (.subscribe key' listener) => if key' = key then some listener else none
    | _ => none

abbrev bucketed (Listener : Type) (Q : QueueTraits Key Value) (h : Hashing Key) :
    DefaultTraits Key Value Listener :=
  ⟨Q, SafeMapTraits Listener h⟩

variable {Q : QueueTraits Key Value} {h : Hashing Key}

namespace QueuePool

/-- The consumer is between the lookup for a node and its delivery to `listener`: the
    rest of the lookup returns this listener whatever is added meanwhile, or it has. -/
def Delivering (s : QueuePool (bucketed Listener Q h) ι) (listener : Listener)
    (node : QueueNode Key Value) : Prop :=
  match s.consumer.pc with
  | .getFromMap rest => s.consumer.node = node ∧
    rest.Keeps (fun map => SafeUnorderedMap.stored map node.key = some (some listener))
      (· = some listener)
  | .testListener found => s.consumer.node = node ∧ found = some listener
  | _ => False

/-- With a key subscribed once, the first outcome after any lookup of the key that
    starts after the subscription has returned is the delivery, or will be. -/
def TakesEffect (key : Key) (listener : Listener) (s : QueuePool (bucketed Listener Q h) ι)
    (log : List (Entry Key Value Listener ι)) : Prop :=
  subscriptions key log = [some listener] →
    ∀ before node after, log = before ++ .lookedUp node :: after → node.key = key →
      (∃ c, .returned c (.subscribe key (some listener)) ∈ before) → .stopRequested ∉ before →
      (outcomes after).head? = some (some listener, node) ∨
        outcomes after = [] ∧ s.Delivering listener node

/-- `AddToMap` for the key finds no entry for it. -/
def AddsFirst (key : Key) (s : QueuePool (bucketed Listener Q h) ι) :
    Action Key Value Listener ι → Prop
  | .client t =>
    match (s.clients t).pc with
    | .subscribe key' _ => key' = key → SafeUnorderedMap.stored s.map key = none
    | _ => True
  | _ => True

instance [DecidableEq Listener] (key : Key) (s : QueuePool (bucketed Listener Q h) ι)
    (a : Action Key Value Listener ι) : Decidable (AddsFirst key s a) := by
  rcases a with _ | t | _ | _ | _ | _
  case client =>
    dsimp only [AddsFirst]
    generalize (s.clients t).pc = pc
    rcases pc with ⟨⟩ <;> infer_instance
  all_goals exact isTrue trivial

structure Subscribed (key : Key) (listener : Listener) (s : QueuePool (bucketed Listener Q h) ι)
    (log : List (Entry Key Value Listener ι)) : Prop where
  lookup : ∀ rest, s.consumer.pc = .getFromMap rest →
    rest.Guarantees SafeUnorderedMap.NeverReplaces
  entry : ∀ c given, .returned c (.subscribe key given) ∈ log →
    SafeUnorderedMap.stored s.map key = some given
  delivery : ∀ before node after, log = before ++ .lookedUp node :: after → node.key = key →
    (∃ c, .returned c (.subscribe key (some listener)) ∈ before) →
    (outcomes after).head? = some (some listener, node) ∨
      outcomes after = [] ∧ s.Delivering listener node

section Steps
variable [DecidableEq ι] {s s' : QueuePool (bucketed Listener Q h) ι} {key : Key}
  {listener : Listener} {log : List (Entry Key Value Listener ι)}
  {out : Option (Entry Key Value Listener ι)} {a : Action Key Value Listener ι}

theorem client_never_replaces {t : ι} (move : ClientMove s t s' out) :
    SafeUnorderedMap.NeverReplaces s.map s'.map := by
  cases move with
  | subscribe pc => exact SafeUnorderedMap.set_never_replaces _ _ _
  | _ => exact fun _ _ entry => entry

theorem consumer_never_replaces {woken : Option ι} (move : ConsumerMove s woken s' out)
    (lookup : ∀ rest, s.consumer.pc = .getFromMap rest →
      rest.Guarantees SafeUnorderedMap.NeverReplaces) :
    SafeUnorderedMap.NeverReplaces s.map s'.map ∧
      ∀ rest, s'.consumer.pc = .getFromMap rest →
        rest.Guarantees SafeUnorderedMap.NeverReplaces := by
  have same : SafeUnorderedMap.NeverReplaces s.map s.map := fun _ _ entry => entry
  cases move with
  | lookup pc =>
    refine ⟨same, ?_⟩
    rintro rest ⟨⟩
    exact SafeUnorderedMap.getAndCreate_never_replaces _
  | mapSection pc =>
    cases lookup _ pc with
    | atomic change rest =>
      refine ⟨change s.map, ?_⟩
      rintro rest' ⟨⟩
      exact rest s.map
  | pop pc | miss pc =>
    refine ⟨same, ?_⟩
    rcases pc with ⟨_, rfl⟩ | ⟨_, rfl⟩ <;> simp
  | _ =>
    refine ⟨same, ?_⟩
    simp [consumerAt]

theorem step_never_replaces (step : s.step a = some (s', out))
    (lookup : ∀ rest, s.consumer.pc = .getFromMap rest →
      rest.Guarantees SafeUnorderedMap.NeverReplaces) :
    SafeUnorderedMap.NeverReplaces s.map s'.map ∧
      ∀ rest, s'.consumer.pc = .getFromMap rest →
        rest.Guarantees SafeUnorderedMap.NeverReplaces := by
  cases step_moves step with
  | client move => exact ⟨client_never_replaces move, by rwa [client_keeps_consumer move]⟩
  | consumer move => exact consumer_never_replaces move lookup
  | call | wakeProducer | wakeWaiter | wakeConsumer => exact ⟨fun _ _ entry => entry, lookup⟩

theorem step_returns_subscription {c : CallId ι} {given : Option Listener}
    (step : s.step a = some (s', some (.returned c (.subscribe key given))))
    (first : AddsFirst key s a) : SafeUnorderedMap.stored s'.map key = some given := by
  cases step_moves step with
  | client move =>
    cases move with
    | subscribe pc =>
      simp only [AddsFirst, pc, forall_const] at first
      exact SafeUnorderedMap.stored_set_first given first
  | consumer move => cases move

theorem consumer_delivers {woken : Option ι} {node : QueueNode Key Value}
    (move : ConsumerMove s woken s' out) (h : s.Delivering listener node)
    (entry : SafeUnorderedMap.stored s.map node.key = some (some listener)) :
    (outcomes out.toList).head? = some (some listener, node) ∨
      outcomes out.toList = [] ∧ s'.Delivering listener node := by
  cases move with
  | mapSection pc =>
    simp only [Delivering, pc] at h
    obtain ⟨same, keeps⟩ := h
    cases keeps with
    | atomic keep rest => exact Or.inr ⟨rfl, same, rest s.map entry⟩
  | mapReturn pc =>
    simp only [Delivering, pc] at h
    obtain ⟨same, keeps⟩ := h
    cases keeps with
    | ret result => exact Or.inr ⟨rfl, same, result⟩
  | consume pc =>
    simp only [Delivering, pc, Option.some.injEq] at h
    obtain ⟨rfl, rfl⟩ := h
    exact Or.inl rfl
  | unknownQueue pc => simp [Delivering, pc] at h
  | pop pc | miss pc => rcases pc with ⟨pc, _⟩ | ⟨pc, _⟩ <;> simp [Delivering, pc] at h
  | _ pc => simp [Delivering, pc] at h

theorem step_delivers {node : QueueNode Key Value} (step : s.step a = some (s', out))
    (h : s.Delivering listener node)
    (entry : SafeUnorderedMap.stored s.map node.key = some (some listener)) :
    (outcomes out.toList).head? = some (some listener, node) ∨
      outcomes out.toList = [] ∧ s'.Delivering listener node := by
  have stays : s'.consumer = s.consumer → s'.Delivering listener node := fun same => by
    rw [Delivering, same]
    exact h
  cases step_moves step with
  | client move =>
    exact Or.inr ⟨client_writes_no_outcome move, stays (client_keeps_consumer move)⟩
  | consumer move => exact consumer_delivers move h entry
  | call => exact Or.inr ⟨rfl, stays rfl⟩
  | wakeProducer | wakeWaiter | wakeConsumer => exact Or.inr ⟨rfl, stays rfl⟩

theorem lookup_starts_delivery {node : QueueNode Key Value}
    (step : s.step a = some (s', some (.lookedUp node))) : s'.Delivering listener node := by
  cases step_moves step with
  | client move => cases move
  | consumer move =>
    cases move with
    | lookup pc => exact ⟨rfl, SafeUnorderedMap.getAndCreate_hits _ _⟩

theorem subscribed_step (inv : Subscribed key listener s log) (first : AddsFirst key s a)
    (step : s.step a = some (s', out)) : Subscribed key listener s' (log ++ out.toList) := by
  obtain ⟨keeps, lookup⟩ := step_never_replaces step inv.lookup
  constructor
  · exact lookup
  · intro c given returned
    rcases List.mem_append.mp returned with earlier | now
    · exact keeps key given (inv.entry c given earlier)
    · obtain rfl := Option.mem_toList.mp now
      exact step_returns_subscription step first
  · intro before node after parts same subscribed
    subst same
    obtain ⟨c, returned⟩ := subscribed
    rcases append_toList_split parts with ⟨rfl, rfl, rfl⟩ | ⟨rest, rfl, earlier⟩
    · exact Or.inr ⟨rfl, lookup_starts_delivery step⟩
    · rw [outcomes_append]
      rcases inv.delivery before node rest earlier rfl ⟨c, returned⟩ with done | ⟨nothing, underWay⟩
      · exact Or.inl (by simp [done])
      · have entry := inv.entry c _ (earlier ▸ List.mem_append_left _ returned)
        simpa [nothing] using step_delivers step underWay entry

end Steps

end QueuePool

section Runs
variable [DecidableEq ι] {sign : Option (SignConsumerFinished ι)} {junk : QueueNode Key Value}
  {s : QueuePool (bucketed Listener Q h) ι} {log : List (Entry Key Value Listener ι)}

theorem subscription_takes_effect (key : Key) (listener : Listener)
    (run : (poolMachine (bucketed Listener Q h) sign junk).Reach
      (fun s _ a => QueuePool.AddsFirst key s a) s log) :
    QueuePool.TakesEffect key listener s log := by
  have inv : QueuePool.Subscribed key listener s log := by
    refine Machine.reach_invariant ?_ ?_ run
    · exact ⟨by simp [poolMachine, QueuePool.create], by simp, by simp⟩
    · intro s log a s' out _ inv first step
      exact QueuePool.subscribed_step inv first step
  intro _ before node after parts same returned _
  exact inv.delivery before node after parts same returned

end Runs

section Schedules
open QueuePool

abbrev bucketedPool : Machine
    (QueuePool (bucketed Nat (QueueWithMutexTraits Nat Nat 1) ⟨id, 256, by decide⟩) (Fin 1))
    (Action Nat Nat Nat (Fin 1)) (Entry Nat Nat Nat (Fin 1)) :=
  poolMachine _ none ⟨0, 0⟩

theorem subscribed_key_is_delivered :
    ∃ s log, bucketedPool.Reach (fun s _ a => AddsFirst 1 s a) s log ∧
      (subscriptions 1 log = [some 7] ∧ .lookedUp ⟨1, 10⟩ ∈ log) ∧ TakesEffect 1 7 s log := by
  obtain ⟨s, log, run, looked⟩ := Machine.reach_of_exec bucketedPool (fun s _ a => AddsFirst 1 s a)
    [.call 0 (.subscribe 1 (some 7)), .client 0, .call 0 (.enqueue ⟨1, 10⟩), .client 0,
      .consumer none, .consumer none, .consumer none, .consumer none, .consumer none,
      .consumer none]
    (fun _ log => subscriptions 1 log = [some 7] ∧ .lookedUp ⟨1, 10⟩ ∈ log) (by decide)
  exact ⟨s, log, run, looked, subscription_takes_effect 1 7 run⟩

/-- An element that comes before the subscription of its key makes the key unknown
    for good. -/
theorem early_lookup_voids_subscription :
    ∃ s log, bucketedPool.Reachable s log ∧ subscriptions 1 log = [some 7] ∧
      ¬ TakesEffect 1 7 s log := by
  obtain ⟨s, log, run, subscribed, rfl⟩ := Machine.reachable_of_exec bucketedPool
    [.call 0 (.enqueue ⟨1, 10⟩), .client 0, .client 0, .consumer none, .consumer none,
      .consumer none, .consumer none, .consumer none, .consumer none, .consumer none,
      .consumer none, .consumer none, .consumer none, .consumer none,
      .call 0 (.subscribe 1 (some 7)), .client 0, .call 0 (.enqueue ⟨1, 20⟩), .client 0, .client 0,
      .consumer none, .consumer none, .consumer none, .consumer none, .consumer none,
      .consumer none, .consumer none]
    (fun _ log => subscriptions 1 log = [some 7] ∧ log =
      [.called (0, 0) (.enqueue ⟨1, 10⟩), .pushed (0, 0) ⟨1, 10⟩, .returned (0, 0) (.enqueue ⟨1, 10⟩),
        .dequeueCalled, .popped ⟨1, 10⟩, .lookedUp ⟨1, 10⟩, .unknownQueue ⟨1, 10⟩,
        .called (0, 1) (.subscribe 1 (some 7)), .returned (0, 1) (.subscribe 1 (some 7)),
        .called (0, 2) (.enqueue ⟨1, 20⟩), .pushed (0, 2) ⟨1, 20⟩, .returned (0, 2) (.enqueue ⟨1, 20⟩),
        .dequeueCalled, .popped ⟨1, 20⟩] ++ .lookedUp ⟨1, 20⟩ :: [.unknownQueue ⟨1, 20⟩])
    (by decide)
  refine ⟨s, _, run, subscribed, fun effect => ?_⟩
  have outcome := effect subscribed _ _ _ rfl rfl ⟨(0, 1), by simp⟩ (by simp)
  simp [outcomes, Entry.outcome?] at outcome

end Schedules

end MappedQueue
