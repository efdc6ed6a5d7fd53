import Mathlib.Data.Fintype.Card
import MappedQueue.Locking
import MappedQueue.MutexHolders
import MappedQueue.ReferenceLifetime

/-!
The order in which the threads of a pool take its mutexes. Those of the conditions and
of the event are taken by a thread that holds none, those of the queue and the map
possibly under one of them and given up after one access. So all threads go up from
the former to the latter, and a `Consume` begins with none of them held.
-/
namespace MappedQueue
open Concurrency

variable {Key Value Listener ι : Type}

/-- The mutexes of queue and map come after those of the conditions and of the event. -/
def Mutex.isInner : Mutex → Bool
  | .queueMutex => true
  | .mapMutex _ => true
  | _ => false

namespace LockedPool
variable {T : LockedTraits Key Value Listener} {thrd : ι} {s s' : LockedPool T ι}

/-- Every mutex of queue or map that is held is one that its holder needs for its next
    step. A listener's calls are made from inside a `Consume`. -/
structure Disciplined (thrd : ι) (s : LockedPool T ι) : Prop where
  pool : s.pool.HeldInside
  inner : ∀ held ∈ s.inner, ∃ a, s.demand thrd a = some held
  callback : (s.pool.clients thrd).pc ≠ .idle → s.pool.consumer.pc.isConsuming = true

structure Unlocked (s : LockedPool T ι) (t : ι) : Prop where
  conditEnqueue : (s.pool.clients t).pc.holdsConditEnqueue = false
  mutx : (s.pool.clients t).pc.holdsMutx = false
  demand : T.clientDemand (s.pool.clients t).pc = none

structure ConsumerUnlocked (s : LockedPool T ι) : Prop where
  conditConsume : s.pool.consumer.pc.holdsMutex = false
  demand : T.consumerDemand s.pool.consumer s.sections = none

theorem consuming_unlocked (consuming : s.pool.consumer.pc.isConsuming = true) :
    s.ConsumerUnlocked := by
  cases pc : s.pool.consumer.pc with
  | consuming listener => exact ⟨by rw [pc]; rfl, by simp [LockedTraits.consumerDemand, pc]⟩
  | _ => simp [pc, ConsumerPc.isConsuming] at consuming

theorem idle_unlocked {t : ι} (idle : (s.pool.clients t).pc = .idle) : s.Unlocked t :=
  ⟨by rw [idle]; rfl, by rw [idle]; rfl, by rw [idle]; rfl⟩

theorem busy_unlocked {t : ι} (h : s.Disciplined thrd) (busy : (s.pool.clients t).pc ≠ .idle)
    (own : t = thrd) : s.ConsumerUnlocked := by
  subst own
  exact consuming_unlocked (h.callback busy)

theorem client_excludes_consumer {u w} {held held' : ι × Mutex × HoldMode}
    (h : s.Disciplined thrd) (client : s.demand thrd (.client u) = some held)
    (consumer : s.demand thrd (.consumer w) = some held') : held.1 ≠ held'.1 := by
  obtain ⟨need, there, rfl⟩ := Option.map_eq_some_iff.mp client
  obtain ⟨need', there', rfl⟩ := Option.map_eq_some_iff.mp consumer
  intro own
  have busy : (s.pool.clients u).pc ≠ .idle := by
    intro idle
    simp [idle, LockedTraits.clientDemand] at there
  simp [(busy_unlocked h busy own).demand] at there'

theorem needs_one {a b : QueuePool.Action Key Value Listener ι} {held held' : ι × Mutex × HoldMode}
    (h : s.Disciplined thrd) (need : s.demand thrd a = some held)
    (need' : s.demand thrd b = some held') (same : held.1 = held'.1) : held = held' := by
  cases a with
  | client u =>
    cases b with
    | client v =>
      obtain ⟨first, there, rfl⟩ := Option.map_eq_some_iff.mp need
      obtain ⟨second, there', rfl⟩ := Option.map_eq_some_iff.mp need'
      obtain rfl : u = v := same
      exact Option.some.inj (need.symm.trans need')
    | consumer w => exact absurd same (client_excludes_consumer h need need')
    | _ => simp [demand] at need'
  | consumer w =>
    cases b with
    | client v => exact absurd same.symm (client_excludes_consumer h need' need)
    | consumer w' => exact Option.some.inj (need.symm.trans need')
    | _ => simp [demand] at need'
  | _ => simp [demand] at need

theorem empty_handed {t : ι} (h : s.Disciplined thrd) (client : s.Unlocked t)
    (own : t = thrd → s.ConsumerUnlocked) (mutex : Mutex) : ¬ s.Holds thrd t mutex := by
  have inner : ∀ mode, (t, mutex, mode) ∉ s.inner := by
    intro mode member
    obtain ⟨a, need⟩ := h.inner _ member
    cases a with
    | client u =>
      obtain ⟨need', there, same⟩ := Option.map_eq_some_iff.mp need
      cases same
      simp [client.demand] at there
    | consumer w =>
      obtain ⟨need', there, same⟩ := Option.map_eq_some_iff.mp need
      cases same
      simp [(own rfl).demand] at there
    | _ => simp [demand] at need
  intro holds
  cases mutex with
  | conditConsumeMutex =>
    obtain ⟨same, held⟩ := holds
    rw [h.pool.consume, (own same).conditConsume] at held
    contradiction
  | conditEnqueueMutex => simpa [client.conditEnqueue] using h.pool.enqueue t holds
  | mutx =>
    obtain ⟨sign, pointer, held⟩ := holds
    have stands := h.pool.event t (by simp [QueuePool.mutx, pointer, held])
    simp [client.mutx] at stands
  | queueMutex | mapMutex =>
    obtain ⟨mode, member⟩ := holds
    exact inner mode member

variable [DecidableEq ι] {a : QueuePool.Action Key Value Listener ι}
  {out : Option (Entry Key Value Listener ι)}

/-- A step of the locked pool acquires a mutex and does nothing else, or is a step of the
    pool, after which the mutex it needed is released. -/
inductive LockedMove (thrd : ι) (s : LockedPool T ι) (a : QueuePool.Action Key Value Listener ι) :
    LockedPool T ι → Option (Entry Key Value Listener ι) → Prop where
  | acquire {held} (may : s.mayStep thrd a = true) (need : s.demand thrd a = some held)
      (missing : held ∉ s.inner) (free : s.isFree held.2.1 held.2.2 = true) :
      LockedMove thrd s a { s with inner := held :: s.inner } none
  | plain {pool out} (may : s.mayStep thrd a = true) (need : s.demand thrd a = none)
      (inside : s.pool.step a = some (pool, out)) :
      LockedMove thrd s a ⟨pool, s.inner, s.sectionsAfter a⟩ out
  | locked {held pool out} (may : s.mayStep thrd a = true) (need : s.demand thrd a = some held)
      (got : held ∈ s.inner) (inside : s.pool.step a = some (pool, out)) :
      LockedMove thrd s a ⟨pool, s.inner.filter fun other => other ≠ held, s.sectionsAfter a⟩ out

theorem access_steps {inner : List (ι × Mutex × HoldMode)}
    (h : s.access a inner = some (s', out)) :
    ∃ pool, s.pool.step a = some (pool, out) ∧ s' = ⟨pool, inner, s.sectionsAfter a⟩ := by
  unfold access at h
  split at h <;> cases h
  exact ⟨_, ‹_›, rfl⟩

theorem locked_moves (h : s.step thrd a = some (s', out)) : LockedMove thrd s a s' out := by
  unfold step at h
  split at h
  · rename_i may
    split at h
    · obtain ⟨pool, inside, rfl⟩ := access_steps h
      exact LockedMove.plain may ‹_› inside
    · rename_i need
      split at h
      · obtain ⟨pool, inside, rfl⟩ := access_steps h
        exact LockedMove.locked may need ‹_› inside
      · split at h <;> cases h
        exact LockedMove.acquire may need ‹_› ‹_›
  · contradiction

theorem demand_kept {b : QueuePool.Action Key Value Listener ι} {held : ι × Mutex × HoldMode}
    {pool : QueuePool T.pool ι} (inner : List (ι × Mutex × HoldMode))
    (inside : s.pool.step a = some (pool, out)) (need : s.demand thrd b = some held)
    (moved : s.demand thrd a ≠ some held) :
    (⟨pool, inner, s.sectionsAfter a⟩ : LockedPool T ι).demand thrd b = some held := by
  cases b with
  | client u =>
    obtain ⟨need', there, rfl⟩ := Option.map_eq_some_iff.mp need
    have same : pool.clients u = s.pool.clients u := by
      cases QueuePool.step_moves inside with
      | @client t _ _ move =>
        refine (QueuePool.client_keeps_others move ?_).1
        rintro rfl
        exact moved need
      | consumer move => rw [QueuePool.consumer_keeps_clients move]
      | @call t call pc alive =>
        refine Function.update_of_ne ?_ ..
        rintro rfl
        simp [pc, LockedTraits.clientDemand] at there
      | wakeProducer | wakeWaiter | wakeConsumer => rfl
    simp [demand, same, there]
  | consumer w =>
    obtain ⟨need', there, rfl⟩ := Option.map_eq_some_iff.mp need
    cases QueuePool.step_moves inside with
    | client move =>
      simp [demand, QueuePool.client_keeps_consumer move, sectionsAfter, there]
    | consumer move => exact absurd need moved
    | call | wakeProducer | wakeWaiter | wakeConsumer => exact need
  | _ => simp [demand] at need

theorem inner_step (h : ∀ held ∈ s.inner, ∃ b, s.demand thrd b = some held)
    (move : LockedMove thrd s a s' out) :
    ∀ held ∈ s'.inner, ∃ b, s'.demand thrd b = some held := by
  intro held member
  cases move with
  | acquire may need missing free =>
    rcases List.mem_cons.mp member with rfl | earlier
    · exact ⟨a, need⟩
    · exact h held earlier
  | plain may need inside =>
    obtain ⟨b, there⟩ := h held member
    exact ⟨b, demand_kept _ inside there (by simp [need])⟩
  | @locked released pool _ may need got inside =>
    obtain ⟨earlier, other⟩ := List.mem_filter.mp member
    obtain ⟨b, there⟩ := h held earlier
    refine ⟨b, demand_kept _ inside there ?_⟩
    intro same
    obtain rfl := Option.some.inj (need.symm.trans same)
    simp at other

theorem pool_step (move : LockedMove thrd s a s' out) :
    s'.pool = s.pool ∧ out = none ∨
      s.mayStep thrd a = true ∧ s.pool.step a = some (s'.pool, out) := by
  cases move with
  | acquire => exact Or.inl ⟨rfl, rfl⟩
  | plain may need inside => exact Or.inr ⟨may, inside⟩
  | locked may need holds inside => exact Or.inr ⟨may, inside⟩

theorem callback_step {pool : QueuePool T.pool ι}
    (h : (s.pool.clients thrd).pc ≠ .idle → s.pool.consumer.pc.isConsuming = true)
    (may : s.mayStep thrd a = true) (inside : s.pool.step a = some (pool, out)) :
    (pool.clients thrd).pc ≠ .idle → pool.consumer.pc.isConsuming = true := by
  intro busy
  cases QueuePool.step_moves inside with
  | @client t _ _ move =>
    rw [QueuePool.client_keeps_consumer move]
    refine h ?_
    by_cases own : thrd = t
    · subst own
      cases move <;> simp_all
    · rwa [← (QueuePool.client_keeps_others move own).1]
  | consumer move =>
    rw [QueuePool.consumer_keeps_clients move] at busy
    rw [mayStep, h busy, Bool.not_true, Bool.false_or, QueuePool.isIdle_iff] at may
    contradiction
  | @call t call pc alive =>
    by_cases own : thrd = t
    · subst own
      simpa [mayStep] using may
    · have same : (s.pool.goto t (QueuePool.entrance call)).clients thrd = s.pool.clients thrd :=
        Function.update_of_ne own ..
      exact h (same ▸ busy)
  | wakeProducer | wakeWaiter | wakeConsumer => exact h busy

theorem trying_consumer_unlocked {t : ι} (tries : s.Tries thrd t .conditConsumeMutex) :
    s.ConsumerUnlocked ∧ s.pool.consumer.pc.isConsuming = false := by
  obtain ⟨_, pc | ⟨pc, _⟩⟩ := tries
  all_goals exact ⟨⟨by rw [pc]; rfl, by simp [LockedTraits.consumerDemand, pc]⟩, by rw [pc]; rfl⟩

theorem trying_client_unlocked {t : ι} {mutex : Mutex}
    (client : mutex = .conditEnqueueMutex ∨ mutex = .mutx) (tries : s.Tries thrd t mutex) :
    s.Unlocked t ∧ (s.pool.clients t).pc ≠ .idle := by
  rcases client with rfl | rfl
  · obtain ⟨node, pc | ⟨pc, _⟩⟩ := tries
    all_goals exact ⟨⟨by rw [pc]; rfl, by rw [pc]; rfl, by rw [pc]; rfl⟩, by simp [pc]⟩
  · obtain ⟨sign, call, _, pc | ⟨pc, _⟩⟩ := tries
    all_goals exact ⟨⟨by rw [pc]; rfl, by rw [pc]; rfl, by rw [pc]; rfl⟩, by simp [pc]⟩

theorem goes_up (h : s.Disciplined thrd) :
    GoesUp Mutex.isInner (s.Tries thrd) (s.Holds thrd) := by
  intro t wanted held tries holds
  cases wanted with
  | conditConsumeMutex =>
    obtain ⟨consumer, elsewhere⟩ := trying_consumer_unlocked tries
    have idle : (s.pool.clients thrd).pc = .idle := by
      by_contra busy
      simp [h.callback busy] at elsewhere
    obtain ⟨rfl, _⟩ := tries
    exact absurd holds (empty_handed h (idle_unlocked idle) (fun _ => consumer) held)
  | conditEnqueueMutex =>
    obtain ⟨client, busy⟩ := trying_client_unlocked (Or.inl rfl) tries
    exact absurd holds (empty_handed h client (busy_unlocked h busy) held)
  | mutx =>
    obtain ⟨client, busy⟩ := trying_client_unlocked (Or.inr rfl) tries
    exact absurd holds (empty_handed h client (busy_unlocked h busy) held)
  | queueMutex | mapMutex =>
    obtain ⟨a, mode, need, missing⟩ := tries
    cases held with
    | conditConsumeMutex | conditEnqueueMutex | mutx => exact Bool.false_lt_true
    | queueMutex | mapMutex =>
      obtain ⟨mode', member⟩ := holds
      obtain ⟨b, need'⟩ := h.inner _ member
      have same := needs_one h need need' rfl
      exact absurd (same ▸ member) missing

def IsStepOf (thrd t : ι) : QueuePool.Action Key Value Listener ι → Prop
  | .client u => u = t
  | .consumer _ => thrd = t
  | _ => False

theorem demand_mayStep {held : ι × Mutex × HoldMode} (need : s.demand thrd a = some held) :
    s.mayStep thrd a = true ∧ IsStepOf thrd held.1 a := by
  cases a with
  | client u =>
    obtain ⟨need', _, rfl⟩ := Option.map_eq_some_iff.mp need
    exact ⟨rfl, rfl⟩
  | consumer w =>
    obtain ⟨need', there, rfl⟩ := Option.map_eq_some_iff.mp need
    cases consuming : s.pool.consumer.pc.isConsuming with
    | true => simp [(consuming_unlocked consuming).demand] at there
    | false => exact ⟨by simp [mayStep, consuming], rfl⟩
  | _ => simp [demand] at need

omit [DecidableEq ι] in
theorem taken_of_not_free {mutex : Mutex} {mode : HoldMode}
    (taken : s.isFree mutex mode = false) : ∃ u mode', (u, mutex, mode') ∈ s.inner := by
  cases mode with
  | exclusive =>
    obtain ⟨held, member, same⟩ := List.all_eq_false.mp taken
    obtain ⟨u, mutex', mode'⟩ := held
    obtain rfl : mutex' = mutex := by simpa using same
    exact ⟨u, mode', member⟩
  | shared =>
    obtain ⟨held, member, same⟩ := List.all_eq_false.mp taken
    obtain ⟨u, mutex', mode'⟩ := held
    obtain ⟨rfl, _⟩ : mutex' = mutex ∧ mode' ≠ .shared := by simpa using same
    exact ⟨u, mode', member⟩

theorem refused_by_pool (may : s.mayStep thrd a = true) (need : s.demand thrd a = none)
    (refused : s.step thrd a = none) : s.pool.step a = none := by
  cases inside : s.pool.step a with
  | none => rfl
  | some next => simp [step, may, need, access, inside] at refused

theorem refused_client {t : ι} {mutex : Mutex}
    (client : mutex = .conditEnqueueMutex ∨ mutex = .mutx) (tries : s.Tries thrd t mutex)
    (refused : ∀ a, IsStepOf thrd t a → s.step thrd a = none) : s.pool.clientStep t = none := by
  have unlocked := (trying_client_unlocked client tries).1
  refine refused_by_pool (a := .client t) rfl ?_ (refused (.client t) rfl)
  simp [demand, unlocked.demand]

theorem refused_waits {t : ι} {mutex : Mutex} (tries : s.Tries thrd t mutex)
    (refused : ∀ a, IsStepOf thrd t a → s.step thrd a = none) :
    ∃ u, WaitsFor (s.Tries thrd) (s.Holds thrd) t u := by
  have inner : (∃ a mode, s.demand thrd a = some (t, mutex, mode) ∧ (t, mutex, mode) ∉ s.inner) →
      ∃ u mode, (u, mutex, mode) ∈ s.inner := by
    rintro ⟨a, mode, need, missing⟩
    obtain ⟨may, own⟩ := demand_mayStep need
    have stuck := refused a own
    have taken : s.isFree mutex mode = false := by simpa [step, may, need, missing] using stuck
    exact taken_of_not_free taken
  cases mutex with
  | conditConsumeMutex =>
    obtain ⟨consumer, elsewhere⟩ := trying_consumer_unlocked tries
    have may : s.mayStep thrd (.consumer none) = true := by simp [mayStep, elsewhere]
    have need : s.demand thrd (.consumer none) = none := by simp [demand, consumer.demand]
    obtain ⟨own, pc⟩ := id tries
    have stuck := refused_by_pool may need (refused (.consumer none) own.symm)
    have held : s.pool.conditConsumeMutex = true := by
      rcases pc with pc | ⟨pc, awake⟩
      · simpa [QueuePool.step, QueuePool.consumerStep, pc] using stuck
      · simpa [QueuePool.step, QueuePool.consumerStep, pc, awake] using stuck
    exact ⟨thrd, _, tries, rfl, held⟩
  | conditEnqueueMutex =>
    have stuck := refused_client (Or.inl rfl) tries refused
    obtain ⟨node, pc⟩ := id tries
    have held : s.pool.conditEnqueueMutex ≠ none := by
      intro free
      rcases pc with pc | ⟨pc, awake⟩
      · simp [QueuePool.clientStep, QueuePool.enqueueStep, pc, free] at stuck
      · simp [QueuePool.clientStep, QueuePool.enqueueStep, pc, free, awake] at stuck
    obtain ⟨u, there⟩ := Option.ne_none_iff_exists'.mp held
    exact ⟨u, _, tries, there⟩
  | mutx =>
    have stuck := refused_client (Or.inr rfl) tries refused
    obtain ⟨sign, call, pointer, pc⟩ := id tries
    have held : sign.event.mutx ≠ none := by
      intro free
      rcases pc with pc | ⟨pc, awake⟩
      · simp [QueuePool.clientStep, QueuePool.finishStep, pc, pointer, Event.waitStep, free] at stuck
      · simp [QueuePool.clientStep, QueuePool.finishStep, pc, pointer, Event.waitStep, free,
          awake] at stuck
    obtain ⟨u, there⟩ := Option.ne_none_iff_exists'.mp held
    exact ⟨u, _, tries, sign, pointer, there⟩
  | queueMutex | mapMutex =>
    obtain ⟨u, mode, member⟩ := inner tries
    exact ⟨u, _, tries, mode, member⟩

def Apart (inner : List (ι × Mutex × HoldMode)) : Prop :=
  inner.Pairwise fun held held' =>
    held.2.1 = held'.2.1 → held.2.2 = .shared ∧ held'.2.2 = .shared

theorem apart_step (h : Apart s.inner) (move : LockedMove thrd s a s' out) : Apart s'.inner := by
  cases move with
  | @acquire held may need missing free =>
    obtain ⟨t, mutex, mode⟩ := held
    refine List.pairwise_cons.mpr ⟨?_, h⟩
    intro other member same
    cases mode with
    | exclusive =>
      have apart := List.all_eq_true.mp free other member
      simp [← same] at apart
    | shared =>
      have apart := List.all_eq_true.mp free other member
      exact ⟨rfl, by simpa [← same] using apart⟩
  | plain => exact h
  | locked => exact h.filter _

end LockedPool

section Runs
variable [DecidableEq ι] {T : LockedTraits Key Value Listener} {thrd : ι} {signed : Bool}
  {junk : QueueNode Key Value} {s : LockedPool T ι} {log : List (Entry Key Value Listener ι)}

/-- The mutexes inside queue and map restrict the schedules of a pool and add nothing. -/
theorem locked_run_is_pool_run (run : (lockedMachine T thrd signed junk).Reachable s log) :
    (poolMachine T.pool (if signed then some SignConsumerFinished.create else none) junk).Reachable
      s.pool log := by
  induction run with
  | init => exact Machine.Reach.init
  | next before allowed step ih =>
    rcases LockedPool.pool_step (LockedPool.locked_moves step) with ⟨same, silent⟩ | ⟨_, inside⟩
    · rw [same, silent, Option.toList_none, List.append_nil]
      exact ih
    · exact Machine.Reach.next ih trivial inside

theorem disciplined_run (run : (lockedMachine T thrd signed junk).Reachable s log) :
    s.Disciplined thrd := by
  constructor
  · refine QueuePool.held_run ?_ (locked_run_is_pool_run run)
    cases signed <;> rfl
  · refine Machine.reach_invariant
      (I := fun s _ => ∀ held ∈ s.inner, ∃ a, s.demand thrd a = some held) ?_ ?_ run
    · intro held member
      simp [lockedMachine, LockedPool.create] at member
    · intro s log a s' out _ h _ step
      exact LockedPool.inner_step h (LockedPool.locked_moves step)
  · refine Machine.reach_invariant (I := fun s _ =>
      (s.pool.clients thrd).pc ≠ .idle → s.pool.consumer.pc.isConsuming = true) ?_ ?_ run
    · intro busy
      exact absurd rfl busy
    · intro s log a s' out _ h _ step
      rcases LockedPool.pool_step (LockedPool.locked_moves step) with ⟨same, _⟩ | ⟨may, inside⟩
      · rwa [same]
      · exact LockedPool.callback_step h may inside

theorem apart_run (run : (lockedMachine T thrd signed junk).Reachable s log) :
    LockedPool.Apart s.inner := by
  refine Machine.reach_invariant (I := fun s _ => LockedPool.Apart s.inner) ?_ ?_ run
  · exact List.Pairwise.nil
  · intro s log a s' out _ h _ step
    exact LockedPool.apart_step h (LockedPool.locked_moves step)

/-- What the consumer thread holds during a `Consume` a call of the listener has taken. No
    thread tries for a mutex it holds, one inside `GetAndCreate` with its own unlocking and
    relocking included, and no threads wait in a circle. -/
theorem no_mutex_deadlock [DecidableEq Key]
    (run : (lockedMachine T thrd signed junk).Reachable s log) :
    (s.pool.consumer.pc.isConsuming = true → ∀ mutex, s.Holds thrd thrd mutex →
      (s.pool.clients thrd).pc ≠ .idle ∧ mutex ≠ .conditConsumeMutex) ∧
    (∀ t mutex, s.Tries thrd t mutex → ¬ s.Holds thrd t mutex) ∧
    (∀ t, ¬ Relation.TransGen (WaitsFor (s.Tries thrd) (s.Holds thrd)) t t) ∧
    ∀ (served : BucketCall Key (Option Listener) → Bool) bucket calls,
      (bucketMachine ι served).Reachable bucket calls →
      ∀ t, (bucket.threads t).pc.wants ≠ none → bucket.mutex.mode t = none := by
  have disciplined := disciplined_run run
  have order := LockedPool.goes_up disciplined
  refine ⟨?_, fun t mutex tries => no_second_acquisition order tries, no_waiting_circle order,
    fun _ _ _ calling _ wants => BucketThreads.wants_unheld (BucketThreads.held_run calling) wants⟩
  intro consuming mutex holds
  have consumer := LockedPool.consuming_unlocked consuming
  constructor
  · intro idle
    exact LockedPool.empty_handed disciplined (LockedPool.idle_unlocked idle) (fun _ => consumer)
      mutex holds
  · rintro rfl
    have held := holds.2
    rw [disciplined.pool.consume, consumer.conditConsume] at held
    contradiction

theorem waiting_ends_at_unhindered (run : (lockedMachine T thrd signed junk).Reachable s log)
    (t : ι) : ∃ u, Relation.ReflTransGen (WaitsFor (s.Tries thrd) (s.Holds thrd)) t u ∧
      ∀ mutex, s.Tries thrd u mutex → ∃ a, LockedPool.IsStepOf thrd u a ∧ s.step thrd a ≠ none := by
  have order := LockedPool.goes_up (disciplined_run run)
  obtain ⟨u, chain, last⟩ := chain_ends order t
  refine ⟨u, chain, ?_⟩
  intro mutex tries
  by_contra stuck
  have refused : ∀ a, LockedPool.IsStepOf thrd u a → s.step thrd a = none := by
    intro a own
    by_contra moves
    exact stuck ⟨a, own, moves⟩
  obtain ⟨v, waits⟩ := LockedPool.refused_waits tries refused
  exact last v waits

end Runs

section Schedules

abbrev smallLocks : LockedTraits Nat Nat Nat :=
  lockedTraits Nat Nat Nat 1 ⟨id, 2, by decide⟩ true true

abbrev smallPool : Machine (LockedPool smallLocks (Fin 2))
    (QueuePool.Action Nat Nat Nat (Fin 2)) (Entry Nat Nat Nat (Fin 2)) :=
  lockedMachine smallLocks 1 false ⟨0, 0⟩

/-- The consumer thread is in a `Consume` whose listener is in `Enqueue`, with the queue
    locked; another thread has called `Enqueue` too. -/
theorem listener_in_enqueue : ∃ s log, smallPool.Reachable s log ∧
    s.pool.consumer.pc.isConsuming = true ∧ s.inner = [(1, .queueMutex, .exclusive)] ∧
      (s.pool.clients 0).pc = .enqueue ⟨0, 8⟩ .tryEnqueue :=
  Machine.reachable_of_exec smallPool
    [.call 0 (.subscribe 0 (some 7)), .client 0, .client 0, .call 0 (.enqueue ⟨0, 5⟩), .client 0,
      .client 0, .client 0, .consumer none, .consumer none, .consumer none, .consumer none,
      .consumer none, .consumer none, .consumer none, .consumer none, .consumer none,
      .consumer none, .consumer none, .call 1 (.enqueue ⟨0, 6⟩), .client 1,
      .call 0 (.enqueue ⟨0, 8⟩)]
    (fun s _ => s.pool.consumer.pc.isConsuming = true ∧ s.inner = [(1, .queueMutex, .exclusive)] ∧
      (s.pool.clients 0).pc = .enqueue ⟨0, 8⟩ .tryEnqueue) (by decide)

theorem waits_without_circle : ∃ s log, smallPool.Reachable s log ∧
    WaitsFor (s.Tries 1) (s.Holds 1) 0 1 ∧
      ∀ t, ¬ Relation.TransGen (WaitsFor (s.Tries 1) (s.Holds 1)) t t := by
  obtain ⟨s, log, run, _, inner, pc⟩ := listener_in_enqueue
  have tries : s.Tries 1 0 .queueMutex := by
    refine ⟨.client 0, .exclusive, ?_, by simp [inner]⟩
    simp [LockedPool.demand, pc, LockedTraits.clientDemand, LockedTraits.queueDemand,
      lockedTraits, queueWithMutexLocks]
  have holds : s.Holds 1 1 .queueMutex := ⟨.exclusive, by simp [inner]⟩
  exact ⟨s, log, run, ⟨.queueMutex, tries, holds⟩, (no_mutex_deadlock run).2.2.1⟩

theorem consumer_holds_mutex_in_consume : ∃ s log, smallPool.Reachable s log ∧
    s.pool.consumer.pc.isConsuming = true ∧ s.Holds 1 1 .queueMutex := by
  obtain ⟨s, log, run, consuming, inner, _⟩ := listener_in_enqueue
  exact ⟨s, log, run, consuming, .exclusive, by simp [inner]⟩

end Schedules

end MappedQueue
