import MappedQueue.SharedCompletion

/-!
One pool with a signature of its own. Its consumer signals in four steps; a waiter
may be gone after the third of them, which stores the flag, and the fourth still uses
the event. The counter that the polling query reads is one while the consumer is in
its function and zero once a wait can return, so that the query answers the opposite
of what the wait says.
-/
namespace MappedQueue
open Concurrency

variable {π ι : Type} {Key Value Listener : π → Type}
  {T : ∀ p, DefaultTraits (Key p) (Value p) (Listener p)}

def ConsumerPc.usesSign {Map L : Type} : ConsumerPc Map L → Bool
  | .increaseConsumersLeft => true
  | .decreasing _ => true
  | _ => false

namespace SharedPools

def OnePool (s : SharedPools T ι) : SharedAction Key Value Listener ι → Prop
  | .create _ _ => s.created = []
  | _ => True

def WaitReturned (log : List (SharedEntry π ι)) : Prop :=
  ∃ t, .waitReturned t ∈ log

def UsesSignNext [DecidableEq π] [DecidableEq ι] (s : SharedPools T ι) (p : π) : Prop :=
  (∃ pool, s.pools p = some pool ∧ pool.consumer.pc.usesSign = true) ∧
    ∃ woken next, s.step (.pool p (.consumer woken)) = some next

/-- The polling query tells what the wait and the consumer's position tell. -/
structure PollingAgrees (s : SharedPools T ι) (log : List (SharedEntry π ι)) : Prop where
  finished : WaitReturned log → s.sign.isConsumersFinished = true
  inside : (∃ p, s.phase p = some .running) → s.sign.isConsumersFinished = false

def StoredBySome (s : SharedPools T ι) : Prop :=
  s.sign.event.notifyFlag = true →
    ∃ p, s.phase p = some .notifying ∨ s.phase p = some .done

section Steps
variable [DecidableEq π] {s s' : SharedPools T ι} {a : SharedAction Key Value Listener ι}
  {out : Option (SharedEntry π ι)} {p : π}

theorem done_stays (move : SignMove s s' a out) (done : s.phase p = some .done) :
    s'.phase p = some .done := by
  cases move with
  | create fresh created phases =>
    rw [phases, Function.update_of_ne, done]
    rintro rfl
    simp [done] at fresh
  | @thread q woken before after there created phases move =>
    rw [phases]
    by_cases own : p = q
    · subst own
      obtain rfl : before = .done := by simpa [done] using there.symm
      cases move
      exact Function.update_self ..
    · rw [Function.update_of_ne own, done]
  | other created phases => rw [phases, done]

theorem stored_step (h : s.StoredBySome) (move : SignMove s s' a out) : s'.StoredBySome := by
  intro flag
  cases move with
  | @create q junk fresh created phases same =>
    obtain ⟨p, late⟩ := h (same ▸ flag)
    have other : p ≠ q := by
      rintro rfl
      simp [fresh] at late
    exact ⟨p, by rwa [phases, Function.update_of_ne other]⟩
  | @thread q woken before after there created phases move =>
    have here : s'.phase q = some after := by rw [phases, Function.update_self]
    have kept : s.sign.event.notifyFlag = true → before ≠ .notifying → before ≠ .done →
        ∃ p, s'.phase p = some .notifying ∨ s'.phase p = some .done := by
      intro stored early going
      obtain ⟨p, late⟩ := h stored
      have other : p ≠ q := by
        rintro rfl
        simp [there, early, going] at late
      exact ⟨p, by rwa [phases, Function.update_of_ne other]⟩
    cases move with
    | store => exact ⟨q, Or.inl here⟩
    | notify => exact ⟨q, Or.inr here⟩
    | testOther => exact ⟨q, Or.inr here⟩
    | stay same =>
      have unchanged := phases_stay there phases
      rw [unchanged]
      exact h (same ▸ flag)
    | start same => exact kept (same ▸ flag) (by simp) (by simp)
    | leave same => exact kept (same ▸ flag) (by simp) (by simp)
    | testZero zero same => exact kept (same ▸ flag) (by simp) (by simp)
    | increase eq => exact kept (by rw [eq] at flag; exact flag) (by simp) (by simp)
    | decrement left event => exact kept (by rw [event] at flag; exact flag) (by simp) (by simp)
  | other created phases left same =>
    rw [phases]
    exact h (same ▸ flag)

theorem one_pool_step (one : s.OnePool a) (h : ∀ p ∈ s.created, ∀ q ∈ s.created, p = q)
    (move : SignMove s s' a out) : ∀ p ∈ s'.created, ∀ q ∈ s'.created, p = q := by
  cases move with
  | create fresh created =>
    have first : s.created = [] := one
    rw [created, first]
    simp
  | thread there created => rwa [created]
  | other created => rwa [created]

end Steps

end SharedPools

section Runs
variable [DecidableEq π] [DecidableEq ι] {s s' : SharedPools T ι} {log log' : List (SharedEntry π ι)}
  {p : π}

theorem stored_run (run : (sharedMachine T).Reachable s log) : s.StoredBySome := by
  refine Machine.reach_invariant (I := fun s _ => s.StoredBySome) ?_ ?_ run
  · intro flag
    simp [sharedMachine, SharedPools.create, SignConsumerFinished.create, Event.create] at flag
  · intro s log a s' out _ h _ step
    exact SharedPools.stored_step h (SharedPools.sign_moves step)

theorem one_pool_run (run : (sharedMachine T).Reach (fun s _ a => s.OnePool a) s log) :
    ∀ p ∈ s.created, ∀ q ∈ s.created, p = q := by
  refine Machine.reach_invariant
    (I := fun s _ => ∀ p ∈ s.created, ∀ q ∈ s.created, p = q) ?_ ?_ run
  · intro p member
    simp [sharedMachine, SharedPools.create] at member
  · intro s log a s' out _ h one step
    exact SharedPools.one_pool_step one h (SharedPools.sign_moves step)

theorem past_flag_of_returned (run : (sharedMachine T).Reach (fun s _ a => s.OnePool a) s log)
    (returned : SharedPools.WaitReturned log) (member : p ∈ s.created) :
    s.phase p = some .notifying ∨ s.phase p = some .done := by
  have ordinary := Machine.reach_reachable run
  obtain ⟨t, logged⟩ := returned
  obtain ⟨q, late⟩ := stored_run ordinary ((passing_run ordinary).returned t logged)
  have known : q ∈ s.created := by
    refine ((counting_run ordinary).known q).mpr ?_
    rcases late with notifying | done
    · simp [notifying]
    · simp [done]
  obtain rfl := one_pool_run run p member q known
  exact late

theorem continues_done (done : s.phase p = some .done)
    (later : (sharedMachine T).Continues s log s' log') : s'.phase p = some .done := by
  induction later with
  | refl => exact done
  | next before step ih => exact SharedPools.done_stays (SharedPools.sign_moves step) ih

theorem done_uses_nothing (done : s.phase p = some .done) : ¬ s.UsesSignNext p := by
  rintro ⟨⟨pool, there, uses⟩, _⟩
  have phase : pool.consumer.pc.signPhase = .done := by
    simpa [SharedPools.phase, there] using done
  cases pc : pool.consumer.pc with
  | finished => simp [pc, ConsumerPc.usesSign] at uses
  | decreasing pos => cases pos <;> simp [pc, ConsumerPc.signPhase, DecreasePc.signPhase] at phase
  | _ => simp [pc, ConsumerPc.signPhase] at phase

theorem notifying_uses_sign (notifying : s.phase p = some .notifying) : s.UsesSignNext p := by
  obtain ⟨pool, there, phase⟩ := Option.map_eq_some_iff.mp notifying
  have pc : pool.consumer.pc = .decreasing .notifyAll := by
    cases pc : pool.consumer.pc with
    | decreasing pos =>
      cases pos <;> simp [pc, ConsumerPc.signPhase, DecreasePc.signPhase] at phase
      rfl
    | _ => simp [pc, ConsumerPc.signPhase] at phase
  have steps : (s.step (.pool p (.consumer none))).isSome := by
    simp [SharedPools.step, SharedPools.mayStep, SharedPools.poolStep, there, QueuePool.step,
      QueuePool.consumerStep, QueuePool.setConsumersFinished, pc]
  obtain ⟨next, step⟩ := Option.isSome_iff_exists.mp steps
  exact ⟨⟨pool, there, by rw [pc]; rfl⟩, none, next, step⟩

/-- After the waits have returned, the signature is left alone for good exactly when the
    consumer is not between its store of the flag and its notification. -/
theorem waited_signature_unused_iff
    (run : (sharedMachine T).Reach (fun s _ a => s.OnePool a) s log)
    (returned : SharedPools.WaitReturned log) (member : p ∈ s.created) :
    (∀ s' log', (sharedMachine T).Continues s log s' log' → ¬ s'.UsesSignNext p) ↔
      s.phase p ≠ some .notifying := by
  constructor
  · intro unused notifying
    exact unused s log Machine.Continues.refl (notifying_uses_sign notifying)
  · intro past s' log' later
    have done := (past_flag_of_returned run returned member).resolve_left past
    exact done_uses_nothing (continues_done done later)

theorem counted_le_one (run : (sharedMachine T).Reach (fun s _ a => s.OnePool a) s log) :
    s.counted ≤ 1 := by
  have one := one_pool_run run
  have distinct := (counting_run (Machine.reach_reachable run)).distinct
  refine Nat.le_trans List.countP_le_length ?_
  cases eq : s.created with
  | nil => simp
  | cons p rest =>
    cases more : rest with
    | nil => simp
    | cons q rest =>
      rw [eq, more] at one distinct
      have same := one p (by simp) q (by simp)
      simp [same] at distinct

theorem polling_inside (run : (sharedMachine T).Reach (fun s _ a => s.OnePool a) s log)
    (inside : s.phase p = some .running) : s.sign.isConsumersFinished = true := by
  have counting := counting_run (Machine.reach_reachable run)
  have member := SharedPools.member_of_phase counting inside
  have counted_in : s.counted = 1 := by
    refine Nat.le_antisymm (counted_le_one run) (List.countP_pos_iff.mpr ⟨p, member, ?_⟩)
    rw [inside]
    rfl
  rw [SignConsumerFinished.isConsumersFinished, counting.counter, counted_in]
  rfl

theorem polling_after_wait (run : (sharedMachine T).Reach (fun s _ a => s.OnePool a) s log)
    (returned : SharedPools.WaitReturned log) : s.sign.isConsumersFinished = false := by
  have counting := counting_run (Machine.reach_reachable run)
  have counted_in : s.counted = 0 := by
    refine census_eq_zero_iff.mpr ?_
    intro p member
    rcases past_flag_of_returned run returned member with notifying | done
    · rw [notifying]
      rfl
    · rw [done]
      rfl
  rw [SignConsumerFinished.isConsumersFinished, counting.counter, counted_in]
  rfl

/-- The query agrees with the rest exactly where nothing is asked of it. -/
theorem polling_agrees_iff (run : (sharedMachine T).Reach (fun s _ a => s.OnePool a) s log) :
    s.PollingAgrees log ↔
      ¬ SharedPools.WaitReturned log ∧ ∀ p, s.phase p ≠ some .running := by
  constructor
  · intro agrees
    constructor
    · intro returned
      have yes := agrees.finished returned
      simp [polling_after_wait run returned] at yes
    · intro p inside
      have no := agrees.inside ⟨p, inside⟩
      simp [polling_inside run inside] at no
  · rintro ⟨waiting, outside⟩
    exact ⟨fun returned => absurd returned waiting, fun ⟨p, inside⟩ => absurd inside (outside p)⟩

end Runs

section Schedules
open SharedPools

instance (s : SharedPools T ι) (a : SharedAction Key Value Listener ι) :
    Decidable (s.OnePool a) := by
  cases a with
  | create p junk => exact decidable_of_iff (s.created.isEmpty = true) List.isEmpty_iff
  | _ => exact inferInstanceAs (Decidable True)

def stopAndWait (p : π) (t : ι) (junk : QueueNode (Key p) (Value p)) (consumed : Nat) :
    List (SharedAction Key Value Listener ι) :=
  [.create p junk, .pool p (.consumer none), .pool p (.consumer none),
    .pool p (.call t (.finish .stopProcessing)), .pool p (.client t), .pool p (.client t),
    .pool p (.client t)] ++
    List.replicate 5 (.pool p (.consumer none)) ++
    [.pool p (.client t), .pool p (.client t), .pool p (.client t)] ++
    List.replicate consumed (.pool p (.consumer none))

theorem unused_after_return :
    ∃ s log, (mutexPools (Fin 1)).Reach (fun s _ a => s.OnePool a) s log ∧
      WaitReturned log ∧ 0 ∈ s.created ∧ s.phase 0 ≠ some .notifying ∧
      ∀ s' log', (mutexPools (Fin 1)).Continues s log s' log' → ¬ s'.UsesSignNext 0 := by
  obtain ⟨s, log, run, returned, member, past⟩ := Machine.reach_of_exec (mutexPools (Fin 1))
    (fun s _ a => s.OnePool a) (stopAndWait 0 0 ⟨0, 0⟩ 1)
    (fun s log => .waitReturned 0 ∈ log ∧ 0 ∈ s.created ∧ s.phase 0 ≠ some .notifying) (by decide)
  exact ⟨s, log, run, ⟨0, returned⟩, member, past,
    (waited_signature_unused_iff run ⟨0, returned⟩ member).mpr past⟩

/-- All waits have returned and no thread is in a call; the consumer, just past its store
    of the flag, notifies an event that may be gone. -/
theorem used_after_wait :
    ∃ s log, (mutexPools (Fin 1)).Reach (fun s _ a => s.OnePool a) s log ∧
      WaitReturned log ∧ 0 ∈ s.created ∧ (∀ t, s.isFree t = true) ∧ s.UsesSignNext 0 := by
  obtain ⟨s, log, run, returned, member, free, notifying⟩ :=
    Machine.reach_of_exec (mutexPools (Fin 1)) (fun s _ a => s.OnePool a) (stopAndWait 0 0 ⟨0, 0⟩ 0)
    (fun s log => .waitReturned 0 ∈ log ∧ 0 ∈ s.created ∧ (∀ t, s.isFree t = true) ∧
      s.phase 0 = some .notifying) (by decide)
  exact ⟨s, log, run, ⟨0, returned⟩, member, free, notifying_uses_sign notifying⟩

theorem polling_agrees_at_start :
    ∃ s log, (mutexPools (Fin 1)).Reach (fun s _ a => s.OnePool a) s log ∧ 0 ∈ s.created ∧
      (¬ WaitReturned log ∧ ∀ p, s.phase p ≠ some .running) ∧ s.PollingAgrees log := by
  obtain ⟨s, log, run, member, silent, outside⟩ := Machine.reach_of_exec (mutexPools (Fin 1))
    (fun s _ a => s.OnePool a) [.create 0 ⟨0, 0⟩]
    (fun s log => 0 ∈ s.created ∧ (∀ t, .waitReturned t ∉ log) ∧ ∀ p, s.phase p ≠ some .running)
    (by decide)
  have nothing : ¬ WaitReturned log ∧ ∀ p, s.phase p ≠ some .running :=
    ⟨fun ⟨t, returned⟩ => silent t returned, outside⟩
  exact ⟨s, log, run, member, nothing, (polling_agrees_iff run).mpr nothing⟩

/-- The query says finished of a consumer in its loop and not finished of one that has
    been waited for. -/
theorem polling_says_opposite :
    (∃ s log, (mutexPools (Fin 1)).Reach (fun s _ a => s.OnePool a) s log ∧
      s.phase 0 = some .running ∧ s.sign.isConsumersFinished = true ∧ ¬ s.PollingAgrees log) ∧
    ∃ s log, (mutexPools (Fin 1)).Reach (fun s _ a => s.OnePool a) s log ∧
      WaitReturned log ∧ s.sign.isConsumersFinished = false ∧ ¬ s.PollingAgrees log := by
  constructor
  · obtain ⟨s, log, run, inside, yes⟩ := Machine.reach_of_exec (mutexPools (Fin 1))
      (fun s _ a => s.OnePool a)
      [.create 0 ⟨0, 0⟩, .pool 0 (.consumer none), .pool 0 (.consumer none)]
      (fun s _ => s.phase 0 = some .running ∧ s.sign.isConsumersFinished = true) (by decide)
    refine ⟨s, log, run, inside, yes, ?_⟩
    intro agrees
    simp [agrees.inside ⟨0, inside⟩] at yes
  · obtain ⟨s, log, run, returned, no⟩ := Machine.reach_of_exec (mutexPools (Fin 1))
      (fun s _ a => s.OnePool a) (stopAndWait 0 0 ⟨0, 0⟩ 1)
      (fun s log => .waitReturned 0 ∈ log ∧ s.sign.isConsumersFinished = false) (by decide)
    refine ⟨s, log, run, ⟨0, returned⟩, no, ?_⟩
    intro agrees
    simp [agrees.finished ⟨0, returned⟩] at no

end Schedules

end MappedQueue
