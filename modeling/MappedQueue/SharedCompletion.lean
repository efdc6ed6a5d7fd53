import MappedQueue.SharedCounter

/-!
Waiting on a shared signature. The event latches the first time a thread reads zero,
while a thread counts itself in only some time after its pool has been created. A
wait is complete in the runs in which that first zero is read with every pool's
thread counted in and out again, and no pool is created afterwards.
-/
namespace MappedQueue
open Concurrency

variable {π ι : Type} {Key Value Listener : π → Type}
  {T : ∀ p, DefaultTraits (Key p) (Value p) (Listener p)}

def CreatedBeforeWait (p : π) (t : ι) (log : List (SharedEntry π ι)) : Prop :=
  ∃ past since, log = past ++ .waitBegan t :: since ∧ .waitReturned t ∉ since ∧ .created p ∈ past

namespace SharedPools

def HasLeft (s : SharedPools T ι) (p : π) : Prop :=
  (s.phase p).any SignPhase.left = true

def Raised (s : SharedPools T ι) : Prop :=
  s.sign.event.notifyFlag = true ∨ ∃ p, s.phase p = some .storing

/-- Zero is read only when the thread of every pool created so far has counted itself in
    and fewer than 2^64 are counted, and no pool is created once zero has been read. -/
def SignalsLast (s : SharedPools T ι) : SharedAction Key Value Listener ι → Prop
  | .create _ _ => s.sign.event.notifyFlag = false ∧ ∀ p ∈ s.created, s.phase p ≠ some .storing
  | .pool p (.consumer _) =>
    s.phase p = some .testing → s.sign.consumersLeft = 0 →
      (∀ q ∈ s.created, (s.phase q).any SignPhase.increased = true) ∧ s.counted < UInt64.size
  | _ => True

instance (s : SharedPools T ι) (a : SharedAction Key Value Listener ι) :
    Decidable (s.SignalsLast a) := by
  rcases a with _ | ⟨p, _ | _ | _ | _ | _ | _⟩ | _ | _ | _ <;> dsimp only [SignalsLast] <;>
    infer_instance

structure Passing (s : SharedPools T ι) (log : List (SharedEntry π ι)) : Prop where
  direct : ∀ t, s.waits t = some .unlock → s.sign.event.notifyFlag = true
  pooled : ∀ p pool t call, s.pools p = some pool →
    (pool.clients t).pc = .finish call (.wait .unlock) → s.sign.event.notifyFlag = true
  returned : ∀ t, .waitReturned t ∈ log → s.sign.event.notifyFlag = true

section Flags
variable [DecidableEq π] [DecidableEq ι] {s s' : SharedPools T ι} {log : List (SharedEntry π ι)}
  {a : SharedAction Key Value Listener ι} {out : Option (SharedEntry π ι)} {t : ι}

theorem step_keeps_flag (step : s.step a = some (s', out))
    (flag : s.sign.event.notifyFlag = true) : s'.sign.event.notifyFlag = true := by
  cases sign_moves step with
  | create fresh created phases same => rw [same, flag]
  | thread there created phases move => exact phase_move_keeps_flag move flag
  | other created phases left same => rw [same, flag]

omit [DecidableEq π] in
theorem pool_passes {p : π} {pool pool' : QueuePool (T p) ι} {call : FinishCall}
    {a : QueuePool.Action (Key p) (Value p) (Listener p) ι}
    {out : Option (Entry (Key p) (Value p) (Listener p) ι)} {sign : SignConsumerFinished ι}
    (inside : (pool.setConsumersFinished s.sign).step a = some (pool', out))
    (pointer : pool'.consumersFinished = some sign)
    (pc : (pool'.clients t).pc = .finish call (.wait .unlock)) :
    (pool.clients t).pc = .finish call (.wait .unlock) ∨ sign.event.notifyFlag = true := by
  rcases QueuePool.step_client inside t with same | move | ⟨call', here, _⟩
  · exact Or.inl (by rw [← pc, same]; rfl)
  · have flag := QueuePool.client_passes_over_flag move pc
    simp only [QueuePool.notifyFlag, pointer, Option.map_some, Option.some.injEq] at flag
    exact Or.inr flag
  · rw [here] at pc
    exact absurd pc (QueuePool.entrance_not_waiting call' call .unlock)

theorem wait_returns_over_flag (h : s.Passing log)
    (step : s.step a = some (s', some (.waitReturned t))) : s.sign.event.notifyFlag = true := by
  generalize eq : some (SharedEntry.waitReturned t) = out at step
  cases shared_moves step with
  | @pool p a pool pool' out sign there inside pointer =>
    obtain ⟨call, pc⟩ := observe_returns inside eq.symm
    exact h.pooled p pool t call there pc
  | waitReturn there inside =>
    cases Event.waitStep_returns inside
    exact h.direct _ there
  | _ => simp at eq

theorem direct_step (h : s.Passing log) (step : s.step a = some (s', out))
    (unlock : s'.waits t = some .unlock) : s'.sign.event.notifyFlag = true := by
  have kept := step_keeps_flag step
  cases shared_moves step with
  | @callWait u free =>
    by_cases own : t = u
    · subst own
      simp at unlock
    · exact kept (h.direct t (by simpa [own] using unlock))
  | @waitStep u pos event next there inside =>
    by_cases own : t = u
    · subst own
      obtain rfl : next = .unlock := by simpa using unlock
      exact kept (Event.waitStep_passes inside)
    · exact kept (h.direct t (by simpa [own] using unlock))
  | @waitReturn u pos event there inside =>
    by_cases own : t = u
    · subst own
      simp at unlock
    · exact kept (h.direct t (by simpa [own] using unlock))
  | create | pool | wake => exact kept (h.direct t unlock)

theorem pooled_step {p : π} {pool : QueuePool (T p) ι} {call : FinishCall} (h : s.Passing log)
    (step : s.step a = some (s', out)) (there : s'.pools p = some pool)
    (pc : (pool.clients t).pc = .finish call (.wait .unlock)) :
    s'.sign.event.notifyFlag = true := by
  have kept := step_keeps_flag step
  cases shared_moves step with
  | @create q junk fresh =>
    by_cases own : p = q
    · subst own
      obtain rfl : QueuePool.create (some s.sign) junk = pool := by simpa using there
      simp [QueuePool.create] at pc
    · exact kept (h.pooled p pool t call (by simpa [own] using there) pc)
  | @pool q a before after out sign inside₀ inside pointer =>
    by_cases own : p = q
    · subst own
      obtain rfl : after = pool := by simpa using there
      rcases pool_passes inside pointer pc with stood | flag
      · exact kept (h.pooled p before t call inside₀ stood)
      · exact flag
    · exact kept (h.pooled p pool t call (by simpa [own] using there) pc)
  | callWait | waitStep | waitReturn | wake => exact kept (h.pooled p pool t call there pc)

theorem passing_step (h : s.Passing log) (step : s.step a = some (s', out)) :
    s'.Passing (log ++ out.toList) := by
  constructor
  · intro t unlock
    exact direct_step h step unlock
  · intro p pool t call there pc
    exact pooled_step h step there pc
  · intro t logged
    have kept := step_keeps_flag step
    rcases List.mem_append.mp logged with earlier | now
    · exact kept (h.returned t earlier)
    · obtain rfl := Option.mem_toList.mp now
      exact kept (wait_returns_over_flag h step)

end Flags

section Latch
variable [DecidableEq π] {s s' : SharedPools T ι} {a : SharedAction Key Value Listener ι}
  {out : Option (SharedEntry π ι)}

theorem phase_move_stays_left {sign sign' : SignConsumerFinished ι} {before after : SignPhase}
    (move : PhaseMove sign sign' before after) (left : before.left = true) : after.left = true := by
  cases move with
  | stay => exact left
  | start | increase | leave => simp [SignPhase.left] at left
  | _ => rfl

theorem raised_by_test {p : π} {before after : SignPhase} (there : s.phase p = some before)
    (phases : s'.phase = Function.update s.phase p (some after))
    (move : PhaseMove s.sign s'.sign before after) (raised : s'.Raised) :
    s.Raised ∨ before = .testing ∧ s.sign.consumersLeft = 0 ∧ after = .storing := by
  rcases raised with flag | ⟨q, storing⟩
  · cases move with
    | store => exact Or.inl (Or.inr ⟨p, there⟩)
    | stay same | start same | leave same | testZero _ same | testOther _ same =>
      exact Or.inl (Or.inl (same ▸ flag))
    | increase eq => exact Or.inl (Or.inl (by rw [eq] at flag; exact flag))
    | decrement _ event => exact Or.inl (Or.inl (by rw [event] at flag; exact flag))
    | notify _ event => exact Or.inl (Or.inl (by rw [event] at flag; exact flag))
  · rcases phase_of_update phases storing with rfl | earlier
    · cases move with
      | stay => exact Or.inl (Or.inr ⟨p, there⟩)
      | testZero zero => exact Or.inr ⟨rfl, zero, rfl⟩
    · exact Or.inl (Or.inr ⟨q, earlier⟩)

omit [DecidableEq π] in
/-- Over a zero counter that has not wrapped, threads that have counted themselves in have
    left again. -/
theorem all_left_at_zero (counting : s.Counting) (zero : s.sign.consumersLeft = 0)
    (fits : s.counted < UInt64.size)
    (increased : ∀ p ∈ s.created, (s.phase p).any SignPhase.increased = true) :
    ∀ p ∈ s.created, s.HasLeft p := by
  have none_counted : s.counted = 0 := by
    have value := congrArg UInt64.toNat (counting.counter.symm.trans zero)
    rw [UInt64.toNat_ofNat_of_lt' fits] at value
    exact value
  intro p member
  have uncounted := census_eq_zero_iff.mp none_counted p member
  obtain ⟨phase, there⟩ := Option.ne_none_iff_exists'.mp ((counting.known p).mp member)
  have ran := increased p member
  rw [there] at uncounted ran
  rw [HasLeft, there]
  exact SignPhase.left_of_uncounted ran uncounted

theorem latch_step (counting : s.Counting) (h : s.Raised → ∀ p ∈ s.created, s.HasLeft p)
    (last : s.SignalsLast a) (move : SignMove s s' a out) (raised : s'.Raised) :
    ∀ p ∈ s'.created, s'.HasLeft p := by
  cases move with
  | create fresh created phases same =>
    obtain ⟨unset, idle⟩ := last
    rcases raised with flag | ⟨q, storing⟩
    · rw [same, unset] at flag
      contradiction
    · rcases phase_of_update phases storing with eq | before
      · contradiction
      · exact absurd before (idle q (member_of_phase counting before))
  | @thread p woken before after there created phases move =>
    have all_left : ∀ q ∈ s.created, q ≠ p → s.HasLeft q := by
      rcases raised_by_test there phases move raised with already | ⟨rfl, zero, rfl⟩
      · exact fun q member _ => h already q member
      · obtain ⟨increased, fits⟩ := last there zero
        exact fun q member _ => all_left_at_zero counting zero fits increased q member
    have own_left : after.left = true := by
      rcases raised_by_test there phases move raised with already | ⟨_, _, rfl⟩
      · have left := h already p (member_of_phase counting there)
        rw [HasLeft, there] at left
        exact phase_move_stays_left move left
      · rfl
    intro q member
    rw [HasLeft, phases]
    by_cases own : q = p
    · subst own
      rw [Function.update_self]
      exact own_left
    · rw [Function.update_of_ne own]
      exact all_left q (created ▸ member) own
  | other created phases left flag =>
    have before : s.Raised := by
      rcases raised with stored | ⟨q, storing⟩
      · exact Or.inl (flag ▸ stored)
      · exact Or.inr ⟨q, phases ▸ storing⟩
    intro q member
    rw [HasLeft, phases]
    exact h before q (created ▸ member)

end Latch

end SharedPools

section Runs
variable [DecidableEq π] [DecidableEq ι] {s s' : SharedPools T ι} {log : List (SharedEntry π ι)}

theorem passing_run (run : (sharedMachine T).Reachable s log) : s.Passing log := by
  refine Machine.reach_invariant (I := fun s log => s.Passing log) ?_ ?_ run
  · constructor <;> simp [sharedMachine, SharedPools.create]
  · intro s log a s' out _ h _ step
    exact SharedPools.passing_step h step

theorem created_run (run : (sharedMachine T).Reachable s log) :
    ∀ p, .created p ∈ log → p ∈ s.created := by
  refine Machine.reach_invariant (I := fun s log => ∀ p, .created p ∈ log → p ∈ s.created) ?_ ?_ run
  · intro p member
    simp at member
  · intro s log a s' out _ h _ step p member
    rcases List.mem_append.mp member with earlier | now
    · cases SharedPools.sign_moves step with
      | create _ created => exact created ▸ List.mem_cons_of_mem _ (h p earlier)
      | thread _ created => exact created ▸ h p earlier
      | other created => exact created ▸ h p earlier
    · obtain rfl := Option.mem_toList.mp now
      cases SharedPools.sign_moves step with
      | create _ created => exact created ▸ List.mem_cons_self
      | other created phases left flag silent => exact absurd rfl (silent p)

/-- In such runs a wait that returns finds every pool that it was called over left by its
    consumer thread. -/
theorem shared_wait_is_complete {t : ι} {a : SharedAction Key Value Listener ι}
    (run : (sharedMachine T).Reach (fun s _ a => s.SignalsLast a) s log)
    (returns : s.step a = some (s', some (.waitReturned t))) :
    ∀ p, CreatedBeforeWait p t log → s.HasLeft p := by
  have latch : s.Raised → ∀ p ∈ s.created, s.HasLeft p := by
    refine Machine.reach_invariant (I := fun s _ => s.Raised → ∀ p ∈ s.created, s.HasLeft p) ?_ ?_ run
    · intro _ p member
      simp [sharedMachine, SharedPools.create] at member
    · intro s log a s' out before h last step
      exact SharedPools.latch_step (counting_run (Machine.reach_reachable before)) h last
        (SharedPools.sign_moves step)
  have ordinary := Machine.reach_reachable run
  have flag := SharedPools.wait_returns_over_flag (passing_run ordinary) returns
  rintro p ⟨past, since, parts, _, created⟩
  have logged : .created p ∈ log := by
    rw [parts]
    exact List.mem_append_left _ created
  exact latch (Or.inl flag) p (created_run ordinary p logged)

end Runs

section Schedules
open SharedPools

instance (s : SharedPools T ι) (p : π) : Decidable (s.HasLeft p) := by
  unfold HasLeft
  infer_instance

theorem shared_wait_after_both :
    ∃ s s' log, (mutexPools (Fin 2)).Reach (fun s _ a => s.SignalsLast a) s log ∧
      s.step (.pool 0 (.client 0)) = some (s', some (.waitReturned 0)) ∧
      CreatedBeforeWait 1 0 log ∧ ∀ p, CreatedBeforeWait p 0 log → s.HasLeft p := by
  obtain ⟨s, log, run, parts, returns⟩ := Machine.reach_of_exec (mutexPools (Fin 2))
    (fun s _ a => s.SignalsLast a)
    [.create 0 ⟨0, 0⟩, .create 1 ⟨0, 0⟩, .pool 0 (.consumer none), .pool 0 (.consumer none),
      .pool 1 (.consumer none), .pool 1 (.consumer none),
      .pool 1 (.call 1 (.finish .stopProcessing)), .pool 1 (.client 1),
      .pool 0 (.call 0 (.finish .stopProcessing)), .pool 0 (.client 0), .pool 0 (.client 0),
      .pool 0 (.client 0), .pool 0 (.consumer none), .pool 0 (.consumer none),
      .pool 0 (.consumer none), .pool 0 (.consumer none), .pool 1 (.consumer none),
      .pool 1 (.consumer none), .pool 1 (.consumer none), .pool 1 (.consumer none),
      .pool 1 (.consumer none), .pool 0 (.client 0), .pool 0 (.client 0)]
    (fun s log => log = [.created 0, .created 1] ++ .waitBegan 0 :: [] ∧
      (s.step (.pool 0 (.client 0))).map Prod.snd = some (some (.waitReturned 0))) (by decide)
  obtain ⟨⟨s', out⟩, step, rfl⟩ := Option.map_eq_some_iff.mp returns
  exact ⟨s, s', log, run, step, ⟨_, _, parts, by simp, by simp⟩, shared_wait_is_complete run step⟩

/-- The first thread comes and goes before the second has counted itself in; or the
    signature is used again after it has been signalled. -/
theorem shared_wait_returns_early :
    (∃ s s' log, (mutexPools (Fin 2)).Reachable s log ∧
      s.step (.pool 0 (.client 0)) = some (s', some (.waitReturned 0)) ∧
      CreatedBeforeWait 1 0 log ∧ s.phase 1 = some .starting ∧ ¬ s.HasLeft 1) ∧
    ∃ s s' log, (mutexPools (Fin 2)).Reachable s log ∧
      s.step (.wait 1) = some (s', some (.waitReturned 1)) ∧
      CreatedBeforeWait 1 1 log ∧ s.phase 1 = some .running ∧ ¬ s.HasLeft 1 := by
  constructor
  · obtain ⟨s, log, run, parts, returns, starting⟩ := Machine.reachable_of_exec (mutexPools (Fin 2))
      [.create 0 ⟨0, 0⟩, .create 1 ⟨0, 0⟩, .pool 0 (.consumer none), .pool 0 (.consumer none),
        .pool 1 (.consumer none), .pool 0 (.call 0 (.finish .stopProcessing)), .pool 0 (.client 0),
        .pool 0 (.client 0), .pool 0 (.client 0), .pool 0 (.consumer none), .pool 0 (.consumer none),
        .pool 0 (.consumer none), .pool 0 (.consumer none), .pool 0 (.consumer none),
        .pool 0 (.client 0), .pool 0 (.client 0)]
      (fun s log => log = [.created 0, .created 1] ++ .waitBegan 0 :: [] ∧
        (s.step (.pool 0 (.client 0))).map Prod.snd = some (some (.waitReturned 0)) ∧
        s.phase 1 = some .starting) (by decide)
    obtain ⟨⟨s', out⟩, step, rfl⟩ := Option.map_eq_some_iff.mp returns
    exact ⟨s, s', log, run, step, ⟨_, _, parts, by simp, by simp⟩, starting,
      by simp [HasLeft, starting, SignPhase.left]⟩
  · obtain ⟨s, log, run, parts, returns, running⟩ := Machine.reachable_of_exec (mutexPools (Fin 2))
      [.create 0 ⟨0, 0⟩, .pool 0 (.consumer none), .pool 0 (.consumer none),
        .pool 0 (.call 0 (.finish .stopProcessing)), .pool 0 (.client 0), .pool 0 (.consumer none),
        .pool 0 (.consumer none), .pool 0 (.consumer none), .pool 0 (.consumer none),
        .pool 0 (.consumer none), .pool 0 (.consumer none), .create 1 ⟨0, 0⟩,
        .pool 1 (.consumer none), .pool 1 (.consumer none), .callWait 1, .wait 1, .wait 1]
      (fun s log => log = [.created 0, .created 1] ++ .waitBegan 1 :: [] ∧
        (s.step (.wait 1)).map Prod.snd = some (some (.waitReturned 1)) ∧
        s.phase 1 = some .running) (by decide)
    obtain ⟨⟨s', out⟩, step, rfl⟩ := Option.map_eq_some_iff.mp returns
    exact ⟨s, s', log, run, step, ⟨_, _, parts, by simp, by simp⟩, running,
      by simp [HasLeft, running, SignPhase.left]⟩

end Schedules

end MappedQueue
