import MappedQueue.Concurrency.Progress
import MappedQueue.MapLinearization

/-!
Calls of the threads of a `SafeUnorderedMap` end. No call begins again, so each takes
a few steps, and as long as nobody calls with a `Reference` in hand a thread waits
only for one that can go on. Two threads that do may wait for each other.
-/
namespace MappedQueue
open Concurrency

section Ranks
variable {Key Value : Type}

def WritePc.rank : WritePc → Nat
  | .lock => 3
  | .write => 2
  | .unlock => 1

def GetAndCreatePc.rank : GetAndCreatePc Key → Nat
  | .lockShared => 9
  | .find => 8
  | .unlockShared => 7
  | .lock => 6
  | .emplace => 5
  | .unlock _ => 4
  | .relockShared _ => 3
  | .dereference _ => 2

/-- The steps a call has left at most, the end of its `Reference` included. -/
def BucketPc.rank : BucketPc Key Value → Nat
  | .idle => 0
  | .set _ _ pc | .erase _ pc => pc.rank
  | .getAndCreate _ pc => pc.rank
  | .reference _ _ => 1

theorem bucket_rank_bounded (pc : BucketPc Key Value) : pc.rank ≤ 9 := by
  cases pc with
  | idle | reference key pointer => simp [BucketPc.rank]
  | set key value pc | erase key pc => cases pc <;> simp [BucketPc.rank, WritePc.rank]
  | getAndCreate key pc => cases pc <;> simp [BucketPc.rank, GetAndCreatePc.rank]

end Ranks

namespace BucketThreads
variable {Key Value ι : Type} [DecidableEq Key] [DecidableEq ι] [Inhabited Value]
  {s s' : BucketThreads Key Value ι} {t : ι} {out : Option (BucketEntry Key Value ι)}

attribute [local simp] goto leave BucketPc.rank WritePc.rank GetAndCreatePc.rank in
theorem rank_step (step : s.threadStep t = some (s', out)) :
    (s'.threads t).pc.rank < (s.threads t).pc.rank := by
  cases thread_moves step with
  | call pc => simp [threadStep, pc] at step
  | read pc =>
    simp only [threadStep, pc, Option.some.injEq, Prod.mk.injEq] at step
    exact absurd step.2 (by simp)
  | _ pc => simp [pc]

theorem holder_steps (holds : (s.threads t).pc.mode ≠ none) : (s.threadStep t).isSome = true := by
  unfold threadStep
  cases place : (s.threads t).pc with
  | idle => simp [place, BucketPc.mode] at holds
  | set key value pc | erase key pc =>
    cases pc with
    | lock => simp [place, BucketPc.mode] at holds
    | write | unlock => rfl
  | getAndCreate key pc =>
    cases pc with
    | lockShared | lock => simp [place, BucketPc.mode] at holds
    | relockShared found => simp [place, BucketPc.mode] at holds
    | find =>
      simp only [getAndCreateStep]
      split <;> rfl
    | _ => rfl
  | reference key pointer => rfl

theorem free_steps (free : s.mutex = .shared ∅) (busy : (s.threads t).pc ≠ .idle) :
    (s.threadStep t).isSome = true := by
  have lock : ∀ pc, (s.lock t pc).isSome = true := by
    intro pc
    simp [BucketThreads.lock, SharedMutex.lock, free]
  have lockShared : ∀ pc, (s.lockShared t pc).isSome = true := by
    intro pc
    simp [BucketThreads.lockShared, SharedMutex.lockShared, free]
  unfold threadStep
  cases place : (s.threads t).pc with
  | idle => exact absurd place busy
  | set key value pc | erase key pc =>
    cases pc with
    | lock => exact lock _
    | write | unlock => rfl
  | getAndCreate key pc =>
    cases pc with
    | lockShared | relockShared found => exact lockShared _
    | lock => exact lock _
    | find =>
      simp only [getAndCreateStep]
      split <;> rfl
    | _ => rfl
  | reference key pointer => rfl

theorem somebody_steps (held : s.Held) (busy : (s.threads t).pc ≠ .idle) :
    ∃ u, (s.threads u).pc ≠ .idle ∧ (s.threadStep u).isSome = true := by
  have holder : ∀ u mode, s.mutex.mode u = some mode →
      ∃ u, (s.threads u).pc ≠ .idle ∧ (s.threadStep u).isSome = true := by
    intro u mode has
    rw [held u] at has
    refine ⟨u, ?_, holder_steps (by rw [has]; simp)⟩
    intro idle
    rw [idle] at has
    contradiction
  cases mutex : s.mutex with
  | exclusive u => exact holder u .exclusive (by simp [mutex, SharedMutex.mode])
  | shared readers =>
    by_cases empty : readers = ∅
    · exact ⟨t, busy, free_steps (by rw [mutex, empty]) busy⟩
    · obtain ⟨u, member⟩ := Finset.nonempty_iff_ne_empty.mpr empty
      exact holder u .shared (by simp [mutex, SharedMutex.mode, member])

end BucketThreads

namespace MapThreads
variable {Key Value ι : Type} [DecidableEq Key] [DecidableEq ι] [Inhabited Value] {h : Hashing Key}
  {served : BucketCall Key Value → Bool} {s s' : MapThreads h Value ι} {log log' : Log h Value ι}
  {t : ι} {b c : Fin h.numberOfBuckets} {members : Finset ι}

/-- A thread calls with no `Reference` in hand, as `GetFromMap` and `AddToMap` do. -/
def EmptyHanded (s : MapThreads h Value ι) (a : Fin h.numberOfBuckets × BucketAction Key Value ι) :
    Prop :=
  match a.2 with
  | .call t _ => ∀ b, ((s b).threads t).pc = .idle
  | _ => True

instance [DecidableEq Value] (s : MapThreads h Value ι)
    (a : Fin h.numberOfBuckets × BucketAction Key Value ι) : Decidable (EmptyHanded s a) :=
  match a with
  | (_, .call t _) => Nat.decidableForallFin fun b => ((s b).threads t).pc = .idle
  | (_, .step _) | (_, .read _) => isTrue trivial

def OneAtATime (s : MapThreads h Value ι) : Prop :=
  ∀ t b c, ((s b).threads t).pc ≠ .idle → ((s c).threads t).pc ≠ .idle → b = c

theorem one_at_a_time_run
    (run : (mapMachine ι h served).Reach (fun s _ a => EmptyHanded s a) s log) : OneAtATime s := by
  refine Machine.reach_invariant (I := fun s _ => OneAtATime s) ?_ ?_ run
  · intro t b c busy
    exact absurd rfl busy
  · rintro s log ⟨d, a⟩ s' out _ one empty step
    obtain ⟨_, next, entry, moved, rfl, _⟩ := Machine.family_step step
    have threads := BucketThreads.move_threads (BucketThreads.step_moves moved).1
    -- where a thread is inside afterwards, it was before or it acts there
    have inside : ∀ t b, ((Function.update s d next b).threads t).pc ≠ .idle →
        b = d ∧ t = a.thread ∨ ((s b).threads t).pc ≠ .idle := by
      intro t b busy
      by_cases here : b = d
      · subst here
        rw [Function.update_self, threads] at busy
        by_cases own : t = a.thread
        · exact Or.inl ⟨rfl, own⟩
        · rw [Function.update_of_ne own] at busy
          exact Or.inr busy
      · rw [Function.update_of_ne here] at busy
        exact Or.inr busy
    -- and it acts nowhere else than where it was inside
    have acts : ∀ b, ((s b).threads a.thread).pc ≠ .idle → b = d := by
      intro b busy
      cases a with
      | call t call => exact absurd (empty b) busy
      | step t | read t =>
        apply one t b d busy
        intro idle
        simp [bucketMachine, BucketThreads.threadStep, BucketThreads.readStep, idle] at moved
    intro t b c first second
    rcases inside t b first with ⟨rfl, rfl⟩ | busy
    · rcases inside _ c second with ⟨rfl, _⟩ | busy'
      · rfl
      · exact (acts c busy').symm
    · rcases inside t c second with ⟨rfl, rfl⟩ | busy'
      · exact acts b busy
      · exact one t b c busy busy'

def stepsLeft (members : Finset ι) (s : MapThreads h Value ι) : Nat :=
  ∑ t ∈ members, ∑ b, ((s b).threads t).pc.rank

omit [DecidableEq ι] [Inhabited Value] in
theorem stepsLeft_bounded (one : OneAtATime s) : stepsLeft members s ≤ 9 * members.card := by
  apply ranks_bounded
  intro t _
  by_cases busy : ∃ b, ((s b).threads t).pc ≠ .idle
  · obtain ⟨b, busy⟩ := busy
    rw [Finset.sum_eq_single b]
    · exact bucket_rank_bounded _
    · intro c _ other
      have idle : ((s c).threads t).pc = .idle := by
        by_contra inside
        exact other (one t c b inside busy)
      rw [idle]
      rfl
    · intro absent
      exact absurd (Finset.mem_univ b) absent
  · rw [Finset.sum_eq_zero]
    · exact Nat.zero_le _
    · intro b _
      have idle : ((s b).threads t).pc = .idle := by
        by_contra inside
        exact busy ⟨b, inside⟩
      rw [idle]
      rfl

def Within (members : Finset ι) (s : MapThreads h Value ι) : Prop :=
  ∀ t b, ((s b).threads t).pc ≠ .idle → t ∈ members

theorem step_lowers {out : Option (Fin h.numberOfBuckets × BucketEntry Key Value ι)}
    (step : (mapMachine ι h served).step s (b, .step t) = some (s', out)) :
    ((s b).threads t).pc ≠ .idle ∧ ((s' b).threads t).pc.rank < ((s b).threads t).pc.rank ∧
      ∀ u c, u ≠ t ∨ c ≠ b → (s' c).threads u = (s c).threads u := by
  obtain ⟨_, next, entry, moved, rfl, _⟩ := Machine.family_step step
  have threads := BucketThreads.move_threads (BucketThreads.step_moves moved).1
  have nearer : (next.threads t).pc.rank < ((s b).threads t).pc.rank :=
    BucketThreads.rank_step moved
  refine ⟨?_, by rwa [Function.update_self], ?_⟩
  · intro idle
    rw [idle] at nearer
    exact absurd nearer (Nat.not_lt_zero _)
  · intro u c other
    by_cases here : c = b
    · subst here
      rw [Function.update_self, threads]
      exact Function.update_of_ne (other.resolve_right (by simp)) _ _
    · rw [Function.update_of_ne here]

theorem stepsLeft_step {out : Option (Fin h.numberOfBuckets × BucketEntry Key Value ι)}
    (within : Within members s)
    (step : (mapMachine ι h served).step s (b, .step t) = some (s', out)) :
    Within members s' ∧ stepsLeft members s' < stepsLeft members s := by
  obtain ⟨busy, nearer, others⟩ := step_lowers step
  have no_more : ∀ u c, ((s' c).threads u).pc.rank ≤ ((s c).threads u).pc.rank := by
    intro u c
    by_cases own : u = t ∧ c = b
    · obtain ⟨rfl, rfl⟩ := own
      exact Nat.le_of_lt nearer
    · rw [others u c (not_and_or.mp own)]
  constructor
  · intro u c inside
    by_cases own : u = t ∧ c = b
    · rw [own.1]
      exact within t b busy
    · rw [others u c (not_and_or.mp own)] at inside
      exact within u c inside
  · apply Finset.sum_lt_sum
    · intro u _
      exact Finset.sum_le_sum fun c _ => no_more u c
    · refine ⟨t, within t b busy, ?_⟩
      exact Finset.sum_lt_sum (fun c _ => no_more t c) ⟨b, Finset.mem_univ b, nearer⟩

theorem somebody_goes_on (held : (s b).Held) (one : OneAtATime s)
    (busy : ((s b).threads t).pc ≠ .idle) :
    ∃ u, ((mapMachine ι h served).step s (b, .step u)).isSome = true := by
  obtain ⟨u, inside, goes⟩ := BucketThreads.somebody_steps held busy
  obtain ⟨next, moved⟩ := Option.isSome_iff_exists.mp goes
  have admitted : Admits s b (.step u) := by
    refine ⟨trivial, ?_⟩
    intro other ne
    have idle : ((s other).threads u).pc = .idle := by
      by_contra busy
      exact ne (one u other b busy inside)
    change ((s other).threads u).pc.outside = true
    rw [idle]
    rfl
  have step : (bucketMachine ι served).step (s b) (.step u) = some next := moved
  refine ⟨u, ?_⟩
  simp only [mapMachine, Machine.family, if_pos admitted, step, Option.map_some, Option.isSome_some]

/-- Where every thread calls with no `Reference` in hand, the calls underway end after
    at most nine steps for each thread, whatever the schedule, and until then there is
    always one that can go on. -/
theorem map_calls_complete
    (run : (mapMachine ι h served).Reach (fun s _ a => EmptyHanded s a) s log)
    (within : Within members s) {schedule : List (Fin h.numberOfBuckets × BucketAction Key Value ι)}
    (serving : ∀ a ∈ schedule, ∃ t, a.2 = .step t)
    (exec : (mapMachine ι h served).exec (fun _ _ _ => True) s log schedule = some (s', log')) :
    schedule.length ≤ 9 * members.card ∧ ∀ b t, ((s' b).threads t).pc ≠ .idle →
      ∃ u, ((mapMachine ι h served).step s' (b, .step u)).isSome = true := by
  have lowers : ∀ s log a s' out,
      ((mapMachine ι h served).Reach (fun s _ a => EmptyHanded s a) s log ∧ Within members s) →
      (∃ t, a.2 = .step t) → True → (mapMachine ι h served).step s a = some (s', out) →
      ((mapMachine ι h served).Reach (fun s _ a => EmptyHanded s a) s' (log ++ out.toList) ∧
        Within members s') ∧ stepsLeft members s' < stepsLeft members s + 0 := by
    rintro s log ⟨b, a⟩ s' out ⟨before, within⟩ ⟨t, rfl⟩ _ step
    obtain ⟨later, less⟩ := stepsLeft_step within step
    have empty : EmptyHanded s (b, .step t) := trivial
    exact ⟨⟨Machine.Reach.next before empty step, later⟩, less⟩
  obtain ⟨⟨reached, _⟩, bounded⟩ := Machine.exec_bounded lowers ⟨run, within⟩ serving exec
  simp only [granted_none] at bounded
  have most : stepsLeft members s ≤ 9 * members.card := stepsLeft_bounded (one_at_a_time_run run)
  refine ⟨by omega, ?_⟩
  intro b t busy
  apply somebody_goes_on _ (one_at_a_time_run reached) busy
  exact BucketThreads.held_run (bucket_run (Machine.reach_reachable reached) b)

theorem contended_calls_complete :
    let h : Hashing Nat := ⟨id, 2, by decide⟩
    let served := fun _ : BucketCall Nat Nat => true
    ∃ s log, (mapMachine (Fin 2) h served).Reach (fun s _ a => EmptyHanded s a) s log ∧
      ∃ schedule : List (Fin 2 × BucketAction Nat Nat (Fin 2)), schedule.length = 12 ∧
        ((mapMachine (Fin 2) h served).exec (fun _ _ _ => True) s log schedule).isSome = true ∧
        schedule.length ≤ 18 := by
  intro h served
  let schedule : List (Fin 2 × BucketAction Nat Nat (Fin 2)) :=
    List.flatten [List.replicate 9 (1, .step 0), List.replicate 3 (1, .step 1)]
  obtain ⟨s, log, run, done⟩ := Machine.reach_of_exec (mapMachine (Fin 2) h served)
    (fun s _ a => EmptyHanded s a) [(1, .call 0 (.getAndCreate 1)), (1, .call 1 (.set 3 7))]
    (fun s log => ((mapMachine (Fin 2) h served).exec (fun _ _ _ => True) s log
      schedule).isSome = true) (by decide +kernel)
  refine ⟨s, log, run, schedule, rfl, done, ?_⟩
  obtain ⟨⟨s', log'⟩, exec⟩ := Option.isSome_iff_exists.mp done
  have within : Within Finset.univ s := fun t _ _ => Finset.mem_univ t
  exact (map_calls_complete run within (by simp [schedule]) exec).1

/-- Each of two threads has a `Reference` into the bucket that the other one sets. -/
theorem references_deadlock :
    let h : Hashing Nat := ⟨id, 2, by decide⟩
    let served := fun _ : BucketCall Nat Nat => true
    ∃ s log, (mapMachine (Fin 2) h served).Reachable s log ∧
      (∀ t b, ((s b).threads t).pc ≠ .idle) ∧
      ∀ b t, ((mapMachine (Fin 2) h served).step s (b, .step t)).isNone = true := by
  intro h served
  exact Machine.reachable_of_exec (mapMachine (Fin 2) h served)
    (List.flatten [[(1, .call 0 (.getAndCreate 1))], List.replicate 8 (1, .step 0),
      [(0, .call 1 (.getAndCreate 2))], List.replicate 8 (0, .step 1),
      [(0, .call 0 (.set 2 5)), (1, .call 1 (.set 1 5))]])
    (fun s _ => (∀ t b, ((s b).threads t).pc ≠ .idle) ∧
      ∀ b t, ((mapMachine (Fin 2) h served).step s (b, .step t)).isNone = true) (by decide +kernel)

end MapThreads

end MappedQueue
