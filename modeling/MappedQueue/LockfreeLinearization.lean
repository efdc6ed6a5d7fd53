import Mathlib.Data.List.Induction
import MappedQueue.LockfreeCalls

/-!
An order of the calls of the lock-free queue in which they could have been made one
after another. A call stands where it pushed, popped or was refused; a `pop` that
failed stands where it last saw the queue empty, which the log tells only later on.
-/
namespace MappedQueue
open Concurrency

section Orders
variable {T ι : Type}

def QueueEffect.Answers : QueueEffect T → LockfreeReply T → Prop
  | .pushed _, .pushed success => success = true
  | .refused, .pushed success => success = false
  | .popped t, .popped ret success => ret = t ∧ success = true
  | .sawEmpty, .popped _ success => success = false
  | _, _ => False

inductive Replays (capacity : Nat) : List T → List (QueueEffect T) → List T → Prop where
  | nil {contents} : Replays capacity contents [] contents
  | cons {before between after e es} (changes : QueueEffect.Changes (some e) before between)
      (room : ∀ t, e = .pushed t → before.length < capacity)
      (rest : Replays capacity between es after) : Replays capacity before (e :: es) after

/-- Every call that returned, and some of the others, in an order that keeps apart what
    was made one after another, and replayed on a queue gives the same replies. -/
structure QueueOrder (capacity : Nat) (order : List ((ι × Nat) × QueueEffect T))
    (log : List (LockfreeEntry T ι)) : Prop where
  once : (order.map Prod.fst).Nodup
  called : ∀ c e, (c, e) ∈ order → ∃ call, .called c call ∈ log ∧ call.Has e
  answered : ∀ c reply, .returned c reply ∈ log → ∃ e, (c, e) ∈ order ∧ e.Answers reply
  realTime : ∀ c reply d call, Before (.returned c reply) (.called d call) log →
    d ∈ order.map Prod.fst → Before c d (order.map Prod.fst)
  legal : Replays capacity [] (order.map Prod.snd) (inside log)

end Orders

section Settling
variable {T ι : Type} [DecidableEq ι]

def LockfreeEntry.isReturned : LockfreeEntry T ι → Bool
  | .returned _ _ => true
  | _ => false

/-- A look settles a call that returns without doing anything more. -/
def settles (c : ι × Nat) (future : List (LockfreeEntry T ι)) : QueueEffect T → Bool
  | .sawEmpty => (future.find? fun y => decide (y.id = c)).any LockfreeEntry.isReturned
  | _ => true

def settle : List (LockfreeEntry T ι) → List (LockfreeEntry T ι) →
    List ((ι × Nat) × QueueEffect T)
  | [], _ => []
  | .effect c e :: rest, future =>
    if settles c (rest ++ future) e then (c, e) :: settle rest future else settle rest future
  | _ :: rest, future => settle rest future

theorem settle_append (past rest future : List (LockfreeEntry T ι)) :
    settle (past ++ rest) future = settle past (rest ++ future) ++ settle rest future := by
  induction past with
  | nil => rfl
  | cons x past ih =>
    cases x with
    | called c call | returned c reply => exact ih
    | effect c e =>
      simp only [List.cons_append, settle, List.append_assoc, ih]
      split <;> rfl

theorem mem_settle {log future : List (LockfreeEntry T ι)} {c : ι × Nat} {e : QueueEffect T} :
    (c, e) ∈ settle log future ↔
      ∃ past rest, log = past ++ .effect c e :: rest ∧ settles c (rest ++ future) e = true := by
  constructor
  · intro member
    induction log with
    | nil => contradiction
    | cons x log ih =>
      have later : (c, e) ∈ settle log future → ∃ past rest,
          x :: log = past ++ .effect c e :: rest ∧ settles c (rest ++ future) e = true := by
        intro member
        obtain ⟨past, rest, split, settled⟩ := ih member
        exact ⟨x :: past, rest, by rw [split]; rfl, settled⟩
      cases x with
      | called d call | returned d reply => exact later member
      | effect d e' =>
        simp only [settle] at member
        split at member
        · rename_i settled
          rcases List.mem_cons.mp member with same | member
          · cases same
            exact ⟨[], log, rfl, settled⟩
          · exact later member
        · exact later member
  · rintro ⟨past, rest, rfl, settled⟩
    rw [settle_append]
    apply List.mem_append_right
    simp [settle, settled]

end Settling

section Calls
variable {T ι : Type} [DecidableEq ι] {log : List (LockfreeEntry T ι)} {c d : ι × Nat}
  {e e' : QueueEffect T}

theorem mem_effectsOf : e ∈ effectsOf c log ↔ .effect c e ∈ log := by
  unfold effectsOf
  rw [List.mem_filterMap]
  constructor
  · rintro ⟨x, member, eq⟩
    cases x with
    | called d call | returned d reply => contradiction
    | effect d e' =>
      simp only [LockfreeEntry.effectOf] at eq
      split at eq
      · rename_i same
        cases eq
        rwa [← same]
      · contradiction
  · intro member
    exact ⟨_, member, by simp [LockfreeEntry.effectOf]⟩

theorem settled_last (ordered : Whenever CallOrder log) {past rest : List (LockfreeEntry T ι)}
    (split : log = past ++ .effect c e :: rest) (settled : settles c rest e = true) :
    .effect c e' ∉ rest := by
  intro member
  obtain ⟨between, after, parts⟩ := List.append_of_mem member
  obtain ⟨⟨_, open_⟩, only, _⟩ := ordered (past ++ .effect c e :: between) (.effect c e')
    after (by simp [split, parts])
  have look : e = .sawEmpty := by
    apply only
    rw [mem_effectsOf]
    simp
  subst look
  -- between the look and the return the call does nothing
  simp only [settles, Option.any_eq_true] at settled
  obtain ⟨y, found, returned⟩ := settled
  obtain ⟨own, before, later, split', none⟩ := List.find?_eq_some_iff_append.mp found
  cases y with
  | called d call | effect d e => contradiction
  | returned d reply =>
    have same : d = c := of_decide_eq_true own
    subst same
    rw [split'] at member
    rcases List.mem_append.mp member with early | late
    · simpa [LockfreeEntry.id] using none _ early
    · rcases List.mem_cons.mp late with eq | late
      · contradiction
      · obtain ⟨first, last, parts'⟩ := List.append_of_mem late
        obtain ⟨⟨_, unreturned⟩, _⟩ := ordered
          (past ++ .effect d .sawEmpty :: (before ++ .returned d reply :: first))
          (.effect d e') last
          (by simp [split, split', parts'])
        exact unreturned reply (by simp)

theorem last_effect (some_effect : effectsOf c log ≠ []) :
    ∃ past e rest, log = past ++ .effect c e :: rest ∧ effectsOf c rest = [] := by
  induction log using List.reverseRecOn with
  | nil => contradiction
  | append_singleton log x ih =>
    by_cases silent : x.effectOf c = none
    · rw [effectsOf_bookkeeping silent] at some_effect
      obtain ⟨past, e, rest, split, last⟩ := ih some_effect
      refine ⟨past, e, rest ++ [x], by simp [split], ?_⟩
      rw [effectsOf_bookkeeping silent]
      exact last
    · cases x with
      | called d call | returned d reply => exact absurd rfl silent
      | effect d e =>
        have same : d = c := by
          by_contra ne
          exact silent (by simp [LockfreeEntry.effectOf, ne])
        subst same
        exact ⟨log, e, [], rfl, rfl⟩

theorem look_settles (ordered : Whenever CallOrder log) {past rest : List (LockfreeEntry T ι)}
    {reply : LockfreeReply T} (split : log = past ++ .returned c reply :: rest)
    (only : OnlyLooks (effectsOf c past)) (looked : effectsOf c past ≠ []) :
    (c, .sawEmpty) ∈ settle past (.returned c reply :: rest) := by
  obtain ⟨before, e, after, parts, last⟩ := last_effect looked
  have look : e = .sawEmpty := by
    apply only
    rw [mem_effectsOf, parts]
    simp
  subst look
  refine mem_settle.mpr ⟨before, after, parts, ?_⟩
  have quiet : ∀ y ∈ after, y.id ≠ c := by
    rintro y member rfl
    cases y with
    | called d call =>
      obtain ⟨first, second, parts'⟩ := List.append_of_mem member
      exact ordered (before ++ .effect d .sawEmpty :: first) (.called d call)
        (second ++ .returned d reply :: rest) (by simp [split, parts, parts', LockfreeEntry.id])
        (.effect d .sawEmpty) (by simp) rfl
    | effect d e =>
      have here := mem_effectsOf.mpr member
      rw [LockfreeEntry.id] at last
      rw [last] at here
      contradiction
    | returned d other =>
      obtain ⟨⟨_, unreturned⟩, _⟩ := ordered past _ rest split
      exact unreturned other (by simp [parts, member, LockfreeEntry.id])
  have skipped : after.find? (fun y => decide (y.id = c)) = none := by
    rw [List.find?_eq_none]
    intro y member
    simpa using quiet y member
  have found : (after ++ .returned c reply :: rest).find? (fun y => decide (y.id = c)) =
      some (.returned c reply) := by
    rw [List.find?_append, skipped]
    simp [LockfreeEntry.id]
  rw [settles, found]
  rfl

theorem settle_answered (ordered : Whenever CallOrder log) {past rest : List (LockfreeEntry T ι)}
    {reply : LockfreeReply T} (split : log = past ++ .returned c reply :: rest) :
    ∃ e, (c, e) ∈ settle past (.returned c reply :: rest) ∧ e.Answers reply := by
  obtain ⟨_, call, _, answered⟩ := ordered past _ rest split
  have acted : ∀ {e : QueueEffect T}, e ≠ .sawEmpty → e ∈ effectsOf c past →
      (c, e) ∈ settle past (.returned c reply :: rest) := by
    intro e act member
    obtain ⟨before, after, parts⟩ := List.append_of_mem (mem_effectsOf.mp member)
    refine mem_settle.mpr ⟨before, after, parts, ?_⟩
    cases e with
    | sawEmpty => contradiction
    | _ => rfl
  cases call with
  | boundedPush t =>
    cases reply with
    | popped ret success => exact absurd answered id
    | pushed success =>
      cases success with
      | true => exact ⟨.pushed t, acted (by simp) (by rw [answered]; simp), rfl⟩
      | false => exact ⟨.refused, acted (by simp) (by rw [answered]; simp), rfl⟩
  | pop r =>
    cases reply with
    | pushed success => exact absurd answered id
    | popped ret success =>
      cases success with
      | true =>
        obtain ⟨looks, _, effects⟩ := answered
        exact ⟨.popped ret, acted (by simp) (by rw [effects]; simp), rfl, rfl⟩
      | false => exact ⟨.sawEmpty, look_settles ordered split answered.1 answered.2, rfl⟩

theorem settle_once (ordered : Whenever CallOrder log) {past rest : List (LockfreeEntry T ι)}
    (split : log = past ++ rest) : ((settle rest []).map Prod.fst).Nodup := by
  induction rest generalizing past with
  | nil => exact List.nodup_nil
  | cons x rest ih =>
    have later := ih (show log = (past ++ [x]) ++ rest by simp [split])
    cases x with
    | called d call | returned d reply => exact later
    | effect d e =>
      simp only [settle, List.append_nil]
      split
      · rename_i settled
        refine List.nodup_cons.mpr ⟨?_, later⟩
        intro member
        obtain ⟨⟨d', e'⟩, again, same⟩ := List.mem_map.mp member
        obtain rfl : d' = d := same
        obtain ⟨before, after, parts, _⟩ := mem_settle.mp again
        have acted : .effect d' e' ∈ rest := by
          rw [parts]
          simp
        exact settled_last ordered split (by simpa using settled) acted
      · exact later

theorem settle_real_time (ordered : Whenever CallOrder log) {reply : LockfreeReply T}
    {call : LockfreeCall T} (apart : Before (.returned c reply) (.called d call) log)
    (member : d ∈ (settle log []).map Prod.fst) : Before c d ((settle log []).map Prod.fst) := by
  obtain ⟨past, rest, split, returned⟩ := apart
  have order : settle log [] = settle past (.called d call :: rest) ++
      settle (.called d call :: rest) [] := by
    rw [split, settle_append, List.append_nil]
  rw [order, List.map_append] at member ⊢
  have first : c ∈ (settle past (.called d call :: rest)).map Prod.fst := by
    obtain ⟨before, after, parts⟩ := List.append_of_mem returned
    obtain ⟨e, settled, _⟩ := settle_answered ordered
      (show log = before ++ .returned c reply :: (after ++ .called d call :: rest) by
        simp [split, parts])
    rw [parts, settle_append, List.map_append]
    apply List.mem_append_left
    exact List.mem_map_of_mem (f := Prod.fst) settled
  have second : d ∈ (settle (.called d call :: rest) []).map Prod.fst := by
    apply (List.mem_append.mp member).resolve_left
    intro early
    obtain ⟨⟨_, e⟩, settled, rfl⟩ := List.mem_map.mp early
    obtain ⟨before, after, parts, _⟩ := mem_settle.mp settled
    exact ordered past _ rest split (.effect _ e) (by rw [parts]; simp) rfl
  obtain ⟨between, after, parts⟩ := List.append_of_mem second
  refine ⟨_ ++ between, after, ?_, List.mem_append_left _ first⟩
  rw [parts, List.append_assoc]

end Calls

section Runs
variable {T ι : Type} {capacity : Nat} {log past : List (LockfreeEntry T ι)}

theorem inside_silent {x : LockfreeEntry T ι}
    (silent : x.pushedValue = none ∧ x.poppedValue = none) :
    inside (past ++ [x]) = inside past := by
  simp [inside, silent.1, silent.2]

theorem inside_changes (fifo : pushedValues past = poppedValues past ++ inside past) {c : ι × Nat}
    {e : QueueEffect T} (atomic : AtomicEffect capacity past (.effect c e)) :
    QueueEffect.Changes (some e) (inside past) (inside (past ++ [.effect c e])) ∧
      ∀ t, e = .pushed t → (inside past).length < capacity := by
  cases e with
  | pushed v =>
    have grown : inside (past ++ [.effect c (.pushed v)]) = inside past ++ [v] := by
      apply inside_eq
      simp [fifo, LockfreeEntry.pushedValue, LockfreeEntry.poppedValue]
    exact ⟨grown, fun _ _ => atomic⟩
  | popped v =>
    obtain ⟨rest, split⟩ := List.head?_eq_some_iff.mp atomic
    have shrunk : inside (past ++ [.effect c (.popped v)]) = rest := by
      apply inside_eq
      simp [fifo, split, LockfreeEntry.pushedValue, LockfreeEntry.poppedValue]
    refine ⟨?_, by intros; contradiction⟩
    rw [shrunk]
    exact split
  | refused =>
    rw [inside_silent ⟨rfl, rfl⟩]
    exact ⟨rfl, by intros; contradiction⟩
  | sawEmpty =>
    rw [inside_silent ⟨rfl, rfl⟩]
    exact ⟨⟨atomic, atomic⟩, by intros; contradiction⟩

variable [DecidableEq ι]

theorem settle_legal (atomic : Whenever (AtomicEffect capacity) log)
    (fifo : ∀ past rest, log = past ++ rest → pushedValues past = poppedValues past ++ inside past)
    {rest : List (LockfreeEntry T ι)} (split : log = past ++ rest) :
    Replays capacity (inside past) ((settle rest []).map Prod.snd) (inside log) := by
  induction rest generalizing past with
  | nil =>
    rw [split, List.append_nil]
    exact Replays.nil
  | cons x rest ih =>
    have later := ih (show log = (past ++ [x]) ++ rest by simp [split])
    have queue := fifo past (x :: rest) split
    cases x with
    | called c call | returned c reply =>
      rw [inside_silent ⟨rfl, rfl⟩] at later
      exact later
    | effect c e =>
      obtain ⟨changes, room⟩ := inside_changes queue (atomic past _ rest split)
      simp only [settle, List.append_nil]
      split
      · exact Replays.cons changes room later
      · rename_i unsettled
        -- only a look can leave its call unsettled
        cases e with
        | sawEmpty =>
          rw [changes.2] at later
          rw [changes.1]
          exact later
        | _ => exact absurd rfl unsettled

/-- The calls of a run with fresh tags could have been made one after another on a queue. -/
theorem lockfree_linearizable [Inhabited T] {s : LockfreeThreads T ι}
    (run : (lockfreeMachine T ι capacity).Reach TagsFresh s log) :
    ∃ order, QueueOrder capacity order log := by
  have ordered := calls_in_order run
  refine ⟨settle log [], settle_once ordered (List.nil_append log).symm, ?_, ?_, ?_, ?_⟩
  · intro c e member
    obtain ⟨past, rest, split, _⟩ := mem_settle.mp member
    obtain ⟨_, _, call, called, kind⟩ := ordered past (.effect c e) rest split
    refine ⟨call, ?_, kind⟩
    rw [split]
    exact List.mem_append_left _ called
  · intro c reply member
    obtain ⟨past, rest, split⟩ := List.append_of_mem member
    obtain ⟨e, settled, fits⟩ := settle_answered ordered split
    refine ⟨e, ?_, fits⟩
    rw [split, settle_append, List.append_nil]
    exact List.mem_append_left _ settled
  · intro c reply d call apart member
    exact settle_real_time ordered apart member
  · apply settle_legal (effects_atomic run) _ (List.nil_append log).symm
    intro past rest split
    obtain ⟨_, before⟩ := Machine.reach_prefix run past rest split
    exact (lockfree_fifo before).1

/-- A thread sees the queue empty and comes back from its `pop` after two pushes, one of
    which has helped the other to swing the tail. -/
theorem late_pop_linearizable : ∃ s log, (lockfreeMachine Nat (Fin 3) 2).Reach TagsFresh s log ∧
    log.idxOf (.effect (0, 0) (.pushed 5)) < log.idxOf (.returned (2, 0) (.popped 0 false)) ∧
    .returned (2, 1) (.popped 5 true) ∈ log ∧ ∃ order, QueueOrder 2 order log := by
  obtain ⟨s, log, run, late, popped⟩ := Machine.reach_of_exec
    (lockfreeMachine Nat (Fin 3) 2) TagsFresh
    (List.flatten [[.call 2 (.pop 0)], stepsOf 2 4, [.call 0 (.boundedPush 5)], stepsOf 0 10,
      [.call 1 (.boundedPush 6)], stepsOf 1 14, stepsOf 2 1, [.call 2 (.pop 0)], stepsOf 2 10,
      stepsOf 0 2, stepsOf 1 2])
    (fun _ log => log.idxOf (.effect (0, 0) (.pushed 5)) <
        log.idxOf (.returned (2, 0) (.popped 0 false)) ∧
      .returned (2, 1) (.popped 5 true) ∈ log) (by decide +kernel)
  exact ⟨s, log, run, late, popped, lockfree_linearizable run⟩

end Runs

end MappedQueue
