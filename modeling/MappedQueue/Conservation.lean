import MappedQueue.Delivery

/-!
The pool over the queue under a mutex, which never refuses a push: no call gets as
far as the wait predicate, so every call pushes once. The order of the calls is then
the order of the pushes, of the pops and of the outcomes.
-/
namespace MappedQueue
open Concurrency

variable {Key Value Listener ι : Type} [DecidableEq ι]

/-- Every call that has returned pushed once, between its invocation and its return;
    calls that do not overlap, and the calls of one thread, push in their order. -/
structure PushesInCallOrder (log : List (Entry Key Value Listener ι)) : Prop where
  once : ∀ c node, .returned c (.enqueue node) ∈ log →
    ofCall c log = [.called c (.enqueue node), .pushed c node, .returned c (.enqueue node)]
  apart : ∀ c c' node node',
    Before (.returned c (.enqueue node)) (.called c' (.enqueue node')) log →
      .pushed c' node' ∈ log → Before (.pushed c node) (.pushed c' node') log
  inThread : ∀ t m n node node', m < n → .pushed (t, m) node ∈ log →
    .pushed (t, n) node' ∈ log → Before (.pushed (t, m) node) (.pushed (t, n) node') log

section Order
variable {T : DefaultTraits Key Value Listener} {sign : Option (SignConsumerFinished ι)}
  {junk : QueueNode Key Value} {s : QueuePool T ι} {log : List (Entry Key Value Listener ι)}

theorem calls_begin_fresh
    (run : (poolMachine T sign junk).Reach (fun s _ a => PushesOnce s a) s log) :
    Whenever (fun past x => ∀ t n call, x = .called (t, n) call → ofCall (t, n) past = [] ∧
      ∀ m < n, ∃ call', ofCall (t, m) past = wholeCall (t, m) call') log := by
  refine Machine.reach_whenever ?_ run
  rintro s log a s' x before _ step t n call rfl
  have orderly := orderly_run before
  cases QueuePool.step_moves step with
  | call pc alive =>
    constructor
    · rw [(orderly t _).2.1 rfl, pc]
      rfl
    · intro m earlier
      exact (orderly t m).1 earlier
  | client move => cases move
  | consumer move => cases move

theorem pushed_after_call {c : CallId ι} {call : Call Key Value Listener}
    {node : QueueNode Key Value} {past rest : List (Entry Key Value Listener ι)}
    (fresh : ofCall c past = []) (pushed : .pushed c node ∈ past ++ .called c call :: rest) :
    .pushed c node ∈ rest := by
  rcases List.mem_append.mp pushed with early | late
  · have member := mem_of_call.mpr ⟨early, rfl⟩
    rw [fresh] at member
    contradiction
  · simpa using late

theorem separate_calls_push_in_order
    (run : (poolMachine T sign junk).Reach (fun s _ a => PushesOnce s a) s log)
    {c c' : CallId ι} {node node' : QueueNode Key Value}
    (order : Before (.returned c (.enqueue node)) (.called c' (.enqueue node')) log)
    (pushed' : .pushed c' node' ∈ log) : Before (.pushed c node) (.pushed c' node') log := by
  obtain ⟨past, rest, rfl, returned⟩ := order
  obtain ⟨_, before⟩ := Machine.reach_prefix run past _ rfl
  have whole := returned_call_is_whole (orderly_run before) returned
  have member : .pushed c node ∈ ofCall c past := by simp [whole, wholeCall]
  have pushed : .pushed c node ∈ past := (mem_of_call.mp member).1
  have fresh := (calls_begin_fresh run past _ rest rfl c'.1 c'.2 _ rfl).1
  obtain ⟨middle, last, rfl⟩ := List.append_of_mem (pushed_after_call fresh pushed')
  exact ⟨past ++ .called c' (.enqueue node') :: middle, last, by simp,
    List.mem_append_left _ pushed⟩

theorem returned_pusher {c : CallId ι} {call : Call Key Value Listener}
    {node : QueueNode Key Value} {past rest : List (Entry Key Value Listener ι)}
    (orderly : Orderly s (past ++ rest)) (whole : ofCall c past = wholeCall c call)
    (pushed : .pushed c node ∈ past ++ rest) : .returned c (.enqueue node) ∈ past := by
  have returned : .returned c call ∈ past := by
    have member : .returned c call ∈ ofCall c past := by
      rw [whole]
      cases call <;> simp [wholeCall]
    exact (mem_of_call.mp member).1
  have member := mem_of_call.mpr ⟨pushed, rfl⟩
  rw [returned_call_is_whole orderly (List.mem_append_left _ returned)] at member
  cases call with
  | enqueue node' =>
    have same : node = node' := by simpa [wholeCall] using member
    exact same ▸ returned
  | subscribe key listener => simp [wholeCall] at member
  | finish call => simp [wholeCall] at member

theorem same_thread_pushes_in_order
    (run : (poolMachine T sign junk).Reach (fun s _ a => PushesOnce s a) s log)
    {t : ι} {m n : Nat} {node node' : QueueNode Key Value} (earlier : m < n)
    (pushed : .pushed (t, m) node ∈ log) (pushed' : .pushed (t, n) node' ∈ log) :
    Before (.pushed (t, m) node) (.pushed (t, n) node') log := by
  have called : .called (t, n) (.enqueue node') ∈ log := by
    obtain ⟨before, after, parts⟩ := List.append_of_mem pushed'
    have announced := pushes_announced (Machine.reach_reachable run) before _ after parts _ _ rfl
    exact parts ▸ List.mem_append_left _ announced
  obtain ⟨past, rest, rfl⟩ := List.append_of_mem called
  obtain ⟨call, whole⟩ := (calls_begin_fresh run past _ rest rfl t n _ rfl).2 m earlier
  have returned := returned_pusher (orderly_run run) whole pushed
  exact separate_calls_push_in_order run ⟨past, rest, rfl, returned⟩ pushed'

theorem disciplined_pushes_in_call_order
    (run : (poolMachine T sign junk).Reach (fun s _ a => PushesOnce s a) s log) :
    PushesInCallOrder log := by
  constructor
  · intro c node returned
    exact returned_call_is_whole (orderly_run run) returned
  · intro c c' node node' order pushed'
    exact separate_calls_push_in_order run order pushed'
  · intro t m n node node' earlier pushed pushed'
    exact same_thread_pushes_in_order run earlier pushed pushed'

end Order

/-- The outcomes are the pops in their order, but for the last pop, which may be in the
    consumer's hands or, over a stop request, dropped. -/
def DecidesInPopOrder {T : DefaultTraits Key Value Listener} (s : QueuePool T ι)
    (log : List (Entry Key Value Listener ι)) : Prop :=
  ∃ last, pops log = (outcomes log).map Prod.snd ++ last ∧
    (last = [] ∨ ∃ node, last = [node] ∧ (s.InHands node ∨ s.stopCommand = true))

abbrev queueWithMutex (Value : Type) (capacity : Nat) (M : MapTraits Key Listener) :
    DefaultTraits Key Value Listener :=
  ⟨QueueWithMutexTraits Key Value capacity, M⟩

section Runs
variable {capacity : Nat} {M : MapTraits Key Listener} {sign : Option (SignConsumerFinished ι)}
  {junk : QueueNode Key Value} {s s' : QueuePool (queueWithMutex Value capacity M) ι}
  {log : List (Entry Key Value Listener ι)}

def FastPathOnly (s : QueuePool (queueWithMutex Value capacity M) ι) : Prop :=
  ∀ t node pos, (s.clients t).pc = .enqueue node pos → pos = .tryEnqueue ∨ pos = .startHasValueEvent

theorem entrance_fast {call : Call Key Value Listener} {node : QueueNode Key Value}
    {pos : EnqueuePc} (pc : QueuePool.entrance call = .enqueue node pos) : pos = .tryEnqueue := by
  cases call with
  | enqueue node' =>
    cases pc
    rfl
  | subscribe key listener => cases pc
  | finish call => cases call <;> cases pc

theorem fast_path_step {a : QueuePool.Action Key Value Listener ι}
    {out : Option (Entry Key Value Listener ι)} (h : FastPathOnly s)
    (step : s.step a = some (s', out)) : FastPathOnly s' := by
  intro u node pos pc
  rcases QueuePool.step_client step u with same | move | ⟨call, here, _⟩
  · exact h u node pos (same ▸ pc)
  · cases move with
    | tryPush =>
      simp only [QueuePool.goto, Function.update_self, ClientPc.enqueue.injEq] at pc
      exact Or.inr pc.2.symm
    | tryRefused pc' push => cases (Prod.mk.inj push).2
    | lock pc' | block pc' | resume pc' | unlock pc' => simpa using h u _ _ pc'
    | predicatePush pc' testing | predicateRefused pc' testing =>
      rcases testing with rfl | ⟨_, rfl⟩ <;> simpa using h u _ _ pc'
    | _ => simp [QueuePool.goto, QueuePool.leave] at pc
  · rw [here] at pc
    exact Or.inl (entrance_fast pc)

omit [DecidableEq ι] in
theorem fast_path_pushes_once (h : FastPathOnly s) (a : QueuePool.Action Key Value Listener ι) :
    PushesOnce s a := by
  cases a with
  | client t =>
    simp only [PushesOnce]
    split
    · rename_i node pc
      simpa using h t node _ pc
    · rename_i node notified pc
      simpa using h t node _ pc
    · trivial
  | _ => trivial

theorem mutex_queue_disciplined
    (run : (poolMachine (queueWithMutex Value capacity M) sign junk).Reachable s log) :
    (poolMachine (queueWithMutex Value capacity M) sign junk).Reach
      (fun s _ a => PushesOnce s a) s log := by
  refine Machine.reach_mono (fun s log a before _ => fast_path_pushes_once ?_ a) run
  refine Machine.reach_invariant (I := fun s _ => FastPathOnly s) ?_ ?_ before
  · intro t node pos pc
    simp [poolMachine, QueuePool.create] at pc
  · intro s log a s' out _ h _ step
    exact fast_path_step h step

theorem decides_in_pop_order {T : DefaultTraits Key Value Listener} {s : QueuePool T ι}
    (run : (poolMachine T sign junk).Reachable s log) : DecidesInPopOrder s log := by
  obtain ⟨round, rounds, there⟩ := in_round_run run
  exact ⟨round.pending, pops_eq_outcomes_pending rounds, QueuePool.pending_in_hands there⟩

theorem conservation_and_order
    (run : (poolMachine (queueWithMutex Value capacity M) sign junk).Reachable s log) :
    PushesInCallOrder log ∧ pushes log = pops log ++ s.contents ∧ DecidesInPopOrder s log :=
  ⟨disciplined_pushes_in_call_order (mutex_queue_disciplined run), conserved_run run,
    decides_in_pop_order run⟩

end Runs

section Schedules
open QueuePool

/-- A stop request drops the element that the consumer has popped, one element was
    decided on before it and one stays in the queue. -/
theorem conservation_over_stop :
    ∃ s log, mutexPool.Reachable s log ∧
      (pops log = [⟨1, 10⟩, ⟨1, 20⟩] ∧ outcomes log = [(none, ⟨1, 10⟩)] ∧
        s.contents = [⟨1, 30⟩] ∧ s.stopCommand = true) ∧
      PushesInCallOrder log ∧ pushes log = pops log ++ s.contents ∧ DecidesInPopOrder s log := by
  obtain ⟨s, log, run, facts⟩ := Machine.reachable_of_exec mutexPool
    [.call 0 (.enqueue ⟨1, 10⟩), .client 0, .client 0, .call 0 (.enqueue ⟨1, 20⟩), .client 0,
      .client 0, .call 0 (.enqueue ⟨1, 30⟩), .client 0, .client 0, .consumer none, .consumer none,
      .consumer none, .consumer none, .consumer none, .consumer none, .consumer none,
      .consumer none, .consumer none, .consumer none, .consumer none,
      .call 0 (.finish .stopProcessing), .client 0, .consumer none]
    (fun s log => pops log = [⟨1, 10⟩, ⟨1, 20⟩] ∧ outcomes log = [(none, ⟨1, 10⟩)] ∧
      s.contents = [⟨1, 30⟩] ∧ s.stopCommand = true) (by decide)
  exact ⟨s, log, run, facts, conservation_and_order run⟩

end Schedules

end MappedQueue
