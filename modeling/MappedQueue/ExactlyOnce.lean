import MappedQueue.PoolMoves

/-!
How often an `Enqueue` call pushes. The entries of one call are compared with the
entries it should have written by the time it stands where it stands. The fast
path keeps to that; the wait predicate keeps to it only while its first
evaluation finds room and every later one finds the queue full, because it asks
for more waiting after a push and for an end of waiting after a refusal.
-/
namespace MappedQueue
open Concurrency

variable {Key Value Listener ι : Type}

def Entry.call? : Entry Key Value Listener ι → Option (CallId ι)
  | .called c _ => some c
  | .pushed c _ => some c
  | .returned c _ => some c
  | _ => none

def Entry.pushedBy [DecidableEq ι] (c : CallId ι) :
    Entry Key Value Listener ι → Option (QueueNode Key Value)
  | .pushed c' node => if c' = c then some node else none
  | _ => none

section Calls
variable [DecidableEq ι]

def ofCall (c : CallId ι) (log : List (Entry Key Value Listener ι)) :
    List (Entry Key Value Listener ι) :=
  log.filter fun x => x.call? = some c

def pushesOf (c : CallId ι) (log : List (Entry Key Value Listener ι)) :
    List (QueueNode Key Value) :=
  log.filterMap (Entry.pushedBy c)

theorem of_call_append (c : CallId ι) (log more : List (Entry Key Value Listener ι)) :
    ofCall c (log ++ more) = ofCall c log ++ ofCall c more :=
  List.filter_append ..

theorem mem_of_call {c : CallId ι} {log : List (Entry Key Value Listener ι)}
    {x : Entry Key Value Listener ι} : x ∈ ofCall c log ↔ x ∈ log ∧ x.call? = some c := by
  simp [ofCall]

theorem of_call_foreign {c : CallId ι} {out : Option (Entry Key Value Listener ι)}
    (foreign : ∀ x, out = some x → x.call? ≠ some c) : ofCall c out.toList = [] := by
  cases out with
  | none => rfl
  | some x => simp [ofCall, foreign x rfl]

theorem pushes_of_call (c : CallId ι) (log : List (Entry Key Value Listener ι)) :
    pushesOf c (ofCall c log) = pushesOf c log := by
  rw [pushesOf, ofCall, List.filterMap_filter, pushesOf]
  congr 1
  funext x
  cases x <;> simp [Entry.call?, Entry.pushedBy]

def EnqueuePc.hasPushed : EnqueuePc → Bool
  | .tryEnqueue => false
  | .lock => false
  | .test => false
  | _ => true

/-- What a call that pushes once has written by the time it stands at `pc`. -/
def written (c : CallId ι) : ClientPc Key Value Listener → List (Entry Key Value Listener ι)
  | .idle => []
  | .enqueue node pc =>
    .called c (.enqueue node) :: if pc.hasPushed then [.pushed c node] else []
  | .subscribe key listener => [.called c (.subscribe key listener)]
  | .finish call _ => [.called c (.finish call)]

def wholeCall (c : CallId ι) : Call Key Value Listener → List (Entry Key Value Listener ι)
  | .enqueue node =>
    [.called c (.enqueue node), .pushed c node, .returned c (.enqueue node)]
  | call => [.called c call, .returned c call]

/-- Every call that has returned wrote a whole call, the one going on what its
    position requires, and a call that has not begun nothing. -/
def Orderly {T : DefaultTraits Key Value Listener} (s : QueuePool T ι)
    (log : List (Entry Key Value Listener ι)) : Prop :=
  ∀ t n, (n < (s.clients t).calls → ∃ call, ofCall (t, n) log = wholeCall (t, n) call) ∧
    (n = (s.clients t).calls → ofCall (t, n) log = written (t, n) (s.clients t).pc) ∧
    ((s.clients t).calls < n → ofCall (t, n) log = [])

variable {T : DefaultTraits Key Value Listener}

omit [DecidableEq ι] in
theorem written_entrance (c : CallId ι) (call : Call Key Value Listener) :
    written c (QueuePool.entrance call) = [.called c call] := by
  cases call with
  | enqueue node => rfl
  | subscribe key listener => rfl
  | finish call => cases call <;> rfl

theorem orderly_frame {s s' : QueuePool T ι} {log : List (Entry Key Value Listener ι)}
    {out : Option (Entry Key Value Listener ι)} (h : Orderly s log)
    (clients : s'.clients = s.clients) (silent : ∀ x, out = some x → x.call? = none) :
    Orderly s' (log ++ out.toList) := by
  intro t n
  have same : ofCall (t, n) (log ++ out.toList) = ofCall (t, n) log := by
    rw [of_call_append, of_call_foreign fun x eq => by simp [silent x eq], List.append_nil]
  rw [same, clients]
  exact h t n

theorem orderly_goto {s s' : QueuePool T ι} {log : List (Entry Key Value Listener ι)} {t : ι}
    {pc : ClientPc Key Value Listener} {out : Option (Entry Key Value Listener ι)}
    (h : Orderly s log) (clients : s'.clients = (s.goto t pc).clients)
    (own : ∀ c x, out = some x → x.call? = some c → c = s.callId t)
    (writes : written (s.callId t) pc =
      written (s.callId t) (s.clients t).pc ++ ofCall (s.callId t) out.toList) :
    Orderly s' (log ++ out.toList) := by
  intro u n
  rw [of_call_append, clients]
  by_cases current : (u, n) = s.callId t
  · obtain ⟨rfl, rfl⟩ := Prod.mk.inj current
    have now := (h u (s.clients u).calls).2.1 rfl
    simp only [QueuePool.goto, Function.update_self]
    exact ⟨fun lt => absurd lt (Nat.lt_irrefl _), fun _ => by rw [now]; exact writes.symm,
      fun lt => absurd lt (Nat.lt_irrefl _)⟩
  · rw [of_call_foreign fun x eq mine => current (own _ x eq mine), List.append_nil]
    by_cases same : u = t
    · subst same
      simp only [QueuePool.goto, Function.update_self]
      refine ⟨(h u n).1, fun eq => absurd ?_ current, (h u n).2.2⟩
      rw [eq, QueuePool.callId]
    · simp only [QueuePool.goto, Function.update_of_ne same]
      exact h u n

theorem orderly_leave {s s' : QueuePool T ι} {log : List (Entry Key Value Listener ι)} {t : ι}
    {call : Call Key Value Listener} (h : Orderly s log)
    (clients : s'.clients = (s.leave t).clients)
    (writes : wholeCall (s.callId t) call =
      written (s.callId t) (s.clients t).pc ++ [.returned (s.callId t) call]) :
    Orderly s' (log ++ [.returned (s.callId t) call]) := by
  intro u n
  rw [of_call_append, clients]
  by_cases current : (u, n) = s.callId t
  · obtain ⟨rfl, rfl⟩ := Prod.mk.inj current
    have now := (h u (s.clients u).calls).2.1 rfl
    simp only [QueuePool.leave, Function.update_self]
    refine ⟨fun _ => ⟨call, ?_⟩, fun eq => by omega, fun lt => by omega⟩
    rw [now]
    simpa [ofCall, Entry.call?, QueuePool.callId] using writes.symm
  · have foreign : ofCall (u, n) [Entry.returned (s.callId t) call] = [] := by
      simpa [ofCall, Entry.call?] using Ne.symm current
    rw [foreign, List.append_nil]
    by_cases same : u = t
    · subst same
      have past : n ≠ (s.clients u).calls := fun eq => current (by rw [eq, QueuePool.callId])
      simp only [QueuePool.leave, Function.update_self, written]
      exact ⟨fun lt => (h u n).1 (by omega), fun eq => (h u n).2.2 (by omega),
        fun lt => (h u n).2.2 (by omega)⟩
    · simp only [QueuePool.leave, Function.update_of_ne same]
      exact h u n

/-- The step is no evaluation of the wait predicate, or one that leaves the call
    with one push: it pushes on the first evaluation and is refused on any later. -/
def PushesOnce (s : QueuePool T ι) : QueuePool.Action Key Value Listener ι → Prop
  | .client t =>
    match (s.clients t).pc with
    | .enqueue node .test => (T.queueTraits.enqueue s.queue node).2 = true
    | .enqueue node (.retest _) => (T.queueTraits.enqueue s.queue node).2 = false
    | _ => True
  | _ => True

theorem client_orderly {s s' : QueuePool T ι} {t : ι} {log : List (Entry Key Value Listener ι)}
    {out : Option (Entry Key Value Listener ι)} (h : Orderly s log)
    (once : PushesOnce s (.client t)) (move : QueuePool.ClientMove s t s' out) :
    Orderly s' (log ++ out.toList) := by
  have silent : ∀ c x, (none : Option (Entry Key Value Listener ι)) = some x →
      x.call? = some c → c = s.callId t := by simp
  have mine : ∀ (node : QueueNode Key Value) (c : CallId ι) (x : Entry Key Value Listener ι),
      some (.pushed (s.callId t) node) = some x → x.call? = some c → c = s.callId t := by
    rintro node c x ⟨⟩ eq
    exact (Option.some.inj eq).symm
  cases move with
  | tryPush pc push =>
    exact orderly_goto h rfl (mine _) (by simp [pc, written, EnqueuePc.hasPushed, ofCall, Entry.call?])
  | tryRefused pc push =>
    exact orderly_goto h rfl silent (by simp [pc, written, EnqueuePc.hasPushed, ofCall])
  | lock pc free =>
    exact orderly_goto h rfl silent (by simp [pc, written, EnqueuePc.hasPushed, ofCall])
  | predicatePush pc testing push =>
    rcases testing with rfl | ⟨notified, rfl⟩
    · exact orderly_goto h rfl (mine _)
        (by simp [pc, written, EnqueuePc.hasPushed, ofCall, Entry.call?])
    · simp [PushesOnce, pc, push] at once
  | predicateRefused pc testing push =>
    rcases testing with rfl | ⟨notified, rfl⟩
    · simp [PushesOnce, pc, push] at once
    · exact orderly_goto h rfl silent (by simp [pc, written, EnqueuePc.hasPushed, ofCall])
  | block pc =>
    exact orderly_goto h rfl silent (by simp [pc, written, EnqueuePc.hasPushed, ofCall])
  | resume pc awake free =>
    exact orderly_goto h rfl silent (by simp [pc, written, EnqueuePc.hasPushed, ofCall])
  | unlock pc =>
    exact orderly_goto h rfl silent (by simp [pc, written, EnqueuePc.hasPushed, ofCall])
  | hasValueEvent pc =>
    exact orderly_leave h rfl (by simp [pc, written, wholeCall, EnqueuePc.hasPushed])
  | subscribe pc => exact orderly_leave h rfl (by simp [pc, written, wholeCall])
  | requestStop pc =>
    exact orderly_goto h rfl (by rintro c x ⟨⟩ ⟨⟩) (by simp [pc, written, ofCall, Entry.call?])
  | destructEvent pc =>
    exact orderly_goto h rfl (by rintro c x ⟨⟩ ⟨⟩) (by simp [pc, written, ofCall, Entry.call?])
  | noSign pc null => exact orderly_leave h rfl (by simp [pc, written, wholeCall])
  | enterWait pc pointer => exact orderly_goto h rfl silent (by simp [pc, written, ofCall])
  | waitStep pc pointer inside => exact orderly_goto h rfl silent (by simp [pc, written, ofCall])
  | waitReturn pc pointer inside => exact orderly_leave h rfl (by simp [pc, written, wholeCall])

theorem consumer_writes_no_call {s s' : QueuePool T ι} {woken : Option ι}
    {out : Option (Entry Key Value Listener ι)} (move : QueuePool.ConsumerMove s woken s' out) :
    s'.clients = s.clients ∧ ∀ x, out = some x → x.call? = none := by
  cases move <;> simp [Entry.call?]

theorem orderly_step {s s' : QueuePool T ι} {a : QueuePool.Action Key Value Listener ι}
    {log : List (Entry Key Value Listener ι)} {out : Option (Entry Key Value Listener ι)}
    (h : Orderly s log) (once : PushesOnce s a) (step : s.step a = some (s', out)) :
    Orderly s' (log ++ out.toList) := by
  cases QueuePool.step_moves step with
  | call pc alive =>
    refine orderly_goto h rfl ?_ ?_
    · rintro c x ⟨⟩ eq
      exact (Option.some.inj eq).symm
    · rw [written_entrance, pc]
      simp [written, ofCall, Entry.call?]
  | client move => exact client_orderly h once move
  | consumer move =>
    obtain ⟨clients, silent⟩ := consumer_writes_no_call move
    exact orderly_frame h clients silent
  | wakeProducer => exact orderly_frame h rfl (by simp)
  | wakeWaiter => exact orderly_frame h rfl (by simp)
  | wakeConsumer => exact orderly_frame h rfl (by simp)

section Runs
variable {sign : Option (SignConsumerFinished ι)} {junk : QueueNode Key Value}
  {s : QueuePool T ι} {log : List (Entry Key Value Listener ι)}

theorem orderly_run
    (h : (poolMachine T sign junk).Reach (fun s _ a => PushesOnce s a) s log) :
    Orderly s log := by
  refine Machine.reach_invariant ?_ ?_ h
  · intro t n
    exact ⟨fun lt => absurd lt (Nat.not_lt_zero n), fun _ => rfl, fun _ => rfl⟩
  · intro s log a s' out _ orderly once step
    exact orderly_step orderly once step

theorem returned_call_is_whole (h : Orderly s log) {c : CallId ι}
    {call : Call Key Value Listener} (returned : .returned c call ∈ log) :
    ofCall c log = wholeCall c call := by
  obtain ⟨t, n⟩ := c
  have member := mem_of_call.mpr ⟨returned, rfl⟩
  rcases Nat.lt_trichotomy n (s.clients t).calls with lt | eq | gt
  · obtain ⟨call', whole⟩ := (h t n).1 lt
    have same : call = call' := by
      rw [whole] at member
      cases call' <;> simpa [wholeCall] using member
    rw [whole, same]
  · rw [(h t n).2.1 eq] at member
    cases pc : (s.clients t).pc with
    | idle => simp [written, pc] at member
    | enqueue node' pos => cases pushed : pos.hasPushed <;> simp [written, pc, pushed] at member
    | subscribe key listener => simp [written, pc] at member
    | finish call pos => simp [written, pc] at member
  · rw [(h t n).2.2 gt] at member
    simp at member

theorem at_most_one_push (h : Orderly s log) (c : CallId ι) : (pushesOf c log).length ≤ 1 := by
  obtain ⟨t, n⟩ := c
  rw [← pushes_of_call]
  rcases Nat.lt_trichotomy n (s.clients t).calls with lt | eq | gt
  · obtain ⟨call, whole⟩ := (h t n).1 lt
    rw [whole]
    cases call <;> simp [wholeCall, pushesOf, List.filterMap_cons, Entry.pushedBy]
  · rw [(h t n).2.1 eq]
    cases pc : (s.clients t).pc with
    | enqueue node pos =>
      cases pushed : pos.hasPushed <;> simp [written, pushed, pushesOf, List.filterMap_cons, Entry.pushedBy]
    | idle => simp [written, pushesOf]
    | subscribe key listener => simp [written, pushesOf, List.filterMap_cons, Entry.pushedBy]
    | finish call pos => simp [written, pushesOf, List.filterMap_cons, Entry.pushedBy]
  · rw [(h t n).2.2 gt]
    simp [pushesOf]

end Runs

end Calls

end MappedQueue
