import MappedQueue.ExactlyOnce
import MappedQueue.ConsumerRounds

/-!
From an `Enqueue` call to a listener. What has been pushed is what has been popped
and what is in the queue, in this order; what has been popped is what has been
decided on and at most one element more. A delivery goes to a listener that was
given for the key, because a map returns nothing else.
-/
namespace MappedQueue
open Concurrency

variable {Key Value Listener ι : Type}

def ClientPc.call? : ClientPc Key Value Listener → Option (Call Key Value Listener)
  | .idle => none
  | .enqueue node _ => some (.enqueue node)
  | .subscribe key listener => some (.subscribe key listener)
  | .finish call _ => some (.finish call)

def Authorized (log : List (Entry Key Value Listener ι)) (key : Key) (listener : Listener) : Prop :=
  ∃ c, .called c (.subscribe key (some listener)) ∈ log

namespace QueuePool
variable {T : DefaultTraits Key Value Listener}

def Conserved (s : QueuePool T ι) (log : List (Entry Key Value Listener ι)) : Prop :=
  pushes log = pops log ++ s.contents

def Announced (s : QueuePool T ι) (log : List (Entry Key Value Listener ι)) : Prop :=
  ∀ t call, (s.clients t).pc.call? = some call → .called (s.callId t) call ∈ log

/-- Listeners in the map, in a lookup under way and in the consumer's hands are there
    by authority. A lookup keeps to whatever it may meet later on. -/
structure Routed (s : QueuePool T ι) (log : List (Entry Key Value Listener ι)) : Prop where
  map : Warranted T.mapTraits.stored (Authorized log) s.map
  lookup : ∀ rest, s.consumer.pc = .getFromMap rest → ∀ G : Key → Listener → Prop,
    (∀ key x, Authorized log key x → G key x) →
      rest.Keeps (Warranted T.mapTraits.stored G)
        fun found => ∀ x, found = some x → G s.consumer.node.key x
  found : ∀ x, s.consumer.pc = .testListener (some x) → Authorized log s.consumer.node.key x

section Steps
variable {s s' : QueuePool T ι} {log : List (Entry Key Value Listener ι)}
  {out : Option (Entry Key Value Listener ι)} {a : Action Key Value Listener ι}

theorem prefix_of_conserved (h : s.Conserved log) : pops log <+: pushes log :=
  ⟨s.contents, h.symm⟩

theorem conserved_silent (h : s.Conserved log) (same : s'.contents = s.contents)
    (noPush : pushes out.toList = []) (noPop : pops out.toList = []) :
    s'.Conserved (log ++ out.toList) := by
  rw [Conserved, pushes_append, pops_append, noPush, noPop, same, List.append_nil, List.append_nil]
  exact h

theorem authorized_append {key : Key} {x : Listener} (more : List (Entry Key Value Listener ι))
    (given : Authorized log key x) : Authorized (log ++ more) key x := by
  obtain ⟨c, called⟩ := given
  exact ⟨c, List.mem_append_left _ called⟩

theorem routed_of_same (h : s.Routed log) (map : s'.map = s.map)
    (consumer : s'.consumer = s.consumer) (more : List (Entry Key Value Listener ι)) :
    s'.Routed (log ++ more) := by
  constructor
  · intro key x entry
    exact authorized_append more (h.map key x (map ▸ entry))
  · intro rest pc G wider
    rw [consumer] at pc ⊢
    exact h.lookup rest pc G fun key x given => wider key x (authorized_append more given)
  · intro x pc
    rw [consumer] at pc ⊢
    exact authorized_append more (h.found x pc)

variable [DecidableEq ι]

theorem client_writes_no_pop {t : ι} (move : ClientMove s t s' out) : pops out.toList = [] := by
  cases out with
  | none => rfl
  | some x => simp [pops, (foreign_reads [] (client_writes_no_round move x rfl)).1]

theorem consumer_writes_no_push {woken : Option ι} (move : ConsumerMove s woken s' out) :
    pushes out.toList = [] := by
  cases move <;> rfl

theorem client_conserved {t : ι} (h : s.Conserved log) (move : ClientMove s t s' out) :
    s'.Conserved (log ++ out.toList) := by
  rcases client_contents move with ⟨same, silent⟩ | ⟨node, _, rfl, longer, _⟩
  · refine conserved_silent h same ?_ (client_writes_no_pop move)
    cases out with
    | none => rfl
    | some x =>
      cases x with
      | pushed c node => exact absurd rfl (silent c node)
      | _ => rfl
  · rw [Conserved, pushes_append, pops_append, client_writes_no_pop move, h, longer]
    simp [pushes, Entry.push?]

theorem consumer_conserved {woken : Option ι} (h : s.Conserved log)
    (move : ConsumerMove s woken s' out) : s'.Conserved (log ++ out.toList) := by
  rcases consumer_contents move with ⟨same, silent⟩ | ⟨node, rfl, popped⟩
  · refine conserved_silent h same (consumer_writes_no_push move) ?_
    cases out with
    | none => rfl
    | some x =>
      cases x with
      | popped node => exact absurd rfl (silent node)
      | _ => rfl
  · rw [Conserved, pushes_append, pops_append, consumer_writes_no_push move, h, popped]
    simp [pops, Entry.pop?]

theorem conserved_step (h : s.Conserved log) (step : s.step a = some (s', out)) :
    s'.Conserved (log ++ out.toList) := by
  cases step_moves step with
  | client move => exact client_conserved h move
  | consumer move => exact consumer_conserved h move
  | call | wakeProducer | wakeWaiter | wakeConsumer => exact conserved_silent h rfl rfl rfl

theorem entrance_call (call : Call Key Value Listener) : (entrance call).call? = some call := by
  cases call with
  | finish call => cases call <;> rfl
  | _ => rfl

theorem client_stays_in_call {t : ι} (move : ClientMove s t s' out) :
    s'.clients t = ⟨(s.clients t).calls + 1, .idle⟩ ∨
      ∃ pc, s'.clients t = ⟨(s.clients t).calls, pc⟩ ∧ pc.call? = (s.clients t).pc.call? := by
  cases move with
  | hasValueEvent | subscribe | noSign | waitReturn => exact Or.inl (Function.update_self ..)
  | tryPush pc | tryRefused pc | lock pc | predicatePush pc | predicateRefused pc | block pc
  | resume pc | unlock pc | requestStop pc | destructEvent pc | enterWait pc | waitStep pc =>
    exact Or.inr ⟨_, Function.update_self .., by rw [pc]; rfl⟩

theorem announced_step (h : s.Announced log) (step : s.step a = some (s', out)) :
    s'.Announced (log ++ out.toList) := by
  intro u call inside
  rcases step_client step u with same | move | ⟨call', here, rfl⟩
  · rw [callId, same]
    exact List.mem_append_left _ (h u call (same ▸ inside))
  · rcases client_stays_in_call move with gone | ⟨pc, here, same⟩
    · simp [gone, ClientPc.call?] at inside
    · rw [callId, here]
      rw [here, same] at inside
      exact List.mem_append_left _ (h u call inside)
  · simp only [here, entrance_call, Option.some.injEq] at inside
    simp [callId, here, inside]

theorem push_announced {c : CallId ι} {node : QueueNode Key Value} (h : s.Announced log)
    (step : s.step a = some (s', some (.pushed c node))) : .called c (.enqueue node) ∈ log := by
  cases step_moves step with
  | client move =>
    cases move with
    | tryPush pc | predicatePush pc => exact h _ _ (by rw [pc]; rfl)
  | consumer move => cases move

theorem client_routed {t : ι} (h : s.Routed log) (announced : s.Announced log)
    (move : ClientMove s t s' out) : s'.Routed (log ++ out.toList) := by
  cases move with
  | @subscribe key listener pc =>
    have kept : s.Routed (log ++ [.returned (s.callId t) (.subscribe key listener)]) :=
      routed_of_same h rfl rfl _
    refine ⟨fun other x entry => ?_, kept.lookup, kept.found⟩
    rcases T.mapTraits.addToMap_stored entry with earlier | ⟨rfl, rfl⟩
    · exact kept.map other x earlier
    · exact authorized_append _ ⟨s.callId t, announced t _ (by rw [pc]; rfl)⟩
  | _ => refine routed_of_same h ?_ ?_ _ <;> rfl

theorem consumer_routed {woken : Option ι} (h : s.Routed log)
    (move : ConsumerMove s woken s' out) : s'.Routed (log ++ out.toList) := by
  have kept : s.Routed (log ++ out.toList) := routed_of_same h rfl rfl _
  cases move with
  | lookup pc =>
    refine ⟨kept.map, ?_, by simp [consumerAt]⟩
    rintro rest ⟨⟩ G _
    exact T.mapTraits.getFromMap_keeps G _
  | mapSection pc =>
    refine ⟨?_, ?_, by simp [consumerAt]⟩
    · cases kept.lookup _ pc _ fun _ _ given => given with
      | atomic keep rest => exact keep s.map kept.map
    · rintro rest ⟨⟩ G wider
      cases kept.lookup _ pc G wider with
      | atomic keep rest => exact rest s.map fun key x entry => wider key x (kept.map key x entry)
  | mapReturn pc =>
    refine ⟨kept.map, by simp [consumerAt], ?_⟩
    rintro x ⟨⟩
    cases kept.lookup _ pc _ fun _ _ given => given with
    | ret result => exact result x rfl
  | pop pc | miss pc =>
    refine ⟨kept.map, ?_, ?_⟩ <;> rcases pc with ⟨_, rfl⟩ | ⟨_, rfl⟩ <;> simp
  | _ => exact ⟨kept.map, by simp [consumerAt], by simp [consumerAt]⟩

theorem routed_step (h : s.Routed log) (announced : s.Announced log)
    (step : s.step a = some (s', out)) : s'.Routed (log ++ out.toList) := by
  cases step_moves step with
  | client move => exact client_routed h announced move
  | consumer move => exact consumer_routed h move
  | call | wakeProducer | wakeWaiter | wakeConsumer => refine routed_of_same h ?_ ?_ _ <;> rfl

theorem consume_authorized {node : QueueNode Key Value} {listener : Listener} (h : s.Routed log)
    (step : s.step a = some (s', some (.consumed listener node))) :
    s.consumer.pc = .testListener (some listener) ∧ s.consumer.node = node ∧
      Authorized log node.key listener := by
  cases step_moves step with
  | client move => cases move
  | consumer move =>
    cases move with
    | consume pc => exact ⟨pc, rfl, h.found listener pc⟩

end Steps

def InHands (s : QueuePool T ι) (node : QueueNode Key Value) : Prop :=
  match s.consumer.pc with
  | .testStop => s.consumer.hasValue = true ∧ s.consumer.node = node
  | .unlockConsume => s.consumer.hasValue = true ∧ s.consumer.node = node
  | .checkStop => s.consumer.hasValue = true ∧ s.consumer.node = node
  | .lookup => s.consumer.node = node
  | .getFromMap _ => s.consumer.node = node
  | .testListener _ => s.consumer.node = node
  | _ => False

theorem droppable_pending {round : Round Key Value} (h : round.Droppable) :
    round.pending = [] ∨ ∃ node, round.pending = [node] := by
  rcases h with rfl | rfl | ⟨node, rfl⟩
  · exact Or.inl rfl
  · exact Or.inl rfl
  · exact Or.inr ⟨node, rfl⟩

theorem pending_in_hands {s : QueuePool T ι} {round : Round Key Value} (h : s.AtRound round) :
    round.pending = [] ∨
      ∃ node, round.pending = [node] ∧ (s.InHands node ∨ s.stopCommand = true) := by
  have held : ∀ hasValue, round = (if hasValue then .holding s.consumer.node else .called) →
      round.pending = [] ∨ hasValue = true ∧ round.pending = [s.consumer.node] := by
    rintro (_ | _) rfl
    · exact Or.inl rfl
    · exact Or.inr ⟨rfl, rfl⟩
  have dropped : s.stopCommand = true → round.Droppable → round.pending = [] ∨
      ∃ node, round.pending = [node] ∧ (s.InHands node ∨ s.stopCommand = true) := fun stop drop =>
    (droppable_pending drop).imp_right fun ⟨node, eq⟩ => ⟨node, eq, Or.inr stop⟩
  unfold AtRound at h
  cases pc : s.consumer.pc <;> simp only [pc] at h
  case testStop =>
    refine (held _ h).imp_right fun ⟨value, eq⟩ => ⟨_, eq, Or.inl ?_⟩
    simp [InHands, pc, value]
  case unlockConsume | checkStop =>
    refine (held _ h.2).imp_right fun ⟨value, eq⟩ => ⟨_, eq, Or.inl ?_⟩
    simp [InHands, pc, value]
  case lookup | getFromMap | testListener =>
    exact Or.inr ⟨_, by rw [h]; rfl, Or.inl (by simp [InHands, pc])⟩
  case loopHead => exact h.elim (fun idle => Or.inl (by rw [idle]; rfl)) fun h => dropped h.1 h.2
  case decreaseConsumersLeft | decreasing | finished => exact dropped h.1 h.2
  all_goals exact Or.inl (by rw [h]; rfl)

end QueuePool

section Runs
variable [DecidableEq ι] {T : DefaultTraits Key Value Listener}
  {sign : Option (SignConsumerFinished ι)} {junk : QueueNode Key Value} {s : QueuePool T ι}
  {log : List (Entry Key Value Listener ι)}

theorem conserved_run (run : (poolMachine T sign junk).Reachable s log) : s.Conserved log := by
  refine Machine.reach_invariant ?_ ?_ run
  · exact T.queueTraits.contents_empty.symm
  · intro s log a s' out _ h _ step
    exact QueuePool.conserved_step h step

theorem announced_run (run : (poolMachine T sign junk).Reachable s log) : s.Announced log := by
  refine Machine.reach_invariant ?_ ?_ run
  · intro t call inside
    simp [poolMachine, QueuePool.create, ClientPc.call?] at inside
  · intro s log a s' out _ h _ step
    exact QueuePool.announced_step h step

theorem routed_run (run : (poolMachine T sign junk).Reachable s log) : s.Routed log := by
  refine Machine.reach_invariant ?_ ?_ run
  · refine ⟨fun key x entry => ?_, by simp [poolMachine, QueuePool.create],
      by simp [poolMachine, QueuePool.create]⟩
    simp [poolMachine, QueuePool.create, T.mapTraits.stored_empty] at entry
  · intro s log a s' out run h _ step
    exact QueuePool.routed_step h (announced_run run) step

theorem pushes_announced (run : (poolMachine T sign junk).Reachable s log) :
    Whenever (fun past x => ∀ c node, x = .pushed c node → .called c (.enqueue node) ∈ past) log := by
  refine Machine.reach_whenever ?_ run
  rintro s log a s' x before _ step c node rfl
  exact QueuePool.push_announced (announced_run before) step

/-- What makes a delivery right, told from the log before it: the element is the one
    that comes next in the order of the pops, the current `Dequeue` call has popped it
    and nothing else, some `Enqueue` call pushed it, and the listener was given to some
    `Subscribe` call for its key. -/
structure Justified (past : List (Entry Key Value Listener ι)) (listener : Listener)
    (node : QueueNode Key Value) : Prop where
  ownPop : pops past = (outcomes past).map Prod.snd ++ [node]
  ownCall : currentPops past = [node]
  popped : pops past <+: pushes past
  pushed : ∃ c, .pushed c node ∈ past ∧ .called c (.enqueue node) ∈ past
  subscribed : Authorized past node.key listener

theorem popped_was_pushed (run : (poolMachine T sign junk).Reachable s log)
    {node : QueueNode Key Value} (popped : node ∈ pops log) :
    ∃ c, .pushed c node ∈ log ∧ .called c (.enqueue node) ∈ log := by
  have pushed : node ∈ pushes log := (QueuePool.prefix_of_conserved (conserved_run run)).subset popped
  obtain ⟨x, member, eq⟩ := List.mem_filterMap.mp pushed
  cases x with
  | pushed c node' =>
    cases eq
    obtain ⟨before, after, parts⟩ := List.append_of_mem member
    have called := pushes_announced run before _ after parts c node rfl
    exact ⟨c, member, parts ▸ List.mem_append_left _ called⟩
  | _ => simp [Entry.push?] at eq

theorem deliveries_justified (run : (poolMachine T sign junk).Reachable s log) :
    Whenever (fun past x => ∀ listener node, x = .consumed listener node →
      Justified past listener node) log := by
  refine Machine.reach_whenever ?_ run
  rintro s log a s' x before _ step listener node rfl
  obtain ⟨pc, rfl, authorized⟩ := QueuePool.consume_authorized (routed_run before) step
  obtain ⟨round, rounds, there⟩ := in_round_run before
  simp only [QueuePool.AtRound, pc] at there
  subst there
  have ownPop := pops_eq_outcomes_pending rounds
  exact ⟨ownPop, current_pops_undecided rounds (Or.inr ⟨_, Or.inr rfl⟩),
    QueuePool.prefix_of_conserved (conserved_run before),
    popped_was_pushed before (by simp [ownPop, Round.pending]), authorized⟩

/-- Every delivery is justified by what came before it, the outcomes go through the
    pops one by one, and no `Dequeue` call pops twice. -/
theorem deliveries_routed (run : (poolMachine T sign junk).Reachable s log) :
    (∀ past listener node after, log = past ++ .consumed listener node :: after →
      Justified past listener node) ∧
    (outcomes log).map Prod.snd <+: pops log ∧
    ∀ past after, log = past ++ after → (currentPops past).length ≤ 1 := by
  refine ⟨?_, ?_, ?_⟩
  · intro past listener node after parts
    exact deliveries_justified run past _ after parts listener node rfl
  · obtain ⟨round, rounds, _⟩ := in_round_run run
    exact ⟨round.pending, (pops_eq_outcomes_pending rounds).symm⟩
  · intro past after parts
    obtain ⟨_, before⟩ := Machine.reach_prefix run past after parts
    obtain ⟨round, rounds, _⟩ := in_round_run before
    exact current_pops_le_one rounds

end Runs

section Schedules
open QueuePool

theorem delivery_after_sleep :
    ∃ s past, mutexPool.Reachable s (past ++ [.consumed 7 ⟨1, 10⟩]) ∧ Justified past 7 ⟨1, 10⟩ := by
  obtain ⟨s, log, run, rfl⟩ := Machine.reachable_of_exec mutexPool
    [.call 0 (.subscribe 1 (some 7)), .client 0, .consumer none, .consumer none, .consumer none,
      .consumer none, .consumer none, .consumer none, .consumer none, .consumer none,
      .call 0 (.enqueue ⟨1, 10⟩), .client 0, .client 0, .consumer none, .consumer none,
      .consumer none, .consumer none, .consumer none, .consumer none, .consumer none,
      .consumer none, .consumer none]
    (fun _ log => log =
      [.called (0, 0) (.subscribe 1 (some 7)), .returned (0, 0) (.subscribe 1 (some 7)),
        .dequeueCalled, .called (0, 1) (.enqueue ⟨1, 10⟩), .pushed (0, 1) ⟨1, 10⟩,
        .returned (0, 1) (.enqueue ⟨1, 10⟩), .popped ⟨1, 10⟩, .lookedUp ⟨1, 10⟩] ++
          [.consumed 7 ⟨1, 10⟩]) (by decide)
  exact ⟨s, _, run, (deliveries_routed run).1 _ _ _ [] rfl⟩

end Schedules

end MappedQueue
