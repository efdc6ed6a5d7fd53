import MappedQueue.PoolMoves

/-!
What the log says about the queue and about the consumer. The consumer's entries
come in rounds, one for each `Dequeue` call: a call, a pop, the lookup of the node
popped, one outcome for it, and a notification after a delivery. A round can be
left early only over a stop request. The position of the consumer thread tells how
far the current round has come.
-/
namespace MappedQueue
open Concurrency

variable {Key Value Listener ι : Type}

def Entry.push? : Entry Key Value Listener ι → Option (QueueNode Key Value)
  | .pushed _ node => some node
  | _ => none

def Entry.pop? : Entry Key Value Listener ι → Option (QueueNode Key Value)
  | .popped node => some node
  | _ => none

def Entry.outcome? : Entry Key Value Listener ι →
    Option (Option Listener × QueueNode Key Value)
  | .consumed listener node => some (some listener, node)
  | .unknownQueue node => some (none, node)
  | _ => none

def Entry.ofConsumer : Entry Key Value Listener ι → Bool
  | .dequeueCalled => true
  | .popped _ => true
  | .lookedUp _ => true
  | .consumed _ _ => true
  | .consumeReturned => true
  | .unknownQueue _ => true
  | .capacityNotified => true
  | _ => false

def pushes (log : List (Entry Key Value Listener ι)) : List (QueueNode Key Value) :=
  log.filterMap Entry.push?

def pops (log : List (Entry Key Value Listener ι)) : List (QueueNode Key Value) :=
  log.filterMap Entry.pop?

def outcomes (log : List (Entry Key Value Listener ι)) :
    List (Option Listener × QueueNode Key Value) :=
  log.filterMap Entry.outcome?

def currentPops (log : List (Entry Key Value Listener ι)) : List (QueueNode Key Value) :=
  log.foldl (fun found x => match x with
    | .dequeueCalled => []
    | .popped node => found ++ [node]
    | _ => found) []

section Views
variable (log more : List (Entry Key Value Listener ι))

@[simp] theorem pushes_append : pushes (log ++ more) = pushes log ++ pushes more :=
  List.filterMap_append

@[simp] theorem pops_append : pops (log ++ more) = pops log ++ pops more :=
  List.filterMap_append

@[simp] theorem outcomes_append : outcomes (log ++ more) = outcomes log ++ outcomes more :=
  List.filterMap_append

theorem current_pops_concat (x : Entry Key Value Listener ι) :
    currentPops (log ++ [x]) = match x with
      | .dequeueCalled => []
      | .popped node => currentPops log ++ [node]
      | _ => currentPops log := by
  simp only [currentPops, List.foldl_append, List.foldl_cons, List.foldl_nil]

theorem foreign_reads {x : Entry Key Value Listener ι} (silent : x.ofConsumer = false) :
    x.pop? = none ∧ x.outcome? = none ∧ currentPops (log ++ [x]) = currentPops log := by
  rw [current_pops_concat]
  cases x with
  | called | pushed | returned | stopRequested | destructNotified => exact ⟨rfl, rfl, rfl⟩
  | _ => simp [Entry.ofConsumer] at silent

end Views

inductive Round (Key Value : Type) where
  | idle
  | called
  | holding (node : QueueNode Key Value)
  | lookingUp (node : QueueNode Key Value)
  | consuming
  | served

namespace Round

inductive Follows : Round Key Value → Entry Key Value Listener ι → Round Key Value → Prop where
  | dequeueCalled : Follows idle .dequeueCalled called
  | popped {node} : Follows called (.popped node) (holding node)
  | lookedUp {node} : Follows (holding node) (.lookedUp node) (lookingUp node)
  | consumed {listener node} : Follows (lookingUp node) (.consumed listener node) consuming
  | unknownQueue {node} : Follows (lookingUp node) (.unknownQueue node) idle
  | consumeReturned : Follows consuming .consumeReturned served
  | capacityNotified : Follows served .capacityNotified idle
  | foreign {round x} (silent : x.ofConsumer = false) : Follows round x round

def pending : Round Key Value → List (QueueNode Key Value)
  | holding node => [node]
  | lookingUp node => [node]
  | _ => []

def Undecided (round : Round Key Value) : Prop :=
  round = called ∨ ∃ node, round = holding node ∨ round = lookingUp node

/-- Where a round can be when the consumer drops it over a stop request. -/
def Droppable (round : Round Key Value) : Prop :=
  round = idle ∨ round = called ∨ ∃ node, round = holding node

end Round

inductive Rounds : List (Entry Key Value Listener ι) → Round Key Value → Prop where
  | nil : Rounds [] Round.idle
  | concat {log round x next} (before : Rounds log round) (follows : round.Follows x next) :
      Rounds (log ++ [x]) next

section Rounds
variable {log : List (Entry Key Value Listener ι)} {round : Round Key Value}

/-- Elements are decided on in the order in which they are popped. -/
theorem pops_eq_outcomes_pending (h : Rounds log round) :
    pops log = (outcomes log).map Prod.snd ++ round.pending := by
  induction h with
  | nil => rfl
  | concat before follows ih =>
    rw [pops_append, outcomes_append, ih]
    cases follows with
    | foreign silent =>
      obtain ⟨pop, outcome, _⟩ := foreign_reads [] silent
      simp [pops, outcomes, pop, outcome]
    | _ => simp [pops, outcomes, List.filterMap_cons, Entry.pop?, Entry.outcome?, Round.pending]

theorem current_pops_undecided (h : Rounds log round) (undecided : round.Undecided) :
    currentPops log = round.pending := by
  induction h with
  | nil => simp [Round.Undecided] at undecided
  | concat before follows ih =>
    cases follows with
    | foreign silent => rw [(foreign_reads _ silent).2.2, ih undecided]
    | dequeueCalled => rw [current_pops_concat]; rfl
    | popped => rw [current_pops_concat, ih (Or.inl rfl)]; rfl
    | lookedUp => rw [current_pops_concat]; exact ih (Or.inr ⟨_, Or.inl rfl⟩)
    | _ => simp [Round.Undecided] at undecided

theorem current_pops_le_one (h : Rounds log round) : (currentPops log).length ≤ 1 := by
  induction h with
  | nil => simp [currentPops]
  | concat before follows ih =>
    cases follows with
    | foreign silent => rwa [(foreign_reads _ silent).2.2]
    | dequeueCalled => simp [current_pops_concat]
    | popped => simp [current_pops_concat, current_pops_undecided before (Or.inl rfl), Round.pending]
    | _ => rw [current_pops_concat]; exact ih

end Rounds

namespace QueuePool
variable {T : DefaultTraits Key Value Listener}

/-- The round the consumer is in, told from where it stands. After a wait that has
    ended without a value there is a stop request, and no way past `checkStop`. -/
def AtRound (s : QueuePool T ι) (round : Round Key Value) : Prop :=
  match s.consumer.pc with
  | .getStopToken => round = .idle
  | .increaseConsumersLeft => round = .idle
  | .loopHead => round = .idle ∨ s.stopCommand = true ∧ round.Droppable
  | .dequeue => round = .called
  | .lockConsume => round = .called
  | .testDequeue => round = .called
  | .testStop => round = if s.consumer.hasValue then .holding s.consumer.node else .called
  | .blockConsume => round = .called
  | .waitConsume => round = .called
  | .unlockConsume => (s.consumer.hasValue = true ∨ s.stopCommand = true) ∧
      round = if s.consumer.hasValue then .holding s.consumer.node else .called
  | .checkStop => (s.consumer.hasValue = true ∨ s.stopCommand = true) ∧
      round = if s.consumer.hasValue then .holding s.consumer.node else .called
  | .lookup => round = .holding s.consumer.node
  | .getFromMap _ => round = .lookingUp s.consumer.node
  | .testListener _ => round = .lookingUp s.consumer.node
  | .consuming _ => round = .consuming
  | .startEndCapacityEvent => round = .served
  | .decreaseConsumersLeft => s.stopCommand = true ∧ round.Droppable
  | .decreasing _ => s.stopCommand = true ∧ round.Droppable
  | .finished => s.stopCommand = true ∧ round.Droppable

def InRound (s : QueuePool T ι) (log : List (Entry Key Value Listener ι)) : Prop :=
  ∃ round, Rounds log round ∧ s.AtRound round

section Steps
variable {s s' : QueuePool T ι} {log : List (Entry Key Value Listener ι)}
  {out : Option (Entry Key Value Listener ι)} {round : Round Key Value}

theorem at_round_of_same (h : s.AtRound round) (consumer : s'.consumer = s.consumer)
    (stop : s.stopCommand = true → s'.stopCommand = true) : s'.AtRound round := by
  unfold AtRound at h ⊢
  rw [consumer]
  cases pc : s.consumer.pc <;> simp only [pc] at h ⊢
  case loopHead => exact h.imp_right fun dropped => ⟨stop dropped.1, dropped.2⟩
  case unlockConsume | checkStop => exact ⟨h.1.imp_right stop, h.2⟩
  case decreaseConsumersLeft | decreasing | finished => exact ⟨stop h.1, h.2⟩
  all_goals exact h

theorem rounds_foreign (h : Rounds log round) (silent : ∀ x, out = some x → x.ofConsumer = false) :
    Rounds (log ++ out.toList) round := by
  cases out with
  | none => simpa using h
  | some x => exact Rounds.concat h (Round.Follows.foreign (silent x rfl))

theorem in_round_next {x : Entry Key Value Listener ι} {next : Round Key Value}
    (rounds : Rounds log round) (follows : round.Follows x next) (there : s'.AtRound next) :
    s'.InRound (log ++ (some x).toList) :=
  ⟨next, Rounds.concat rounds follows, there⟩

theorem in_round_silent (rounds : Rounds log round) (there : s'.AtRound round) :
    s'.InRound (log ++ (none : Option (Entry Key Value Listener ι)).toList) :=
  ⟨round, by simpa using rounds, there⟩

variable [DecidableEq ι]

theorem client_writes_no_round {t : ι} (move : ClientMove s t s' out) :
    ∀ x, out = some x → x.ofConsumer = false := by
  cases move <;> simp [Entry.ofConsumer]

theorem client_writes_no_outcome {t : ι} (move : ClientMove s t s' out) :
    outcomes out.toList = [] := by
  cases out with
  | none => rfl
  | some x => simp [outcomes, (foreign_reads [] (client_writes_no_round move x rfl)).2.1]

theorem consumer_in_round {woken : Option ι} (rounds : Rounds log round) (h : s.AtRound round)
    (move : ConsumerMove s woken s' out) : s'.InRound (log ++ out.toList) := by
  cases move with
  | loopEnter pc stop =>
    have idle : round = .idle := by simpa [AtRound, pc, stop] using h
    subst idle
    exact in_round_next rounds Round.Follows.dequeueCalled rfl
  | pop pc taken =>
    rcases pc with ⟨pc, rfl⟩ | ⟨pc, rfl⟩
    all_goals
      simp only [AtRound, pc] at h
      subst h
      exact in_round_next rounds Round.Follows.popped (by simp [AtRound])
  | miss pc empty =>
    rcases pc with ⟨pc, rfl⟩ | ⟨pc, rfl⟩
    all_goals
      simp only [AtRound, pc] at h
      exact in_round_silent rounds (by simp [AtRound, h])
  | testTrue pc holds =>
    simp only [AtRound, pc] at h
    exact in_round_silent rounds ⟨holds, h⟩
  | testFalse pc value stop =>
    simp only [AtRound, pc, value] at h
    exact in_round_silent rounds h
  | checkStopped pc stop =>
    simp only [AtRound, pc] at h
    refine in_round_silent rounds (Or.inr ⟨stop, ?_⟩)
    rw [h.2]
    split
    · exact Or.inr (Or.inr ⟨_, rfl⟩)
    · exact Or.inr (Or.inl rfl)
  | checkPassed pc stop =>
    simp only [AtRound, pc] at h
    have value : s.consumer.hasValue = true := h.1.resolve_right (by simp [stop])
    rw [value, if_pos rfl] at h
    exact in_round_silent rounds h.2
  | lookup pc | consume pc | consumeReturn pc =>
    simp only [AtRound, pc] at h
    subst h
    exact in_round_next rounds (by constructor) rfl
  | unknownQueue pc | capacityEvent pc =>
    simp only [AtRound, pc] at h
    subst h
    exact in_round_next rounds (by constructor) (Or.inl rfl)
  | increase pc =>
    simp only [AtRound, pc] at h
    exact in_round_silent rounds (Or.inl h)
  | loopExit pc stop =>
    simp only [AtRound, pc] at h
    exact in_round_silent rounds ⟨stop, h.elim Or.inl And.right⟩
  | _ pc =>
    simp only [AtRound, pc] at h
    exact in_round_silent rounds h

theorem in_round_step {a : Action Key Value Listener ι} (h : s.InRound log)
    (step : s.step a = some (s', out)) : s'.InRound (log ++ out.toList) := by
  obtain ⟨round, rounds, there⟩ := h
  have stays : s'.consumer = s.consumer → (∀ x, out = some x → x.ofConsumer = false) →
      s'.InRound (log ++ out.toList) := fun same silent =>
    ⟨round, rounds_foreign rounds silent, at_round_of_same there same (step_keeps_stop step)⟩
  cases step_moves step with
  | client move => exact stays (client_keeps_consumer move) (client_writes_no_round move)
  | consumer move => exact consumer_in_round rounds there move
  | call => exact stays rfl (by simp [Entry.ofConsumer])
  | wakeProducer | wakeWaiter | wakeConsumer => exact stays rfl (by simp)

end Steps

end QueuePool

theorem in_round_run [DecidableEq ι] {T : DefaultTraits Key Value Listener}
    {sign : Option (SignConsumerFinished ι)} {junk : QueueNode Key Value} {s : QueuePool T ι}
    {log : List (Entry Key Value Listener ι)} (run : (poolMachine T sign junk).Reachable s log) :
    s.InRound log := by
  refine Machine.reach_invariant ⟨_, Rounds.nil, rfl⟩ ?_ run
  intro s log a s' out _ h _ step
  exact QueuePool.in_round_step h step

end MappedQueue
