import MappedQueue.Completion
import MappedQueue.ProducerWakeUp

/-!
Producers asleep when the pool stops. Stopping notifies the consumer's condition
variable and never the producers'. After the request the consumer sends one notification
at most, for an element that it has already carried past its last stop test, so whoever
else sleeps by then, or is put to sleep later by its wait predicate, sleeps on for good.
-/
namespace MappedQueue
open Concurrency

variable {Key Value Listener ι : Type} {T : DefaultTraits Key Value Listener}

def StopReturned (log : List (Entry Key Value Listener ι)) : Prop :=
  ∃ c call, call ≠ .waitForConsumersFinished ∧ .returned c (.finish call) ∈ log

namespace QueuePool

def ReleasesProducers (s : QueuePool T ι) (log : List (Entry Key Value Listener ι)) : Prop :=
  s.consumer.pc.leftFunction = true → StopReturned log → s.enqueueCondvar.blocked = []

def atBlock (s : QueuePool T ι) (t : ι) : Bool :=
  match (s.clients t).pc with
  | .enqueue _ .block => true
  | _ => false

/-- `t` has pushed in its wait predicate, which asked for more waiting, and nothing has
    woken it since. -/
def Dozes (s : QueuePool T ι) (t : ι) : Prop :=
  t ∈ s.enqueueCondvar.blocked ∨ s.atBlock t = true

def OneToTell (s : QueuePool T ι) : Prop :=
  ∀ t, s.Dozes t → s.capacityEventAhead = true ∧ ∀ u, s.Dozes u → u = t

variable {capacity : Nat} {M : MapTraits Key Listener}

def PushesLast (s : QueuePool (lockfree Value capacity M) ι) : Prop :=
  s.stopCommand = true → s.contents.length < capacity →
    s.capacityEventAhead = true ∧ ∀ u, ¬ s.Dozes u

/-- The stop is requested while one producer dozes at most, whom the consumer is about to
    notify. After it no wait predicate puts another one to sleep, and the notification
    neither comes before the producer has blocked nor is dropped over a null answer. -/
def StopsOverTold (s : QueuePool (lockfree Value capacity M) ι) :
    Action Key Value Listener ι → Prop
  | .client t =>
    match (s.clients t).pc with
    | .finish _ .requestStop => s.OneToTell
    | .enqueue _ .test => s.PushesLast
    | .enqueue _ (.retest _) => s.PushesLast
    | _ => True
  | .consumer woken => s.stopCommand = true →
    (s.consumer.pc = .startEndCapacityEvent → ∀ t, s.atBlock t = false) ∧
      (s.lookupMisses (.consumer woken) = true → ∀ t, ¬ s.Dozes t)
  | _ => True

section Decisions

instance {Map : Type} (pc : ConsumerPc Map Listener) : Decidable (pc = .startEndCapacityEvent) := by
  rcases pc with ⟨⟩ <;> first | exact isTrue rfl | exact isFalse nofun

variable [Fintype ι] [DecidableEq ι]

instance (s : QueuePool T ι) (t : ι) : Decidable (s.Dozes t) :=
  inferInstanceAs (Decidable (_ ∨ _))

instance (s : QueuePool T ι) : Decidable s.OneToTell :=
  inferInstanceAs (Decidable (∀ t, s.Dozes t → s.capacityEventAhead = true ∧ ∀ u, s.Dozes u → u = t))

instance (s : QueuePool (lockfree Value capacity M) ι) : Decidable s.PushesLast :=
  inferInstanceAs (Decidable (s.stopCommand = true → s.contents.length < capacity →
    s.capacityEventAhead = true ∧ ∀ u, ¬ s.Dozes u))

instance (s : QueuePool (lockfree Value capacity M) ι) (a : Action Key Value Listener ι) :
    Decidable (s.StopsOverTold a) := by
  rcases a with _ | t | woken | _ | _ | _
  case client =>
    dsimp only [StopsOverTold]
    generalize (s.clients t).pc = pc
    rcases pc with _ | ⟨node, pos⟩ | _ | ⟨call, pos⟩
    case enqueue => rcases pos with ⟨⟩ <;> infer_instance
    case finish => rcases pos with ⟨⟩ <;> infer_instance
    all_goals infer_instance
  case consumer =>
    dsimp only [StopsOverTold]
    infer_instance
  all_goals exact isTrue trivial

end Decisions

section Steps
variable [DecidableEq ι] {s s' : QueuePool T ι} {out : Option (Entry Key Value Listener ι)}
  {a : Action Key Value Listener ι} {t u : ι}

omit [DecidableEq ι] in
theorem at_block_iff : s.atBlock t = true ↔ ∃ node, (s.clients t).pc = .enqueue node .block := by
  unfold atBlock
  split <;> simp_all

omit [DecidableEq ι] in
theorem one_to_tell_of_fewer (told : s.OneToTell) (fewer : ∀ u, s'.Dozes u → s.Dozes u)
    (same : s'.capacityEventAhead = s.capacityEventAhead) : s'.OneToTell := by
  intro u dozes
  obtain ⟨ahead, only⟩ := told u (fewer u dozes)
  exact ⟨same.trans ahead, fun v dozes' => only v (fewer v dozes')⟩

theorem consumer_leaves_at_loop_head {woken : Option ι} (move : ConsumerMove s woken s' out)
    (left : s'.consumer.pc.leftFunction = true) :
    s.consumer.pc.leftFunction = true ∨ s.consumer.pc = .loopHead ∧ s.stopCommand = true := by
  cases move with
  | loopExit pc stop => exact Or.inr ⟨pc, stop⟩
  | noSign pc | decrease pc | decreaseStep pc | decreaseReturn pc =>
    exact Or.inl (by simp [pc, ConsumerPc.leftFunction])
  | pop pc | miss pc =>
    rcases pc with ⟨_, rfl⟩ | ⟨_, rfl⟩ <;> simp [ConsumerPc.leftFunction] at left
  | _ => simp [consumerAt, ConsumerPc.leftFunction] at left

theorem leaves_after_stop (h : s.consumer.pc.leftFunction = true → s.stopCommand = true)
    (step : s.step a = some (s', out)) (left : s'.consumer.pc.leftFunction = true) :
    s'.stopCommand = true := by
  refine step_keeps_stop step ?_
  cases step_moves step with
  | client move => exact h (client_keeps_consumer move ▸ left)
  | consumer move =>
    rcases consumer_leaves_at_loop_head move left with already | ⟨_, stop⟩
    · exact h already
    · exact stop
  | call | wakeProducer | wakeWaiter | wakeConsumer => exact h left

omit [DecidableEq ι] in
theorem left_tells_nobody (left : s.consumer.pc.leftFunction = true) :
    s.capacityEventAhead = false := by
  unfold ConsumerPc.leftFunction at left
  unfold capacityEventAhead
  split at left <;> simp_all

theorem client_keeps_ahead (move : ClientMove s t s' out) :
    s'.capacityEventAhead = s.capacityEventAhead := by
  unfold capacityEventAhead
  rw [client_keeps_consumer move]

/-- With the stop requested, no element gets past the last stop test any more, and one that
    has is dropped over a null answer only. -/
theorem consumer_ahead_after_stop {woken : Option ι} (move : ConsumerMove s woken s' out)
    (stop : s.stopCommand = true) :
    s'.capacityEventAhead = s.capacityEventAhead ∨ s'.capacityEventAhead = false ∧
      (s.lookupMisses (.consumer woken) = true ∨ s.consumer.pc = .startEndCapacityEvent) := by
  cases move with
  | checkPassed pc running => simp [stop] at running
  | capacityEvent pc notify => exact Or.inr ⟨rfl, Or.inr pc⟩
  | lookup pc =>
    cases null : answersNull (T.mapTraits.getFromMap s.consumer.node.key) with
    | true =>
      have missed : s.lookupMisses (.consumer woken) = true := by simp [lookupMisses, pc, null]
      exact Or.inr ⟨by simp [capacityEventAhead, null], Or.inl missed⟩
    | false => exact Or.inl (by simp [capacityEventAhead, pc, null])
  | @mapSection update next pc =>
    have ahead : s.capacityEventAhead = true := by simp [capacityEventAhead, pc, answersNull]
    cases null : answersNull (next s.map) with
    | true =>
      have missed : s.lookupMisses (.consumer woken) = true := by simp [lookupMisses, pc, null]
      exact Or.inr ⟨by simp [capacityEventAhead, null], Or.inl missed⟩
    | false => exact Or.inl (by rw [ahead]; simp [capacityEventAhead, null])
  | @mapReturn listener pc =>
    cases listener <;> exact Or.inl (by simp [capacityEventAhead, pc, answersNull])
  | pop pc | miss pc =>
    rcases pc with ⟨pc, rfl⟩ | ⟨pc, rfl⟩ <;> exact Or.inl (by simp [capacityEventAhead, pc])
  | _ pc => exact Or.inl (by simp [capacityEventAhead, pc])

theorem client_keeps_dozing (move : ClientMove s t s' out) (dozes : s.Dozes u) : s'.Dozes u := by
  rcases dozes with asleep | pushed
  · cases move with
    | block => exact Or.inl (List.mem_cons_of_mem _ asleep)
    | _ => exact Or.inl asleep
  · obtain ⟨node, pc⟩ := at_block_iff.mp pushed
    by_cases own : u = t
    · subst own
      cases move with
      | block => exact Or.inl List.mem_cons_self
      | predicatePush pc' testing | predicateRefused pc' testing =>
        rcases testing with rfl | ⟨_, rfl⟩ <;> simp [pc] at pc'
      | _ pc' => simp [pc] at pc'
    · exact Or.inr (at_block_iff.mpr ⟨node, (client_keeps_others move own).1 ▸ pc⟩)

theorem client_dozes (move : ClientMove s t s' out) (dozes : s'.Dozes u) :
    s.Dozes u ∨ u = t ∧ ∃ node pos queue, (s.clients t).pc = .enqueue node pos ∧
      (pos = .test ∨ ∃ notified, pos = .retest notified) ∧
      T.queueTraits.enqueue s.queue node = (queue, true) := by
  by_cases own : u = t
  · subst own
    cases move with
    | predicatePush pc testing push => exact Or.inr ⟨rfl, _, _, _, pc, testing, push⟩
    | block pc => exact Or.inl (Or.inr (at_block_iff.mpr ⟨_, pc⟩))
    | _ => exact Or.inl (dozes.imp id fun pushed => by simp [atBlock] at pushed)
  · obtain ⟨client, blocked⟩ := client_keeps_others move own
    refine Or.inl (dozes.imp blocked fun pushed => ?_)
    rwa [atBlock, client] at pushed

theorem consumer_keeps_at_block {woken : Option ι} (move : ConsumerMove s woken s' out) :
    s'.atBlock u = s.atBlock u := by
  unfold atBlock
  rw [consumer_keeps_clients move]

theorem consumer_dozes {woken : Option ι} (move : ConsumerMove s woken s' out) :
    (s'.Dozes u → s.Dozes u) ∧
      (s.Dozes u → s'.Dozes u ∨ s.consumer.pc = .startEndCapacityEvent) := by
  constructor
  · exact Or.imp (consumer_keeps_blocked move) fun pushed => consumer_keeps_at_block move ▸ pushed
  · rintro (asleep | pushed)
    · cases move with
      | capacityEvent pc notify => exact Or.inr pc
      | _ => exact Or.inl (Or.inl asleep)
    · exact Or.inl (Or.inr (consumer_keeps_at_block move ▸ pushed))

end Steps

section Stopping
variable [DecidableEq ι] {s s' : QueuePool (lockfree Value capacity M) ι}
  {out : Option (Entry Key Value Listener ι)} {a : Action Key Value Listener ι} {t : ι}

theorem client_one_to_tell (h : s.stopCommand = true → s.OneToTell)
    (stops : s.StopsOverTold (.client t)) (move : ClientMove s t s' out)
    (stop : s'.stopCommand = true) : s'.OneToTell := by
  have before : s.OneToTell := by
    cases running : s.stopCommand with
    | true => exact h running
    | false =>
      cases move with
      | requestStop pc => simpa [StopsOverTold, pc] using stops
      | _ => exact absurd (running.symm.trans stop) Bool.false_ne_true
  have lasts : (∃ u, s'.Dozes u ∧ ¬ s.Dozes u) →
      s.capacityEventAhead = true ∧ ∀ u, ¬ s.Dozes u := by
    rintro ⟨u, dozes, awake⟩
    obtain ⟨rfl, node, pos, queue, pc, testing, push⟩ := (client_dozes move dozes).resolve_left awake
    have room := (accepts_iff_room s node).mp (by rw [push])
    have late : s.stopCommand = true := by
      cases move with
      | requestStop pc' => simp [pc] at pc'
      | _ => exact stop
    rcases testing with rfl | ⟨notified, rfl⟩
    · simp only [StopsOverTold, pc] at stops
      exact stops late room
    · simp only [StopsOverTold, pc] at stops
      exact stops late room
  by_cases new : ∃ v, s'.Dozes v ∧ ¬ s.Dozes v
  · obtain ⟨ahead, nobody⟩ := lasts new
    intro u dozes
    refine ⟨(client_keeps_ahead move).trans ahead, ?_⟩
    intro v dozes'
    rw [((client_dozes move dozes').resolve_left (nobody v)).1,
      ((client_dozes move dozes).resolve_left (nobody u)).1]
  · refine one_to_tell_of_fewer before ?_ (client_keeps_ahead move)
    intro v dozes'
    by_contra awake
    exact new ⟨v, dozes', awake⟩

theorem consumer_one_to_tell {woken : Option ι} (h : s.OneToTell)
    (stops : s.StopsOverTold (.consumer woken)) (move : ConsumerMove s woken s' out)
    (stop : s.stopCommand = true) : s'.OneToTell := by
  intro u dozes
  have dozed : s.Dozes u := (consumer_dozes move).1 dozes
  obtain ⟨ahead, only⟩ := h u dozed
  have alone : ∀ v, s'.Dozes v → v = u := fun v dozes' => only v ((consumer_dozes move).1 dozes')
  rcases consumer_ahead_after_stop move stop with kept | ⟨_, missed | pc⟩
  · exact ⟨kept.trans ahead, alone⟩
  · exact absurd dozed ((stops stop).2 missed u)
  · -- the notification finds the one sleeper there is
    have blocked := (stops stop).1 pc
    have asleep : u ∈ s.enqueueCondvar.blocked := dozed.resolve_right (by simp [blocked u])
    cases move with
    | capacityEvent pc' notify =>
      exfalso
      rcases CondVar.notifyOne_cases notify with ⟨nobody, _⟩ | ⟨v, sleeps, rfl⟩
      · simp [nobody] at asleep
      · have same := only v (Or.inl sleeps)
        rcases dozes with still | pushed
        · simp [same] at still
        · have pushed' : s.atBlock u = true := pushed
          simp [blocked u] at pushed'
    | pop pc' | miss pc' => rcases pc' with ⟨pc', _⟩ | ⟨pc', _⟩ <;> simp [pc] at pc'
    | _ pc' => simp [pc] at pc'

theorem one_to_tell_step (h : s.stopCommand = true → s.OneToTell) (stops : s.StopsOverTold a)
    (step : s.step a = some (s', out)) (stop : s'.stopCommand = true) : s'.OneToTell := by
  cases step_moves step with
  | client move => exact client_one_to_tell h stops move stop
  | consumer move =>
    have before : s.stopCommand = true := by
      cases move <;> exact stop
    exact consumer_one_to_tell (h before) stops move before
  | @call t call pc alive =>
    have kept : ∀ u, (s.goto t (entrance call)).Dozes u → s.Dozes u := by
      intro u dozes
      refine dozes.imp id fun pushed => ?_
      by_cases own : u = t
      · subst own
        cases call with
        | finish call => cases call <;> simp [atBlock, entrance] at pushed
        | _ => simp [atBlock, entrance] at pushed
      · simpa [atBlock, own] using pushed
    exact one_to_tell_of_fewer (h stop) kept rfl
  | @wakeProducer t =>
    have kept : ∀ u, QueuePool.Dozes { s with enqueueCondvar := s.enqueueCondvar.wake t } u →
        s.Dozes u :=
      fun u dozes => dozes.imp (fun asleep => ((CondVar.mem_blocked_wake ..).mp asleep).1) id
    exact one_to_tell_of_fewer (h stop) kept rfl
  | wakeWaiter | wakeConsumer => exact h stop

omit [DecidableEq ι] in
theorem untold_of_dozing {u : ι} (dozes : s.Dozes u) (silent : s.capacityEventAhead = false) :
    ¬ s.OneToTell := by
  intro told
  exact Bool.false_ne_true (silent.symm.trans (told u dozes).1)

theorem late_push_untold {node : QueueNode Key Value} {pos : EnqueuePc}
    (sleepers : s.SleepersWait) (pc : (s.clients t).pc = .enqueue node pos)
    (testing : pos = .test ∨ ∃ notified, pos = .retest notified) (late : ¬ s.PushesLast)
    (move : ClientMove s t s' out) : s'.stopCommand = true ∧ ¬ s'.OneToTell := by
  simp only [PushesLast, not_forall] at late
  obtain ⟨stop, room, crowded⟩ := late
  have awake : ¬ s.Dozes t := by
    rintro (asleep | pushed)
    · obtain ⟨node', pc'⟩ := sleepers.waiting t (Or.inl asleep)
      rcases testing with rfl | ⟨_, rfl⟩ <;> simp [pc] at pc'
    · obtain ⟨node', pc'⟩ := at_block_iff.mp pushed
      rcases testing with rfl | ⟨_, rfl⟩ <;> simp [pc] at pc'
  have pushes : s'.stopCommand = true ∧ s'.Dozes t := by
    cases move with
    | predicatePush => exact ⟨stop, Or.inr (by simp [atBlock])⟩
    | predicateRefused pc' testing' push =>
      obtain ⟨full, rfl⟩ := BoundedQueue.boundedPush_refuses push
      exact absurd room (Nat.not_lt_of_ge (Nat.le_of_eq full.symm))
    | _ pc' => rcases testing with rfl | ⟨_, rfl⟩ <;> simp [pc] at pc'
  refine ⟨pushes.1, fun told => crowded ?_⟩
  obtain ⟨ahead, only⟩ := told t pushes.2
  refine ⟨client_keeps_ahead move ▸ ahead, fun u dozes => awake ?_⟩
  exact only u (client_keeps_dozing move dozes) ▸ dozes

/-- A step against the condition leaves, with the stop requested, somebody untold. -/
theorem untold_begins (sleepers : s.SleepersWait) (broken : ¬ s.StopsOverTold a)
    (step : s.step a = some (s', out)) : s'.stopCommand = true ∧ ¬ s'.OneToTell := by
  cases step_moves step with
  | @client t _ _ move =>
    simp only [StopsOverTold] at broken
    split at broken
    · rename_i call pc
      refine ⟨?_, fun told => broken (one_to_tell_of_fewer told
        (fun u dozes => client_keeps_dozing move dozes) (client_keeps_ahead move).symm)⟩
      cases move with
      | requestStop => rfl
      | predicatePush pc' testing | predicateRefused pc' testing => simp [pc] at pc'
      | _ pc' => simp [pc] at pc'
    · rename_i node pc
      exact late_push_untold sleepers pc (Or.inl rfl) broken move
    · rename_i node notified pc
      exact late_push_untold sleepers pc (Or.inr ⟨notified, rfl⟩) broken move
    · exact absurd trivial broken
  | @consumer woken _ _ move =>
    simp only [StopsOverTold, not_forall, not_and_or] at broken
    obtain ⟨stop, ⟨pc, u, pushed⟩ | ⟨missed, u, dozes⟩⟩ := broken
    · refine ⟨step_keeps_stop step stop, untold_of_dozing (u := u) ?_ ?_⟩
      · exact Or.inr ((consumer_keeps_at_block move).trans (Bool.not_eq_false _ ▸ pushed))
      · cases move with
        | capacityEvent => rfl
        | pop pc' | miss pc' => rcases pc' with ⟨pc', _⟩ | ⟨pc', _⟩ <;> simp [pc] at pc'
        | _ pc' => simp [pc] at pc'
    · have dozes := not_not.mp dozes
      refine ⟨step_keeps_stop step stop, untold_of_dozing (u := u) ?_ ?_⟩
      · refine ((consumer_dozes move).2 dozes).resolve_right fun pc => ?_
        simp [lookupMisses, pc] at missed
      · cases move with
        | lookup pc =>
          simp only [lookupMisses, pc] at missed
          simp [capacityEventAhead, missed]
        | mapSection pc =>
          simp only [lookupMisses, pc] at missed
          simp [capacityEventAhead, missed]
        | pop pc' | miss pc' =>
          rcases pc' with ⟨pc', _⟩ | ⟨pc', _⟩ <;> simp [lookupMisses, pc'] at missed
        | _ pc' => simp [lookupMisses, pc'] at missed
  | call | wakeProducer | wakeWaiter | wakeConsumer => exact absurd trivial broken

end Stopping

section Sleeping
variable [DecidableEq ι] {s s' : QueuePool T ι} {out : Option (Entry Key Value Listener ι)}
  {a : Action Key Value Listener ι} {woken : Option ι}

theorem notification_wakes_one (move : ConsumerMove s woken s' out)
    (pc : s.consumer.pc = .startEndCapacityEvent) (nobody : ∀ u, ¬ s'.Dozes u) : s.OneToTell := by
  have ahead : s.capacityEventAhead = true := by simp [capacityEventAhead, pc]
  have awake : ∀ u, s.atBlock u = false := fun u =>
    Bool.eq_false_iff.mpr fun pushed =>
      nobody u (Or.inr ((consumer_keeps_at_block move).trans pushed))
  intro u dozes
  refine ⟨ahead, fun v dozes' => ?_⟩
  have asleep : u ∈ s.enqueueCondvar.blocked := dozes.resolve_right (by simp [awake u])
  have asleep' : v ∈ s.enqueueCondvar.blocked := dozes'.resolve_right (by simp [awake v])
  cases move with
  | capacityEvent pc' notify =>
    rcases CondVar.notifyOne_cases notify with ⟨empty, _⟩ | ⟨t, _, rfl⟩
    · simp [empty] at asleep
    · have woken : ∀ w ∈ s.enqueueCondvar.blocked, w = t := by
        intro w sleeps
        by_contra other
        exact nobody w (Or.inl (List.mem_filter.mpr ⟨sleeps, by simp [other]⟩))
      rw [woken u asleep, woken v asleep']
  | pop pc' | miss pc' => rcases pc' with ⟨pc', _⟩ | ⟨pc', _⟩ <;> simp [pc] at pc'
  | _ pc' => simp [pc] at pc'

/-- Once the stop has been requested with somebody untold, somebody is untold for good,
    short of a spurious wake-up. -/
theorem untold_stays (stop : s.stopCommand = true) (untold : ¬ s.OneToTell)
    (spurious : ∀ t, a ≠ .wakeProducer t) (step : s.step a = some (s', out)) :
    s'.stopCommand = true ∧ ¬ s'.OneToTell := by
  refine ⟨step_keeps_stop step stop, fun told => untold ?_⟩
  cases step_moves step with
  | client move =>
    exact one_to_tell_of_fewer told (fun u dozes => client_keeps_dozing move dozes)
      (client_keeps_ahead move).symm
  | consumer move =>
    by_cases pc : s.consumer.pc = .startEndCapacityEvent
    · refine notification_wakes_one move pc fun u dozes => ?_
      have ahead := (told u dozes).1
      cases move with
      | capacityEvent => exact absurd ahead Bool.false_ne_true
      | pop pc' | miss pc' => rcases pc' with ⟨pc', _⟩ | ⟨pc', _⟩ <;> simp [pc] at pc'
      | _ pc' => simp [pc] at pc'
    · have kept : ∀ u, s.Dozes u → s'.Dozes u := fun u dozes =>
        ((consumer_dozes move).2 dozes).resolve_right pc
      intro u dozes
      obtain ⟨ahead, only⟩ := told u (kept u dozes)
      have before : s'.capacityEventAhead = s.capacityEventAhead :=
        (consumer_ahead_after_stop move stop).resolve_right fun lost => by simp [lost.1] at ahead
      exact ⟨before ▸ ahead, fun v dozes' => only v (kept v dozes')⟩
  | @call t call pc alive =>
    have kept : ∀ u, s.Dozes u → (s.goto t (entrance call)).Dozes u := by
      intro u dozes
      refine dozes.imp id fun pushed => ?_
      obtain ⟨node, pc'⟩ := at_block_iff.mp pushed
      have other : u ≠ t := by
        rintro rfl
        simp [pc] at pc'
      exact at_block_iff.mpr ⟨node, by simpa [other] using pc'⟩
    exact one_to_tell_of_fewer told kept rfl
  | @wakeProducer t => exact absurd rfl (spurious t)
  | wakeWaiter | wakeConsumer => exact told

end Sleeping

end QueuePool

section Runs
variable [DecidableEq ι] {capacity : Nat} {M : MapTraits Key Listener}
  {sign : Option (SignConsumerFinished ι)} {junk : QueueNode Key Value}
  {s : QueuePool (lockfree Value capacity M) ι} {log : List (Entry Key Value Listener ι)}

theorem stop_releases_producers
    (run : (poolMachine (lockfree Value capacity M) sign junk).Reach
      (fun s _ a => s.StopsOverTold a) s log) : s.ReleasesProducers log := by
  have kept : (s.stopCommand = true → s.OneToTell) ∧
      (s.consumer.pc.leftFunction = true → s.stopCommand = true) := by
    refine Machine.reach_invariant (I := fun s _ => (s.stopCommand = true → s.OneToTell) ∧
      (s.consumer.pc.leftFunction = true → s.stopCommand = true)) ?_ ?_ run
    · exact ⟨fun stop => absurd stop Bool.false_ne_true, fun left => absurd left Bool.false_ne_true⟩
    · rintro s log a s' out _ ⟨told, leaves⟩ stops step
      exact ⟨QueuePool.one_to_tell_step told stops step, QueuePool.leaves_after_stop leaves step⟩
  intro left _
  refine List.eq_nil_iff_forall_not_mem.mpr fun t asleep => ?_
  have ahead := (kept.1 (kept.2 left) t (Or.inl asleep)).1
  simp [QueuePool.left_tells_nobody left] at ahead

end Runs

section Schedules
open QueuePool

/-- The stop is requested during a `Consume`, over a producer asleep. The notification after
    it wakes the producer, which finds the queue full and returns. -/
theorem producer_released_before_stop :
    ∃ s log, oneSlot.Reach (fun s _ a => s.StopsOverTold a) s log ∧
      (s.consumer.pc.leftFunction = true ∧ .returned (0, 2) (.finish .stopProcessing) ∈ log ∧
        .returned (1, 0) (.enqueue ⟨1, 20⟩) ∈ log) ∧ s.ReleasesProducers log := by
  obtain ⟨s, log, run, gone⟩ := Machine.reach_of_exec oneSlot (fun s _ a => s.StopsOverTold a)
    [.call 0 (.subscribe 1 (some 7)), .client 0, .call 0 (.enqueue ⟨1, 10⟩), .client 0, .client 0,
      .call 1 (.enqueue ⟨1, 20⟩), .client 1, .client 1, .consumer none, .consumer none,
      .consumer none, .consumer none, .client 1, .client 1, .consumer none, .consumer none,
      .consumer none, .consumer none, .consumer none, .call 0 (.finish .stopProcessing), .client 0,
      .client 0, .client 0, .consumer none, .consumer (some 1), .client 1, .client 1, .client 1,
      .client 1, .consumer none]
    (fun s log => s.consumer.pc.leftFunction = true ∧
      .returned (0, 2) (.finish .stopProcessing) ∈ log ∧
      .returned (1, 0) (.enqueue ⟨1, 20⟩) ∈ log) (by decide)
  exact ⟨s, log, run, gone, stop_releases_producers run⟩

/-- The consumer drops the element in its hands over the stop request, and the producer
    that its pop had let push sleeps on. -/
theorem producer_asleep_after_stop :
    ∃ s log, oneSlot.Reachable s log ∧ s.consumer.pc.leftFunction = true ∧
      .returned (0, 1) (.finish .stopProcessing) ∈ log ∧ s.enqueueCondvar.blocked = [1] ∧
      ¬ s.ReleasesProducers log := by
  obtain ⟨s, log, run, left, returned, asleep⟩ := Machine.reachable_of_exec oneSlot
    [.call 0 (.enqueue ⟨1, 10⟩), .client 0, .client 0, .call 1 (.enqueue ⟨1, 20⟩), .client 1,
      .client 1, .consumer none, .consumer none, .consumer none, .consumer none, .client 1,
      .client 1, .call 0 (.finish .stopProcessing), .client 0, .client 0, .client 0,
      .consumer none, .consumer none, .consumer none]
    (fun s log => s.consumer.pc.leftFunction = true ∧
      .returned (0, 1) (.finish .stopProcessing) ∈ log ∧ s.enqueueCondvar.blocked = [1])
    (by decide)
  refine ⟨s, log, run, left, returned, asleep, ?_⟩
  intro released
  have empty := released left ⟨(0, 1), .stopProcessing, by simp, returned⟩
  simp [asleep] at empty

end Schedules

end MappedQueue
