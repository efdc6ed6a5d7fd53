import Mathlib.Data.Fintype.Basic
import MappedQueue.PoolMoves

/-!
The consumer's sleep over the queue. Neither `StartHasValueEvent` nor
`StartDestructEvent` takes the mutex that the consumer holds from the test of its
wait condition until it is asleep, so a notification can come in between and wake
nobody. Runs in which none comes there lose no wake-up.
-/
namespace MappedQueue
open Concurrency

variable {Key Value Listener ι : Type} {T : DefaultTraits Key Value Listener}

namespace QueuePool

def consumerAsleep (s : QueuePool T ι) : Bool :=
  match s.consumer.pc with
  | .waitConsume => s.consumeCondvar
  | _ => false

def consumerInWindow (s : QueuePool T ι) : Bool :=
  match s.consumer.pc with
  | .testStop => !s.consumer.hasValue
  | .blockConsume => true
  | _ => false

theorem asleep_iff {s : QueuePool T ι} :
    s.consumerAsleep = true ↔ s.consumer.pc = .waitConsume ∧ s.consumeCondvar = true := by
  unfold consumerAsleep
  split <;> simp_all

/-- The `Enqueue` call of `t` has pushed, is not blocked, and still has its
    `StartHasValueEvent` to execute. -/
def OwesEvent (s : QueuePool T ι) (log : List (Entry Key Value Listener ι)) (t : ι) : Prop :=
  match (s.clients t).pc with
  | .enqueue node pos =>
    .pushed (s.callId t) node ∈ log ∧ ¬ (pos = .wait ∧ t ∈ s.enqueueCondvar.blocked)
  | _ => False

def enqueueInProgress (s : QueuePool T ι) (t : ι) : Bool :=
  match (s.clients t).pc with
  | .enqueue _ _ => true
  | _ => false

def NoLostWakeUp (s : QueuePool T ι) (log : List (Entry Key Value Listener ι)) : Prop :=
  s.stopCommand = false → s.contents ≠ [] → s.consumerAsleep = true → ∃ t, s.OwesEvent log t

/-- The invariant behind it takes in the consumer on its way to sleep. -/
def Guarded (s : QueuePool T ι) (log : List (Entry Key Value Listener ι)) : Prop :=
  s.stopCommand = false → s.contents ≠ [] →
    s.consumerInWindow = true ∨ s.consumerAsleep = true → ∃ t, s.OwesEvent log t

/-- With elements in the queue, a notification is not sent to a consumer on its way
    to sleep, and a producer that has pushed does not fall asleep itself with the
    consumer asleep or on its way, unless another producer has yet to notify. -/
def NotifiesAsleep (s : QueuePool T ι) (log : List (Entry Key Value Listener ι)) :
    Action Key Value Listener ι → Prop
  | .client t =>
    match (s.clients t).pc with
    | .enqueue _ .startHasValueEvent =>
      s.stopCommand = false → s.contents ≠ [] → s.consumerInWindow = true →
        ∃ u, u ≠ t ∧ s.OwesEvent log u
    | .enqueue _ .block =>
      s.stopCommand = false → s.contents ≠ [] →
        s.consumerInWindow = true ∨ s.consumerAsleep = true → ∃ u, u ≠ t ∧ s.OwesEvent log u
    | _ => True
  | _ => True

section Decisions
variable [Fintype ι] [DecidableEq ι] [DecidableEq Key] [DecidableEq Value] [DecidableEq Listener]

instance (s : QueuePool T ι) (log : List (Entry Key Value Listener ι)) (t : ι) :
    Decidable (s.OwesEvent log t) := by
  dsimp only [OwesEvent]
  generalize (s.clients t).pc = pc
  rcases pc with ⟨⟩ <;> infer_instance

instance (s : QueuePool T ι) (log : List (Entry Key Value Listener ι))
    (a : Action Key Value Listener ι) : Decidable (s.NotifiesAsleep log a) := by
  rcases a with _ | t | _ | _ | _ | _
  case client =>
    dsimp only [NotifiesAsleep]
    generalize (s.clients t).pc = pc
    rcases pc with _ | ⟨node, pos⟩ | _ | _
    case enqueue => rcases pos with ⟨⟩ <;> infer_instance
    all_goals infer_instance
  all_goals exact isTrue trivial

end Decisions

section Owing
variable {s s' : QueuePool T ι} {log : List (Entry Key Value Listener ι)}

theorem owes_iff {t : ι} : s.OwesEvent log t ↔ ∃ node pos, (s.clients t).pc = .enqueue node pos ∧
    .pushed (s.callId t) node ∈ log ∧ ¬ (pos = .wait ∧ t ∈ s.enqueueCondvar.blocked) := by
  unfold OwesEvent
  constructor
  · intro owes
    split at owes
    · rename_i node pos pc
      exact ⟨node, pos, pc, owes⟩
    · exact owes.elim
  · rintro ⟨node, pos, pc, owes⟩
    rw [pc]
    exact owes

theorem owes_of_same {out : Option (Entry Key Value Listener ι)} {t : ι}
    (owes : s.OwesEvent log t) (client : s'.clients t = s.clients t)
    (blocked : t ∈ s'.enqueueCondvar.blocked → t ∈ s.enqueueCondvar.blocked) :
    s'.OwesEvent (log ++ out.toList) t := by
  obtain ⟨node, pos, pc, pushed, awake⟩ := owes_iff.mp owes
  refine owes_iff.mpr ⟨node, pos, client ▸ pc, List.mem_append_left _ ?_, ?_⟩
  · rw [callId, client]
    exact pushed
  · exact fun asleep => awake ⟨asleep.1, blocked asleep.2⟩

theorem owes_awake {t : ι} {node : QueueNode Key Value} {pos : EnqueuePc}
    (client : s'.clients t = ⟨(s.clients t).calls, .enqueue node pos⟩)
    (pushed : .pushed (s.callId t) node ∈ log) (awake : pos ≠ .wait) : s'.OwesEvent log t := by
  refine owes_iff.mpr ⟨node, pos, by rw [client], ?_, fun asleep => awake asleep.1⟩
  rw [callId, client]
  exact pushed

variable [DecidableEq ι] {out : Option (Entry Key Value Listener ι)}

theorem client_keeps_own_owing {t : ι} (move : ClientMove s t s' out)
    (owes : s.OwesEvent log t) :
    s'.OwesEvent (log ++ out.toList) t ∨
      ∃ node, (s.clients t).pc = .enqueue node .startHasValueEvent ∨
        (s.clients t).pc = .enqueue node .block := by
  obtain ⟨node, pos, pc, pushed, awake⟩ := owes_iff.mp owes
  have later : .pushed (s.callId t) node ∈ log ++ out.toList := List.mem_append_left _ pushed
  cases move with
  | hasValueEvent pc' => exact Or.inr ⟨_, Or.inl pc'⟩
  | block pc' => exact Or.inr ⟨_, Or.inr pc'⟩
  | tryPush pc' | tryRefused pc' | lock pc' | predicatePush pc' | predicateRefused pc'
  | resume pc' | unlock pc' =>
    obtain ⟨rfl, _⟩ := ClientPc.enqueue.inj (pc'.symm.trans pc)
    exact Or.inl (owes_awake (Function.update_self ..) later (by simp))
  | subscribe pc' | requestStop pc' | destructEvent pc' | noSign pc' | enterWait pc'
  | waitStep pc' | waitReturn pc' =>
    simp [pc] at pc'

theorem consumer_drowses_over_empty {woken : Option ι} (move : ConsumerMove s woken s' out)
    (drowsy : s'.consumerInWindow = true ∨ s'.consumerAsleep = true) (full : s'.contents ≠ []) :
    s.consumerInWindow = true := by
  cases move with
  | miss pc empty =>
    obtain ⟨nothing, same, _⟩ := T.queueTraits.dequeue_fails empty
    exact absurd (by rw [contents, same, nothing]) full
  | testFalse pc value => simp [consumerInWindow, pc, value]
  | block pc => simp [consumerInWindow, pc]
  | pop pc taken =>
    rcases pc with ⟨_, rfl⟩ | ⟨_, rfl⟩ <;> simp [consumerInWindow, consumerAsleep] at drowsy
  | _ => simp [consumerInWindow, consumerAsleep, consumerAt] at drowsy

theorem client_puts_nobody_to_sleep {t : ι} (move : ClientMove s t s' out)
    (asleep : s'.consumerAsleep = true) :
    s.consumerAsleep = true ∧ ∀ node, (s.clients t).pc ≠ .enqueue node .startHasValueEvent := by
  obtain ⟨sleeping, told⟩ := asleep_iff.mp asleep
  rw [client_keeps_consumer move] at sleeping
  constructor
  · have told' : s.consumeCondvar = true := by
      cases move with
      | hasValueEvent | destructEvent => cases told
      | _ => exact told
    exact asleep_iff.mpr ⟨sleeping, told'⟩
  · intro node pc
    cases move with
    | hasValueEvent => cases told
    | predicatePush pc' testing | predicateRefused pc' testing =>
      rcases testing with rfl | ⟨_, rfl⟩ <;> simp [pc] at pc'
    | _ pc' => simp [pc] at pc'

theorem client_guarded {t : ι} (h : s.Guarded log) (notifies : s.NotifiesAsleep log (.client t))
    (move : ClientMove s t s' out) (running : s.stopCommand = false) :
    s'.Guarded (log ++ out.toList) := by
  intro _ full drowsy
  have window : s'.consumerInWindow = s.consumerInWindow := by
    unfold consumerInWindow
    rw [client_keeps_consumer move]
  have before : s.consumerInWindow = true ∨ s.consumerAsleep = true :=
    drowsy.imp (window ▸ ·) fun asleep => (client_puts_nobody_to_sleep move asleep).1
  rcases client_contents move with ⟨same, _⟩ | ⟨node, pos, rfl, _, client, awake⟩
  · rw [same] at full
    have others : (∃ u, u ≠ t ∧ s.OwesEvent log u) → ∃ v, s'.OwesEvent (log ++ out.toList) v := by
      rintro ⟨u, other, owing⟩
      obtain ⟨client, blocked⟩ := client_keeps_others move other
      exact ⟨u, owes_of_same owing client blocked⟩
    obtain ⟨u, owes⟩ := h running full before
    by_cases own : u = t
    · subst own
      rcases client_keeps_own_owing move owes with kept | ⟨node, notifying | sleeping⟩
      · exact ⟨u, kept⟩
      · have inWindow : s.consumerInWindow = true := by
          rcases drowsy with inWindow | asleep
          · exact window ▸ inWindow
          · exact absurd notifying ((client_puts_nobody_to_sleep move asleep).2 node)
        simp only [NotifiesAsleep, notifying] at notifies
        exact others (notifies running full inWindow)
      · simp only [NotifiesAsleep, sleeping] at notifies
        exact others (notifies running full before)
    · exact others ⟨u, own, owes⟩
  · have notWaiting : pos ≠ .wait := by
      rcases awake with rfl | rfl <;> simp
    exact ⟨t, owes_awake client (by simp) notWaiting⟩

theorem consumer_guarded {woken : Option ι} (h : s.Guarded log)
    (move : ConsumerMove s woken s' out) (running : s.stopCommand = false) :
    s'.Guarded (log ++ out.toList) := by
  intro _ full drowsy
  have before := consumer_drowses_over_empty move drowsy full
  rcases consumer_contents move with ⟨same, _⟩ | ⟨node, rfl, popped⟩
  · rw [same] at full
    obtain ⟨u, owes⟩ := h running full (Or.inl before)
    exact ⟨u, owes_of_same owes (by rw [consumer_keeps_clients move]) (consumer_keeps_blocked move)⟩
  · obtain ⟨u, owes⟩ := h running (by simp [popped]) (Or.inl before)
    exact ⟨u, owes_of_same owes (by rw [consumer_keeps_clients move]) (consumer_keeps_blocked move)⟩

theorem guarded_step {a : Action Key Value Listener ι} (h : s.Guarded log)
    (notifies : s.NotifiesAsleep log a) (step : s.step a = some (s', out)) :
    s'.Guarded (log ++ out.toList) := by
  intro running' full drowsy
  have running := running_before step running'
  cases step_moves step with
  | client move => exact client_guarded h notifies move running running' full drowsy
  | consumer move => exact consumer_guarded h move running running' full drowsy
  | @call t call pc alive =>
    obtain ⟨u, owes⟩ := h running full drowsy
    have other : u ≠ t := by
      rintro rfl
      simp [OwesEvent, pc] at owes
    exact ⟨u, owes_of_same owes (Function.update_of_ne other ..) id⟩
  | wakeProducer =>
    obtain ⟨u, owes⟩ := h running full drowsy
    exact ⟨u, owes_of_same owes rfl fun asleep => (CondVar.mem_blocked_wake ..).mp asleep |>.1⟩
  | wakeWaiter =>
    obtain ⟨u, owes⟩ := h running full drowsy
    exact ⟨u, owes_of_same owes rfl id⟩
  | wakeConsumer =>
    have before : s.consumerInWindow = true := drowsy.resolve_right fun asleep => by
      simpa using (asleep_iff.mp asleep).2
    obtain ⟨u, owes⟩ := h running full (Or.inl before)
    exact ⟨u, owes_of_same owes rfl id⟩

end Owing

def consumerAboutToBlock (s : QueuePool T ι) : Bool :=
  match s.consumer.pc with
  | .blockConsume => true
  | _ => false

/-- With the stop requested and the consumer notified of it, the consumer does not
    sleep on. -/
def NoLostStop (s : QueuePool T ι) (log : List (Entry Key Value Listener ι)) : Prop :=
  .stopRequested ∈ log → .destructNotified ∈ log → s.consumerAsleep = false

def DestructNotifiesAsleep (s : QueuePool T ι) : Action Key Value Listener ι → Prop
  | .client t =>
    match (s.clients t).pc with
    | .finish _ .startDestructEvent => s.consumerAboutToBlock = false
    | _ => True
  | _ => True

instance (s : QueuePool T ι) (a : Action Key Value Listener ι) :
    Decidable (s.DestructNotifiesAsleep a) := by
  rcases a with _ | t | _ | _ | _ | _
  case client =>
    dsimp only [DestructNotifiesAsleep]
    generalize (s.clients t).pc = pc
    rcases pc with _ | _ | _ | ⟨call, pos⟩
    case finish => rcases pos with ⟨⟩ <;> infer_instance
    all_goals infer_instance
  all_goals exact isTrue trivial

structure StopSettles (s : QueuePool T ι) (log : List (Entry Key Value Listener ι)) : Prop where
  requested : ∀ t call, (s.clients t).pc = .finish call .startDestructEvent → s.stopCommand = true
  notified : .destructNotified ∈ log →
    s.stopCommand = true ∧ s.consumerAboutToBlock = false ∧ s.consumerAsleep = false

section Stopping
variable [DecidableEq ι] {s s' : QueuePool T ι} {log : List (Entry Key Value Listener ι)}
  {out : Option (Entry Key Value Listener ι)}

theorem consumer_stays_up {woken : Option ι} (move : ConsumerMove s woken s' out)
    (stop : s.stopCommand = true) (up : s.consumerAboutToBlock = false) :
    s'.consumerAboutToBlock = false ∧ s'.consumerAsleep = false := by
  cases move with
  | testFalse pc value running => simp [running] at stop
  | block pc => simp [consumerAboutToBlock, pc] at up
  | pop pc taken =>
    rcases pc with ⟨_, rfl⟩ | ⟨_, rfl⟩ <;> simp [consumerAboutToBlock, consumerAsleep]
  | miss pc empty =>
    rcases pc with ⟨_, rfl⟩ | ⟨_, rfl⟩ <;> simp [consumerAboutToBlock, consumerAsleep]
  | _ => simp [consumerAboutToBlock, consumerAsleep, consumerAt]

theorem client_requested {t : ι} {call : FinishCall} (move : ClientMove s t s' out)
    (pc : (s'.clients t).pc = .finish call .startDestructEvent) : s'.stopCommand = true := by
  cases move with
  | requestStop => rfl
  | _ => simp [goto, leave, startDestructEvent] at pc

theorem entrance_not_notifying (call : Call Key Value Listener) (finish : FinishCall) :
    entrance call ≠ .finish finish .startDestructEvent := by
  cases call with
  | finish call => cases call <;> simp [entrance]
  | _ => simp [entrance]

theorem requested_step {a : Action Key Value Listener ι} {u : ι} {call : FinishCall}
    (h : s.StopSettles log) (step : s.step a = some (s', out))
    (pc : (s'.clients u).pc = .finish call .startDestructEvent) : s'.stopCommand = true := by
  rcases step_client step u with same | move | ⟨call', here, _⟩
  · exact step_keeps_stop step (h.requested u call (same ▸ pc))
  · exact client_requested move pc
  · rw [here] at pc
    exact absurd pc (entrance_not_notifying call' call)

theorem step_stays_up {a : Action Key Value Listener ι} (step : s.step a = some (s', out))
    (stop : s.stopCommand = true) (up : s.consumerAboutToBlock = false)
    (awake : s.consumerAsleep = false) :
    s'.consumerAboutToBlock = false ∧ s'.consumerAsleep = false := by
  cases step_moves step with
  | client move =>
    have same := client_keeps_consumer move
    have sleepless : ¬ s'.consumerAsleep = true := fun asleep => by
      simp [(client_puts_nobody_to_sleep move asleep).1] at awake
    exact ⟨by simpa [consumerAboutToBlock, same] using up, Bool.eq_false_iff.mpr sleepless⟩
  | consumer move => exact consumer_stays_up move stop up
  | call | wakeProducer | wakeWaiter => exact ⟨up, awake⟩
  | wakeConsumer =>
    have sleepless : ¬ consumerAsleep { s with consumeCondvar := false } = true := fun asleep => by
      simpa using (asleep_iff.mp asleep).2
    exact ⟨up, Bool.eq_false_iff.mpr sleepless⟩

theorem destruct_event_wakes {a : Action Key Value Listener ι} (h : s.StopSettles log)
    (notifies : s.DestructNotifiesAsleep a) (step : s.step a = some (s', some .destructNotified)) :
    s'.stopCommand = true ∧ s'.consumerAboutToBlock = false ∧ s'.consumerAsleep = false := by
  cases step_moves step with
  | client move =>
    cases move with
    | destructEvent pc =>
      simp only [DestructNotifiesAsleep, pc] at notifies
      refine ⟨h.requested _ _ pc, notifies, Bool.eq_false_iff.mpr fun asleep => ?_⟩
      simpa using (asleep_iff.mp asleep).2
  | consumer move => cases move

theorem stop_settles_step {a : Action Key Value Listener ι} (h : s.StopSettles log)
    (notifies : s.DestructNotifiesAsleep a) (step : s.step a = some (s', out)) :
    s'.StopSettles (log ++ out.toList) := by
  constructor
  · intro u call pc
    exact requested_step h step pc
  · intro logged
    rcases List.mem_append.mp logged with earlier | now
    · obtain ⟨stop, up, awake⟩ := h.notified earlier
      exact ⟨step_keeps_stop step stop, step_stays_up step stop up awake⟩
    · obtain rfl := Option.mem_toList.mp now
      exact destruct_event_wakes h notifies step

end Stopping

end QueuePool

section Runs
variable [DecidableEq ι] {sign : Option (SignConsumerFinished ι)} {junk : QueueNode Key Value}
  {s : QueuePool T ι} {log : List (Entry Key Value Listener ι)}

/-- In particular the consumer does not sleep over elements with no `Enqueue` going on. -/
theorem consumer_wake_up_not_lost
    (run : (poolMachine T sign junk).Reach (fun s log a => s.NotifiesAsleep log a) s log) :
    s.NoLostWakeUp log ∧ ((∀ t, s.enqueueInProgress t = false) → s.stopCommand = false →
      s.consumerAsleep = true → s.contents = []) := by
  have guarded : s.Guarded log := by
    refine Machine.reach_invariant ?_ ?_ run
    · intro _ full
      exact absurd (T.queueTraits.contents_empty) full
    · intro s log a s' out _ h notifies step
      exact QueuePool.guarded_step h notifies step
  have noLoss : s.NoLostWakeUp log := fun running full asleep => guarded running full (Or.inr asleep)
  refine ⟨noLoss, ?_⟩
  intro quiet running asleep
  by_contra full
  obtain ⟨t, owes⟩ := noLoss running full asleep
  obtain ⟨node, pos, pc, _⟩ := QueuePool.owes_iff.mp owes
  simpa [QueuePool.enqueueInProgress, pc] using quiet t

end Runs

section Schedules
open QueuePool

theorem wake_up_owed_over_element :
    ∃ s log, mutexPool.Reach (fun s log a => s.NotifiesAsleep log a) s log ∧
      (s.stopCommand = false ∧ s.contents ≠ [] ∧ s.consumerAsleep = true) ∧ s.NoLostWakeUp log := by
  obtain ⟨s, log, run, asleep⟩ := Machine.reach_of_exec mutexPool
    (fun s log a => s.NotifiesAsleep log a)
    [.consumer none, .consumer none, .consumer none, .consumer none, .consumer none,
      .consumer none, .consumer none, .consumer none, .call 0 (.enqueue ⟨1, 10⟩), .client 0]
    (fun s _ => s.stopCommand = false ∧ s.contents ≠ [] ∧ s.consumerAsleep = true) (by decide)
  exact ⟨s, log, run, asleep, (consumer_wake_up_not_lost run).1⟩

/-- An `Enqueue` call runs from start to end between the consumer's test of its wait
    condition and its sleep. -/
theorem wake_up_lost_before_sleep :
    ∃ s log, mutexPool.Reachable s log ∧ (∀ t, s.enqueueInProgress t = false) ∧
      s.contents = [⟨1, 10⟩] ∧ ¬ s.NoLostWakeUp log := by
  obtain ⟨s, log, run, ⟨running, full, asleep⟩, nobody, quiet⟩ := Machine.reachable_of_exec mutexPool
    [.consumer none, .consumer none, .consumer none, .consumer none, .consumer none,
      .consumer none, .consumer none, .call 0 (.enqueue ⟨1, 10⟩), .client 0, .client 0,
      .consumer none]
    (fun s log => (s.stopCommand = false ∧ s.contents = [⟨1, 10⟩] ∧ s.consumerAsleep = true) ∧
      (∀ t, ¬ s.OwesEvent log t) ∧ ∀ t, s.enqueueInProgress t = false) (by decide)
  refine ⟨s, log, run, quiet, full, fun noLoss => ?_⟩
  obtain ⟨t, owes⟩ := noLoss running (by simp [full]) asleep
  exact nobody t owes

end Schedules

section Runs
variable [DecidableEq ι] {sign : Option (SignConsumerFinished ι)} {junk : QueueNode Key Value}
  {s : QueuePool T ι} {log : List (Entry Key Value Listener ι)}

theorem stop_not_lost
    (run : (poolMachine T sign junk).Reach (fun s _ a => s.DestructNotifiesAsleep a) s log) :
    s.NoLostStop log := by
  have settles : s.StopSettles log := by
    refine Machine.reach_invariant ?_ ?_ run
    · exact ⟨fun t call pc => by simp [poolMachine, QueuePool.create] at pc, by simp⟩
    · intro s log a s' out _ h notifies step
      exact QueuePool.stop_settles_step h notifies step
  exact fun _ notified => (settles.notified notified).2.2

end Runs

section Schedules
open QueuePool

theorem stop_wakes_sleeper :
    ∃ s log, mutexPool.Reach (fun s _ a => s.DestructNotifiesAsleep a) s log ∧
      (.stopRequested ∈ log ∧ .destructNotified ∈ log) ∧ s.NoLostStop log := by
  obtain ⟨s, log, run, stopped⟩ := Machine.reach_of_exec mutexPool
    (fun s _ a => s.DestructNotifiesAsleep a)
    [.consumer none, .consumer none, .consumer none, .consumer none, .consumer none,
      .consumer none, .consumer none, .consumer none, .call 0 (.finish .stopProcessing),
      .client 0, .client 0]
    (fun _ log => .stopRequested ∈ log ∧ .destructNotified ∈ log) (by decide)
  exact ⟨s, log, run, stopped, stop_not_lost run⟩

/-- Both halves of the stop fall between the test of the stop flag and the sleep. -/
theorem stop_lost_before_sleep :
    ∃ s log, mutexPool.Reachable s log ∧ ¬ s.NoLostStop log := by
  obtain ⟨s, log, run, requested, notified, asleep⟩ := Machine.reachable_of_exec mutexPool
    [.consumer none, .consumer none, .consumer none, .consumer none, .consumer none,
      .consumer none, .consumer none, .call 0 (.finish .stopProcessing), .client 0, .client 0,
      .consumer none]
    (fun s log => .stopRequested ∈ log ∧ .destructNotified ∈ log ∧ s.consumerAsleep = true)
    (by decide)
  refine ⟨s, log, run, fun noLoss => ?_⟩
  simp [noLoss requested notified] at asleep

end Schedules

end MappedQueue
