import Mathlib.Data.Fintype.Basic
import Mathlib.Data.List.Nodup
import MappedQueue.CapacityEvents

/-!
The producer's sleep over a full queue. The consumer's `StartEndCapacityEvent` is
sent without the mutex, only after a listener has run, and to one producer. As long as
each one sent over room finds a sleeper while somebody is on the way to sleep, and no
lookup answers null, the free slots are no more than the notifications underway.
-/
namespace MappedQueue
open Concurrency

/-- Between the first push of an `Enqueue`, which found the queue full, and the return
    from its wait. -/
def EnqueuePc.inOverflow : EnqueuePc → Bool
  | .lock => true
  | .test => true
  | .block => true
  | .wait => true
  | .retest _ => true
  | _ => false

namespace QueuePool
variable {Key Value Listener ι : Type} {T : DefaultTraits Key Value Listener}

def inOverflow (s : QueuePool T ι) (t : ι) : Bool :=
  match (s.clients t).pc with
  | .enqueue _ pos => pos.inOverflow
  | _ => false

/-- The consumer is past the last stop test of its `Dequeue` with an element in hand, and
    its lookup has not answered null: `StartEndCapacityEvent` is ahead. -/
def capacityEventAhead (s : QueuePool T ι) : Bool :=
  match s.consumer.pc with
  | .lookup => true
  | .getFromMap rest => !answersNull rest
  | .testListener listener => listener.isSome
  | .consuming _ => true
  | .startEndCapacityEvent => true
  | _ => false

def consumerOwesCapacity (s : QueuePool T ι) : Bool :=
  match s.consumer.pc with
  | .testStop => s.consumer.hasValue
  | .unlockConsume => s.consumer.hasValue
  | .checkStop => s.consumer.hasValue
  | _ => s.capacityEventAhead

def retestsNotified (s : QueuePool T ι) (t : ι) : Bool :=
  match (s.clients t).pc with
  | .enqueue _ (.retest notified) => notified
  | _ => false

def NotifiedProducer (s : QueuePool T ι) (t : ι) : Prop :=
  t ∈ s.enqueueCondvar.notified ∨ s.retestsNotified t = true

structure SleepersWait (s : QueuePool T ι) : Prop where
  waiting : ∀ t, t ∈ s.enqueueCondvar.blocked ∨ t ∈ s.enqueueCondvar.notified →
    ∃ node, (s.clients t).pc = .enqueue node .wait
  apart : ∀ t ∈ s.enqueueCondvar.blocked, t ∉ s.enqueueCondvar.notified

variable {capacity : Nat} {M : MapTraits Key Listener}

def NoLostRoom (s : QueuePool (lockfree Value capacity M) ι) : Prop :=
  s.stopCommand = false → s.contents.length < capacity → s.enqueueCondvar.blocked ≠ [] →
    s.consumerOwesCapacity = true ∨ ∃ t, s.NotifiedProducer t

/-- The free slots are told one by one: to notified producers that have not tested again,
    and by the notification that the consumer owes. -/
def RoomTold (s : QueuePool (lockfree Value capacity M) ι) : Prop :=
  ∃ told : List ι, told.Nodup ∧ (∀ t ∈ told, s.NotifiedProducer t) ∧
    capacity ≤ s.contents.length + told.length + s.consumerOwesCapacity.toNat

def notifiesNobody (s : QueuePool T ι) : Action Key Value Listener ι → Bool
  | .consumer _ =>
    match s.consumer.pc with
    | .startEndCapacityEvent => s.enqueueCondvar.blocked.isEmpty
    | _ => false
  | _ => false

/-- Before the stop and over room in the queue, a `StartEndCapacityEvent` that finds nobody
    asleep and a lookup that answers null come only while no producer is in its overflow
    path. -/
def AnnouncesRoom (s : QueuePool (lockfree Value capacity M) ι)
    (a : Action Key Value Listener ι) : Prop :=
  s.stopCommand = false → s.contents.length < capacity →
    s.notifiesNobody a = true ∨ s.lookupMisses a = true → ∀ t, s.inOverflow t = false

section Decisions
variable [Fintype ι] [DecidableEq ι]

instance (s : QueuePool T ι) (t : ι) : Decidable (s.NotifiedProducer t) :=
  inferInstanceAs (Decidable (_ ∨ _))

instance (s : QueuePool (lockfree Value capacity M) ι) (a : Action Key Value Listener ι) :
    Decidable (s.AnnouncesRoom a) :=
  inferInstanceAs (Decidable (_ → _))

end Decisions

theorem retests_notified_iff {s : QueuePool T ι} {t : ι} : s.retestsNotified t = true ↔
    ∃ node, (s.clients t).pc = .enqueue node (.retest true) := by
  unfold retestsNotified
  split <;> simp_all

theorem sleeper_in_overflow {s : QueuePool T ι} {t : ι} (h : s.SleepersWait)
    (asleep : t ∈ s.enqueueCondvar.blocked) : s.inOverflow t = true := by
  obtain ⟨node, pc⟩ := h.waiting t (Or.inl asleep)
  simp [inOverflow, pc, EnqueuePc.inOverflow]

theorem sleeper_not_notified {s : QueuePool T ι} {t : ι} (h : s.SleepersWait)
    (asleep : t ∈ s.enqueueCondvar.blocked) : ¬ s.NotifiedProducer t := by
  rintro (waiting | testing)
  · exact h.apart t asleep waiting
  · obtain ⟨node, pc⟩ := h.waiting t (Or.inl asleep)
    obtain ⟨node', pc'⟩ := retests_notified_iff.mp testing
    simp [pc] at pc'

section Sleeping
variable [DecidableEq ι] {s s' : QueuePool T ι} {t : ι} {a : Action Key Value Listener ι}
  {out : Option (Entry Key Value Listener ι)}

omit [DecidableEq ι] in
theorem sleepers_keep (h : s.SleepersWait) (same : s'.enqueueCondvar = s.enqueueCondvar)
    (kept : ∀ u node, (s.clients u).pc = .enqueue node .wait → s'.clients u = s.clients u) :
    s'.SleepersWait := by
  refine ⟨?_, same ▸ h.apart⟩
  intro u waits
  obtain ⟨node, pc⟩ := h.waiting u (same ▸ waits)
  exact ⟨node, by rw [kept u node pc, pc]⟩

theorem client_sleepers (h : s.SleepersWait) (move : ClientMove s t s' out) :
    s'.SleepersWait := by
  cases move with
  | @block node pc =>
    have outside : ∀ u, u ∈ s.enqueueCondvar.blocked ∨ u ∈ s.enqueueCondvar.notified → u ≠ t := by
      rintro u waits rfl
      obtain ⟨node', pc'⟩ := h.waiting u waits
      simp [pc] at pc'
    constructor
    · intro u waits
      by_cases own : u = t
      · subst own
        exact ⟨node, by simp⟩
      · have before : u ∈ s.enqueueCondvar.blocked ∨ u ∈ s.enqueueCondvar.notified :=
          waits.imp (fun asleep => (List.mem_cons.mp asleep).resolve_left own) id
        obtain ⟨node', pc'⟩ := h.waiting u before
        exact ⟨node', by simp [own, pc']⟩
    · intro u asleep told
      rcases List.mem_cons.mp asleep with rfl | before
      · exact outside u (Or.inr told) rfl
      · exact h.apart u before told
  | @resume node pc awake free =>
    constructor
    · intro u waits
      have other : u ≠ t := by
        rcases waits with asleep | told
        · rintro rfl
          exact awake asleep
        · exact ((CondVar.mem_notified_resume ..).mp told).2
      have before : u ∈ s.enqueueCondvar.blocked ∨ u ∈ s.enqueueCondvar.notified :=
        waits.imp id fun told => ((CondVar.mem_notified_resume ..).mp told).1
      obtain ⟨node', pc'⟩ := h.waiting u before
      exact ⟨node', by simp [other, pc']⟩
    · intro u asleep told
      exact h.apart u asleep ((CondVar.mem_notified_resume ..).mp told).1
  | predicatePush pc testing push | predicateRefused pc testing push =>
    refine sleepers_keep h rfl fun u node waits => ?_
    have other : u ≠ t := by
      rintro rfl
      rcases testing with rfl | ⟨notified, rfl⟩ <;> simp [pc] at waits
    simp [other]
  | _ pc =>
    refine sleepers_keep h rfl fun u node waits => ?_
    have other : u ≠ t := by
      rintro rfl
      simp [pc] at waits
    simp [other]

theorem sleepers_step (h : s.SleepersWait) (step : s.step a = some (s', out)) :
    s'.SleepersWait := by
  cases step_moves step with
  | client move => exact client_sleepers h move
  | consumer move =>
    have clients := consumer_keeps_clients move
    cases move with
    | capacityEvent pc notify =>
      rcases CondVar.notifyOne_cases notify with ⟨_, rfl⟩ | ⟨t, asleep, rfl⟩
      · exact sleepers_keep h rfl fun _ _ _ => rfl
      · constructor
        · intro u waits
          refine h.waiting u ?_
          rcases waits with still | told
          · exact Or.inl (List.mem_filter.mp still).1
          · rcases List.mem_cons.mp told with rfl | before
            · exact Or.inl asleep
            · exact Or.inr before
        · intro u still told
          obtain ⟨before, other⟩ := List.mem_filter.mp still
          rcases List.mem_cons.mp told with rfl | earlier
          · simp at other
          · exact h.apart u before earlier
    | _ => exact sleepers_keep h rfl fun _ _ _ => by rw [clients]
  | @call t call pc alive =>
    refine sleepers_keep h rfl fun u node waits => ?_
    have other : u ≠ t := by
      rintro rfl
      simp [pc] at waits
    simp [other]
  | @wakeProducer t =>
    constructor
    · intro u waits
      exact h.waiting u (waits.imp (fun asleep => ((CondVar.mem_blocked_wake ..).mp asleep).1) id)
    · intro u asleep told
      exact h.apart u ((CondVar.mem_blocked_wake ..).mp asleep).1 told
  | wakeWaiter | wakeConsumer => exact sleepers_keep h rfl fun _ _ _ => rfl

end Sleeping

section Telling
variable [DecidableEq ι] {s s' : QueuePool T ι} {t : ι}
  {out : Option (Entry Key Value Listener ι)}

theorem client_keeps_room (move : ClientMove s t s' out) :
    s.contents.length ≤ s'.contents.length := by
  rcases client_contents move with ⟨same, _⟩ | ⟨node, _, _, longer, _⟩
  · rw [same]
  · simp [longer]

theorem client_keeps_notified {u : ι} (move : ClientMove s t s' out) (told : s.NotifiedProducer u) :
    s'.NotifiedProducer u ∨ u = t ∧ ∃ node, (s.clients t).pc = .enqueue node (.retest true) := by
  rcases told with waiting | testing
  · cases move with
    | @resume node pc awake free =>
      by_cases own : u = t
      · subst own
        exact Or.inl (Or.inr (retests_notified_iff.mpr ⟨node, by simp [goto, waiting]⟩))
      · exact Or.inl (Or.inl ((CondVar.mem_notified_resume ..).mpr ⟨waiting, own⟩))
    | _ => exact Or.inl (Or.inl waiting)
  · obtain ⟨node, pc⟩ := retests_notified_iff.mp testing
    by_cases own : u = t
    · exact Or.inr ⟨own, node, own ▸ pc⟩
    · exact Or.inl (Or.inr (retests_notified_iff.mpr
        ⟨node, (client_keeps_others move own).1 ▸ pc⟩))

theorem consumer_keeps_notified {u : ι} {woken : Option ι} (move : ConsumerMove s woken s' out)
    (told : s.NotifiedProducer u) : s'.NotifiedProducer u := by
  rcases told with waiting | testing
  · cases move with
    | capacityEvent pc notify => exact Or.inl (CondVar.notifyOne_notified notify waiting)
    | _ => exact Or.inl waiting
  · refine Or.inr ?_
    rw [retestsNotified, consumer_keeps_clients move]
    exact testing

/-- The consumer stops owing its notification by sending it, by a lookup that answers
    null, or over a stop. -/
theorem consumer_keeps_owing {woken : Option ι} (move : ConsumerMove s woken s' out)
    (running : s.stopCommand = false) (owes : s.consumerOwesCapacity = true) :
    s'.consumerOwesCapacity = true ∨ s.lookupMisses (.consumer woken) = true ∨
      s.consumer.pc = .startEndCapacityEvent ∧
        s.enqueueCondvar.notifyOne woken = some s'.enqueueCondvar := by
  cases move with
  | lookup pc =>
    by_cases null : answersNull (T.mapTraits.getFromMap s.consumer.node.key) = true
    · exact Or.inr (Or.inl (by simp [lookupMisses, pc, null]))
    · exact Or.inl (by simpa [consumerOwesCapacity, capacityEventAhead] using null)
  | @mapSection update next pc =>
    by_cases null : answersNull (next s.map) = true
    · exact Or.inr (Or.inl (by simp [lookupMisses, pc, null]))
    · exact Or.inl (by simpa [consumerOwesCapacity, capacityEventAhead] using null)
  | @mapReturn listener pc =>
    cases listener with
    | none => simp [consumerOwesCapacity, capacityEventAhead, answersNull, pc] at owes
    | some l => exact Or.inl rfl
  | capacityEvent pc notify => exact Or.inr (Or.inr ⟨pc, notify⟩)
  | checkStopped pc stop => simp [running] at stop
  | testTrue pc | unlock pc => exact Or.inl (by simpa [consumerOwesCapacity, pc] using owes)
  | testFalse pc value => simp [consumerOwesCapacity, pc, value] at owes
  | pop pc | miss pc =>
    rcases pc with ⟨pc, rfl⟩ | ⟨pc, rfl⟩ <;>
      simp [consumerOwesCapacity, capacityEventAhead, pc] at owes
  | checkPassed | consume | consumeReturn => exact Or.inl rfl
  | _ pc => simp [consumerOwesCapacity, capacityEventAhead, pc] at owes

theorem popper_owes {woken : Option ι} {node : QueueNode Key Value}
    (move : ConsumerMove s woken s' (some (.popped node))) :
    s.consumerOwesCapacity = false ∧ s'.consumerOwesCapacity = true := by
  cases move with
  | pop pc taken =>
    rcases pc with ⟨pc, rfl⟩ | ⟨pc, rfl⟩ <;>
      exact ⟨by simp [consumerOwesCapacity, capacityEventAhead, pc], rfl⟩

end Telling

section Rooms
variable [DecidableEq ι] {s s' : QueuePool (lockfree Value capacity M) ι} {t : ι}
  {out : Option (Entry Key Value Listener ι)}

omit [DecidableEq ι] in
theorem told_of_full (full : capacity ≤ s.contents.length) : s.RoomTold :=
  ⟨[], List.nodup_nil, by simp, by omega⟩

theorem retest_takes_room {node : QueueNode Key Value} {notified : Bool}
    (move : ClientMove s t s' out) (pc : (s.clients t).pc = .enqueue node (.retest notified)) :
    s'.contents.length = s.contents.length + 1 ∨ s'.contents.length = capacity := by
  cases move with
  | predicatePush pc' testing push =>
    have longer := (lockfree Value capacity M).queueTraits.enqueue_accepts push
    exact Or.inl (by simpa [contents] using congrArg List.length longer)
  | predicateRefused pc' testing push =>
    obtain ⟨full, rfl⟩ := BoundedQueue.boundedPush_refuses push
    exact Or.inr full
  | _ pc' => simp [pc] at pc'

theorem client_enters_overflow {u : ι} (move : ClientMove s t s' out)
    (inside : s'.inOverflow u = true) :
    s.inOverflow u = true ∨ capacity ≤ s'.contents.length := by
  by_cases own : u = t
  · subst own
    cases move with
    | tryRefused pc push =>
      obtain ⟨full, rfl⟩ := BoundedQueue.boundedPush_refuses push
      exact Or.inr (Nat.le_of_eq full.symm)
    | lock pc | block pc | resume pc =>
      exact Or.inl (by simp [inOverflow, pc, EnqueuePc.inOverflow])
    | predicatePush pc testing | predicateRefused pc testing =>
      rcases testing with rfl | ⟨notified, rfl⟩ <;>
        exact Or.inl (by simp [inOverflow, pc, EnqueuePc.inOverflow])
    | _ => simp [inOverflow, EnqueuePc.inOverflow] at inside
  · rw [inOverflow, (client_keeps_others move own).1] at inside
    exact Or.inl inside

theorem client_keeps_told (h : s.RoomTold) (move : ClientMove s t s' out) : s'.RoomTold := by
  obtain ⟨told, nodup, notified, covers⟩ := h
  have owing : s'.consumerOwesCapacity = s.consumerOwesCapacity := by
    unfold consumerOwesCapacity capacityEventAhead
    rw [client_keeps_consumer move]
  by_cases tests : ∃ node, (s.clients t).pc = .enqueue node (.retest true)
  · obtain ⟨node, pc⟩ := tests
    rcases retest_takes_room move pc with taken | full
    · refine ⟨told.erase t, nodup.erase t, ?_, ?_⟩
      · intro u member
        obtain ⟨other, member⟩ := nodup.mem_erase_iff.mp member
        exact (client_keeps_notified move (notified u member)).resolve_right fun own => other own.1
      · have fewer := List.le_length_erase (a := t) (l := told)
        rw [owing]
        omega
    · exact told_of_full full.ge
  · refine ⟨told, nodup, ?_, ?_⟩
    · intro u member
      exact (client_keeps_notified move (notified u member)).resolve_right fun own => tests own.2
    · have room := client_keeps_room move
      rw [owing]
      omega

theorem consumer_keeps_told {woken : Option ι} (h : s.RoomTold) (sleepers : s.SleepersWait)
    (heard : s.contents.length < capacity →
      s.notifiesNobody (.consumer woken) = false ∧ s.lookupMisses (.consumer woken) = false)
    (move : ConsumerMove s woken s' out) (running : s.stopCommand = false) : s'.RoomTold := by
  obtain ⟨told, nodup, notified, covers⟩ := h
  have kept : ∀ u ∈ told, s'.NotifiedProducer u :=
    fun u member => consumer_keeps_notified move (notified u member)
  rcases consumer_contents move with ⟨same, _⟩ | ⟨node, rfl, taken⟩
  · by_cases full : capacity ≤ s.contents.length
    · exact told_of_full (same ▸ full)
    · obtain ⟨finds, answers⟩ := heard (Nat.lt_of_not_le full)
      cases owes : s.consumerOwesCapacity with
      | false =>
        simp only [owes, Bool.toNat_false] at covers
        exact ⟨told, nodup, kept, by rw [same]; omega⟩
      | true =>
        simp only [owes, Bool.toNat_true] at covers
        rcases consumer_keeps_owing move running owes with still | missed | ⟨pc, notify⟩
        · exact ⟨told, nodup, kept, by rw [same, still]; exact covers⟩
        · simp [answers] at missed
        · -- the notification finds a sleeper, which is one more notified producer
          have asleep : s.enqueueCondvar.blocked ≠ [] := by
            simpa [notifiesNobody, pc] using finds
          obtain ⟨u, sleeps, wakes⟩ := CondVar.notifyOne_wakes notify asleep
          have new : u ∉ told := fun member =>
            sleeper_not_notified sleepers sleeps (notified u member)
          refine ⟨u :: told, List.nodup_cons.mpr ⟨new, nodup⟩, ?_, ?_⟩
          · intro v member
            rcases List.mem_cons.mp member with rfl | before
            · exact Or.inl wakes
            · exact kept v before
          · rw [same, List.length_cons]
            omega
  · obtain ⟨nothing, owes⟩ := popper_owes move
    simp only [nothing, taken, List.length_cons, Bool.toNat_false] at covers
    exact ⟨told, nodup, kept, by rw [owes, Bool.toNat_true]; omega⟩

/-- The invariant: while a producer is in its overflow path, the free slots are told. -/
def RoomWatched (s : QueuePool (lockfree Value capacity M) ι) : Prop :=
  s.stopCommand = false → (∃ t, s.inOverflow t = true) → s.RoomTold

theorem watched_step {a : Action Key Value Listener ι} (h : s.RoomWatched)
    (sleepers : s.SleepersWait) (announces : s.AnnouncesRoom a)
    (step : s.step a = some (s', out)) : s'.RoomWatched := by
  rintro running' ⟨u, inside⟩
  have running := running_before step running'
  cases step_moves step with
  | client move =>
    rcases client_enters_overflow move inside with before | full
    · exact client_keeps_told (h running ⟨u, before⟩) move
    · exact told_of_full full
  | @consumer woken _ _ move =>
    have before : s.inOverflow u = true := by
      rwa [inOverflow, consumer_keeps_clients move] at inside
    refine consumer_keeps_told (h running ⟨u, before⟩) sleepers ?_ move running
    intro room
    have quiet : ¬ (s.notifiesNobody (.consumer woken) = true ∨
        s.lookupMisses (.consumer woken) = true) := by
      intro silent
      simp [announces running room silent u] at before
    simpa using quiet
  | @call t call pc alive =>
    have other : u ≠ t := by
      rintro rfl
      cases call with
      | finish call => cases call <;> simp [inOverflow, entrance] at inside
      | _ => simp [inOverflow, entrance, EnqueuePc.inOverflow] at inside
    have before : s.inOverflow u = true := by simpa [inOverflow, other] using inside
    obtain ⟨told, nodup, notified, covers⟩ := h running ⟨u, before⟩
    refine ⟨told, nodup, ?_, covers⟩
    intro v member
    rcases notified v member with waiting | testing
    · exact Or.inl waiting
    · obtain ⟨node, busy⟩ := retests_notified_iff.mp testing
      have idle : v ≠ t := by
        rintro rfl
        simp [busy] at pc
      exact Or.inr (retests_notified_iff.mpr ⟨node, by simpa [idle] using busy⟩)
  | wakeProducer | wakeWaiter | wakeConsumer => exact h running ⟨u, inside⟩

omit [DecidableEq ι] in
theorem watched_no_lost_room (h : s.RoomWatched) (sleepers : s.SleepersWait) : s.NoLostRoom := by
  intro running room asleep
  obtain ⟨u, member⟩ := List.exists_mem_of_ne_nil _ asleep
  obtain ⟨told, nodup, notified, covers⟩ := h running ⟨u, sleeper_in_overflow sleepers member⟩
  cases owes : s.consumerOwesCapacity with
  | true => exact Or.inl rfl
  | false =>
    cases told with
    | nil =>
      simp only [owes, List.length_nil, Bool.toNat_false] at covers
      omega
    | cons v rest => exact Or.inr ⟨v, notified v List.mem_cons_self⟩

end Rooms

end QueuePool

section Runs
variable {Key Value Listener ι : Type} [DecidableEq ι] {capacity : Nat} {M : MapTraits Key Listener}
  {sign : Option (SignConsumerFinished ι)} {junk : QueueNode Key Value}
  {s : QueuePool (lockfree Value capacity M) ι} {log : List (Entry Key Value Listener ι)}

theorem producer_wake_up_not_lost
    (run : (poolMachine (lockfree Value capacity M) sign junk).Reach
      (fun s _ a => s.AnnouncesRoom a) s log) : s.NoLostRoom := by
  have kept : s.RoomWatched ∧ s.SleepersWait := by
    refine Machine.reach_invariant (I := fun s _ => s.RoomWatched ∧ s.SleepersWait) ?_ ?_ run
    · constructor
      · rintro _ ⟨t, inside⟩
        exact absurd inside Bool.false_ne_true
      · exact ⟨fun t waits => by simp [poolMachine, QueuePool.create, CondVar.empty] at waits,
          fun t asleep => by simp [poolMachine, QueuePool.create, CondVar.empty] at asleep⟩
    · rintro s log a s' out _ ⟨watched, sleepers⟩ announces step
      exact ⟨QueuePool.watched_step watched sleepers announces step,
        QueuePool.sleepers_step sleepers step⟩
  exact QueuePool.watched_no_lost_room kept.1 kept.2

end Runs

section Schedules
open QueuePool

theorem room_told_to_sleeper :
    ∃ s log, oneSlot.Reach (fun s _ a => s.AnnouncesRoom a) s log ∧
      (s.stopCommand = false ∧ s.contents = [] ∧ s.enqueueCondvar.blocked = [1]) ∧
      s.NoLostRoom := by
  obtain ⟨s, log, run, asleep⟩ := Machine.reach_of_exec oneSlot (fun s _ a => s.AnnouncesRoom a)
    [.call 0 (.subscribe 1 (some 7)), .client 0, .call 0 (.enqueue ⟨1, 10⟩), .client 0,
      .call 1 (.enqueue ⟨1, 20⟩), .client 1, .client 1, .consumer none, .consumer none,
      .consumer none, .consumer none, .client 1, .consumer none, .consumer none, .consumer none,
      .consumer none, .consumer none, .consumer none, .consumer none, .client 1, .consumer none,
      .consumer none]
    (fun s _ => s.stopCommand = false ∧ s.contents = [] ∧ s.enqueueCondvar.blocked = [1])
    (by decide)
  exact ⟨s, log, run, asleep, producer_wake_up_not_lost run⟩

/-- The last notification is sent while the producer that has just pushed holds the
    mutex and is not yet asleep; or an element of an unknown queue makes room and no
    notification is sent at all. -/
theorem room_lost_to_sleeper :
    (∃ s log, oneSlot.Reachable s log ∧ .capacityNotified ∈ log ∧ s.contents = [] ∧
      ¬ s.NoLostRoom) ∧
    ∃ s log, oneSlot.Reachable s log ∧ .unknownQueue ⟨2, 20⟩ ∈ log ∧ s.contents = [] ∧
      ¬ s.NoLostRoom := by
  constructor
  · obtain ⟨s, log, run, sent, empty, running, sleepers, untold⟩ := Machine.reachable_of_exec oneSlot
      [.call 0 (.subscribe 1 (some 7)), .client 0, .call 0 (.enqueue ⟨1, 10⟩), .client 0,
        .call 1 (.enqueue ⟨1, 20⟩), .client 1, .client 1, .consumer none, .consumer none,
        .consumer none, .consumer none, .client 1, .consumer none, .consumer none, .consumer none,
        .consumer none, .consumer none, .consumer none, .consumer none, .consumer none,
        .consumer none, .consumer none, .consumer none, .consumer none, .consumer none,
        .consumer none, .consumer none, .consumer none, .client 1]
      (fun s log => .capacityNotified ∈ log ∧ s.contents = [] ∧ s.stopCommand = false ∧
        s.enqueueCondvar.blocked ≠ [] ∧
        ¬ (s.consumerOwesCapacity = true ∨ ∃ t, s.NotifiedProducer t)) (by decide)
    exact ⟨s, log, run, sent, empty, fun h => untold (h running (by simp [empty]) sleepers)⟩
  · obtain ⟨s, log, run, dropped, empty, running, sleepers, untold⟩ := Machine.reachable_of_exec oneSlot
      [.call 0 (.enqueue ⟨1, 10⟩), .client 0, .call 1 (.enqueue ⟨2, 20⟩), .client 1, .client 1,
        .consumer none, .consumer none, .consumer none, .consumer none, .client 1, .client 1,
        .consumer none, .consumer none, .consumer none, .consumer none, .consumer none,
        .consumer none, .consumer none, .consumer none, .consumer none, .consumer none,
        .consumer none, .consumer none]
      (fun s log => .unknownQueue ⟨2, 20⟩ ∈ log ∧ s.contents = [] ∧ s.stopCommand = false ∧
        s.enqueueCondvar.blocked ≠ [] ∧
        ¬ (s.consumerOwesCapacity = true ∨ ∃ t, s.NotifiedProducer t)) (by decide)
    exact ⟨s, log, run, dropped, empty, fun h => untold (h running (by simp [empty]) sleepers)⟩

end Schedules

end MappedQueue
