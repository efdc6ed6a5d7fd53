import MappedQueue.Conservation

/-!
A pool whose queue is first-in first-out and may refuse a push at any time. Nothing that
the pool promises about its deliveries depends on when a push is refused.
-/
namespace MappedQueue
open Concurrency

variable {Key Value Listener ι : Type}

/-- Nodes in order, with a flag that says whether the next push is accepted. -/
abbrev BalkingQueueTraits (Key Value : Type) : QueueTraits Key Value where
  Queue := List (QueueNode Key Value) × Bool
  empty := ([], true)
  enqueue q node := if q.2 then ((q.1 ++ [node], q.2), true) else (q, false)
  dequeue q result :=
    match q with
    | ([], ready) => (([], ready), result, false)
    | (front :: rest, ready) => ((rest, ready), front, true)
  contents q := q.1
  contents_empty := rfl
  enqueue_accepts := by
    intro q q' n h
    split at h
    · obtain ⟨rfl, _⟩ := Prod.mk.inj h
      rfl
    · simp at h
  enqueue_refuses := by
    intro q q' n h
    split at h
    · simp at h
    · exact (Prod.mk.inj h).1.symm
  dequeue_takes := by
    rintro ⟨nodes, ready⟩ q' r n h
    cases nodes with
    | nil => simp at h
    | cons front rest =>
      simp only [Prod.mk.injEq] at h
      obtain ⟨rfl, rfl, _⟩ := h
      rfl
  dequeue_fails := by
    rintro ⟨nodes, ready⟩ q' r n h
    cases nodes with
    | nil =>
      simp only [Prod.mk.injEq] at h
      exact ⟨rfl, h.1.symm, h.2.1.symm⟩
    | cons front rest => simp at h

abbrev balkingTraits (Value : Type) (M : MapTraits Key Listener) :
    DefaultTraits Key Value Listener :=
  ⟨BalkingQueueTraits Key Value, M⟩

/-- A pool made by `Create`. Before each step the scheduler says whether the queue takes
    a push in it. -/
def balkingMachine [DecidableEq ι] (Value : Type) (M : MapTraits Key Listener)
    (sign : Option (SignConsumerFinished ι)) (junk : QueueNode Key Value) :
    Machine (QueuePool (balkingTraits Value M) ι) (QueuePool.Action Key Value Listener ι × Bool)
      (Entry Key Value Listener ι) where
  init := QueuePool.create sign junk
  step := fun s a => { s with queue := (s.queue.1, a.2) }.step a.1

namespace QueuePool

structure Traced {T : DefaultTraits Key Value Listener} (s : QueuePool T ι)
    (log : List (Entry Key Value Listener ι)) : Prop where
  conserved : s.Conserved log
  round : s.InRound log
  announced : s.Announced log
  routed : s.Routed log
  pushers : Whenever (fun past x => ∀ c node, x = .pushed c node →
    .called c (.enqueue node) ∈ past) log

section Steps
variable {T : DefaultTraits Key Value Listener} {s s' : QueuePool T ι}
  {log : List (Entry Key Value Listener ι)} {sign : Option (SignConsumerFinished ι)}
  {junk : QueueNode Key Value}

theorem traced_create : (create sign junk : QueuePool T ι).Traced [] := by
  refine ⟨T.queueTraits.contents_empty.symm, ⟨_, Rounds.nil, rfl⟩, ?_, ?_, whenever_nil⟩
  · intro t call inside
    simp [create, ClientPc.call?] at inside
  · refine ⟨fun key x entry => ?_, by simp [create], by simp [create]⟩
    simp [create, T.mapTraits.stored_empty] at entry

theorem traced_pushed (traced : s.Traced log) {node : QueueNode Key Value}
    (popped : node ∈ pops log) : ∃ c, .pushed c node ∈ log ∧ .called c (.enqueue node) ∈ log := by
  have pushed : node ∈ pushes log := (prefix_of_conserved traced.conserved).subset popped
  obtain ⟨x, member, eq⟩ := List.mem_filterMap.mp pushed
  cases x with
  | pushed c node' =>
    cases eq
    obtain ⟨before, after, parts⟩ := List.append_of_mem member
    have called := traced.pushers before _ after parts c node rfl
    exact ⟨c, member, parts ▸ List.mem_append_left _ called⟩
  | _ => simp [Entry.push?] at eq

variable [DecidableEq ι] {a : Action Key Value Listener ι}
  {out : Option (Entry Key Value Listener ι)}

theorem traced_step (traced : s.Traced log) (step : s.step a = some (s', out)) :
    s'.Traced (log ++ out.toList) := by
  obtain ⟨conserved, round, announced, routed, pushers⟩ := traced
  refine ⟨conserved_step conserved step, in_round_step round step, announced_step announced step,
    routed_step routed announced step, whenever_append_toList pushers ?_⟩
  rintro x rfl c node rfl
  exact push_announced announced step

theorem traced_delivery (traced : s.Traced log) {listener : Listener} {node : QueueNode Key Value}
    (step : s.step a = some (s', some (.consumed listener node))) :
    Justified log listener node := by
  obtain ⟨pc, rfl, authorized⟩ := consume_authorized traced.routed step
  obtain ⟨round, rounds, there⟩ := traced.round
  simp only [AtRound, pc] at there
  subst there
  have ownPop := pops_eq_outcomes_pending rounds
  exact ⟨ownPop, current_pops_undecided rounds (Or.inr ⟨_, Or.inr rfl⟩),
    prefix_of_conserved traced.conserved,
    traced_pushed traced (by simp [ownPop, Round.pending]), authorized⟩

end Steps

section Runs
variable {M : MapTraits Key Listener} {s : QueuePool (balkingTraits Value M) ι}
  {log : List (Entry Key Value Listener ι)} {sign : Option (SignConsumerFinished ι)}
  {junk : QueueNode Key Value}

theorem traced_ready (traced : s.Traced log) (ready : Bool) :
    ({ s with queue := (s.queue.1, ready) } : QueuePool (balkingTraits Value M) ι).Traced log := by
  obtain ⟨conserved, round, announced, routed, pushers⟩ := traced
  exact ⟨conserved, round, announced, ⟨routed.map, routed.lookup, routed.found⟩, pushers⟩

variable [DecidableEq ι]

theorem balking_traced (run : (balkingMachine Value M sign junk).Reachable s log) :
    s.Traced log := by
  refine Machine.reach_invariant traced_create ?_ run
  intro s log a s' out _ traced _ step
  exact traced_step (traced_ready traced a.2) step

theorem balking_justified (run : (balkingMachine Value M sign junk).Reachable s log) :
    Whenever (fun past x => ∀ listener node, x = .consumed listener node →
      Justified past listener node) log := by
  refine Machine.reach_whenever ?_ run
  rintro s log a s' x before _ step listener node rfl
  exact traced_delivery (traced_ready (balking_traced before) a.2) step

end Runs

end QueuePool

end MappedQueue
