import MappedQueue.Concurrency.LockOrder
import MappedQueue.Destruction

/-!
Who holds the mutexes of a pool's conditions and of its event, told from where the
threads stand: between the acquisition and the release, and nowhere else.
-/
namespace MappedQueue
open Concurrency

variable {Key Value Listener ι : Type}

def EnqueuePc.holdsMutex : EnqueuePc → Bool
  | .test => true
  | .block => true
  | .retest _ => true
  | .unlock => true
  | _ => false

def WaitPc.holdsMutex : WaitPc → Bool
  | .test => true
  | .block => true
  | .unlock => true
  | _ => false

namespace ClientPc

def holdsConditEnqueue : ClientPc Key Value Listener → Bool
  | .enqueue _ pos => pos.holdsMutex
  | _ => false

def holdsMutx : ClientPc Key Value Listener → Bool
  | .finish _ (.wait pos) => pos.holdsMutex
  | _ => false

end ClientPc

namespace Event

theorem waitStep_mutx [DecidableEq ι] {e e' : Event ι} {t : ι} {pos : WaitPc} {next : Option WaitPc}
    (h : e.waitStep t pos = some (e', next)) :
    e'.mutx = e.mutx ∧ (pos.holdsMutex = true → next.any WaitPc.holdsMutex = true) ∨
      e'.mutx = some t ∧ next.any WaitPc.holdsMutex = true ∨ e'.mutx = none := by
  cases pos <;> simp only [waitStep, Option.ite_none_right_eq_some, Option.some.injEq,
    Prod.mk.injEq] at h
  case test =>
    obtain ⟨rfl, rfl⟩ := h
    refine Or.inl ⟨rfl, fun _ => ?_⟩
    split <;> rfl
  case lock | wait =>
    obtain ⟨_, rfl, rfl⟩ := h
    exact Or.inr (Or.inl ⟨rfl, rfl⟩)
  case block | unlock =>
    obtain ⟨rfl, _⟩ := h
    exact Or.inr (Or.inr rfl)

end Event

theorem SignConsumerFinished.decreaseStep_mutx {sign sign' : SignConsumerFinished ι}
    {pos : DecreasePc} {next : Option DecreasePc} (h : sign.decreaseStep pos = (sign', next)) :
    sign'.event.mutx = sign.event.mutx := by
  cases pos <;> obtain ⟨rfl, _⟩ := Prod.mk.inj h <;> rfl

namespace QueuePool
variable {T : DefaultTraits Key Value Listener}

def mutx (s : QueuePool T ι) : Option ι := s.consumersFinished.bind fun sign => sign.event.mutx

/-- Each mutex of the conditions and of the event is held by a thread inside its lock. -/
structure HeldInside (s : QueuePool T ι) : Prop where
  consume : s.conditConsumeMutex = s.consumer.pc.holdsMutex
  enqueue : ∀ t, s.conditEnqueueMutex = some t → (s.clients t).pc.holdsConditEnqueue = true
  event : ∀ t, s.mutx = some t → (s.clients t).pc.holdsMutx = true

variable [DecidableEq ι] {s s' : QueuePool T ι} {a : Action Key Value Listener ι}
  {out : Option (Entry Key Value Listener ι)}

theorem client_condit_enqueue {t : ι} (move : ClientMove s t s' out) :
    s'.conditEnqueueMutex = s.conditEnqueueMutex ∧
        ((s.clients t).pc.holdsConditEnqueue = true →
          (s'.clients t).pc.holdsConditEnqueue = true) ∨
      s'.conditEnqueueMutex = some t ∧ (s'.clients t).pc.holdsConditEnqueue = true ∨
      s'.conditEnqueueMutex = none := by
  cases move with
  | lock | resume =>
    refine Or.inr (Or.inl ⟨rfl, ?_⟩)
    simp [ClientPc.holdsConditEnqueue, EnqueuePc.holdsMutex]
  | block | unlock => exact Or.inr (Or.inr rfl)
  | _ pc =>
    refine Or.inl ⟨rfl, ?_⟩
    simp [pc, ClientPc.holdsConditEnqueue, EnqueuePc.holdsMutex]

theorem client_mutx {t : ι} (move : ClientMove s t s' out) :
    s'.mutx = s.mutx ∧
        ((s.clients t).pc.holdsMutx = true → (s'.clients t).pc.holdsMutx = true) ∨
      s'.mutx = some t ∧ (s'.clients t).pc.holdsMutx = true ∨ s'.mutx = none := by
  cases move with
  | waitStep pc pointer inside | waitReturn pc pointer inside =>
    have event := Event.waitStep_mutx inside
    simpa [mutx, pc, pointer, ClientPc.holdsMutx] using event
  | _ pc =>
    refine Or.inl ⟨rfl, ?_⟩
    simp [pc, ClientPc.holdsMutx]

theorem consumer_mutexes {woken : Option ι} (move : ConsumerMove s woken s' out) :
    s'.conditEnqueueMutex = s.conditEnqueueMutex ∧ s'.mutx = s.mutx := by
  cases move with
  | increase pc =>
    refine ⟨rfl, ?_⟩
    cases pointer : s.consumersFinished with
    | none => simp [mutx, pointer]
    | some sign => simp [mutx, pointer, SignConsumerFinished.increaseConsumersLeft]
  | decreaseStep pc pointer inside | decreaseReturn pc pointer inside =>
    exact ⟨rfl, by simp [mutx, pointer, SignConsumerFinished.decreaseStep_mutx inside]⟩
  | _ => exact ⟨rfl, rfl⟩

theorem held_step (h : s.HeldInside) (step : s.step a = some (s', out)) : s'.HeldInside := by
  cases step_moves step with
  | @client t _ _ move =>
    have others : ∀ u, u ≠ t → s'.clients u = s.clients u :=
      fun u other => (client_keeps_others move other).1
    have consume : s'.conditConsumeMutex = s.conditConsumeMutex := by cases move <;> rfl
    constructor
    · rw [consume, client_keeps_consumer move]
      exact h.consume
    · exact holder_stands (fun u other => by rw [others u other]) (client_condit_enqueue move)
        h.enqueue
    · exact holder_stands (fun u other => by rw [others u other]) (client_mutx move) h.event
  | consumer move =>
    obtain ⟨enqueue, event⟩ := consumer_mutexes move
    have clients := consumer_keeps_clients move
    exact ⟨consumer_condit_consume h.consume move, by rw [enqueue, clients]; exact h.enqueue,
      by rw [event, clients]; exact h.event⟩
  | @call t call pc alive =>
    have others : ∀ u, u ≠ t → (s.goto t (entrance call)).clients u = s.clients u :=
      fun u other => Function.update_of_ne other ..
    constructor
    · exact h.consume
    · refine holder_stands (fun u other => by rw [others u other]) (Or.inl ⟨rfl, ?_⟩) h.enqueue
      simp [pc, ClientPc.holdsConditEnqueue]
    · refine holder_stands (fun u other => by rw [others u other]) (Or.inl ⟨rfl, ?_⟩) h.event
      simp [pc, ClientPc.holdsMutx]
  | wakeProducer | wakeConsumer => exact ⟨h.consume, h.enqueue, h.event⟩
  | @wakeWaiter t =>
    refine ⟨h.consume, h.enqueue, ?_⟩
    intro u held
    refine h.event u ?_
    cases pointer : s.consumersFinished with
    | none => simp [mutx, pointer] at held
    | some sign => simpa [mutx, pointer, Event.wake] using held

theorem held_run {sign : Option (SignConsumerFinished ι)} {junk : QueueNode Key Value}
    {log : List (Entry Key Value Listener ι)}
    (unlocked : sign.bind (fun sign => sign.event.mutx) = none)
    (run : (poolMachine T sign junk).Reachable s log) : s.HeldInside := by
  refine Machine.reach_invariant (I := fun s _ => s.HeldInside) ?_ ?_ run
  · constructor
    · rfl
    · intro t held
      simp [poolMachine, create] at held
    · intro t held
      simp [poolMachine, create, mutx, unlocked] at held
  · intro s log a s' out _ h _ step
    exact held_step h step

end QueuePool

end MappedQueue
