import MappedQueue.Completion
import MappedQueue.Concurrency.Census

/-!
Pools that share a completion signature. Any number of pools, each of a type of its
own, are created at any time with one `SignConsumerFinished`; each runs as a pool
alone does, except that the signature it points to is the common one. Threads may
also wait on the signature directly. A thread makes one call at a time.
-/
namespace MappedQueue
open Concurrency

variable {π ι : Type} {Key Value Listener : π → Type}

/-- `p` stands for one pool object, which one `Create` makes. `waits` are the calls of
    `WaitForConsumersFinished` that are made on the signature itself. What a pool keeps
    of the signature is stale: the common one takes its place in every step. -/
structure SharedPools (T : ∀ p, DefaultTraits (Key p) (Value p) (Listener p)) (ι : Type) where
  sign : SignConsumerFinished ι
  created : List π
  pools : ∀ p, Option (QueuePool (T p) ι)
  waits : ι → Option WaitPc

inductive SharedAction (Key Value Listener : π → Type) (ι : Type) where
  | create (p : π) (junk : QueueNode (Key p) (Value p))
  | pool (p : π) (a : QueuePool.Action (Key p) (Value p) (Listener p) ι)
  | callWait (t : ι)
  | wait (t : ι)
  | wake (t : ι)

/-- `waitBegan` and `waitReturned` are about `WaitForConsumersFinished` of the
    signature, called directly or inside a call on a pool. -/
inductive SharedEntry (π ι : Type) where
  | created (p : π)
  | waitBegan (t : ι)
  | waitReturned (t : ι)
  deriving DecidableEq, Repr

namespace QueuePool
variable {K V L : Type} {T : DefaultTraits K V L}

def setConsumersFinished (s : QueuePool T ι) (sign : SignConsumerFinished ι) : QueuePool T ι :=
  { s with consumersFinished := some sign }

def observe (s : QueuePool T ι) : Action K V L ι → Option (Entry K V L ι) →
    Option (SharedEntry π ι)
  | .client t, some (.returned _ (.finish _)) => some (.waitReturned t)
  | .client t, none =>
    match (s.clients t).pc with
    | .finish _ .waitForConsumersFinished => some (.waitBegan t)
    | _ => none
  | _, _ => none

end QueuePool

namespace SharedPools
variable {T : ∀ p, DefaultTraits (Key p) (Value p) (Listener p)}

def create : SharedPools T ι where
  sign := SignConsumerFinished.create
  created := []
  pools := fun _ => none
  waits := fun _ => none

def isFree (s : SharedPools T ι) (t : ι) : Bool :=
  (s.waits t).isNone && s.created.all fun p => (s.pools p).all fun pool => pool.isIdle t

def mayStep (s : SharedPools T ι) (p : π) :
    QueuePool.Action (Key p) (Value p) (Listener p) ι → Bool
  | .call t _ => s.isFree t
  | _ => true

variable [DecidableEq π] [DecidableEq ι]

abbrev Next (T : ∀ p, DefaultTraits (Key p) (Value p) (Listener p)) (ι : Type) :=
  Option (SharedPools T ι × Option (SharedEntry π ι))

def poolStep (s : SharedPools T ι) (p : π)
    (a : QueuePool.Action (Key p) (Value p) (Listener p) ι) : Next T ι :=
  match s.pools p with
  | none => none
  | some pool =>
    match (pool.setConsumersFinished s.sign).step a with
    | none => none
    | some (pool', out) =>
      some ({ s with
        sign := pool'.consumersFinished.getD s.sign,
        pools := Function.update s.pools p (some pool') }, pool.observe a out)

def waitStep (s : SharedPools T ι) (t : ι) : Next T ι :=
  match s.waits t with
  | none => none
  | some pos =>
    match s.sign.event.waitStep t pos with
    | none => none
    | some (event, some next) =>
      some ({ s with
        sign := { s.sign with event := event }, waits := Function.update s.waits t (some next) },
        none)
    | some (event, none) =>
      some ({ s with
        sign := { s.sign with event := event }, waits := Function.update s.waits t none },
        some (.waitReturned t))

def step (s : SharedPools T ι) : SharedAction Key Value Listener ι → Next T ι
  | .create p junk =>
    match s.pools p with
    | some _ => none
    | none =>
      some ({ s with
        created := p :: s.created,
        pools := Function.update s.pools p (some (QueuePool.create (some s.sign) junk)) },
        some (.created p))
  | .pool p a => if s.mayStep p a then s.poolStep p a else none
  | .callWait t =>
    if s.isFree t then
      some ({ s with waits := Function.update s.waits t (some .lock) }, some (.waitBegan t))
    else none
  | .wait t => s.waitStep t
  | .wake t => some ({ s with sign := { s.sign with event := s.sign.event.wake t } }, none)

end SharedPools

def sharedMachine [DecidableEq π] [DecidableEq ι]
    (T : ∀ p, DefaultTraits (Key p) (Value p) (Listener p)) :
    Machine (SharedPools T ι) (SharedAction Key Value Listener ι) (SharedEntry π ι) where
  init := SharedPools.create
  step := SharedPools.step

inductive SignPhase where
  | created
  | starting
  | running
  | leaving
  | testing
  | storing
  | notifying
  | done
  deriving DecidableEq, Repr

def DecreasePc.signPhase : DecreasePc → SignPhase
  | .decrement => .leaving
  | .testLeft => .testing
  | .storeFlag => .storing
  | .notifyAll => .notifying

def ConsumerPc.signPhase {Map L : Type} : ConsumerPc Map L → SignPhase
  | .getStopToken => .created
  | .increaseConsumersLeft => .starting
  | .decreaseConsumersLeft => .leaving
  | .decreasing pos => pos.signPhase
  | .finished => .done
  | _ => .running

namespace SignPhase

def increased : SignPhase → Bool
  | created => false
  | starting => false
  | _ => true

def counted : SignPhase → Bool
  | running => true
  | leaving => true
  | _ => false

def left : SignPhase → Bool
  | created => false
  | starting => false
  | running => false
  | _ => true

/-- Between the decrement and the end of `DecreaseConsumersLeft`. -/
def signalling : SignPhase → Bool
  | testing => true
  | storing => true
  | notifying => true
  | _ => false

theorem left_of_uncounted {phase : SignPhase} (increased : phase.increased = true)
    (uncounted : phase.counted = false) : phase.left = true := by
  cases phase <;> simp_all [SignPhase.increased, SignPhase.counted, SignPhase.left]

end SignPhase

/-- What a step of a consumer does to its signature and to its phase. -/
inductive PhaseMove (sign sign' : SignConsumerFinished ι) : SignPhase → SignPhase → Prop where
  | stay {phase} (same : sign' = sign) : PhaseMove sign sign' phase phase
  | start (same : sign' = sign) : PhaseMove sign sign' .created .starting
  | increase (eq : sign' = sign.increaseConsumersLeft) : PhaseMove sign sign' .starting .running
  | leave (same : sign' = sign) : PhaseMove sign sign' .running .leaving
  | decrement (left : sign'.consumersLeft = sign.consumersLeft - 1)
      (event : sign'.event = sign.event) : PhaseMove sign sign' .leaving .testing
  | testZero (zero : sign.consumersLeft = 0) (same : sign' = sign) :
      PhaseMove sign sign' .testing .storing
  | testOther (others : sign.consumersLeft ≠ 0) (same : sign' = sign) :
      PhaseMove sign sign' .testing .done
  | store (left : sign'.consumersLeft = sign.consumersLeft)
      (event : sign'.event = sign.event.storeFlag) : PhaseMove sign sign' .storing .notifying
  | notify (left : sign'.consumersLeft = sign.consumersLeft)
      (event : sign'.event = sign.event.notifyAll) : PhaseMove sign sign' .notifying .done

theorem decrease_step_phase {sign sign' : SignConsumerFinished ι} {pos next : DecreasePc}
    (inside : sign.decreaseStep pos = (sign', some next)) :
    PhaseMove sign sign' pos.signPhase next.signPhase := by
  cases pos with
  | decrement =>
    obtain ⟨rfl, eq⟩ := Prod.mk.inj inside
    cases eq
    exact PhaseMove.decrement rfl rfl
  | testLeft =>
    obtain ⟨rfl, eq⟩ := Prod.mk.inj inside
    split at eq <;> cases eq
    exact PhaseMove.testZero ‹_› rfl
  | storeFlag =>
    obtain ⟨rfl, eq⟩ := Prod.mk.inj inside
    cases eq
    exact PhaseMove.store rfl rfl
  | notifyAll => simp [SignConsumerFinished.decreaseStep] at inside

theorem decrease_return_phase {sign sign' : SignConsumerFinished ι} {pos : DecreasePc}
    (inside : sign.decreaseStep pos = (sign', none)) : PhaseMove sign sign' pos.signPhase .done := by
  cases pos with
  | testLeft =>
    obtain ⟨rfl, eq⟩ := Prod.mk.inj inside
    split at eq <;> cases eq
    exact PhaseMove.testOther ‹_› rfl
  | notifyAll =>
    obtain ⟨rfl, _⟩ := Prod.mk.inj inside
    exact PhaseMove.notify rfl rfl
  | decrement | storeFlag => simp [SignConsumerFinished.decreaseStep] at inside

namespace QueuePool
variable {K V L : Type} {T : DefaultTraits K V L} [DecidableEq ι] {s s' : QueuePool T ι}
  {sign : SignConsumerFinished ι} {out : Option (Entry K V L ι)}

theorem consumer_phase_moves {woken : Option ι} (pointer : s.consumersFinished = some sign)
    (move : ConsumerMove s woken s' out) : ∃ sign', s'.consumersFinished = some sign' ∧
      PhaseMove sign sign' s.consumer.pc.signPhase s'.consumer.pc.signPhase := by
  cases move with
  | getStopToken pc => exact ⟨sign, pointer, by rw [pc]; exact PhaseMove.start rfl⟩
  | increase pc =>
    exact ⟨sign.increaseConsumersLeft, by simp [consumerAt, pointer],
      by rw [pc]; exact PhaseMove.increase rfl⟩
  | loopExit pc stop => exact ⟨sign, pointer, by rw [pc]; exact PhaseMove.leave rfl⟩
  | pop pc | miss pc =>
    rcases pc with ⟨pc, rfl⟩ | ⟨pc, rfl⟩
    all_goals exact ⟨sign, pointer, by rw [pc]; exact PhaseMove.stay rfl⟩
  | noSign pc null => simp [pointer] at null
  | decreaseStep pc pointer' inside =>
    obtain rfl := Option.some.inj (pointer'.symm.trans pointer)
    exact ⟨_, rfl, by rw [pc]; exact decrease_step_phase inside⟩
  | decreaseReturn pc pointer' inside =>
    obtain rfl := Option.some.inj (pointer'.symm.trans pointer)
    exact ⟨_, rfl, by rw [pc]; exact decrease_return_phase inside⟩
  | _ pc => exact ⟨sign, pointer, by rw [pc]; exact PhaseMove.stay rfl⟩

theorem client_keeps_counter {t : ι} (pointer : s.consumersFinished = some sign)
    (move : ClientMove s t s' out) : ∃ event,
      s'.consumersFinished = some { sign with event := event } ∧
        event.notifyFlag = sign.event.notifyFlag := by
  cases move with
  | waitStep pc pointer' inside | waitReturn pc pointer' inside =>
    obtain rfl := Option.some.inj (pointer'.symm.trans pointer)
    exact ⟨_, rfl, Event.waitStep_notifyFlag inside⟩
  | _ => exact ⟨sign.event, pointer, rfl⟩

theorem client_returns_unlocked {t : ι} {c : CallId ι} {call : FinishCall}
    (pointer : s.consumersFinished = some sign)
    (move : ClientMove s t s' (some (.returned c (.finish call)))) :
    ∃ call', (s.clients t).pc = .finish call' (.wait .unlock) := by
  cases move with
  | noSign pc null => simp [pointer] at null
  | waitReturn pc pointer' inside =>
    cases Event.waitStep_returns inside
    exact ⟨_, pc⟩

theorem step_phase_moves {a : Action K V L ι} (pointer : s.consumersFinished = some sign)
    (step : s.step a = some (s', out)) : ∃ sign', s'.consumersFinished = some sign' ∧
      ((∃ woken, a = .consumer woken ∧
          PhaseMove sign sign' s.consumer.pc.signPhase s'.consumer.pc.signPhase) ∨
        s'.consumer = s.consumer ∧ sign'.consumersLeft = sign.consumersLeft ∧
          sign'.event.notifyFlag = sign.event.notifyFlag) := by
  cases step_moves step with
  | client move =>
    obtain ⟨event, eq, flag⟩ := client_keeps_counter pointer move
    exact ⟨_, eq, Or.inr ⟨client_keeps_consumer move, rfl, flag⟩⟩
  | @consumer woken _ _ move =>
    obtain ⟨sign', eq, phases⟩ := consumer_phase_moves pointer move
    exact ⟨sign', eq, Or.inl ⟨woken, rfl, phases⟩⟩
  | @wakeWaiter t =>
    exact ⟨{ sign with event := sign.event.wake t }, by simp [pointer], Or.inr ⟨rfl, rfl, rfl⟩⟩
  | call | wakeProducer | wakeConsumer => exact ⟨sign, pointer, Or.inr ⟨rfl, rfl, rfl⟩⟩

end QueuePool

namespace SharedPools
variable {T : ∀ p, DefaultTraits (Key p) (Value p) (Listener p)}

def phase (s : SharedPools T ι) (p : π) : Option SignPhase :=
  (s.pools p).map fun pool => pool.consumer.pc.signPhase

/-- What a step does to the signature and to the threads that count themselves in it:
    a pool is created, or a consumer moves, or neither. -/
inductive SignMove [DecidableEq π] (s s' : SharedPools T ι) :
    SharedAction Key Value Listener ι → Option (SharedEntry π ι) → Prop where
  | create {p junk} (fresh : s.phase p = none) (created : s'.created = p :: s.created)
      (phases : s'.phase = Function.update s.phase p (some .created)) (same : s'.sign = s.sign) :
      SignMove s s' (.create p junk) (some (.created p))
  | thread {p woken before after} (there : s.phase p = some before)
      (created : s'.created = s.created)
      (phases : s'.phase = Function.update s.phase p (some after))
      (move : PhaseMove s.sign s'.sign before after) : SignMove s s' (.pool p (.consumer woken)) none
  | other {a out} (created : s'.created = s.created) (phases : s'.phase = s.phase)
      (left : s'.sign.consumersLeft = s.sign.consumersLeft)
      (flag : s'.sign.event.notifyFlag = s.sign.event.notifyFlag)
      (silent : ∀ p, out ≠ some (.created p)) : SignMove s s' a out

theorem phase_update [DecidableEq π] (s : SharedPools T ι) (p : π) (pool : QueuePool (T p) ι) :
    ({ s with pools := Function.update s.pools p (some pool) } : SharedPools T ι).phase =
      Function.update s.phase p (some pool.consumer.pc.signPhase) := by
  funext q
  by_cases own : q = p
  · subst own
    simp [phase]
  · simp [phase, own]

theorem phases_stay [DecidableEq π] {s s' : SharedPools T ι} {p : π} {phase : SignPhase}
    (there : s.phase p = some phase)
    (phases : s'.phase = Function.update s.phase p (some phase)) : s'.phase = s.phase := by
  rw [phases, ← there]
  exact Function.update_eq_self ..

section Moves
variable [DecidableEq π] [DecidableEq ι]

inductive SharedMove (s : SharedPools T ι) : SharedAction Key Value Listener ι →
    SharedPools T ι → Option (SharedEntry π ι) → Prop where
  | create {p junk} (fresh : s.pools p = none) :
      SharedMove s (.create p junk) { s with
        created := p :: s.created,
        pools := Function.update s.pools p (some (QueuePool.create (some s.sign) junk)) }
        (some (.created p))
  | pool {p a pool pool' out sign} (there : s.pools p = some pool)
      (inside : (pool.setConsumersFinished s.sign).step a = some (pool', out))
      (pointer : pool'.consumersFinished = some sign) :
      SharedMove s (.pool p a) { s with
        sign := sign, pools := Function.update s.pools p (some pool') } (pool.observe a out)
  | callWait {t} (free : s.isFree t = true) :
      SharedMove s (.callWait t) { s with waits := Function.update s.waits t (some .lock) }
        (some (.waitBegan t))
  | waitStep {t pos event next} (there : s.waits t = some pos)
      (inside : s.sign.event.waitStep t pos = some (event, some next)) :
      SharedMove s (.wait t) { s with
        sign := { s.sign with event := event }, waits := Function.update s.waits t (some next) } none
  | waitReturn {t pos event} (there : s.waits t = some pos)
      (inside : s.sign.event.waitStep t pos = some (event, none)) :
      SharedMove s (.wait t) { s with
        sign := { s.sign with event := event }, waits := Function.update s.waits t none }
        (some (.waitReturned t))
  | wake {t} :
      SharedMove s (.wake t) { s with sign := { s.sign with event := s.sign.event.wake t } } none

variable {s s' : SharedPools T ι} {a : SharedAction Key Value Listener ι}
  {out : Option (SharedEntry π ι)}

theorem pool_moves {p : π} {a : QueuePool.Action (Key p) (Value p) (Listener p) ι}
    (h : s.poolStep p a = some (s', out)) : SharedMove s (.pool p a) s' out := by
  unfold poolStep at h
  split at h
  · contradiction
  · split at h
    · contradiction
    · rename_i there _ _ _ inside
      cases h
      obtain ⟨sign, pointer, _⟩ := QueuePool.step_phase_moves rfl inside
      rw [pointer, Option.getD_some]
      exact SharedMove.pool there inside pointer

theorem wait_moves {t : ι} (h : s.waitStep t = some (s', out)) : SharedMove s (.wait t) s' out := by
  unfold waitStep at h
  split at h
  · contradiction
  · split at h <;> cases h
    · exact SharedMove.waitStep ‹_› ‹_›
    · exact SharedMove.waitReturn ‹_› ‹_›

theorem shared_moves (h : s.step a = some (s', out)) : SharedMove s a s' out := by
  cases a with
  | create p junk =>
    simp only [step] at h
    split at h <;> cases h
    exact SharedMove.create ‹_›
  | pool p a =>
    simp only [step] at h
    split at h
    · exact pool_moves h
    · contradiction
  | callWait t =>
    simp only [step] at h
    split at h <;> cases h
    exact SharedMove.callWait ‹_›
  | wait t => exact wait_moves h
  | wake t => cases h; exact SharedMove.wake

omit [DecidableEq π] [DecidableEq ι] in
theorem observe_creates_nothing {p : π} {pool : QueuePool (T p) ι}
    {a : QueuePool.Action (Key p) (Value p) (Listener p) ι}
    {out : Option (Entry (Key p) (Value p) (Listener p) ι)} (q : π) :
    pool.observe a out ≠ some (.created q) := by
  unfold QueuePool.observe
  split
  · simp
  · split <;> simp
  · simp

omit [DecidableEq π] in
theorem observe_returns {p : π} {pool pool' : QueuePool (T p) ι} {t : ι}
    {a : QueuePool.Action (Key p) (Value p) (Listener p) ι}
    {out : Option (Entry (Key p) (Value p) (Listener p) ι)} {sign : SignConsumerFinished ι}
    (inside : (pool.setConsumersFinished sign).step a = some (pool', out))
    (observed : pool.observe a out = (some (.waitReturned t) : Option (SharedEntry π ι))) :
    ∃ call, (pool.clients t).pc = .finish call (.wait .unlock) := by
  unfold QueuePool.observe at observed
  split at observed
  · cases observed
    have pointer : (pool.setConsumersFinished sign).consumersFinished = some sign := rfl
    cases QueuePool.step_moves inside with
    | client move =>
      have unlocked := QueuePool.client_returns_unlocked pointer move
      exact unlocked
  · split at observed <;> simp at observed
  · simp at observed

theorem sign_moves (h : s.step a = some (s', out)) : SignMove s s' a out := by
  cases shared_moves h with
  | create fresh =>
    refine SignMove.create (by simp [phase, fresh]) rfl ?_ rfl
    exact phase_update s _ (QueuePool.create (some s.sign) _)
  | @pool p a pool pool' out sign there inside pointer =>
    obtain ⟨sign', pointer', moves⟩ := QueuePool.step_phase_moves rfl inside
    obtain rfl := Option.some.inj (pointer.symm.trans pointer')
    have phases := phase_update s p pool'
    have before : s.phase p = some pool.consumer.pc.signPhase := by simp [phase, there]
    rcases moves with ⟨woken, rfl, move⟩ | ⟨same, left, flag⟩
    · exact SignMove.thread before rfl phases move
    · refine SignMove.other rfl ?_ left flag observe_creates_nothing
      have still : pool'.consumer.pc.signPhase = pool.consumer.pc.signPhase := by rw [same]; rfl
      rw [still] at phases
      exact phases_stay before phases
  | callWait free => exact SignMove.other rfl rfl rfl rfl (by simp)
  | waitStep there inside =>
    exact SignMove.other rfl rfl rfl (Event.waitStep_notifyFlag inside) (by simp)
  | waitReturn there inside =>
    exact SignMove.other rfl rfl rfl (Event.waitStep_notifyFlag inside) (by simp)
  | wake => exact SignMove.other rfl rfl rfl rfl (by simp)

end Moves

end SharedPools

end MappedQueue
