import MappedQueue.LockfreePool
import MappedQueue.SoleConsumer

/-!
A pool on the lock-free queue, seen as one in which each call of the queue is a single
step: a thread whose call is settled has already gone on in the pool. Steps of the pool
outside its queue do not tell the difference.
-/
namespace MappedQueue
open Concurrency TaggedIndex QueueMemory

variable {Key Value Listener ι : Type}

def Client.settle (client : Client Key Value Listener) :
    Option (LockfreeReply (QueueNode Key Value)) → Client Key Value Listener
  | some (.pushed accepted) => client.answered accepted
  | _ => client

def Consumer.settle {Map : Type} (consumer : Consumer Key Value Map Listener) :
    Option (LockfreeReply (QueueNode Key Value)) → Consumer Key Value Map Listener
  | some (.popped node success) => consumer.answered node success
  | _ => consumer

namespace QueuePool
variable {T : DefaultTraits Key Value Listener} {q : T.queueTraits.Queue}
  {g : Consumer Key Value T.mapTraits.Map Listener → Consumer Key Value T.mapTraits.Map Listener}
  {h : ι → Client Key Value Listener → Client Key Value Listener} {s s' : QueuePool T ι} {t : ι}
  {out : Option (Entry Key Value Listener ι)}

def overlay (q : T.queueTraits.Queue)
    (g : Consumer Key Value T.mapTraits.Map Listener → Consumer Key Value T.mapTraits.Map Listener)
    (h : ι → Client Key Value Listener → Client Key Value Listener) (s : QueuePool T ι) :
    QueuePool T ι :=
  { s with queue := q, consumer := g s.consumer, clients := fun t => h t (s.clients t) }

variable [DecidableEq ι]

theorem overlay_update (quiet : ∀ client, h t client = client)
    (client : Client Key Value Listener) :
    (fun u => h u (Function.update s.clients t client u)) =
      Function.update (fun u => h u (s.clients u)) t client := by
  funext u
  by_cases own : u = t
  · subst own
    simp [quiet]
  · simp [own]

theorem overlay_goto (quiet : ∀ client, h t client = client) (pc : ClientPc Key Value Listener) :
    (s.goto t pc).overlay q g h = (s.overlay q g h).goto t pc := by
  unfold overlay goto
  simp only [overlay_update quiet, quiet]

theorem overlay_leave (quiet : ∀ client, h t client = client) :
    (s.leave t).overlay q g h = (s.overlay q g h).leave t := by
  unfold overlay leave
  simp only [overlay_update quiet, quiet]

omit [DecidableEq ι] in
theorem overlay_client (quiet : ∀ client, h t client = client) :
    (s.overlay q g h).clients t = s.clients t := quiet _

theorem call_overlay {call : Call Key Value Listener} (quiet : ∀ client, h t client = client)
    (step : s.step (.call t call) = some (s', out)) :
    (s.overlay q g h).step (.call t call) = some (s'.overlay q g h, out) := by
  have here := overlay_client (q := q) (g := g) (s := s) quiet
  cases step_moves step with
  | call pc alive =>
    simp only [QueuePool.step, callStep, here, pc, overlay_goto quiet, callId]
    exact if_neg (ne_true_of_eq_false alive)

theorem client_overlay (quiet : ∀ client, h t client = client)
    (plain : (s.clients t).pc.pushes? = none) (step : s.clientStep t = some (s', out)) :
    (s.overlay q g h).clientStep t = some (s'.overlay q g h, out) := by
  have here := overlay_client (q := q) (g := g) (s := s) quiet
  unfold clientStep
  cases client_moves step with
  | tryPush pc push | tryRefused pc push =>
    simp [pc, ClientPc.pushes?, EnqueuePc.asksQueue] at plain
  | predicatePush pc testing push | predicateRefused pc testing push =>
    rcases testing with rfl | ⟨notified, rfl⟩ <;>
      simp [pc, ClientPc.pushes?, EnqueuePc.asksQueue] at plain
  | lock pc free =>
    simp only [here, pc, enqueueStep]
    rw [if_pos (show (s.overlay q g h).conditEnqueueMutex = none from free), overlay_goto quiet]
    rfl
  | block pc =>
    simp only [here, pc, enqueueStep, overlay_goto quiet]
    rfl
  | resume pc awake free =>
    simp only [here, pc, enqueueStep, overlay_goto quiet]
    rw [if_pos (show t ∉ (s.overlay q g h).enqueueCondvar.blocked ∧
      (s.overlay q g h).conditEnqueueMutex = none from ⟨awake, free⟩)]
    rfl
  | unlock pc =>
    simp only [here, pc, enqueueStep, overlay_goto quiet]
    rfl
  | hasValueEvent pc =>
    simp only [here, pc, enqueueStep, overlay_leave quiet, callId]
    rfl
  | subscribe pc =>
    simp only [here, pc, overlay_leave quiet, callId]
    rfl
  | requestStop pc | destructEvent pc =>
    simp only [here, pc, finishStep, overlay_goto quiet]
    rfl
  | noSign pc null =>
    simp only [here, pc, finishStep]
    split
    · simp only [finishReturn, overlay_leave quiet, callId, here]
      rfl
    · rename_i pointer
      cases pointer.symm.trans null
  | enterWait pc pointer =>
    simp only [here, pc, finishStep, show (s.overlay q g h).consumersFinished = some _ from pointer,
      overlay_goto quiet]
  | waitStep pc pointer inside =>
    simp only [here, pc, finishStep, show (s.overlay q g h).consumersFinished = some _ from pointer,
      inside, overlay_goto quiet]
    rfl
  | waitReturn pc pointer inside =>
    simp only [here, pc, finishStep, show (s.overlay q g h).consumersFinished = some _ from pointer,
      inside, finishReturn, overlay_leave quiet, callId]
    rfl

theorem consumer_overlay {woken : Option ι} (quiet : ∀ consumer, g consumer = consumer)
    (plain : s.consumer.pc.asksQueue = false) (step : s.consumerStep woken = some (s', out)) :
    (s.overlay q g h).consumerStep woken = some (s'.overlay q g h, out) := by
  obtain rfl : g = id := funext quiet
  have here : (s.overlay q id h).consumer = s.consumer := rfl
  unfold consumerStep
  rw [here]
  cases consumer_moves step with
  | pop pc taken | miss pc empty =>
    rcases pc with ⟨pc, _⟩ | ⟨pc, _⟩ <;> simp [pc, ConsumerPc.asksQueue] at plain
  | getStopToken pc | increase pc | block pc | unlock pc | lookup pc | mapSection pc
  | mapReturn pc | consume pc | unknownQueue pc | consumeReturn pc =>
    simp only [pc]
    rfl
  | loopExit pc stop =>
    simp only [pc]
    exact if_pos stop
  | loopEnter pc stop =>
    simp only [pc]
    exact if_neg (ne_true_of_eq_false stop)
  | lock pc free =>
    simp only [pc]
    exact if_neg (ne_true_of_eq_false free)
  | testTrue pc holds =>
    simp only [pc]
    exact if_pos (by simpa [overlay] using holds)
  | testFalse pc value stop =>
    simp only [pc]
    exact if_neg (by simp [overlay, value, stop])
  | resume pc awake free =>
    simp only [pc]
    exact if_neg (by simp [overlay, awake, free])
  | checkStopped pc stop | checkPassed pc stop =>
    simp only [pc]
    simp [overlay, stop]
  | capacityEvent pc notify =>
    simp only [pc]
    simp [overlay, notify]
  | noSign pc null =>
    simp only [pc]
    simp [overlay, null]
  | decrease pc pointer =>
    simp only [pc]
    simp [overlay, pointer]
  | decreaseStep pc pointer inside | decreaseReturn pc pointer inside =>
    simp only [pc]
    simp [overlay, pointer, decreaseConsumersLeft, inside]

end QueuePool

namespace LockfreePool
variable {M : MapTraits Key Listener}

/-- The pool as if the calls of its queue were single steps, `nodes` being inside. -/
def atomic (capacity : Nat) (s : LockfreePool Value M ι) (nodes : List (QueueNode Key Value))
    (ready : Bool) : QueuePool (balkingTraits Value M) ι :=
  s.pool.overlay (nodes, ready)
    (fun consumer => consumer.settle ((s.queue.threads none).pc.settled (nullHandle capacity)))
    fun t client => client.settle ((s.queue.threads (some t)).pc.settled (nullHandle capacity))

/-- Where the queue's thread is goes with where the pool's thread is. -/
def Inside (pool : QueuePool (balkingTraits Value M) ι) :
    Option ι → LockfreePc (QueueNode Key Value) → Prop
  | some t, pc => ∃ node, (pool.clients t).pc.pushes? = some node ∧
      ((∃ pos, pc = .push node pos) ∨ ∃ accepted, pc = .returning (.pushed accepted))
  | none, pc => pool.consumer.pc.asksQueue = true ∧
      ((∃ ret pos, pc = .pop ret pos) ∨ ∃ ret success, pc = .returning (.popped ret success))

structure Coupled (capacity : Nat) (s : LockfreePool Value M ι) : Prop where
  inside : ∀ t, (s.queue.threads t).pc ≠ .idle → Inside s.pool t (s.queue.threads t).pc
  sole : (s.queue.threads none).pc.Sole (nullHandle capacity) s.queue.memory s.pool.consumer.node

section Plain
variable {capacity : Nat} {s : LockfreePool Value M ι} {t : ι} [DecidableEq ι]
  {a : QueuePool.Action Key Value Listener ι} {pool : QueuePool (balkingTraits Value M) ι}
  {out : Option (Entry Key Value Listener ι)}

omit [DecidableEq ι] in
theorem client_outside (coupled : s.Coupled capacity)
    (plain : (s.pool.clients t).pc.pushes? = none) :
    (s.queue.threads (some t)).pc = .idle := by
  by_contra busy
  obtain ⟨node, pushes, _⟩ := coupled.inside (some t) busy
  rw [plain] at pushes
  contradiction

omit [DecidableEq ι] in
theorem consumer_outside (coupled : s.Coupled capacity)
    (plain : s.pool.consumer.pc.asksQueue = false) : (s.queue.threads none).pc = .idle := by
  by_contra busy
  have asks := (coupled.inside none busy).1
  rw [plain] at asks
  contradiction

theorem plain_step (coupled : s.Coupled capacity) (plain : s.demand a = none)
    (step : s.pool.step a = some (pool, out)) (nodes : List (QueueNode Key Value)) (ready : Bool) :
    (s.atomic capacity nodes ready).step a =
      some ((⟨pool, s.queue⟩ : LockfreePool Value M ι).atomic capacity nodes ready, out) := by
  have quiet : ∀ t, (s.queue.threads (some t)).pc = .idle → ∀ client : Client Key Value Listener,
      client.settle ((s.queue.threads (some t)).pc.settled (nullHandle capacity)) = client := by
    intro t idle client
    rw [idle]
    rfl
  cases a with
  | client t =>
    have outside : (s.pool.clients t).pc.pushes? = none := Option.map_eq_none_iff.mp plain
    exact QueuePool.client_overlay (quiet t (client_outside coupled outside)) outside step
  | consumer woken =>
    have outside : s.pool.consumer.pc.asksQueue = false := by
      simpa [demand] using plain
    apply QueuePool.consumer_overlay _ outside step
    intro consumer
    rw [consumer_outside coupled outside]
    rfl
  | call t call =>
    have outside : (s.pool.clients t).pc.pushes? = none := by
      cases QueuePool.step_moves step with
      | call pc alive =>
        rw [pc]
        rfl
    exact QueuePool.call_overlay (quiet t (client_outside coupled outside)) step
  | wakeProducer t | wakeWaiter t | wakeConsumer =>
    cases step
    rfl

end Plain

end LockfreePool

end MappedQueue
