import MappedQueue.LockfreePoolSteps

/-!
The pool on the lock-free queue does what a pool on an atomic first-in first-out queue
does that may refuse a push: every log of the one, as an observer of the pool sees it, is
a log of the other.
-/
namespace MappedQueue
open Concurrency TaggedIndex QueueMemory

variable {Key Value Listener ι : Type}

namespace LockfreePool
variable {M : MapTraits Key Listener} {s s' : LockfreePool Value M ι} {capacity : Nat}

section Coupling
variable {t : Option ι} {call : LockfreeCall (QueueNode Key Value)}
  {pool : QueuePool (balkingTraits Value M) ι} {pc : LockfreePc (QueueNode Key Value)}
  {a : QueuePool.Action Key Value Listener ι} {x : Option (Entry Key Value Listener ι)}
  {m : QueueMemory (QueueNode Key Value)} {o : Outcome (QueueNode Key Value)} {spurious : Bool}

theorem demand_inside (demand : s.demand a = some (t, call)) : Inside s.pool t call.entrance := by
  cases a with
  | client u =>
    simp only [LockfreePool.demand] at demand
    obtain ⟨node, pushes, same⟩ := Option.map_eq_some_iff.mp demand
    cases same
    exact ⟨node, pushes, Or.inl ⟨_, rfl⟩⟩
  | consumer woken =>
    simp only [LockfreePool.demand] at demand
    split at demand
    · rename_i asks
      cases demand
      exact ⟨asks, Or.inl ⟨_, _, rfl⟩⟩
    · contradiction
  | _ => contradiction

theorem entrance_sole [DecidableEq ι] (demand : s.demand a = some (t, call))
    (sole : (s.queue.threads none).pc.Sole (nullHandle capacity) s.queue.memory
      s.pool.consumer.node) :
    ((s.queue.goto t s.queue.memory call.entrance).threads none).pc.Sole (nullHandle capacity)
      s.queue.memory s.pool.consumer.node := by
  cases a with
  | client u =>
    simp only [LockfreePool.demand] at demand
    obtain ⟨node, pushes, same⟩ := Option.map_eq_some_iff.mp demand
    cases same
    simpa [LockfreeThreads.goto] using sole
  | consumer woken =>
    simp only [LockfreePool.demand] at demand
    split at demand
    · cases demand
      simp [LockfreeThreads.goto, LockfreeCall.entrance, LockfreePc.Sole, PopPc.Alone, Unspoiled,
        LockfreePc.settled]
    · contradiction
  | _ => contradiction

theorem access_inside (inside : Inside s.pool t pc)
    (access : m.access (nullHandle capacity) spurious pc = some o) : Inside s.pool t o.2.1 := by
  cases t with
  | some u =>
    obtain ⟨node, pushes, ⟨pos, rfl⟩ | ⟨accepted, rfl⟩⟩ := inside
    · exact ⟨node, pushes, (push_outcome node pos o (Option.some.inj access)).1⟩
    · contradiction
  | none =>
    obtain ⟨asks, ⟨ret, pos, rfl⟩ | ⟨ret, success, rfl⟩⟩ := inside
    · exact ⟨asks, (pop_outcome ret pos o (Option.some.inj access)).1⟩
    · contradiction

variable [DecidableEq ι]

theorem outside_consumer (plain : s.demand a = none) (step : s.pool.step a = some (pool, x))
    (asks : s.pool.consumer.pc.asksQueue = true) : pool.consumer = s.pool.consumer := by
  cases QueuePool.step_moves step with
  | client move => exact QueuePool.client_keeps_consumer move
  | consumer move => simp [LockfreePool.demand, asks] at plain
  | call | wakeProducer | wakeWaiter | wakeConsumer => rfl

theorem outside_inside (plain : s.demand a = none) (step : s.pool.step a = some (pool, x))
    (inside : Inside s.pool t pc) : Inside pool t pc := by
  cases t with
  | some u =>
    obtain ⟨node, pushes, there⟩ := inside
    refine ⟨node, ?_, there⟩
    have kept : pool.clients u = s.pool.clients u := by
      cases QueuePool.step_moves step with
      | @client v _ _ move =>
        apply (QueuePool.client_keeps_others move _).1
        rintro rfl
        rw [LockfreePool.demand, pushes] at plain
        contradiction
      | consumer move => rw [QueuePool.consumer_keeps_clients move]
      | @call v call pc alive =>
        apply Function.update_of_ne
        rintro rfl
        rw [pc] at pushes
        contradiction
      | wakeProducer | wakeWaiter | wakeConsumer => rfl
    rw [kept]
    exact pushes
  | none =>
    obtain ⟨asks, there⟩ := inside
    exact ⟨by rw [outside_consumer plain step asks]; exact asks, there⟩

theorem coupled_outside (coupled : s.Coupled capacity) (plain : s.demand a = none)
    (step : s.pool.step a = some (pool, x)) :
    (⟨pool, s.queue⟩ : LockfreePool Value M ι).Coupled capacity := by
  refine ⟨fun t busy => outside_inside plain step (coupled.inside t busy), ?_⟩
  by_cases idle : (s.queue.threads none).pc = .idle
  · change (s.queue.threads none).pc.Sole _ _ _
    rw [idle]
    trivial
  · have asks := (coupled.inside none idle).1
    change (s.queue.threads none).pc.Sole _ _ pool.consumer.node
    rw [outside_consumer plain step asks]
    exact coupled.sole

theorem coupled_goto (coupled : s.Coupled capacity) (inside : Inside s.pool t pc)
    (sole : ((s.queue.goto t m pc).threads none).pc.Sole (nullHandle capacity) m
      s.pool.consumer.node) :
    (⟨s.pool, s.queue.goto t m pc⟩ : LockfreePool Value M ι).Coupled capacity := by
  refine ⟨?_, sole⟩
  intro u busy
  by_cases own : u = t
  · subst own
    simpa [LockfreeThreads.goto] using inside
  · simp only [LockfreeThreads.goto, Function.update_of_ne own] at busy ⊢
    exact coupled.inside u busy

variable {reply : LockfreeReply (QueueNode Key Value)} {n : Nat}

theorem resumed_inside {u : Option ι} (other : u ≠ t) (inside : Inside s.pool u pc) :
    Inside (s.pool.resumed (some (.returned (t, n) reply))) u pc := by
  cases t with
  | some v =>
    cases reply with
    | popped ret success => exact inside
    | pushed accepted =>
      cases u with
      | none => exact inside
      | some w =>
        obtain ⟨node, pushes, there⟩ := inside
        have apart : w ≠ v := fun same => other (congrArg some same)
        exact ⟨node, by simpa [QueuePool.resumed, apart] using pushes, there⟩
  | none =>
    cases reply with
    | pushed accepted => exact inside
    | popped ret success =>
      cases u with
      | none => exact absurd rfl other
      | some w => exact inside

theorem coupled_leave (coupled : s.Coupled capacity) :
    (⟨s.pool.resumed (some (.returned (t, n) reply)), s.queue.leave t⟩ :
      LockfreePool Value M ι).Coupled capacity := by
  constructor
  · intro u busy
    by_cases own : u = t
    · subst own
      simp [LockfreeThreads.leave] at busy
    · simp only [LockfreeThreads.leave, Function.update_of_ne own] at busy ⊢
      exact resumed_inside own (coupled.inside u busy)
  · cases t with
    | none => simp [LockfreeThreads.leave, LockfreePc.Sole]
    | some v =>
      have kept : (s.pool.resumed (some (.returned (some v, n) reply))).consumer =
          s.pool.consumer := by
        cases reply <;> rfl
      simpa [LockfreeThreads.leave, kept] using coupled.sole

end Coupling

section Views
variable {t : Option ι} {nodes nodes' : List (QueueNode Key Value)} {ready : Bool}
  {queue : LockfreeThreads (QueueNode Key Value) (Option ι)}

theorem atomic_unsettled (same : ∀ u, (queue.threads u).pc.settled (nullHandle capacity) =
    (s.queue.threads u).pc.settled (nullHandle capacity)) :
    (⟨s.pool, queue⟩ : LockfreePool Value M ι).atomic capacity nodes ready =
      s.atomic capacity nodes ready := by
  unfold atomic
  simp only [same]

variable [DecidableEq ι] {m : QueueMemory (QueueNode Key Value)} {given : QueueNode Key Value}
  {pc : LockfreePc (QueueNode Key Value)} {e : QueueEffect (QueueNode Key Value)}
  {a : QueuePool.Action Key Value Listener ι} {call : LockfreeCall (QueueNode Key Value)}

theorem atomic_silent
    (settles : Settles (nullHandle capacity) given (s.queue.threads t).pc pc none) :
    (⟨s.pool, s.queue.goto t m pc⟩ : LockfreePool Value M ι).atomic capacity nodes ready =
      s.atomic capacity nodes ready := by
  apply atomic_unsettled
  intro u
  by_cases own : u = t
  · subst own
    have still : pc.settled (nullHandle capacity) =
      (s.queue.threads u).pc.settled (nullHandle capacity) := settles
    simpa [LockfreeThreads.goto] using still
  · simp [LockfreeThreads.goto, own]

theorem atomic_leave {reply : LockfreeReply (QueueNode Key Value)} {n : Nat}
    (returning : (s.queue.threads t).pc = .returning reply)
    (inside : Inside s.pool t (s.queue.threads t).pc) :
    (⟨s.pool.resumed (some (.returned (t, n) reply)), s.queue.leave t⟩ :
      LockfreePool Value M ι).atomic capacity nodes ready = s.atomic capacity nodes ready := by
  rw [returning] at inside
  cases t with
  | some v =>
    obtain ⟨node, _, ⟨pos, there⟩ | ⟨accepted, there⟩⟩ := inside
    · contradiction
    cases there
    have clients : (fun u =>
        ((s.pool.resumed (some (.returned (some v, n) (.pushed accepted)))).clients u).settle
          (((s.queue.leave (some v)).threads (some u)).pc.settled (nullHandle capacity))) =
        fun u => (s.pool.clients u).settle
          ((s.queue.threads (some u)).pc.settled (nullHandle capacity)) := by
      funext u
      by_cases own : u = v
      · subst own
        simp [QueuePool.resumed, LockfreeThreads.leave, returning, LockfreePc.settled,
          Client.settle]
      · simp [QueuePool.resumed, LockfreeThreads.leave, own]
    unfold atomic QueuePool.overlay
    simp only [clients]
    simp [QueuePool.resumed, LockfreeThreads.leave]
  | none =>
    obtain ⟨_, ⟨ret, pos, there⟩ | ⟨ret, success, there⟩⟩ := inside
    · contradiction
    cases there
    unfold atomic QueuePool.overlay
    simp [QueuePool.resumed, LockfreeThreads.leave, returning, LockfreePc.settled,
      Consumer.settle]

theorem push_effect {v : ι} {node : QueueNode Key Value} {n : Nat}
    (pushes : (s.pool.clients v).pc.pushes? = some node)
    (settles : Settles (nullHandle capacity) given (s.queue.threads (some v)).pc pc (some e))
    (kind : e = .refused ∨ e = .pushed node) (changes : QueueEffect.Changes (some e) nodes nodes') :
    ∃ ready, (s.atomic capacity nodes ready).step (.client v) =
      some ((⟨s.pool, s.queue.goto (some v) m pc⟩ : LockfreePool Value M ι).atomic capacity nodes'
        ready, s.pool.reported (some (.effect (some v, n) e))) := by
  obtain ⟨unsettled, settled⟩ := settles
  let h : ι → Client Key Value Listener → Client Key Value Listener := fun u client =>
    client.settle ((s.queue.threads (some u)).pc.settled (nullHandle capacity))
  let h' : ι → Client Key Value Listener → Client Key Value Listener := fun u client =>
    client.settle (((s.queue.goto (some v) m pc).threads (some u)).pc.settled (nullHandle capacity))
  have before : h v (s.pool.clients v) = s.pool.clients v := by
    simp only [h, unsettled]
    rfl
  have others : ∀ u, u ≠ v → h' u = h u := by
    intro u other
    simp [h, h', LockfreeThreads.goto, other]
  have consumer : ((s.queue.goto (some v) m pc).threads none).pc = (s.queue.threads none).pc := by
    simp [LockfreeThreads.goto]
  have view : ∀ ready, (⟨s.pool, s.queue.goto (some v) m pc⟩ : LockfreePool Value M ι).atomic
      capacity nodes' ready = s.pool.overlay (nodes', ready) (fun consumer => consumer.settle
        ((s.queue.threads none).pc.settled (nullHandle capacity))) h' := by
    intro ready
    unfold atomic
    simp only [consumer]
    rfl
  rcases kind with rfl | rfl
  · obtain rfl : nodes' = nodes := changes
    refine ⟨false, ?_⟩
    have after : h' v (s.pool.clients v) = (s.pool.clients v).answered false := by
      simp only [h', LockfreeThreads.goto, Function.update_self, settled]
      rfl
    rw [view]
    exact QueuePool.push_overlay pushes before after others
  · obtain rfl : nodes' = nodes ++ [node] := changes
    refine ⟨true, ?_⟩
    have after : h' v (s.pool.clients v) = (s.pool.clients v).answered true := by
      simp only [h', LockfreeThreads.goto, Function.update_self, settled]
      rfl
    rw [view]
    exact QueuePool.push_overlay pushes before after others

theorem pop_effect {woken : Option ι} {n : Nat} (asks : s.pool.consumer.pc.asksQueue = true)
    (settles : Settles (nullHandle capacity) s.pool.consumer.node (s.queue.threads none).pc pc
      (some e))
    (kind : e = .sawEmpty ∨ ∃ node, e = .popped node)
    (changes : QueueEffect.Changes (some e) nodes nodes') :
    ∃ ready, (s.atomic capacity nodes ready).step (.consumer woken) =
      some ((⟨s.pool, s.queue.goto none m pc⟩ : LockfreePool Value M ι).atomic capacity nodes'
        ready, s.pool.reported (some (.effect (none, n) e))) := by
  obtain ⟨unsettled, settled⟩ := settles
  let g : Consumer Key Value M.Map Listener → Consumer Key Value M.Map Listener := fun consumer =>
    consumer.settle ((s.queue.threads none).pc.settled (nullHandle capacity))
  let g' : Consumer Key Value M.Map Listener → Consumer Key Value M.Map Listener := fun consumer =>
    consumer.settle (((s.queue.goto none m pc).threads none).pc.settled (nullHandle capacity))
  have before : g s.pool.consumer = s.pool.consumer := by
    simp only [g, unsettled]
    rfl
  have clients : ∀ u, ((s.queue.goto none m pc).threads (some u)).pc =
      (s.queue.threads (some u)).pc := by
    intro u
    simp [LockfreeThreads.goto]
  have view : (⟨s.pool, s.queue.goto none m pc⟩ : LockfreePool Value M ι).atomic capacity nodes'
      true = s.pool.overlay (nodes', true) g' fun t client => client.settle
        ((s.queue.threads (some t)).pc.settled (nullHandle capacity)) := by
    unfold atomic
    simp only [clients]
    rfl
  refine ⟨true, ?_⟩
  rw [view]
  rcases kind with rfl | ⟨node, rfl⟩
  · obtain ⟨rfl, rfl⟩ := changes
    have after : g' s.pool.consumer = s.pool.consumer.answered s.pool.consumer.node false := by
      simp only [g', LockfreeThreads.goto, Function.update_self, settled]
      rfl
    exact QueuePool.miss_overlay asks before after
  · obtain rfl : nodes = node :: nodes' := changes
    have after : g' s.pool.consumer = s.pool.consumer.answered node true := by
      simp only [g', LockfreeThreads.goto, Function.update_self, settled]
      rfl
    exact QueuePool.pop_overlay asks before after

end Views

section Runs
variable [DecidableEq ι] [Inhabited (QueueNode Key Value)] {sign : Option (SignConsumerFinished ι)}
  {junk : QueueNode Key Value} {log : List (LockfreePoolEntry Key Value Listener ι)}
  {a : LockfreePoolAction Key Value Listener ι} {chain free : List Nat}
  {holders : List (Option ι × Nat)} {t : Option ι} {call : LockfreeCall (QueueNode Key Value)}
  {queue : LockfreeThreads (QueueNode Key Value) (Option ι)} {x : Option (QueueEntry Key Value ι)}

theorem queue_run (run : (lockfreePoolMachine M capacity sign junk).Reach PoolTagsFresh s log) :
    (lockfreeMachine (QueueNode Key Value) (Option ι) capacity).Reach TagsFresh s.queue
      (queueLog log) := by
  refine Machine.reach_invariant (I := fun s log => (lockfreeMachine (QueueNode Key Value)
    (Option ι) capacity).Reach TagsFresh s.queue (queueLog log)) Machine.Reach.init ?_ run
  intro s log a s' out _ before fresh step
  cases pool_moves step with
  | outside plain step =>
    rw [queueLog_append, Option.toList_none, List.append_nil]
    exact before
  | @inside t call queue x demand moved =>
    rw [queueLog_append]
    exact Machine.Reach.next before (fresh (t, call) (by simp [demand])) moved

omit [Inhabited (QueueNode Key Value)] in
theorem access_effect {log : List (QueueEntry Key Value ι)} {spurious : Bool}
    {o : Outcome (QueueNode Key Value)} {given : QueueNode Key Value}
    (sound : LockfreeSound capacity s.queue log chain free holders)
    (fresh : Fresh s.queue.memory (s.queue.threads t).pc)
    (inside : Inside s.pool t (s.queue.threads t).pc)
    (sole : (s.queue.threads none).pc.Sole (nullHandle capacity) s.queue.memory given)
    (access : s.queue.memory.access (nullHandle capacity) spurious (s.queue.threads t).pc =
      some o) :
    QueueEffect.Changes o.2.2 (MappedQueue.inside log)
        (MappedQueue.inside (log ++ (o.2.2.map (.effect (s.queue.callId t))).toList)) ∧
      ((s.queue.goto t o.1 o.2.1).threads none).pc.Sole (nullHandle capacity) o.1 given ∧
      Settles (nullHandle capacity) given (s.queue.threads t).pc o.2.1 o.2.2 := by
  obtain ⟨chain', free', move, later⟩ :=
    access_moves (t := t) sound.shape rfl (sound.knows t) fresh access
  have changes := move_contents (t := t) sound.shape rfl move
  have frame := move_frame (t := t) sound.shape rfl move
  refine ⟨?_, ?_⟩
  · rw [inside_eq sound.fifo, inside_eq (fifo_effect sound.fifo changes _)]
    exact changes
  · cases t with
    | some v =>
      obtain ⟨node, _, ⟨pos, there⟩ | ⟨accepted, there⟩⟩ := inside
      · rw [there] at access ⊢
        obtain rfl := Option.some.inj access
        refine ⟨?_, push_settles _ node pos⟩
        have kept := sole_frame sound.shape frame (push_keeps_head node pos) sole
        simpa [LockfreeThreads.goto] using kept
      · rw [there] at access
        contradiction
    | none =>
      obtain ⟨_, ⟨ret, pos, there⟩ | ⟨ret, success, there⟩⟩ := inside
      · have knows := sound.knows none
        rw [there] at access sole knows ⊢
        obtain rfl := Option.some.inj access
        simpa [LockfreeThreads.goto] using sole_pop sound.shape knows sole
      · rw [there] at access
        contradiction

omit [Inhabited (QueueNode Key Value)] in
theorem effect_simulated {e : QueueEffect (QueueNode Key Value)}
    {nodes nodes' : List (QueueNode Key Value)} {o : Outcome (QueueNode Key Value)}
    {spurious : Bool} {n : Nat} (demand : s.demand a.1 = some (t, call))
    (inside : Inside s.pool t (s.queue.threads t).pc)
    (access : s.queue.memory.access (nullHandle capacity) spurious (s.queue.threads t).pc =
      some o)
    (effect : o.2.2 = some e)
    (settles : Settles (nullHandle capacity) s.pool.consumer.node (s.queue.threads t).pc o.2.1
      (some e))
    (changes : QueueEffect.Changes (some e) nodes nodes') :
    ∃ ready, (s.atomic capacity nodes ready).step a.1 =
      some ((⟨s.pool, s.queue.goto t o.1 o.2.1⟩ : LockfreePool Value M ι).atomic capacity nodes'
        ready, s.pool.reported (some (.effect (t, n) e))) := by
  obtain ⟨act, spur⟩ := a
  cases act with
  | client v =>
    simp only [LockfreePool.demand] at demand
    obtain ⟨node, pushes, same⟩ := Option.map_eq_some_iff.mp demand
    cases same
    obtain ⟨node', pushes', ⟨pos, there⟩ | ⟨accepted, there⟩⟩ := inside
    · obtain rfl : node = node' := Option.some.inj (pushes.symm.trans pushes')
      rw [there] at access
      have kinds := (push_outcome node pos o (Option.some.inj access)).2
      rw [effect] at kinds
      exact push_effect pushes settles (by simpa using kinds) changes
    · rw [there] at access
      contradiction
  | consumer woken =>
    simp only [LockfreePool.demand] at demand
    split at demand
    · rename_i asks
      cases demand
      obtain ⟨_, ⟨ret, pos, there⟩ | ⟨ret, success, there⟩⟩ := inside
      · rw [there] at access
        have kinds := (pop_outcome ret pos o (Option.some.inj access)).2
        rw [effect] at kinds
        exact pop_effect asks settles (by simpa using kinds) changes
      · rw [there] at access
        contradiction
    · contradiction
  | _ => contradiction

/-- A run of the pool, and the run of the pool on an atomic queue that it looks like. -/
def Simulated (capacity : Nat) (sign : Option (SignConsumerFinished ι))
    (junk : QueueNode Key Value) (s : LockfreePool Value M ι)
    (log : List (LockfreePoolEntry Key Value Listener ι)) : Prop :=
  s.Coupled capacity ∧ ∃ ready, (balkingMachine Value M sign junk).Reachable
    (s.atomic capacity (MappedQueue.inside (queueLog log)) ready) (poolLog log)

omit [Inhabited (QueueNode Key Value)] in
theorem call_simulated {n : Nat} (demand : s.demand a.1 = some (t, call))
    (idle : (s.queue.threads t).pc = .idle) (before : Simulated capacity sign junk s log) :
    Simulated capacity sign junk
      (⟨s.pool, s.queue.goto t s.queue.memory call.entrance⟩ : LockfreePool Value M ι)
      (log ++ (some (none, some (.called (t, n) call))).toList) := by
  obtain ⟨coupled, ready, run⟩ := before
  have unsettled : Settles (nullHandle capacity) s.pool.consumer.node (s.queue.threads t).pc
      call.entrance none := by
    rw [idle]
    cases call <;> rfl
  have sole := entrance_sole demand coupled.sole
  refine ⟨coupled_goto coupled (demand_inside demand) sole, ready, ?_⟩
  rw [poolLog_append, queueLog_append, Option.toList_some, inside_silent ⟨rfl, rfl⟩,
    atomic_silent unsettled, Option.toList_none, List.append_nil]
  exact run

omit [Inhabited (QueueNode Key Value)] in
theorem access_simulated {o : Outcome (QueueNode Key Value)} {spurious : Bool}
    (sound : LockfreeSound capacity s.queue (queueLog log) chain free holders)
    (fresh : Fresh s.queue.memory (s.queue.threads t).pc) (demand : s.demand a.1 = some (t, call))
    (access : s.queue.memory.access (nullHandle capacity) spurious (s.queue.threads t).pc =
      some o) (before : Simulated capacity sign junk s log) :
    Simulated capacity sign junk (⟨s.pool, s.queue.goto t o.1 o.2.1⟩ : LockfreePool Value M ι)
      (log ++ (some (s.pool.reported (o.2.2.map (.effect (s.queue.callId t))),
        o.2.2.map (.effect (s.queue.callId t)))).toList) := by
  obtain ⟨coupled, ready, run⟩ := before
  have busy : (s.queue.threads t).pc ≠ .idle := by
    intro idle
    rw [idle] at access
    contradiction
  have inside := coupled.inside t busy
  obtain ⟨changes, sole, settles⟩ := access_effect sound fresh inside coupled.sole access
  refine ⟨coupled_goto coupled (access_inside inside access) sole, ?_⟩
  rw [poolLog_append, queueLog_append]
  cases effect : o.2.2 with
  | none =>
    rw [effect] at settles
    have unseen : s.pool.reported none = none := rfl
    refine ⟨ready, ?_⟩
    rw [Option.map_none, unseen, Option.toList_none, Option.toList_none, List.append_nil,
      List.append_nil, atomic_silent settles]
    exact run
  | some e =>
    rw [effect] at settles changes
    obtain ⟨ready', step⟩ := effect_simulated (a := a) demand inside access effect settles changes
    exact ⟨ready', Machine.Reach.next (a := (a.1, ready')) run trivial step⟩

theorem inside_simulated (sound : LockfreeSound capacity s.queue (queueLog log) chain free holders)
    (fresh : TagsFresh s.queue (queueLog log) (s.queueAction t call a.2))
    (demand : s.demand a.1 = some (t, call))
    (step : (lockfreeMachine (QueueNode Key Value) (Option ι) capacity).step s.queue
      (s.queueAction t call a.2) = some (queue, x))
    (before : Simulated capacity sign junk s log) :
    Simulated capacity sign junk (⟨s.pool.resumed x, queue⟩ : LockfreePool Value M ι)
      (log ++ (some (s.pool.reported x, x)).toList) := by
  have thread : (s.queueAction t call a.2).thread = t := by
    unfold queueAction
    split <;> rfl
  rcases queue_moves step with ⟨idle, rfl, rfl⟩ | ⟨o, access, rfl, rfl⟩ |
    ⟨reply, returning, rfl, rfl⟩
  · exact call_simulated demand idle before
  · have compared : Fresh s.queue.memory (s.queue.threads t).pc := by
      unfold TagsFresh at fresh
      rwa [thread] at fresh
    have kept : s.pool.resumed (o.2.2.map (.effect (s.queue.callId t))) = s.pool := by
      cases o.2.2 <;> rfl
    rw [kept]
    exact access_simulated sound compared demand access before
  · obtain ⟨coupled, ready, run⟩ := before
    have inside := coupled.inside t (by simp [returning])
    refine ⟨coupled_leave coupled, ready, ?_⟩
    have unseen : s.pool.reported (some (.returned (s.queue.callId t) reply)) = none := rfl
    rw [poolLog_append, queueLog_append, unseen, Option.toList_some, inside_silent ⟨rfl, rfl⟩,
      LockfreeThreads.callId, atomic_leave returning inside, Option.toList_none, List.append_nil]
    exact run

theorem simulated_run (run : (lockfreePoolMachine M capacity sign junk).Reach PoolTagsFresh s log) :
    Simulated capacity sign junk s log := by
  refine Machine.reach_invariant (I := Simulated capacity sign junk) ?_ ?_ run
  · refine ⟨⟨?_, trivial⟩, true, Machine.Reach.init⟩
    intro t busy
    exact absurd rfl busy
  · intro s log a s' out run before fresh step
    obtain ⟨chain, free, holders, sound⟩ := sound_run (queue_run run)
    cases pool_moves step with
    | outside plain moved =>
      obtain ⟨coupled, ready, abstract⟩ := before
      refine ⟨coupled_outside coupled plain moved, ready, ?_⟩
      rw [poolLog_append, queueLog_append, Option.toList_none, List.append_nil]
      exact Machine.Reach.next (a := (a.1, ready)) abstract trivial
        (plain_step coupled plain moved _ ready)
    | @inside t call queue x demand moved =>
      exact inside_simulated sound (fresh (t, call) (by simp [demand])) demand moved before

end Runs

end LockfreePool

section Pools
variable [DecidableEq ι] [Inhabited (QueueNode Key Value)] {M : MapTraits Key Listener}
  {capacity : Nat} {sign : Option (SignConsumerFinished ι)} {junk : QueueNode Key Value}
  {s : LockfreePool Value M ι} {log : List (LockfreePoolEntry Key Value Listener ι)}

open LockfreePool

/-- What the pool does on the lock-free queue with fresh tags, it does on an atomic queue of
    `capacity` elements at most that may refuse a push. -/
theorem lockfree_pool_refines
    (run : (lockfreePoolMachine M capacity sign junk).Reach PoolTagsFresh s log) :
    (inside (queueLog log)).length ≤ capacity ∧
      ∃ ready, (balkingMachine Value M sign junk).Reachable
        (s.atomic capacity (inside (queueLog log)) ready) (poolLog log) :=
  ⟨(lockfree_fifo (queue_run run)).2, (simulated_run run).2⟩

/-- With the one node in the hands of the consumer, an `Enqueue` is refused on an empty
    queue, and it returns without having pushed. -/
theorem refused_pool_refines :
    let M := MapWithMutexTraits Nat Nat
    ∃ s log, (lockfreePoolMachine (ι := Fin 2) M 1 none (⟨0, 0⟩ : QueueNode Nat Nat)).Reach
        PoolTagsFresh s log ∧
      .returned (1, 0) (.enqueue ⟨2, 20⟩) ∈ poolLog log ∧ pushes (poolLog log) = [⟨1, 10⟩] ∧
      ∃ ready, (balkingMachine Nat M none ⟨0, 0⟩).Reachable
        (s.atomic 1 (inside (queueLog log)) ready) (poolLog log) := by
  intro M
  obtain ⟨s, log, run, returned, pushed⟩ := Machine.reach_of_exec
    (lockfreePoolMachine (ι := Fin 2) M 1 none (⟨0, 0⟩ : QueueNode Nat Nat)) PoolTagsFresh
    (List.flatten [[(.call 0 (.enqueue ⟨1, 10⟩), false)], clientSteps 0 14, consumerSteps 10,
      [(.call 1 (.enqueue ⟨2, 20⟩), false)], clientSteps 1 9])
    (fun _ log => .returned (1, 0) (.enqueue ⟨2, 20⟩) ∈ poolLog log ∧
      pushes (poolLog log) = [⟨1, 10⟩]) (by decide +kernel)
  exact ⟨s, log, run, returned, pushed, (lockfree_pool_refines run).2⟩

/-- Every delivery is justified, what has been pushed is what has been popped and what is
    inside, and the outcomes follow the pops. -/
theorem lockfree_pool_delivers
    (run : (lockfreePoolMachine M capacity sign junk).Reach PoolTagsFresh s log) :
    (∀ past listener node after, poolLog log = past ++ .consumed listener node :: after →
      Justified past listener node) ∧
    pushes (poolLog log) = pops (poolLog log) ++ inside (queueLog log) ∧
    DecidesInPopOrder (s.atomic capacity (inside (queueLog log)) true) (poolLog log) := by
  obtain ⟨_, ready, seen⟩ := simulated_run run
  have traced := QueuePool.balking_traced seen
  refine ⟨?_, traced.conserved, ?_⟩
  · intro past listener node after parts
    exact QueuePool.balking_justified seen past _ after parts listener node rfl
  · obtain ⟨round, rounds, there⟩ := traced.round
    exact ⟨round.pending, pops_eq_outcomes_pending rounds, QueuePool.pending_in_hands there⟩

theorem woken_pool_delivers :
    let M := SafeMapTraits Nat (⟨id, 2, by decide⟩ : Hashing Nat)
    ∃ s log past, (lockfreePoolMachine (ι := Fin 2) M 2 none (⟨0, 0⟩ : QueueNode Nat Nat)).Reach
        PoolTagsFresh s log ∧
      poolLog log = past ++ [.consumed 7 ⟨1, 10⟩] ∧ Justified past 7 ⟨1, 10⟩ := by
  intro M
  obtain ⟨s, log, run, told⟩ := Machine.reach_of_exec
    (lockfreePoolMachine (ι := Fin 2) M 2 none (⟨0, 0⟩ : QueueNode Nat Nat)) PoolTagsFresh
    (List.flatten [[(.call 0 (.subscribe 1 (some 7)), false)], clientSteps 0 1, consumerSteps 18,
      [(.call 1 (.enqueue ⟨1, 10⟩), false)], clientSteps 1 14, consumerSteps 19])
    (fun _ log => poolLog log =
      [.called (0, 0) (.subscribe 1 (some 7)), .returned (0, 0) (.subscribe 1 (some 7)),
        .dequeueCalled, .called (1, 0) (.enqueue ⟨1, 10⟩), .pushed (1, 0) ⟨1, 10⟩,
        .returned (1, 0) (.enqueue ⟨1, 10⟩), .popped ⟨1, 10⟩, .lookedUp ⟨1, 10⟩] ++
          [.consumed 7 ⟨1, 10⟩]) (by decide +kernel)
  exact ⟨s, log, _, run, told, (lockfree_pool_delivers run).1 _ _ _ [] told⟩

end Pools

end MappedQueue
