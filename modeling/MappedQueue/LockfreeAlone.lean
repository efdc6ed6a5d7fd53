import MappedQueue.LockfreeLinearization
import MappedQueue.QueueEquivalence

/-!
The lock-free queue used by one thread at a time, whichever it is. Whatever such a
thread has read is still there when it compares, however long ago the others were
inside, and its calls are answered as `FixedSizeLockfreeQueueTraits` takes them to be.
-/
namespace MappedQueue
open Concurrency TaggedIndex QueueMemory

section Current
variable {T : Type}

def PushPc.Current (m : QueueMemory T) : PushPc → Prop
  | .loadFree oldPool | .takeNode oldPool _ => m.pool = oldPool
  | .loadNext _ tail | .swingTail _ tail | .helpTail _ tail _ => m.tail = tail
  | .checkTail _ tail next | .link _ tail next => m.tail = tail ∧ m.next tail.index = next
  | _ => True

def PopPc.Current (m : QueueMemory T) : PopPc → Prop
  | .loadTail head | .copyPayload head _ | .swingHead head _ => m.head = head
  | .loadNext head tail => m.head = head ∧ m.tail = tail
  | .checkHead head tail next => m.head = head ∧ m.tail = tail ∧ m.next head.index = next
  | .helpTail tail _ => m.tail = tail
  | .storeFree _ oldPool | .putNode _ oldPool => m.pool = oldPool
  | _ => True

def LockfreePc.Current (m : QueueMemory T) : LockfreePc T → Prop
  | .push _ pc => pc.Current m
  | .pop _ pc => pc.Current m
  | _ => True

variable {m : QueueMemory T} {null : Nat} {spurious : Bool} {t : T}

theorem allocate_current : (m.allocate null t).2.1.Current (m.allocate null t).1 := by
  unfold allocate
  split
  · trivial
  · exact Eq.refl m.pool

theorem push_current {pc : PushPc} (current : pc.Current m) :
    (m.pushStep null spurious t pc).2.1.Current (m.pushStep null spurious t pc).1 := by
  cases pc with
  | loadPool => exact allocate_current
  | loadFree oldPool => exact current
  | takeNode oldPool index =>
    simp only [pushStep]
    split
    · trivial
    · exact allocate_current
  | writeData node | loadOldNext node | storeNext node oldNext => trivial
  | loadTail node => exact Eq.refl m.tail
  | loadNext node tail => exact ⟨current, rfl⟩
  | checkTail node tail next =>
    simp only [pushStep]
    split
    · split
      · exact current
      · exact current.1
    · trivial
  | link node tail next =>
    simp only [pushStep]
    split
    · exact current.1
    · trivial
  | swingTail node tail | helpTail node tail next => trivial

theorem pop_current {pc : PopPc} (current : pc.Current m) :
    (m.popStep null spurious t pc).2.1.Current (m.popStep null spurious t pc).1 := by
  cases pc with
  | loadHead => exact Eq.refl m.head
  | loadTail head => exact ⟨current, rfl⟩
  | loadNext head tail => exact ⟨current.1, current.2, rfl⟩
  | checkHead head tail next =>
    simp only [popStep]
    split
    · split
      · split
        · trivial
        · exact current.2.1
      · split
        · trivial
        · exact current.1
    · trivial
  | helpTail tail next => trivial
  | copyPayload head next => exact current
  | swingHead head next =>
    simp only [popStep]
    split <;> trivial
  | loadPool node => exact Eq.refl m.pool
  | storeFree node oldPool => exact current
  | putNode node oldPool =>
    simp only [popStep]
    split
    · trivial
    · exact Eq.refl m.pool

theorem access_current {pc : LockfreePc T} (current : pc.Current m) {o : Outcome T}
    (access : m.access null spurious pc = some o) : o.2.1.Current o.1 := by
  cases pc with
  | idle | returning reply => contradiction
  | push t pc =>
    cases access
    exact push_current current
  | pop ret pc =>
    cases access
    exact pop_current current

theorem current_fresh {pc : LockfreePc T} (current : pc.Current m) : Fresh m pc := by
  have itself : ∀ words ∈ (pc.comparison m).toList, words.1 = words.2 := by
    intro words member
    cases pc with
    | idle | returning reply => contradiction
    | push t pc =>
      cases pc with
      | takeNode oldPool index | swingTail node tail | helpTail node tail next =>
        cases List.mem_singleton.mp member
        exact current
      | checkTail node tail next =>
        cases List.mem_singleton.mp member
        exact current.1
      | link node tail next =>
        cases List.mem_singleton.mp member
        exact current.2
      | _ => contradiction
    | pop ret pc =>
      cases pc with
      | checkHead head tail next =>
        cases List.mem_singleton.mp member
        exact current.1
      | helpTail tail next | swingHead head next | putNode node oldPool =>
        cases List.mem_singleton.mp member
        exact current
      | _ => contradiction
  intro words member
  rw [itself words member]
  unfold tags
  omega

end Current

def Alone {T ι : Type} (s : LockfreeThreads T ι) (_log : List (LockfreeEntry T ι))
    (a : LockfreeAction T ι) : Prop :=
  ∀ u, u ≠ a.thread → (s.threads u).pc = .idle

section Runs
variable {T ι : Type} [Inhabited T] [DecidableEq ι] {capacity : Nat} {s s' : LockfreeThreads T ι}
  {log : List (LockfreeEntry T ι)} {a : LockfreeAction T ι} {out : Option (LockfreeEntry T ι)}

omit [Inhabited T] in
theorem current_step {null : Nat} (alone : Alone s log a)
    (current : ∀ t, (s.threads t).pc.Current s.memory) (step : LockfreeStep null s a s' out) :
    ∀ t, (s'.threads t).pc.Current s'.memory := by
  obtain ⟨others, _⟩ := lockfree_ids step
  intro t
  by_cases own : t = a.thread
  · subst own
    cases step with
    | @call t call idle =>
      cases call <;> simp [LockfreeThreads.goto, LockfreeCall.entrance, LockfreeAction.thread,
        LockfreePc.Current, PushPc.Current, PopPc.Current]
    | @access t spurious o access =>
      have later := access_current (current t) access
      simpa [LockfreeThreads.goto, LockfreeAction.thread] using later
    | leave returning =>
      simp [LockfreeThreads.leave, LockfreeAction.thread, LockfreePc.Current]
  · rw [others t own, alone t own]
    trivial

theorem alone_current (run : (lockfreeMachine T ι capacity).Reach Alone s log) (t : ι) :
    (s.threads t).pc.Current s.memory := by
  refine Machine.reach_invariant
    (I := fun s _ => ∀ t, (s.threads t).pc.Current s.memory) ?_ ?_ run t
  · intro t
    trivial
  · intro s log a s' out _ current alone step
    exact current_step alone current (lockfree_step step)

theorem alone_fresh (run : (lockfreeMachine T ι capacity).Reach Alone s log) :
    (lockfreeMachine T ι capacity).Reach TagsFresh s log := by
  refine Machine.reach_mono ?_ run
  intro s log a before _
  exact current_fresh (alone_current before a.thread)

end Runs

section Replaying
variable {T : Type} {capacity : Nat} {before after final : List T} {es : List (QueueEffect T)}
  {e : QueueEffect T}

theorem replays_snoc (earlier : Replays capacity before es after)
    (changes : QueueEffect.Changes (some e) after final)
    (room : ∀ t, e = .pushed t → after.length < capacity) :
    Replays capacity before (es ++ [e]) final := by
  induction earlier with
  | nil => exact Replays.cons changes room Replays.nil
  | cons first fits _ ih => exact Replays.cons first fits (ih changes room)

theorem replays_looks (only : OnlyLooks es) (replays : Replays capacity before es after) :
    after = before ∧ (es ≠ [] → before = []) := by
  induction replays with
  | nil => simp
  | @cons before between after e es changes _ _ ih =>
    have look : e = .sawEmpty := only e List.mem_cons_self
    subst look
    obtain ⟨rfl, rfl⟩ := changes
    obtain ⟨rfl, _⟩ := ih fun other member => only other (List.mem_cons_of_mem _ member)
    simp

theorem replays_popped {looks : List (QueueEffect T)} {t : T} (only : OnlyLooks looks)
    (replays : Replays capacity before (looks ++ [.popped t]) after) : before = t :: after := by
  induction looks generalizing before with
  | nil =>
    cases replays with
    | cons changes _ rest =>
      cases rest
      exact changes
  | cons look looks ih =>
    obtain rfl : look = .sawEmpty := only look List.mem_cons_self
    cases replays with
    | cons changes _ rest =>
      obtain ⟨rfl, rfl⟩ := changes
      have later := ih (fun other member => only other (List.mem_cons_of_mem _ member)) rest
      contradiction

end Replaying

section Simulation
variable {Key Value : Type}

def LockfreeCall.request : LockfreeCall (QueueNode Key Value) → QueueCall Key Value
  | .boundedPush node => .enqueue node
  | .pop ret => .dequeue ret

def LockfreeReply.answer : LockfreeReply (QueueNode Key Value) → QueueReply Key Value
  | .pushed success => .enqueued success
  | .popped ret success => .dequeued ret success

def requests {ι : Type} (log : List (LockfreeEntry (QueueNode Key Value) ι)) :
    List (QueueCall Key Value) :=
  log.filterMap fun
    | .called _ call => some call.request
    | _ => none

def answers {ι : Type} (log : List (LockfreeEntry (QueueNode Key Value) ι)) :
    List (QueueReply Key Value) :=
  log.filterMap fun
    | .returned _ reply => some reply.answer
    | _ => none

theorem replies_append (Q : QueueTraits Key Value) (queue : Q.Queue)
    (calls more : List (QueueCall Key Value)) :
    Q.replies queue (calls ++ more) =
      Q.replies queue calls ++ Q.replies (Q.after queue calls) more := by
  induction calls generalizing queue with
  | nil => rfl
  | cons call calls ih =>
    simp only [List.cons_append, QueueTraits.replies, ih]
    rfl

theorem after_snoc (Q : QueueTraits Key Value) (queue : Q.Queue)
    (calls : List (QueueCall Key Value)) (call : QueueCall Key Value) :
    Q.after queue (calls ++ [call]) = (Q.perform (Q.after queue calls) call).1 := by
  unfold QueueTraits.after
  rw [List.foldl_append]
  rfl

/-- How far a call has got that found `queue`: the queue now, and what is in `ret`. -/
structure Underway {capacity : Nat} (queue : BoundedQueue Key Value capacity)
    (call : LockfreeCall (QueueNode Key Value)) (es : List (QueueEffect (QueueNode Key Value)))
    (now : List (QueueNode Key Value)) (pc : LockfreePc (QueueNode Key Value)) : Prop where
  replays : Replays capacity queue.nodes es now
  full : .refused ∈ es → queue.nodes.length = capacity
  kept : ∀ r, call = .pop r → queue.nodes = [] →
    (∃ place, pc = .pop r place) ∨ pc = .returning (.popped r false)

theorem underway_performed {capacity : Nat} {queue : BoundedQueue Key Value capacity}
    {call : LockfreeCall (QueueNode Key Value)} {es : List (QueueEffect (QueueNode Key Value))}
    {now : List (QueueNode Key Value)} {reply : LockfreeReply (QueueNode Key Value)}
    (underway : Underway queue call es now (.returning reply)) (answered : Answered call es reply) :
    ((FixedSizeLockfreeQueueTraits Key Value capacity).perform queue call.request).1.nodes = now ∧
      ((FixedSizeLockfreeQueueTraits Key Value capacity).perform queue call.request).2 =
        reply.answer := by
  obtain ⟨replays, full, kept⟩ := underway
  cases call with
  | boundedPush node =>
    cases reply with
    | popped ret success => exact absurd answered id
    | pushed success =>
      cases success with
      | true =>
        rw [answered] at replays
        cases replays with
        | cons changes room rest =>
          cases rest
          have space := room node rfl
          have grown : now = queue.nodes ++ [node] := changes
          simp [QueueTraits.perform, FixedSizeLockfreeQueueTraits, LockfreeCall.request,
            LockfreeReply.answer, BoundedQueue.boundedPush, space, grown]
      | false =>
        have none_left := full (by rw [answered]; simp)
        rw [answered] at replays
        cases replays with
        | cons changes _ rest =>
          cases rest
          have same : now = queue.nodes := changes
          simp [QueueTraits.perform, FixedSizeLockfreeQueueTraits, LockfreeCall.request,
            LockfreeReply.answer, BoundedQueue.boundedPush, none_left, same]
  | pop r =>
    cases reply with
    | pushed success => exact absurd answered id
    | popped ret success =>
      obtain ⟨nodes, bounded⟩ := queue
      cases success with
      | true =>
        obtain ⟨looks, only, rfl⟩ := answered
        obtain rfl := replays_popped only replays
        exact ⟨rfl, rfl⟩
      | false =>
        obtain ⟨same, empty⟩ := replays_looks answered.1 replays
        obtain rfl : nodes = [] := empty answered.2
        rcases kept r rfl rfl with ⟨place, other⟩ | unchanged
        · contradiction
        · cases unchanged
          exact ⟨same.symm, rfl⟩

end Simulation

section Mirror
variable {Key Value ι : Type} [DecidableEq ι] {capacity : Nat}
  {s s' : LockfreeThreads (QueueNode Key Value) ι}
  {log : List (LockfreeEntry (QueueNode Key Value) ι)} {c : ι × Nat} {t : ι}
  {chain free : List Nat} {holders : List (ι × Nat)}
  {call : LockfreeCall (QueueNode Key Value)} {queue : BoundedQueue Key Value capacity}

theorem called_once {T : Type} {log : List (LockfreeEntry T ι)} {call other : LockfreeCall T}
    (ordered : Whenever CallOrder log) (first : .called c call ∈ log)
    (second : .called c other ∈ log) : call = other := by
  obtain ⟨past, rest, split⟩ := List.append_of_mem first
  have unlogged := ordered past _ rest split
  rw [split] at second
  rcases List.mem_append.mp second with before | after
  · exact absurd rfl (unlogged _ before)
  · rcases List.mem_cons.mp after with same | after
    · cases same
      rfl
    · obtain ⟨between, last, parts⟩ := List.append_of_mem after
      have unlogged := ordered (past ++ .called c call :: between) (.called c other) last
        (by simp [split, parts])
      exact absurd rfl (unlogged (.called c call) (by simp))

omit [DecidableEq ι] in
theorem head_leads_inside (sound : LockfreeSound capacity s log chain free holders)
    {head : TaggedIndex} {index : Nat} (unchanged : s.memory.head = head)
    (leads : s.memory.HeadLeads (nullHandle capacity) head index) : inside log ≠ [] := by
  subst unchanged
  obtain ⟨rest, rfl⟩ := shape_head sound.shape
  have second := leads.2 rfl
  have behind : s.memory.pointer s.memory.head.index ≠ nullHandle capacity := by
    rw [second]
    exact leads.1
  obtain ⟨more, rfl⟩ := linked_start sound.shape.queued.2.2 behind
  rw [inside_eq sound.fifo]
  simp [QueueMemory.contents]

omit [DecidableEq ι] in
theorem pop_keeps (sound : LockfreeSound capacity s log chain free holders)
    {r : QueueNode Key Value}
    {place : PopPc} (current : place.Current s.memory) {spurious : Bool}
    (knows : place.Knows (nullHandle capacity) s.memory r) (empty : inside log = [])
    (unswung : place.node = none) :
    (∃ next, (s.memory.popStep (nullHandle capacity) spurious r place).2.1 = .pop r next) ∨
      (s.memory.popStep (nullHandle capacity) spurious r place).2.1 =
        .returning (.popped r false) := by
  cases place with
  | loadPool _ | storeFree _ _ | putNode _ _ => contradiction
  | loadHead | loadTail _ | loadNext _ _ | helpTail _ _ => exact Or.inl ⟨_, rfl⟩
  | copyPayload head next => exact absurd empty (head_leads_inside sound current knows.2.2)
  | checkHead head tail next =>
    simp only [popStep]
    split
    · split
      · split
        · exact Or.inr rfl
        · exact Or.inl ⟨_, rfl⟩
      · split <;> exact Or.inl ⟨_, rfl⟩
    · exact Or.inl ⟨_, rfl⟩
  | swingHead head next =>
    simp only [popStep]
    split <;> exact Or.inl ⟨_, rfl⟩

theorem alone_refused_full {spurious : Bool} (alone : Alone s log (.step t spurious))
    (sound : LockfreeSound capacity s log chain free holders)
    (fresh : TagsFresh s log (.step t spurious))
    (step : LockfreeStep (nullHandle capacity) s (.step t spurious) s'
      (some (.effect (s.callId t) .refused))) : (inside log).length = capacity := by
  obtain ⟨outside, count⟩ := refusal_exhausted sound fresh step
  have nobody : holders = [] := by
    rw [List.eq_nil_iff_forall_not_mem]
    rintro ⟨u, node⟩ member
    have holds := (sound.shape.ledger.holds u node).mp member
    by_cases own : u = t
    · rw [own] at holds
      rw [show s.owners t = none from outside] at holds
      contradiction
    · rw [LockfreeThreads.owners, alone u own] at holds
      contradiction
  rw [nobody] at count
  exact count

omit [DecidableEq ι] in
theorem underway_kept (sound : LockfreeSound capacity s log chain free holders)
    (current : (s.threads t).pc.Current s.memory)
    {es : List (QueueEffect (QueueNode Key Value))} (doing : (s.threads t).pc.Doing call es)
    (underway : Underway queue call es (inside log) (s.threads t).pc)
    {r : QueueNode Key Value} (asks : call = .pop r) (empty : queue.nodes = []) {spurious : Bool}
    {o : Outcome (QueueNode Key Value)}
    (access : s.memory.access (nullHandle capacity) spurious (s.threads t).pc = some o) :
    (∃ place, o.2.1 = .pop r place) ∨ o.2.1 = .returning (.popped r false) := by
  have replays := underway.replays
  rcases underway.kept r asks empty with ⟨place, at_place⟩ | returning
  · rw [at_place] at access doing current
    cases access
    have knows := sound.knows t
    rw [at_place] at knows
    cases unswung : place.node with
    | none =>
      have only := (doing_looks unswung doing.1).mp doing
      have nothing := (replays_looks only replays).1.trans empty
      exact pop_keeps sound current knows nothing unswung
    | some node =>
      obtain ⟨_, looks, only, shaped⟩ := doing
      rw [unswung] at shaped
      rw [show es = looks ++ [.popped r] from shaped] at replays
      rw [replays_popped only replays] at empty
      contradiction
  · rw [returning] at access
    contradiction

theorem underway_access [Inhabited (QueueNode Key Value)]
    (run : (lockfreeMachine (QueueNode Key Value) ι capacity).Reach Alone s log)
    {spurious : Bool} (alone : Alone s log (.step t spurious)) {o : Outcome (QueueNode Key Value)}
    (access : s.memory.access (nullHandle capacity) spurious (s.threads t).pc = some o)
    (called : .called (s.callId t) call ∈ log)
    (underway : Underway queue call (effectsOf (s.callId t) log) (inside log) (s.threads t).pc) :
    Underway queue call (effectsOf (s.callId t) (log ++ (o.2.2.map (.effect (s.callId t))).toList))
      (inside (log ++ (o.2.2.map (.effect (s.callId t))).toList)) o.2.1 := by
  have steady := alone_fresh run
  have current := alone_current run t
  have fresh : TagsFresh s log (.step t spurious) := current_fresh current
  obtain ⟨chain, free, holders, sound⟩ := sound_run steady
  have told := told_run steady
  have busy : (s.threads t).pc ≠ .idle := by
    intro idle
    rw [idle] at access
    contradiction
  obtain ⟨_, call', called', doing, _⟩ := (told.current t).current busy
  obtain rfl := called_once (calls_in_order steady) called called'
  have step := lockfree_access access
  rw [effectsOf_append, effectsOf_self]
  refine ⟨?_, ?_, fun r asks empty => underway_kept sound current doing underway asks empty access⟩
  · cases effect : o.2.2 with
    | none => simpa using underway.replays
    | some e =>
      rw [effect] at step
      have atomic := effect_atomic sound fresh (lockfree_step step)
      obtain ⟨changes, room⟩ := inside_changes (lockfree_fifo steady).1 atomic
      exact replays_snoc underway.replays changes room
  · intro member
    rcases List.mem_append.mp member with before | now
    · exact underway.full before
    · have effect : o.2.2 = some .refused := Option.mem_toList.mp now
      obtain ⟨only, _⟩ := access_effect doing access effect
      rw [effect] at step
      rw [← (replays_looks only underway.replays).1]
      exact alone_refused_full alone sound fresh (lockfree_step step)

/-- What the traits make of the calls so far is what has been replied and is inside,
    but for a call that is still underway. -/
structure Mirrored (capacity : Nat) (s : LockfreeThreads (QueueNode Key Value) ι)
    (log : List (LockfreeEntry (QueueNode Key Value) ι)) : Prop where
  idle : (∀ t, (s.threads t).pc = .idle) →
    let Q := FixedSizeLockfreeQueueTraits Key Value capacity
    Q.replies Q.empty (requests log) = answers log ∧
      (Q.after Q.empty (requests log)).nodes = inside log
  busy : ∀ t, (s.threads t).pc ≠ .idle →
    let Q := FixedSizeLockfreeQueueTraits Key Value capacity
    ∃ done call, requests log = done ++ [call.request] ∧ .called (s.callId t) call ∈ log ∧
      Q.replies Q.empty done = answers log ∧
      Underway (Q.after Q.empty done) call (effectsOf (s.callId t) log) (inside log)
        (s.threads t).pc

theorem mirrored_call {Q : BoundedQueue Key Value capacity}
    (call : LockfreeCall (QueueNode Key Value))
    (fresh : ∀ y ∈ log, y.id ≠ c) (same : Q.nodes = inside log) :
    Underway Q call (effectsOf c (log ++ [.called c call])) (inside (log ++ [.called c call]))
      call.entrance := by
  rw [effectsOf_bookkeeping rfl, effectsOf_other fresh, inside_silent ⟨rfl, rfl⟩, ← same]
  refine ⟨Replays.nil, by simp, ?_⟩
  rintro r rfl _
  exact Or.inl ⟨_, rfl⟩

section Mirroring
variable [Inhabited (QueueNode Key Value)]

omit [Inhabited (QueueNode Key Value)] in
theorem mirrored_begin {call : LockfreeCall (QueueNode Key Value)}
    (told : CallsTold (nullHandle capacity) s log) (idle : (s.threads t).pc = .idle)
    (alone : ∀ u, u ≠ t → (s.threads u).pc = .idle) (mirrored : Mirrored capacity s log) :
    Mirrored capacity (s.goto t s.memory call.entrance)
      (log ++ (some (.called (s.callId t) call)).toList) := by
  have outside : ∀ u, (s.threads u).pc = .idle := by
    intro u
    by_cases own : u = t
    · rw [own]
      exact idle
    · exact alone u own
  have id : (s.goto t s.memory call.entrance).callId t = s.callId t := by
    simp [LockfreeThreads.callId, LockfreeThreads.goto]
  have pc : ((s.goto t s.memory call.entrance).threads t).pc = call.entrance := by
    simp [LockfreeThreads.goto]
  obtain ⟨replied, same⟩ := mirrored.idle outside
  constructor
  · intro all
    have entered := pc.symm.trans (all t)
    cases call <;> contradiction
  · intro u busy
    obtain rfl : u = t := by
      by_contra other
      exact busy (by simpa [LockfreeThreads.goto, other] using alone u other)
    rw [id, pc]
    refine ⟨requests log, call, ?_, by simp, ?_, ?_⟩
    · simp [requests]
    · simpa [answers] using replied
    · exact mirrored_call call ((told.current u).fresh idle) same

theorem mirrored_access {spurious : Bool} {o : Outcome (QueueNode Key Value)}
    (run : (lockfreeMachine (QueueNode Key Value) ι capacity).Reach Alone s log)
    (alone : Alone s log (.step t spurious)) (mirrored : Mirrored capacity s log)
    (access : s.memory.access (nullHandle capacity) spurious (s.threads t).pc = some o) :
    Mirrored capacity (s.goto t o.1 o.2.1)
      (log ++ (o.2.2.map (LockfreeEntry.effect (s.callId t))).toList) := by
  have steady := alone_fresh run
  have busy : (s.threads t).pc ≠ .idle := by
    intro idle
    rw [idle] at access
    contradiction
  obtain ⟨done, call, asked, called, replied, underway⟩ := mirrored.busy t busy
  have later := underway_access run alone access called underway
  have quiet : requests (log ++ (o.2.2.map (.effect (s.callId t))).toList) = requests log ∧
      answers (log ++ (o.2.2.map (.effect (s.callId t))).toList) = answers log := by
    cases o.2.2 <;> simp [requests, answers]
  have id : (s.goto t o.1 o.2.1).callId t = s.callId t := by
    simp [LockfreeThreads.callId, LockfreeThreads.goto]
  have pc : ((s.goto t o.1 o.2.1).threads t).pc = o.2.1 := by
    simp [LockfreeThreads.goto]
  constructor
  · intro all
    obtain ⟨chain, free, holders, sound⟩ := sound_run steady
    have fresh : TagsFresh s log (.step t spurious) := current_fresh (alone_current run t)
    have told := told_step (told_run steady) sound fresh (LockfreeStep.access access)
    have unlogged := (told.current t).fresh (all t) _ (List.mem_append_left _ called)
    exact absurd id.symm unlogged
  · intro u busy'
    obtain rfl : u = t := by
      by_contra other
      exact busy' (by simpa [LockfreeThreads.goto, other] using alone u other)
    rw [id, pc, quiet.1, quiet.2]
    exact ⟨done, call, asked, List.mem_append_left _ called, replied, later⟩

theorem mirrored_leave {reply : LockfreeReply (QueueNode Key Value)}
    (run : (lockfreeMachine (QueueNode Key Value) ι capacity).Reach Alone s log)
    (alone : ∀ u, u ≠ t → (s.threads u).pc = .idle) (mirrored : Mirrored capacity s log)
    (returning : (s.threads t).pc = .returning reply) :
    Mirrored capacity (s.leave t) (log ++ (some (.returned (s.callId t) reply)).toList) := by
  have steady := alone_fresh run
  have busy : (s.threads t).pc ≠ .idle := by
    rw [returning]
    simp
  obtain ⟨done, call, asked, called, replied, underway⟩ := mirrored.busy t busy
  obtain ⟨_, call', called', doing, _⟩ := ((told_run steady).current t).current busy
  obtain rfl := called_once (calls_in_order steady) called called'
  rw [returning] at underway doing
  obtain ⟨same, answer⟩ := underway_performed underway doing
  constructor
  · intro _
    have unasked : requests (log ++ [.returned (s.callId t) reply]) = requests log := by
      simp [requests]
    have more : answers (log ++ [.returned (s.callId t) reply]) =
        answers log ++ [reply.answer] := by
      simp [answers]
    simp only [Option.toList_some]
    rw [unasked, more, asked, replies_append, after_snoc, inside_silent ⟨rfl, rfl⟩]
    simp only [QueueTraits.replies]
    exact ⟨by rw [replied, answer], same⟩
  · intro u busy'
    by_cases own : u = t
    · subst own
      simp [LockfreeThreads.leave] at busy'
    · exact absurd (by simpa [LockfreeThreads.leave, own] using alone u own) busy'

theorem mirrored_step {a : LockfreeAction (QueueNode Key Value) ι}
    {out : Option (LockfreeEntry (QueueNode Key Value) ι)}
    (run : (lockfreeMachine (QueueNode Key Value) ι capacity).Reach Alone s log)
    (alone : Alone s log a) (mirrored : Mirrored capacity s log)
    (step : LockfreeStep (nullHandle capacity) s a s' out) :
    Mirrored capacity s' (log ++ out.toList) := by
  cases step with
  | call idle => exact mirrored_begin (told_run (alone_fresh run)) idle alone mirrored
  | access access => exact mirrored_access run alone mirrored access
  | leave returning => exact mirrored_leave run alone mirrored returning

end Mirroring

theorem mirrored_run [Inhabited (QueueNode Key Value)]
    (run : (lockfreeMachine (QueueNode Key Value) ι capacity).Reach Alone s log) :
    Mirrored capacity s log := by
  refine Machine.reach_invariant (I := Mirrored capacity) ?_ ?_ run
  · refine ⟨fun _ => ⟨rfl, rfl⟩, ?_⟩
    intro t busy
    exact absurd rfl busy
  · intro s log a s' out before mirrored alone step
    exact mirrored_step before alone mirrored (lockfree_step step)

/-- One thread at a time cannot tell the queue from the one the traits are taken to be. -/
theorem lockfree_alone_agrees [Inhabited (QueueNode Key Value)]
    (run : (lockfreeMachine (QueueNode Key Value) ι capacity).Reach Alone s log)
    (idle : ∀ t, (s.threads t).pc = .idle) :
    let Q := FixedSizeLockfreeQueueTraits Key Value capacity
    Q.replies Q.empty (requests log) = answers log ∧
      Q.contents (Q.after Q.empty (requests log)) = inside log :=
  (mirrored_run run).idle idle

instance [Inhabited Key] [Inhabited Value] : Inhabited (QueueNode Key Value) :=
  ⟨⟨default, default⟩⟩

instance {T : Type} [DecidableEq T] {count : Nat} (s : LockfreeThreads T (Fin count))
    (log : List (LockfreeEntry T (Fin count))) (a : LockfreeAction T (Fin count)) :
    Decidable (Alone s log a) :=
  inferInstanceAs (Decidable (∀ u, u ≠ a.thread → (s.threads u).pc = .idle))

theorem alternate_threads_agree : ∃ s log,
    (lockfreeMachine (QueueNode Nat Nat) (Fin 2) 1).Reach Alone s log ∧
    let Q := FixedSizeLockfreeQueueTraits Nat Nat 1
    answers log =
        [.enqueued true, .enqueued false, .dequeued ⟨1, 10⟩ true, .dequeued ⟨0, 0⟩ false] ∧
      Q.replies Q.empty (requests log) = answers log ∧
      Q.contents (Q.after Q.empty (requests log)) = inside log := by
  obtain ⟨s, log, run, replies, idle⟩ := Machine.reach_of_exec
    (lockfreeMachine (QueueNode Nat Nat) (Fin 2) 1) Alone
    (List.flatten [[.call 0 (.boundedPush ⟨1, 10⟩)], stepsOf 0 12,
      [.call 1 (.boundedPush ⟨2, 20⟩)], stepsOf 1 2, [.call 0 (.pop ⟨0, 0⟩)], stepsOf 0 10,
      [.call 1 (.pop ⟨0, 0⟩)], stepsOf 1 5])
    (fun s log => answers log = [.enqueued true, .enqueued false, .dequeued ⟨1, 10⟩ true,
      .dequeued ⟨0, 0⟩ false] ∧ ∀ t, (s.threads t).pc = .idle) (by decide +kernel)
  exact ⟨s, log, run, replies, lockfree_alone_agrees run idle⟩

end Mirror

end MappedQueue
