import MappedQueue.LockfreeFifo

/-!
What the log of the lock-free queue tells of each call. A call that returns has had
one effect on the queue if it succeeded and none if it failed; a `pop` that failed
has seen the queue empty, a push that failed has been refused.
-/
namespace MappedQueue
open Concurrency TaggedIndex QueueMemory

namespace LockfreeEntry
variable {T ι : Type}

def id : LockfreeEntry T ι → ι × Nat
  | .called c _ => c
  | .effect c _ => c
  | .returned c _ => c

def effectOf [DecidableEq ι] (c : ι × Nat) : LockfreeEntry T ι → Option (QueueEffect T)
  | .effect d e => if d = c then some e else none
  | _ => none

end LockfreeEntry

section Calls
variable {T ι : Type}

def effectsOf [DecidableEq ι] (c : ι × Nat) (log : List (LockfreeEntry T ι)) :
    List (QueueEffect T) :=
  log.filterMap (LockfreeEntry.effectOf c)

def OnlyLooks (es : List (QueueEffect T)) : Prop := ∀ e ∈ es, e = .sawEmpty

def Answered : LockfreeCall T → List (QueueEffect T) → LockfreeReply T → Prop
  | .boundedPush t, es, .pushed true => es = [.pushed t]
  | .boundedPush _, es, .pushed false => es = [.refused]
  | .pop _, es, .popped ret true => ∃ looks, OnlyLooks looks ∧ es = looks ++ [.popped ret]
  | .pop _, es, .popped _ false => OnlyLooks es ∧ es ≠ []
  | _, _, _ => False

def LockfreeCall.Has : LockfreeCall T → QueueEffect T → Prop
  | .boundedPush t, .pushed v => v = t
  | .boundedPush _, .refused => True
  | .pop _, .popped _ => True
  | .pop _, .sawEmpty => True
  | _, _ => False

def InCall (c : ι × Nat) (past : List (LockfreeEntry T ι)) : Prop :=
  (∃ call, .called c call ∈ past) ∧ ∀ reply, .returned c reply ∉ past

/-- An entry has its place in the course of its call. -/
def CallOrder [DecidableEq ι] (past : List (LockfreeEntry T ι)) : LockfreeEntry T ι → Prop
  | .called c _ => ∀ y ∈ past, y.id ≠ c
  | .effect c e =>
    InCall c past ∧ OnlyLooks (effectsOf c past) ∧ ∃ call, .called c call ∈ past ∧ call.Has e
  | .returned c reply =>
    InCall c past ∧ ∃ call, .called c call ∈ past ∧ Answered call (effectsOf c past) reply

def LockfreePc.Doing (call : LockfreeCall T) (es : List (QueueEffect T)) : LockfreePc T → Prop
  | .idle => False
  | .push t (.swingTail _ _) => call = .boundedPush t ∧ es = [.pushed t]
  | .push t _ => call = .boundedPush t ∧ es = []
  | .pop ret pc => (∃ r, call = .pop r) ∧
    ∃ looks, OnlyLooks looks ∧ es = looks ++ if pc.node.isSome then [.popped ret] else []
  | .returning reply => Answered call es reply

/-- A `pop` that found a null pointer behind a head that is still there has seen the
    queue empty. -/
def LockfreePc.Looked (now : TaggedIndex) (null : Nat) (es : List (QueueEffect T)) :
    LockfreePc T → Prop
  | .pop _ (.checkHead head _ next) => now = head → next.index = null → es ≠ []
  | _ => True

end Calls

section Accesses
variable {T : Type} {m : QueueMemory T} {null : Nat} {free : List Nat} {spurious : Bool}
  {call : LockfreeCall T} {es : List (QueueEffect T)} {t : T}

theorem looks_snoc {looks : List (QueueEffect T)} (only : OnlyLooks looks) :
    OnlyLooks (looks ++ [.sawEmpty]) := by
  intro e member
  rcases List.mem_append.mp member with before | now
  · exact only e before
  · exact List.mem_singleton.mp now

theorem allocate_doing (begun : call = .boundedPush t) :
    (m.allocate null t).2.1.Doing call (m.allocate null t).2.2.toList := by
  unfold allocate
  split
  · rw [begun]
    rfl
  · exact ⟨begun, rfl⟩

theorem push_doing {pc : PushPc} (doing : (LockfreePc.push t pc).Doing call es) :
    (m.pushStep null spurious t pc).2.1.Doing call
      (es ++ (m.pushStep null spurious t pc).2.2.toList) := by
  cases pc with
  | swingTail node tail =>
    obtain ⟨rfl, rfl⟩ := doing
    rfl
  | loadPool =>
    obtain ⟨begun, rfl⟩ := doing
    exact allocate_doing begun
  | takeNode oldPool index =>
    obtain ⟨begun, rfl⟩ := doing
    simp only [pushStep]
    split
    · exact ⟨begun, rfl⟩
    · exact allocate_doing begun
  | checkTail node tail next =>
    obtain ⟨begun, rfl⟩ := doing
    simp only [pushStep]
    split
    · split
      · exact ⟨begun, rfl⟩
      · exact ⟨begun, rfl⟩
    · exact ⟨begun, rfl⟩
  | link node tail next =>
    obtain ⟨begun, rfl⟩ := doing
    simp only [pushStep]
    split
    · exact ⟨begun, rfl⟩
    · exact ⟨begun, rfl⟩
  | loadFree _ | writeData _ | loadOldNext _ | storeNext _ _ | loadTail _ | loadNext _ _
  | helpTail _ _ _ =>
    obtain ⟨begun, rfl⟩ := doing
    exact ⟨begun, rfl⟩

theorem push_looked {pc : PushPc} {now : TaggedIndex} :
    (m.pushStep null spurious t pc).2.1.Looked now null es := by
  cases pc
  all_goals simp only [pushStep, allocate]
  all_goals repeat' split
  all_goals trivial

theorem doing_looks {ret : T} {pc : PopPc} (before : pc.node = none)
    (begun : ∃ r, call = .pop r) : (LockfreePc.pop ret pc).Doing call es ↔ OnlyLooks es := by
  constructor
  · rintro ⟨_, looks, only, rfl⟩
    simpa [before] using only
  · intro only
    exact ⟨begun, es, only, by simp [before]⟩

theorem pop_doing_before {ret : T} {pc : PopPc} (before : pc.node = none)
    (begun : ∃ r, call = .pop r) (only : OnlyLooks es)
    (looked : (LockfreePc.pop ret pc).Looked m.head null es) (knows : pc.Knows null m ret)
    (fresh : Fresh m (.pop ret pc)) :
    (m.popStep null spurious ret pc).2.1.Doing call
        (es ++ (m.popStep null spurious ret pc).2.2.toList) ∧
      (m.popStep null spurious ret pc).2.1.Looked (m.popStep null spurious ret pc).1.head null
        (es ++ (m.popStep null spurious ret pc).2.2.toList) := by
  have still : ∀ {r : T} {pc : PopPc}, pc.node = none →
      (LockfreePc.pop r pc).Doing call (es ++ (none : Option (QueueEffect T)).toList) := by
    intro r pc unswung
    apply (doing_looks unswung begun).mpr
    simpa using only
  cases pc with
  | loadPool _ | storeFree _ _ | putNode _ _ => contradiction
  | loadHead | loadTail _ | copyPayload _ _ | helpTail _ _ => exact ⟨still rfl, trivial⟩
  | loadNext head tail =>
    simp only [popStep]
    split
    · constructor
      · exact (doing_looks rfl begun).mpr (looks_snoc only)
      · intro _ _
        simp
    · rename_i unseen
      refine ⟨still rfl, ?_⟩
      intro same none
      exact absurd ⟨same, none⟩ unseen
  | checkHead head tail next =>
    simp only [popStep]
    split
    · rename_i same
      have unchanged := same_fresh same knows.1.1 (fresh _ (List.mem_singleton_self _))
      split
      · split
        · rename_i none
          obtain ⟨r, rfl⟩ := begun
          have seen := looked unchanged none
          refine ⟨?_, trivial⟩
          simpa [LockfreePc.Doing, Answered] using And.intro only seen
        · exact ⟨still rfl, trivial⟩
      · split
        · exact ⟨still rfl, trivial⟩
        · exact ⟨still rfl, trivial⟩
    · exact ⟨still rfl, trivial⟩
  | swingHead head next =>
    simp only [popStep]
    split
    · exact ⟨⟨begun, es, only, rfl⟩, trivial⟩
    · exact ⟨still rfl, trivial⟩

theorem pop_doing_after {ret : T} {pc : PopPc} {node : Nat} (after : pc.node = some node)
    (doing : (LockfreePc.pop ret pc).Doing call es) :
    (m.popStep null spurious ret pc).2.1.Doing call
        (es ++ (m.popStep null spurious ret pc).2.2.toList) ∧
      (m.popStep null spurious ret pc).2.1.Looked (m.popStep null spurious ret pc).1.head null
        (es ++ (m.popStep null spurious ret pc).2.2.toList) := by
  obtain ⟨begun, looks, only, shaped⟩ := doing
  rw [after] at shaped
  simp only [Option.isSome_some, if_true] at shaped
  subst shaped
  cases pc with
  | loadHead | loadTail _ | copyPayload _ _ | helpTail _ _ | loadNext _ _ | checkHead _ _ _
  | swingHead _ _ => contradiction
  | loadPool _ | storeFree _ _ =>
    refine ⟨⟨begun, looks, only, ?_⟩, trivial⟩
    exact List.append_nil _
  | putNode node oldPool =>
    simp only [popStep]
    split
    · obtain ⟨r, rfl⟩ := begun
      refine ⟨⟨looks, only, ?_⟩, trivial⟩
      exact List.append_nil _
    · refine ⟨⟨begun, looks, only, ?_⟩, trivial⟩
      exact List.append_nil _

theorem access_doing {pc : LockfreePc T} (doing : pc.Doing call es)
    (looked : pc.Looked m.head null es) (knows : pc.Knows null m free) (fresh : Fresh m pc)
    {o : Outcome T} (access : m.access null spurious pc = some o) :
    o.2.1.Doing call (es ++ o.2.2.toList) ∧
      o.2.1.Looked o.1.head null (es ++ o.2.2.toList) := by
  cases pc with
  | idle | returning reply => contradiction
  | push t pc =>
    cases access
    exact ⟨push_doing doing, push_looked⟩
  | pop ret pc =>
    cases access
    cases h : pc.node with
    | none =>
      have begun := doing.1
      have only := (doing_looks h begun).mp doing
      exact pop_doing_before h begun only looked knows fresh
    | some node => exact pop_doing_after h doing

theorem push_has {v : T} {pc : PushPc} (doing : (LockfreePc.push v pc).Doing call es)
    {e : QueueEffect T} (effect : (m.pushStep null spurious v pc).2.2 = some e) :
    OnlyLooks es ∧ call.Has e := by
  have unchanged : OnlyLooks ([] : List (QueueEffect T)) := fun _ member => by contradiction
  cases pc with
  | loadPool =>
    obtain ⟨rfl, rfl⟩ := doing
    simp only [pushStep, allocate] at effect
    split at effect
    · cases effect
      exact ⟨unchanged, trivial⟩
    · contradiction
  | takeNode oldPool index =>
    obtain ⟨rfl, rfl⟩ := doing
    simp only [pushStep, allocate] at effect
    split at effect
    · contradiction
    · split at effect
      · cases effect
        exact ⟨unchanged, trivial⟩
      · contradiction
  | link node tail next =>
    obtain ⟨rfl, rfl⟩ := doing
    simp only [pushStep] at effect
    split at effect
    · cases effect
      exact ⟨unchanged, rfl⟩
    · contradiction
  | checkTail node tail next =>
    simp only [pushStep] at effect
    split at effect
    · split at effect <;> contradiction
    · contradiction
  | _ => contradiction

theorem pop_has {ret : T} {pc : PopPc} (doing : (LockfreePc.pop ret pc).Doing call es)
    {e : QueueEffect T} (effect : (m.popStep null spurious ret pc).2.2 = some e) :
    OnlyLooks es ∧ call.Has e := by
  cases pc with
  | loadNext head tail =>
    have only := (doing_looks rfl doing.1).mp doing
    obtain ⟨r, rfl⟩ := doing.1
    simp only [popStep] at effect
    split at effect
    · cases effect
      exact ⟨only, trivial⟩
    · contradiction
  | swingHead head next =>
    have only := (doing_looks rfl doing.1).mp doing
    obtain ⟨r, rfl⟩ := doing.1
    simp only [popStep] at effect
    split at effect
    · cases effect
      exact ⟨only, trivial⟩
    · contradiction
  | checkHead head tail next =>
    simp only [popStep] at effect
    split at effect
    · split at effect
      · split at effect <;> contradiction
      · split at effect <;> contradiction
    · contradiction
  | putNode node oldPool =>
    simp only [popStep] at effect
    split at effect <;> contradiction
  | _ => contradiction

theorem access_effect {pc : LockfreePc T} (doing : pc.Doing call es) {o : Outcome T}
    (access : m.access null spurious pc = some o) {e : QueueEffect T} (effect : o.2.2 = some e) :
    OnlyLooks es ∧ call.Has e := by
  cases pc with
  | idle | returning reply => contradiction
  | push t pc =>
    cases access
    exact push_has doing effect
  | pop ret pc =>
    cases access
    exact pop_has doing effect

end Accesses

section Runs
variable {T ι : Type} [Inhabited T] [DecidableEq ι] {capacity : Nat} {s s' : LockfreeThreads T ι}
  {log : List (LockfreeEntry T ι)} {a : LockfreeAction T ι} {out : Option (LockfreeEntry T ι)}
  {chain free : List Nat} {holders : List (ι × Nat)} {c d : ι × Nat}

omit [Inhabited T] in
theorem effectsOf_append (past rest : List (LockfreeEntry T ι)) :
    effectsOf c (past ++ rest) = effectsOf c past ++ effectsOf c rest := List.filterMap_append

omit [Inhabited T] in
theorem effectsOf_self (e : Option (QueueEffect T)) :
    effectsOf c (e.map (LockfreeEntry.effect c)).toList = e.toList := by
  cases e with
  | none => rfl
  | some e => simp [effectsOf, LockfreeEntry.effectOf]

omit [Inhabited T] in
theorem effectsOf_other (others : ∀ x ∈ log, x.id ≠ c) : effectsOf c log = [] := by
  unfold effectsOf
  rw [List.filterMap_eq_nil_iff]
  intro x member
  have ne := others x member
  cases x with
  | called d call | returned d reply => rfl
  | effect d e => simpa [LockfreeEntry.effectOf, LockfreeEntry.id] using ne

omit [Inhabited T] in
theorem effectsOf_bookkeeping {x : LockfreeEntry T ι} (silent : x.effectOf c = none) :
    effectsOf c (log ++ [x]) = effectsOf c log := by
  rw [effectsOf_append]
  simp [effectsOf, silent]

/-- The log tells of a thread the call it is in, and nothing of the calls to come. -/
structure CallTold (now : TaggedIndex) (null : Nat) (log : List (LockfreeEntry T ι)) (c : ι × Nat)
    (pc : LockfreePc T) : Prop where
  fresh : pc = .idle → ∀ y ∈ log, y.id ≠ c
  current : pc ≠ .idle → InCall c log ∧ ∃ call, .called c call ∈ log ∧
    pc.Doing call (effectsOf c log) ∧ pc.Looked now null (effectsOf c log)

structure CallsTold (null : Nat) (s : LockfreeThreads T ι)
    (log : List (LockfreeEntry T ι)) : Prop where
  later : ∀ t n, (s.threads t).calls < n → ∀ y ∈ log, y.id ≠ (t, n)
  current : ∀ t, CallTold s.memory.head null log (s.callId t) (s.threads t).pc

omit [Inhabited T] in
theorem told_other {now now' : TaggedIndex} {null : Nat} {pc : LockfreePc T}
    {rest : List (LockfreeEntry T ι)} (told : CallTold now null log c pc)
    (others : ∀ y ∈ rest, y.id ≠ c)
    (looked : ∀ es, pc.Looked now null es → pc.Looked now' null es) :
    CallTold now' null (log ++ rest) c pc := by
  have same : effectsOf c (log ++ rest) = effectsOf c log := by
    rw [effectsOf_append, effectsOf_other others, List.append_nil]
  constructor
  · intro idle y member
    rcases List.mem_append.mp member with before | now
    · exact told.fresh idle y before
    · exact others y now
  · intro busy
    obtain ⟨⟨⟨first, begun⟩, open_⟩, call, called, doing, seen⟩ := told.current busy
    rw [same]
    refine ⟨⟨⟨first, List.mem_append_left _ begun⟩, ?_⟩, call, List.mem_append_left _ called,
      doing, looked _ seen⟩
    intro reply member
    rcases List.mem_append.mp member with before | now
    · exact open_ reply before
    · exact others _ now rfl

omit [Inhabited T] [DecidableEq ι] in
theorem looked_later {now' : TaggedIndex} {null : Nat} {m : QueueMemory T} {pc : LockfreePc T}
    (knows : pc.Knows null m free) (change : Seen m.head now') {es : List (QueueEffect T)}
    (looked : pc.Looked m.head null es) : pc.Looked now' null es := by
  cases pc with
  | pop ret pc =>
    cases pc with
    | checkHead head tail next =>
      intro same
      exact looked (seen_back knows.1 change same)
    | _ => trivial
  | _ => trivial

omit [Inhabited T] [DecidableEq ι] in
theorem in_call_append {rest : List (LockfreeEntry T ι)} (open_ : InCall c log)
    (still : ∀ reply, .returned c reply ∉ rest) : InCall c (log ++ rest) := by
  obtain ⟨⟨call, begun⟩, unreturned⟩ := open_
  refine ⟨⟨call, List.mem_append_left _ begun⟩, ?_⟩
  intro reply member
  rcases List.mem_append.mp member with before | now
  · exact unreturned reply before
  · exact still reply now

omit [Inhabited T] in
theorem told_call {null : Nat} {now : TaggedIndex} (call : LockfreeCall T)
    (fresh : ∀ y ∈ log, y.id ≠ c) :
    CallTold now null (log ++ [.called c call]) c call.entrance := by
  have none_yet : effectsOf c (log ++ [.called c call]) = [] := by
    rw [effectsOf_bookkeeping rfl]
    exact effectsOf_other fresh
  have here : LockfreeEntry.called c call ∈ log ++ [.called c call] := by simp
  constructor
  · intro idle
    cases call <;> contradiction
  · intro _
    rw [none_yet]
    refine ⟨⟨⟨call, here⟩, ?_⟩, call, here, ?_, ?_⟩
    · intro reply member
      rcases List.mem_append.mp member with before | now
      · exact fresh _ before rfl
      · simp at now
    · cases call with
      | boundedPush t => exact ⟨rfl, rfl⟩
      | pop ret =>
        refine ⟨⟨ret, rfl⟩, [], ?_, rfl⟩
        intro e member
        contradiction
    · cases call <;> trivial

omit [Inhabited T] in
theorem told_access {null : Nat} {m : QueueMemory T} {pc : LockfreePc T} {spurious : Bool}
    (told : CallTold m.head null log c pc) (knows : pc.Knows null m free) (fresh : Fresh m pc)
    {o : Outcome T} (access : m.access null spurious pc = some o) :
    CallTold o.1.head null (log ++ (o.2.2.map (.effect c)).toList) c o.2.1 ∧
      ∀ e, o.2.2 = some e → CallOrder log (.effect c e) := by
  have busy : pc ≠ .idle := by
    rintro rfl
    contradiction
  obtain ⟨open_, call, begun, doing, looked⟩ := told.current busy
  have later := access_doing doing looked knows fresh access
  have effects : effectsOf c (log ++ (o.2.2.map (.effect c)).toList) =
      effectsOf c log ++ o.2.2.toList := by
    rw [effectsOf_append, effectsOf_self]
  refine ⟨⟨?_, ?_⟩, ?_⟩
  · intro idle
    rw [idle] at later
    exact absurd later.1 id
  · intro _
    rw [effects]
    refine ⟨in_call_append open_ ?_, call, List.mem_append_left _ begun, later⟩
    intro reply member
    obtain ⟨e, _, eq⟩ := Option.map_eq_some_iff.mp (Option.mem_toList.mp member)
    cases eq
  · intro e effect
    obtain ⟨only, kind⟩ := access_effect doing access effect
    exact ⟨open_, only, call, begun, kind⟩

omit [Inhabited T] in
theorem lockfree_ids {null : Nat} (step : LockfreeStep null s a s' out) :
    (∀ u, u ≠ a.thread → s'.threads u = s.threads u) ∧
      ∀ y ∈ out.toList, y.id = s.callId a.thread := by
  cases step with
  | call idle =>
    refine ⟨fun u ne => Function.update_of_ne ne .., ?_⟩
    intro y member
    cases List.mem_singleton.mp member
    rfl
  | access access =>
    refine ⟨fun u ne => Function.update_of_ne ne .., ?_⟩
    intro y member
    obtain ⟨e, _, rfl⟩ := Option.map_eq_some_iff.mp (Option.mem_toList.mp member)
    rfl
  | leave returning =>
    refine ⟨fun u ne => Function.update_of_ne ne .., ?_⟩
    intro y member
    cases List.mem_singleton.mp member
    rfl

omit [Inhabited T] in
theorem told_own (told : CallsTold (nullHandle capacity) s log)
    (sound : LockfreeSound capacity s log chain free holders) (fresh : TagsFresh s log a)
    (step : LockfreeStep (nullHandle capacity) s a s' out) :
    CallTold s'.memory.head (nullHandle capacity) (log ++ out.toList) (s'.callId a.thread)
        (s'.threads a.thread).pc ∧
      (s.threads a.thread).calls ≤ (s'.threads a.thread).calls ∧
      ∀ x, out = some x → CallOrder log x := by
  cases step with
  | @call t call idle =>
    have unlogged := (told.current t).fresh idle
    have same : (s.goto t s.memory call.entrance).callId t = s.callId t := by
      simp [LockfreeThreads.callId, LockfreeThreads.goto]
    refine ⟨?_, by simp [LockfreeThreads.goto, LockfreeAction.thread], ?_⟩
    · have later : CallTold s.memory.head (nullHandle capacity)
          (log ++ [.called (s.callId t) call]) (s.callId t) call.entrance := told_call call unlogged
      simpa [LockfreeThreads.goto, LockfreeAction.thread, LockfreeThreads.callId] using later
    · rintro _ ⟨⟩
      exact unlogged
  | @access t spurious o access =>
    obtain ⟨later, placed⟩ := told_access (told.current t) (sound.knows t) fresh access
    refine ⟨?_, by simp [LockfreeThreads.goto, LockfreeAction.thread], ?_⟩
    · simpa [LockfreeThreads.goto, LockfreeAction.thread, LockfreeThreads.callId] using later
    · intro x eq
      obtain ⟨e, effect, rfl⟩ := Option.map_eq_some_iff.mp eq
      exact placed e effect
  | @leave t spurious reply returning =>
    have busy : (s.threads t).pc ≠ .idle := by
      rw [returning]
      simp
    obtain ⟨open_, call, begun, doing, _⟩ := (told.current t).current busy
    rw [returning] at doing
    refine ⟨⟨?_, ?_⟩, by simp [LockfreeThreads.leave, LockfreeAction.thread], ?_⟩
    · intro _ y member
      have next : (s.leave t).callId t = (t, (s.threads t).calls + 1) := by
        simp [LockfreeThreads.callId, LockfreeThreads.leave]
      rw [LockfreeAction.thread, next]
      rcases List.mem_append.mp member with before | now
      · exact told.later t _ (Nat.lt_succ_self _) y before
      · cases List.mem_singleton.mp now
        simp [LockfreeEntry.id, LockfreeThreads.callId]
    · simp [LockfreeThreads.leave, LockfreeAction.thread]
    · rintro _ ⟨⟩
      exact ⟨open_, call, begun, doing⟩

omit [Inhabited T] in
theorem told_step (told : CallsTold (nullHandle capacity) s log)
    (sound : LockfreeSound capacity s log chain free holders) (fresh : TagsFresh s log a)
    (step : LockfreeStep (nullHandle capacity) s a s' out) :
    CallsTold (nullHandle capacity) s' (log ++ out.toList) := by
  obtain ⟨own, grows, _⟩ := told_own told sound fresh step
  obtain ⟨others, ids⟩ := lockfree_ids step
  constructor
  · intro t n less y member
    rcases List.mem_append.mp member with before | now
    · apply told.later t n _ y before
      by_cases eq : t = a.thread
      · subst eq
        omega
      · rwa [others t eq] at less
    · rw [ids y now]
      rintro ⟨⟩
      exact absurd less (Nat.not_lt.mpr grows)
  · intro t
    by_cases eq : t = a.thread
    · subst eq
      exact own
    · have same : s'.callId t = s.callId t := by
        rw [LockfreeThreads.callId, others t eq]
        rfl
      rw [same, others t eq]
      apply told_other (told.current t)
      · intro y member
        rw [ids y member]
        intro clash
        exact eq (Prod.mk.inj clash).1.symm
      · intro es looked
        exact looked_later (sound.knows t) (head_seen sound fresh step) looked

theorem told_run (run : (lockfreeMachine T ι capacity).Reach TagsFresh s log) :
    CallsTold (nullHandle capacity) s log := by
  refine Machine.reach_invariant (I := CallsTold (nullHandle capacity)) ?_ ?_ run
  · refine ⟨?_, fun t => ⟨?_, ?_⟩⟩
    · intro t n _ y member
      contradiction
    · intro _ y member
      contradiction
    · intro busy
      exact absurd rfl busy
  · intro s log a s' out before told fresh step
    obtain ⟨chain, free, holders, sound⟩ := sound_run before
    exact told_step told sound fresh (lockfree_step step)

/-- Every entry has its place in its call, and a call is answered as it took effect. -/
theorem calls_in_order (run : (lockfreeMachine T ι capacity).Reach TagsFresh s log) :
    Whenever CallOrder log := by
  refine Machine.reach_whenever ?_ run
  intro s log a s' x before fresh step
  obtain ⟨chain, free, holders, sound⟩ := sound_run before
  exact (told_own (told_run before) sound fresh (lockfree_step step)).2.2 x rfl

end Runs

end MappedQueue
