import Mathlib.Data.List.TakeWhile
import MappedQueue.LockfreeProgress
import MappedQueue.LockfreeLinearization

/-!
When no tag of the lock-free queue comes round. A call changes four words at most,
so a word that a thread keeps can only have been changed by calls that overlap its
own, and as long as these are fewer than `2 ^ 14` the tag that it compares is fresh.
-/
namespace MappedQueue
open Concurrency TaggedIndex QueueMemory

inductive QueueWord where
  | head
  | tail
  | pool
  | next (node : Nat)
  deriving DecidableEq, Repr

section Words
variable {T : Type}

def QueueMemory.word (m : QueueMemory T) : QueueWord → TaggedIndex
  | .head => m.head
  | .tail => m.tail
  | .pool => m.pool
  | .next node => m.next node

def PushPc.kept : PushPc → List (QueueWord × TaggedIndex)
  | .loadFree oldPool | .takeNode oldPool _ => [(.pool, oldPool)]
  | .loadNext _ tail | .swingTail _ tail | .helpTail _ tail _ => [(.tail, tail)]
  | .checkTail _ tail next | .link _ tail next => [(.tail, tail), (.next tail.index, next)]
  | _ => []

def PopPc.kept : PopPc → List (QueueWord × TaggedIndex)
  | .loadTail head | .copyPayload head _ | .swingHead head _ => [(.head, head)]
  | .loadNext head tail | .checkHead head tail _ => [(.head, head), (.tail, tail)]
  | .helpTail tail _ => [(.tail, tail)]
  | .storeFree _ oldPool | .putNode _ oldPool => [(.pool, oldPool)]
  | _ => []

def LockfreePc.kept : LockfreePc T → List (QueueWord × TaggedIndex)
  | .push _ pc => pc.kept
  | .pop _ pc => pc.kept
  | _ => []

/-- How many changes of a word the call will still make: a push takes a node, stores
    its pointer, links it, and the tail is moved once for it. -/
def PushPc.changes : PushPc → Nat
  | .loadPool | .loadFree _ | .takeNode _ _ => 4
  | .writeData _ | .loadOldNext _ | .storeNext _ _ => 3
  | .swingTail _ _ => 0
  | _ => 2

def LockfreePc.changes : LockfreePc T → Nat
  | .push _ pc => pc.changes
  | .pop _ pc => if pc.node = none then 1 else 0
  | _ => 0

/-- What an access changes is paid from what its call may still change. -/
def Pays (null : Nat) (m : QueueMemory T) (pc : LockfreePc T) (o : Outcome T) : Prop :=
  ∃ cost, (∀ w, (o.1.word w).version ≤ (m.word w).version + cost) ∧
    o.1.lag null + o.2.1.changes + cost ≤ m.lag null + pc.changes

theorem changes_bounded (pc : LockfreePc T) : pc.changes ≤ 4 := by
  cases pc with
  | idle | returning reply => simp [LockfreePc.changes]
  | push t pc => cases pc <;> simp [LockfreePc.changes, PushPc.changes]
  | pop ret pc =>
    simp only [LockfreePc.changes]
    split <;> omega

theorem comparison_kept {m : QueueMemory T} {pc : LockfreePc T} :
    ∀ words ∈ (pc.comparison m).toList, ∃ x ∈ pc.kept, words = (m.word x.1, x.2) := by
  intro words member
  cases pc with
  | idle | returning reply => contradiction
  | push t pc =>
    cases pc <;> simp only [LockfreePc.comparison, Option.toList_some, Option.toList_none,
      List.mem_singleton, List.not_mem_nil] at member
    all_goals subst member; simp [LockfreePc.kept, PushPc.kept, word]
  | pop ret pc =>
    cases pc <;> simp only [LockfreePc.comparison, Option.toList_some, Option.toList_none,
      List.mem_singleton, List.not_mem_nil] at member
    all_goals subst member; simp [LockfreePc.kept, PopPc.kept, word]

end Words

section Accesses
variable {T ι : Type} {null : Nat} {m m' : QueueMemory T} {chain free : List Nat}
  {owned : ι → Option Nat} {holders : List (ι × Nat)} {t : ι} {index node : Nat}
  {tail : TaggedIndex} {spurious : Bool} {pc pc' : LockfreePc T} {e : Option (QueueEffect T)}

theorem pays_nothing (fewer : pc'.changes ≤ pc.changes) : Pays null m pc (m, pc', e) :=
  ⟨0, fun _ => Nat.le_refl _, Nat.add_le_add_left fewer _⟩

theorem pays_store (cost : Nat) (shape : QueueShape null m chain free owned holders)
    (own : owned t = some node) {word : TaggedIndex}
    (more : word.version ≤ (m.next node).version + cost) (paid : pc'.changes + cost ≤ pc.changes) :
    Pays null m pc (m.setNext node word, pc', e) := by
  obtain ⟨unqueued, _, _⟩ := shape_owned shape own
  refine ⟨cost, ?_, ?_⟩
  · intro w
    cases w with
    | head | tail | pool => exact Nat.le_add_right _ _
    | next other =>
      change (Function.update m.next node word other).version ≤ (m.next other).version + cost
      by_cases same : other = node
      · subst same
        rw [Function.update_self]
        exact more
      · rw [Function.update_of_ne same]
        exact Nat.le_add_right _ _
  · have apart : m.tail.index ≠ node := ne_of_mem_of_not_mem shape.tail unqueued
    have lag : (m.setNext node word).lag null = m.lag null := by
      unfold QueueMemory.lag
      rw [m.pointer_setNext]
      change (if Function.update m.pointer node word.index m.tail.index = null then 0 else 1) = _
      rw [Function.update_of_ne apart]
    change (m.setNext node word).lag null + pc'.changes + cost ≤ _
    omega

theorem exchange_tail_pays (shape : QueueShape null m chain free owned holders)
    (seen : Seen tail m.tail) (leads : m.TailLeads null tail index)
    (fresh : m.tail.version < tail.version + tags) (fewer : pc'.changes ≤ pc.changes) :
    Pays null m pc (m.exchangeTail tail index, pc', e) := by
  rcases exchange_tail_spends shape seen leads fresh with ⟨same, _⟩ | less
  · rw [same]
    exact pays_nothing fewer
  · refine ⟨1, ?_, ?_⟩
    · intro w
      unfold exchangeTail
      split
      · rename_i same
        have unchanged := same_fresh same seen.1 fresh
        subst unchanged
        cases w with
        | tail => exact Nat.le_refl _
        | head | pool | next other => exact Nat.le_succ _
      · exact Nat.le_succ _
    · change (m.exchangeTail tail index).lag null + pc'.changes + 1 ≤ _
      omega

theorem allocate_pays {v : T} (entrance : pc.changes = 4) :
    Pays null m pc (m.allocate null v) := by
  unfold allocate
  split
  · exact pays_nothing (Nat.zero_le _)
  · exact pays_nothing (Nat.le_of_eq entrance.symm)

theorem take_node_pays {v : T} {oldPool : TaggedIndex} {index : Nat}
    (knows : (PushPc.takeNode oldPool index).Knows null m free v)
    (fresh : m.pool.version < oldPool.version + tags) :
    Pays null m (.push v (.takeNode oldPool index))
      (m.pushStep null spurious v (.takeNode oldPool index)) := by
  simp only [pushStep]
  split
  · rename_i exchanged
    have same := (Bool.and_eq_true_iff.mp exchanged).1
    have unchanged := same_fresh same knows.1.1 fresh
    subst unchanged
    refine ⟨1, ?_, Nat.le_refl _⟩
    intro w
    cases w with
    | pool => exact Nat.le_refl _
    | head | tail | next other => exact Nat.le_succ _
  · exact allocate_pays rfl

theorem link_pays {v : T} {node : Nat} {tail next : TaggedIndex}
    (knows : (PushPc.link node tail next).Knows null m free v)
    (fresh : (m.next tail.index).version < next.version + tags) :
    Pays null m (.push v (.link node tail next))
      (m.pushStep null spurious v (.link node tail next)) := by
  obtain ⟨_, _, ends⟩ := knows
  simp only [pushStep]
  split
  · rename_i exchanged
    have same := (Bool.and_eq_true_iff.mp exchanged).1
    have unchanged := same_fresh same ends.1 fresh
    obtain ⟨at_tail, last⟩ := ends.2 (congrArg version unchanged)
    rw [← at_tail] at last
    have caught_up : m.lag null = 0 := if_pos last
    refine ⟨1, ?_, ?_⟩
    · intro w
      cases w with
      | head | tail | pool => exact Nat.le_succ _
      | next other =>
        change (Function.update m.next tail.index _ other).version ≤ (m.next other).version + 1
        by_cases here : other = tail.index
        · subst here
          rw [Function.update_self, unchanged]
          exact Nat.le_refl _
        · rw [Function.update_of_ne here]
          exact Nat.le_succ _
    · rw [caught_up]
      change QueueMemory.lag _ null + 0 + 1 ≤ 0 + 2
      unfold QueueMemory.lag
      split <;> omega
  · exact pays_nothing (Nat.le_refl _)

theorem push_pays (shape : QueueShape null m chain free owned holders) {v : T} {pc : PushPc}
    (own : owned t = pc.node) (knows : pc.Knows null m free v) (fresh : Fresh m (.push v pc)) :
    Pays null m (.push v pc) (m.pushStep null spurious v pc) := by
  cases pc with
  | loadPool => exact allocate_pays rfl
  | loadFree oldPool | loadOldNext node | loadTail node | loadNext node tail =>
    exact pays_nothing (Nat.le_refl _)
  | takeNode oldPool index => exact take_node_pays knows (fresh _ (List.mem_singleton_self _))
  | writeData node => exact ⟨0, fun w => by cases w <;> exact Nat.le_refl _, Nat.le_refl _⟩
  | storeNext node oldNext =>
    obtain ⟨_, rfl⟩ := knows
    exact pays_store 1 shape own (Nat.le_refl _) (Nat.le_refl _)
  | checkTail node tail next =>
    simp only [pushStep]
    split
    · split <;> exact pays_nothing (Nat.le_refl _)
    · exact pays_nothing (Nat.le_refl _)
  | link node tail next => exact link_pays knows (fresh _ (List.mem_singleton_self _))
  | swingTail node tail =>
    obtain ⟨seen, leads⟩ := knows
    exact exchange_tail_pays shape seen leads (fresh _ (List.mem_singleton_self _)) (Nat.le_refl _)
  | helpTail node tail next =>
    obtain ⟨_, seen, leads⟩ := knows
    exact exchange_tail_pays shape seen leads (fresh _ (List.mem_singleton_self _)) (Nat.le_refl _)

theorem pop_pays (shape : QueueShape null m chain free owned holders) {ret : T} {pc : PopPc}
    (own : owned t = pc.node) (knows : pc.Knows null m ret) (fresh : Fresh m (.pop ret pc)) :
    Pays null m (.pop ret pc) (m.popStep null spurious ret pc) := by
  cases pc with
  | loadHead | loadTail head | copyPayload head next | loadPool node =>
    exact pays_nothing (Nat.le_refl _)
  | loadNext head tail =>
    simp only [popStep]
    split <;> exact pays_nothing (Nat.le_refl _)
  | checkHead head tail next =>
    simp only [popStep]
    split
    · split
      · split
        · exact pays_nothing (Nat.zero_le _)
        · exact pays_nothing (Nat.le_refl _)
      · split <;> exact pays_nothing (Nat.le_refl _)
    · exact pays_nothing (Nat.le_refl _)
  | helpTail tail next =>
    obtain ⟨seen, leads⟩ := knows
    exact exchange_tail_pays shape seen leads (fresh _ (List.mem_singleton_self _)) (Nat.le_refl _)
  | swingHead head next =>
    simp only [popStep]
    split
    · rename_i exchanged
      have same := (Bool.and_eq_true_iff.mp exchanged).1
      have unchanged := same_fresh same knows.1.1 (fresh _ (List.mem_singleton_self _))
      subst unchanged
      refine ⟨1, ?_, Nat.le_refl _⟩
      intro w
      cases w with
      | head => exact Nat.le_refl _
      | tail | pool | next other => exact Nat.le_succ _
    · exact pays_nothing (Nat.le_refl _)
  | storeFree node oldPool =>
    exact pays_store 0 shape own (Nat.le_refl _) (Nat.le_refl _)
  | putNode node oldPool =>
    simp only [popStep]
    split
    · rename_i exchanged
      have same := (Bool.and_eq_true_iff.mp exchanged).1
      have unchanged := same_fresh same knows.1 (fresh _ (List.mem_singleton_self _))
      subst unchanged
      exact ⟨0, fun w => by cases w <;> exact Nat.le_refl _, Nat.le_refl _⟩
    · exact pays_nothing (Nat.le_refl _)

theorem access_pays (shape : QueueShape null m chain free owned holders) (own : owned t = pc.node)
    (knows : pc.Knows null m free) (fresh : Fresh m pc) {o : Outcome T}
    (access : m.access null spurious pc = some o) : Pays null m pc o := by
  cases pc with
  | idle | returning reply => contradiction
  | push v pc =>
    cases access
    exact push_pays shape own knows fresh
  | pop ret pc =>
    cases access
    exact pop_pays shape own knows fresh

theorem access_kept {o : Outcome T} (access : m.access null spurious pc = some o) :
    ∀ x ∈ o.2.1.kept, x ∈ pc.kept ∨ x.2 = m.word x.1 := by
  intro x member
  cases pc with
  | idle | returning reply => contradiction
  | push v pc =>
    cases access
    cases pc with
    | loadNext node tail =>
      rcases List.mem_cons.mp member with rfl | read
      · exact Or.inl (List.mem_singleton_self _)
      · rw [List.mem_singleton.mp read]
        exact Or.inr rfl
    | _ =>
      simp only [pushStep, allocate] at member
      (repeat' split at member) <;> simp_all [LockfreePc.kept, PushPc.kept, word]
  | pop ret pc =>
    cases access
    cases pc with
    | loadTail head =>
      rcases List.mem_cons.mp member with rfl | read
      · exact Or.inl (List.mem_singleton_self _)
      · rw [List.mem_singleton.mp read]
        exact Or.inr rfl
    | _ =>
      simp only [popStep] at member
      (repeat' split at member) <;> simp_all [LockfreePc.kept, PopPc.kept, word]

end Accesses

section Runs
variable {T ι : Type} [Inhabited T] [DecidableEq ι] {capacity : Nat} {s s' : LockfreeThreads T ι}
  {log : List (LockfreeEntry T ι)} {a : LockfreeAction T ι} {out : Option (LockfreeEntry T ι)}
  {members : Finset ι} {t : ι} {c : ι × Nat}

def LockfreeEntry.isCalled : LockfreeEntry T ι → Bool
  | .called _ _ => true
  | _ => false

def LockfreeEntry.begins (c : ι × Nat) : LockfreeEntry T ι → Bool
  | .called d _ => decide (d = c)
  | _ => false

def callsBegun (log : List (LockfreeEntry T ι)) : Nat := log.countP LockfreeEntry.isCalled

def callsReturned (log : List (LockfreeEntry T ι)) : Nat := log.countP LockfreeEntry.isReturned

/-- How many calls have overlapped the call so far, itself included: those that have
    begun, but for those that had returned before it did. -/
def overlapping (log : List (LockfreeEntry T ι)) (c : ι × Nat) : Nat :=
  callsBegun log - callsReturned (log.takeWhile fun x => !x.begins c)

/-- The call of a thread that goes on overlaps fewer than `2 ^ 14` calls. -/
def FewOverlaps (s : LockfreeThreads T ι) (log : List (LockfreeEntry T ι)) :
    LockfreeAction T ι → Prop
  | .call _ _ => True
  | .step t _ => overlapping log (s.callId t) < 16384

instance (s : LockfreeThreads T ι) (log : List (LockfreeEntry T ι)) (a : LockfreeAction T ι) :
    Decidable (FewOverlaps s log a) :=
  match a with
  | .call _ _ => isTrue trivial
  | .step t _ => inferInstanceAs (Decidable (overlapping log (s.callId t) < 16384))

omit [Inhabited T] in
theorem overlapping_append {call : LockfreeCall T} (called : .called c call ∈ log)
    (enough : callsReturned log ≤ callsBegun log) (more : List (LockfreeEntry T ι)) :
    overlapping (log ++ more) c = overlapping log c + callsBegun more := by
  have same : (log ++ more).takeWhile (fun x => !x.begins c) =
      log.takeWhile fun x => !x.begins c := by
    rw [List.takeWhile_append, if_neg]
    intro whole
    have all := List.takeWhile_eq_self_iff.mp (List.takeWhile_sublist _ |>.eq_of_length whole)
    have here := all _ called
    simp [LockfreeEntry.begins] at here
  have earlier : callsReturned (log.takeWhile fun x => !x.begins c) ≤ callsReturned log :=
    (List.takeWhile_sublist _).countP_le
  unfold overlapping
  rw [same]
  unfold callsBegun at enough ⊢
  rw [List.countP_append]
  omega

omit [Inhabited T] in
theorem underway_overlap (log : List (LockfreeEntry T ι)) (c : ι × Nat) :
    callsBegun log - callsReturned log ≤ overlapping log c := by
  have earlier : callsReturned (log.takeWhile fun x => !x.begins c) ≤ callsReturned log :=
    (List.takeWhile_sublist _).countP_le
  unfold overlapping
  omega

def pending (capacity : Nat) (members : Finset ι) (s : LockfreeThreads T ι) : Nat :=
  s.memory.lag (nullHandle capacity) + ∑ t ∈ members, (s.threads t).pc.changes

/-- A word that a thread keeps has changed no more often since than what the calls that
    overlap have left it. -/
structure Paced (capacity : Nat) (members : Finset ι) (s : LockfreeThreads T ι)
    (log : List (LockfreeEntry T ι)) : Prop where
  inside : ∀ t, t ∈ members ↔ (s.threads t).pc ≠ .idle
  count : members.card + callsReturned log = callsBegun log
  kept : ∀ t, ∀ x ∈ (s.threads t).pc.kept,
    (s.memory.word x.1).version + pending capacity members s ≤
      x.2.version + 4 * overlapping log (s.callId t) + 1

omit [Inhabited T] [DecidableEq ι] in
theorem pending_bounded : pending capacity members s ≤ 4 * members.card + 1 := by
  have changes : ∑ t ∈ members, (s.threads t).pc.changes ≤ 4 * members.card :=
    ranks_bounded fun t _ => changes_bounded _
  unfold pending QueueMemory.lag
  split <;> omega

omit [Inhabited T] in
theorem paced_fresh (paced : Paced capacity members s log)
    (few : overlapping log (s.callId t) < 16384) {spurious : Bool} :
    TagsFresh s log (.step t spurious) := by
  intro words member
  obtain ⟨x, kept, rfl⟩ := comparison_kept words member
  have bound := paced.kept t x kept
  change (s.memory.word x.1).version < x.2.version + tags
  unfold tags
  omega

omit [Inhabited T] in
theorem paced_kept {members' : Finset ι} (paced : Paced capacity members s log)
    (told : CallsTold (nullHandle capacity) s log)
    (others : ∀ u, u ≠ a.thread → s'.threads u = s.threads u)
    (paid : ∀ w, (s'.memory.word w).version + pending capacity members' s' ≤
      (s.memory.word w).version + pending capacity members s + 4 * callsBegun out.toList)
    (own : ∀ x ∈ (s'.threads a.thread).pc.kept, s'.callId a.thread = s.callId a.thread ∧
      (s.threads a.thread).pc ≠ .idle ∧
        (x ∈ (s.threads a.thread).pc.kept ∨ x.2 = s.memory.word x.1)) :
    ∀ t, ∀ x ∈ (s'.threads t).pc.kept,
      (s'.memory.word x.1).version + pending capacity members' s' ≤
        x.2.version + 4 * overlapping (log ++ out.toList) (s'.callId t) + 1 := by
  have count := paced.count
  have grows : ∀ t, (s.threads t).pc ≠ .idle → overlapping (log ++ out.toList) (s.callId t) =
      overlapping log (s.callId t) + callsBegun out.toList := by
    intro t busy
    obtain ⟨_, call, called, _⟩ := (told.current t).current busy
    exact overlapping_append called (by omega) _
  intro t x kept
  have changed := paid x.1
  have busy_kept : ∀ t, x ∈ (s.threads t).pc.kept → (s.threads t).pc ≠ .idle := by
    intro t kept idle
    rw [idle] at kept
    contradiction
  by_cases here : t = a.thread
  · subst here
    obtain ⟨id, busy, before | read⟩ := own x kept
    · have bound := paced.kept _ x before
      rw [id, grows _ busy]
      omega
    · have most : pending capacity members s ≤ 4 * members.card + 1 := pending_bounded
      have least := underway_overlap log (s.callId a.thread)
      rw [id, grows _ busy]
      rw [← read] at changed
      omega
  · rw [others t here] at kept
    have id : s'.callId t = s.callId t := by
      rw [LockfreeThreads.callId, others t here]
      rfl
    have bound := paced.kept t x kept
    rw [id, grows t (busy_kept t kept)]
    omega

omit [Inhabited T] in
theorem paced_call {call : LockfreeCall T} (paced : Paced capacity members s log)
    (told : CallsTold (nullHandle capacity) s log) (idle : (s.threads t).pc = .idle) :
    Paced capacity (insert t members) (s.goto t s.memory call.entrance)
      (log ++ (some (.called (s.callId t) call)).toList) := by
  have others : ∀ u, u ≠ t → (s.goto t s.memory call.entrance).threads u = s.threads u :=
    fun u other => Function.update_of_ne other ..
  have count := paced.count
  have outside : t ∉ members := fun member => (paced.inside t).mp member idle
  have entered : ((s.goto t s.memory call.entrance).threads t).pc = call.entrance := by
    simp [LockfreeThreads.goto]
  refine ⟨?_, ?_, paced_kept (a := .call t call) paced told others ?_ ?_⟩
  · intro u
    rw [Finset.mem_insert]
    by_cases own : u = t
    · rw [own, entered]
      cases call <;> simp [LockfreeCall.entrance]
    · rw [others u own, paced.inside u]
      simp [own]
  · rw [Finset.card_insert_of_notMem outside]
    simp only [callsReturned, callsBegun, List.countP_append] at count ⊢
    simp [LockfreeEntry.isCalled, LockfreeEntry.isReturned]
    omega
  · intro w
    have due : pending capacity (insert t members) (s.goto t s.memory call.entrance) =
        call.entrance.changes + pending capacity members s := by
      unfold pending
      rw [Finset.sum_insert outside, entered, Nat.add_left_comm]
      congr 2
      apply Finset.sum_congr rfl
      intro u member
      rw [others u (ne_of_mem_of_not_mem member outside)]
    have most := changes_bounded call.entrance
    change (s.memory.word w).version + _ ≤ _ + 4 * 1
    rw [due]
    omega
  · intro x kept
    rw [LockfreeAction.thread, entered] at kept
    cases call <;> simp [LockfreeCall.entrance, LockfreePc.kept, PushPc.kept, PopPc.kept] at kept

omit [Inhabited T] in
theorem paced_access {chain free : List Nat} {holders : List (ι × Nat)} {spurious : Bool}
    {o : Outcome T} (paced : Paced capacity members s log)
    (told : CallsTold (nullHandle capacity) s log)
    (sound : LockfreeSound capacity s log chain free holders)
    (fresh : TagsFresh s log (.step t spurious))
    (access : s.memory.access (nullHandle capacity) spurious (s.threads t).pc = some o) :
    Paced capacity members (s.goto t o.1 o.2.1)
      (log ++ (o.2.2.map (LockfreeEntry.effect (s.callId t))).toList) := by
  have others : ∀ u, u ≠ t → (s.goto t o.1 o.2.1).threads u = s.threads u :=
    fun u other => Function.update_of_ne other ..
  have count := paced.count
  have busy : (s.threads t).pc ≠ .idle := by
    intro idle
    rw [idle] at access
    contradiction
  obtain ⟨_, call, _, doing, looked⟩ := (told.current t).current busy
  have still : o.2.1 ≠ .idle := by
    intro idle
    have later := (access_doing doing looked (sound.knows t) fresh access).1
    rw [idle] at later
    exact later
  have arrived : ((s.goto t o.1 o.2.1).threads t).pc = o.2.1 := by
    simp [LockfreeThreads.goto]
  have silent : callsBegun (o.2.2.map (LockfreeEntry.effect (s.callId t))).toList = 0 ∧
      callsReturned (o.2.2.map (LockfreeEntry.effect (s.callId t))).toList = 0 := by
    cases o.2.2 <;> exact ⟨rfl, rfl⟩
  refine ⟨?_, ?_, paced_kept (a := .step t spurious) paced told others ?_ ?_⟩
  · intro u
    by_cases own : u = t
    · rw [own, arrived, paced.inside t]
      simp [busy, still]
    · rw [others u own, paced.inside u]
  · unfold callsReturned callsBegun at count silent ⊢
    rw [List.countP_append, List.countP_append]
    omega
  · intro w
    obtain ⟨cost, changed, paid⟩ :=
      access_pays (t := t) sound.shape rfl (sound.knows t) fresh access
    have moved := sum_moved (fun u => (s.threads u).pc.changes)
      (fun u => ((s.goto t o.1 o.2.1).threads u).pc.changes) ((paced.inside t).mpr busy)
      (fun u ne => by rw [others u ne])
    simp only [arrived] at moved
    have version := changed w
    change (o.1.word w).version + (o.1.lag _ + _) ≤ _ + (s.memory.lag _ + _) + _
    omega
  · intro x kept
    rw [LockfreeAction.thread, arrived] at kept
    refine ⟨?_, busy, access_kept access x kept⟩
    simp [LockfreeThreads.callId, LockfreeThreads.goto, LockfreeAction.thread]

omit [Inhabited T] in
theorem paced_leave {reply : LockfreeReply T} (paced : Paced capacity members s log)
    (told : CallsTold (nullHandle capacity) s log)
    (returning : (s.threads t).pc = .returning reply) :
    Paced capacity (members.erase t) (s.leave t)
      (log ++ (some (.returned (s.callId t) reply)).toList) := by
  have others : ∀ u, u ≠ t → (s.leave t).threads u = s.threads u :=
    fun u other => Function.update_of_ne other ..
  have count := paced.count
  have busy : (s.threads t).pc ≠ .idle := by
    rw [returning]
    simp
  have member := (paced.inside t).mpr busy
  have left : ((s.leave t).threads t).pc = .idle := by simp [LockfreeThreads.leave]
  refine ⟨?_, ?_, paced_kept (a := .step t false) paced told others ?_ ?_⟩
  · intro u
    rw [Finset.mem_erase]
    by_cases own : u = t
    · rw [own, left]
      simp
    · rw [others u own, paced.inside u]
      simp [own]
  · have one := Finset.card_erase_add_one member
    simp only [callsReturned, callsBegun, List.countP_append] at count ⊢
    simp [LockfreeEntry.isCalled, LockfreeEntry.isReturned]
    omega
  · intro w
    have due : pending capacity (members.erase t) (s.leave t) = pending capacity members s := by
      have parts := Finset.add_sum_erase members (fun u => (s.threads u).pc.changes) member
      have through : (s.threads t).pc.changes = 0 := by
        rw [returning]
        rfl
      unfold pending
      rw [← parts, through, Nat.zero_add]
      congr 1
      apply Finset.sum_congr rfl
      intro u other
      rw [others u (Finset.ne_of_mem_erase other)]
    rw [due]
    exact Nat.le_add_right _ _
  · intro x kept
    rw [LockfreeAction.thread, left] at kept
    contradiction

omit [Inhabited T] in
theorem paced_step {chain free : List Nat} {holders : List (ι × Nat)}
    (paced : Paced capacity members s log)
    (told : CallsTold (nullHandle capacity) s log)
    (sound : LockfreeSound capacity s log chain free holders) (fresh : TagsFresh s log a)
    (step : LockfreeStep (nullHandle capacity) s a s' out) :
    ∃ members', Paced capacity members' s' (log ++ out.toList) := by
  cases step with
  | call idle => exact ⟨_, paced_call paced told idle⟩
  | access access => exact ⟨_, paced_access paced told sound fresh access⟩
  | leave returning => exact ⟨_, paced_leave paced told returning⟩

/-- As long as every call overlaps fewer than `2 ^ 14` calls, itself included, no thread
    compares a word with one whose tag has come round. -/
theorem few_overlaps_fresh (run : (lockfreeMachine T ι capacity).Reach FewOverlaps s log) :
    (lockfreeMachine T ι capacity).Reach TagsFresh s log := by
  have both : (lockfreeMachine T ι capacity).Reach TagsFresh s log ∧
      ∃ members, Paced capacity members s log := by
    refine Machine.reach_invariant (I := fun s log => (lockfreeMachine T ι capacity).Reach
      TagsFresh s log ∧ ∃ members, Paced capacity members s log) ?_ ?_ run
    · refine ⟨Machine.Reach.init, ∅, ?_, rfl, ?_⟩
      · intro t
        simp [lockfreeMachine, LockfreeThreads.create]
      · intro t x kept
        contradiction
    · rintro s log a s' out _ ⟨before, members, paced⟩ few step
      have fresh : TagsFresh s log a := by
        cases a with
        | call t call =>
          cases lockfree_step step with
          | call idle =>
            intro words member
            rw [LockfreeAction.thread, idle] at member
            contradiction
        | step t spurious => exact paced_fresh paced few
      obtain ⟨chain, free, holders, sound⟩ := sound_run before
      exact ⟨Machine.Reach.next before fresh step,
        paced_step paced (told_run before) sound fresh (lockfree_step step)⟩
  exact both.1

theorem overlapped_pop_fresh : ∃ s log, (lockfreeMachine Nat (Fin 2) 1).Reach FewOverlaps s log ∧
    overlapping log (0, 0) = 3 ∧ .returned (1, 1) (.popped 5 true) ∈ log ∧
    (lockfreeMachine Nat (Fin 2) 1).Reach TagsFresh s log := by
  obtain ⟨s, log, run, three, popped⟩ := Machine.reach_of_exec (lockfreeMachine Nat (Fin 2) 1)
    FewOverlaps
    (List.flatten [[.call 0 (.pop 0)], stepsOf 0 2, [.call 1 (.boundedPush 5)], stepsOf 1 12,
      [.call 1 (.pop 0)], stepsOf 1 10, stepsOf 0 3])
    (fun _ log => overlapping log (0, 0) = 3 ∧ .returned (1, 1) (.popped 5 true) ∈ log)
    (by decide +kernel)
  exact ⟨s, log, run, three, popped, few_overlaps_fresh run⟩

end Runs

end MappedQueue
