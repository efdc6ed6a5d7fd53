import MappedQueue.LockfreeReadings

/-!
Every access of a thread of the lock-free queue is a move, and leaves the thread
knowing what its next access relies on. So in every run in which no tag comes round
again unnoticed, the chains stay whole.
-/
namespace MappedQueue
open Concurrency TaggedIndex QueueMemory

section Accesses
variable {T ι : Type} {null : Nat} {m : QueueMemory T} {chain free : List Nat}
  {mine : Option Nat} {owned : ι → Option Nat} {holders : List (ι × Nat)} {t : ι}
  {index node : Nat} {tail : TaggedIndex} {spurious : Bool}

/-- The access that led to `o` is a move, after which the thread knows what it needs. -/
def Moves (null : Nat) (m : QueueMemory T) (chain free : List Nat) (mine : Option Nat)
    (o : Outcome T) : Prop :=
  ∃ chain' free', QueueMove null m chain free mine o.1 chain' free' o.2.1.node o.2.2 ∧
    o.2.1.Knows null o.1 free'

def Fresh (m : QueueMemory T) (pc : LockfreePc T) : Prop :=
  ∀ words ∈ (pc.comparison m).toList, words.1.version < words.2.version + tags

theorem moves_stay (pc : LockfreePc T) (knows : pc.Knows null m free) :
    Moves null m chain free pc.node (m, pc, none) :=
  ⟨chain, free, QueueMove.stay, knows⟩

theorem allocate_moves (shape : QueueShape null m chain free owned holders) (v : T) :
    Moves null m chain free none (m.allocate null v) := by
  unfold allocate
  split
  · rename_i exhausted
    exact ⟨chain, free, QueueMove.refuse exhausted, trivial⟩
  · rename_i present
    obtain ⟨rest, split⟩ := linked_start shape.pooled present
    have first : m.pool.index ∈ free := by
      rw [split]
      exact List.mem_cons_self
    apply moves_stay (.push v (.loadFree m.pool))
    exact ⟨Nat.le_refl _, fun _ => first⟩

theorem take_moves (shape : QueueShape null m chain free owned holders) {oldPool : TaggedIndex}
    (seen : m.FreeSeen free oldPool) (leads : m.FreeLeads oldPool index)
    (unchanged : m.pool = oldPool) (v : T) :
    Moves null m chain free none
      ({ m with pool := oldPool.tagged index }, .push v (.writeData oldPool.index), none) := by
  subst unchanged
  have member := seen.2 rfl
  have pointer := leads rfl
  obtain ⟨rest, rfl⟩ := linked_start shape.pooled (linked_present shape.pooled member)
  rw [← pointer]
  exact ⟨chain, rest, QueueMove.take, trivial⟩

theorem exchange_tail_moves (seen : Seen tail m.tail) (leads : m.TailLeads null tail index)
    (fresh : m.tail.version < tail.version + tags) :
    QueueMove null m chain free mine (m.exchangeTail tail index) chain free mine none := by
  unfold exchangeTail
  split
  · rename_i same
    have unchanged := same_fresh same seen.1 fresh
    subst unchanged
    have pointer := leads.2 rfl
    rw [← pointer]
    apply QueueMove.swingTail
    rw [pointer]
    exact leads.1
  · exact QueueMove.stay

theorem exchange_tail_ready {v : T} (ready : m.Ready null node v) :
    (m.exchangeTail tail index).Ready null node v := by
  unfold exchangeTail
  split
  · exact ready
  · exact ready

theorem link_moves (shape : QueueShape null m chain free owned holders)
    (own : owned t = some node) {next : TaggedIndex} {v : T} (ready : m.Ready null node v)
    (seen : Seen tail m.tail) (ends : m.Ends null tail.index next)
    (unchanged : m.next tail.index = next) :
    Moves null m chain free (some node)
      (m.setNext tail.index (next.tagged node), .push v (.swingTail node tail),
        some (.pushed v)) := by
  obtain ⟨at_tail, last⟩ := ends.2 (congrArg version unchanged)
  obtain ⟨data, none_behind⟩ := ready
  obtain ⟨_, _, present⟩ := shape_owned shape own
  rw [← unchanged, ← at_tail, ← data]
  rw [← at_tail] at last
  refine ⟨_, _, QueueMove.link last none_behind, seen, present, ?_⟩
  intro _
  rw [← at_tail, m.pointer_setNext]
  exact Function.update_self ..

theorem check_tail_moves {v : T} {next : TaggedIndex}
    (knows : (PushPc.checkTail node tail next).Knows null m free v)
    (fresh : m.tail.version < tail.version + tags) :
    Moves null m chain free (some node)
      (m.pushStep null spurious v (.checkTail node tail next)) := by
  obtain ⟨ready, seen, older, ends, leads⟩ := knows
  simp only [pushStep]
  split
  · rename_i same
    have unchanged := same_fresh same seen.1 fresh
    split
    · rename_i none
      apply moves_stay (.push v (.link node tail next))
      exact ⟨ready, seen, ends none unchanged⟩
    · rename_i present
      apply moves_stay (.push v (.helpTail node tail next))
      exact ⟨ready, seen, leads present⟩
  · exact moves_stay (.push v (.loadTail node)) ready

theorem push_moves (shape : QueueShape null m chain free owned holders) {v : T} {pc : PushPc}
    (own : owned t = pc.node) (knows : pc.Knows null m free v) (fresh : Fresh m (.push v pc)) :
    Moves null m chain free pc.node (m.pushStep null spurious v pc) := by
  cases pc with
  | loadPool => exact allocate_moves shape v
  | loadFree oldPool =>
    apply moves_stay (.push v (.takeNode oldPool (m.next oldPool.index).index))
    exact ⟨knows, fun _ => rfl⟩
  | takeNode oldPool index =>
    simp only [pushStep]
    split
    · rename_i exchanged
      have same := (Bool.and_eq_true_iff.mp exchanged).1
      have unchanged := same_fresh same knows.1.1 (fresh _ (List.mem_singleton_self _))
      exact take_moves shape knows.1 knows.2 unchanged v
    · exact allocate_moves shape v
  | writeData node =>
    refine ⟨chain, free, QueueMove.write v, ?_⟩
    exact Function.update_self ..
  | loadOldNext node =>
    apply moves_stay (.push v (.storeNext node (m.next node)))
    exact ⟨knows, rfl⟩
  | storeNext node oldNext =>
    obtain ⟨data, rfl⟩ := knows
    refine ⟨chain, free, QueueMove.store _ (Nat.le_succ _), data, ?_⟩
    change (m.setNext node _).pointer node = null
    rw [m.pointer_setNext]
    exact Function.update_self ..
  | loadTail node =>
    apply moves_stay (.push v (.loadNext node m.tail))
    exact ⟨knows, seen_refl _⟩
  | loadNext node tail =>
    obtain ⟨ready, seen⟩ := knows
    apply moves_stay (.push v (.checkTail node tail (m.next tail.index)))
    refine ⟨ready, seen, Nat.le_refl _, ?_, fun present => ⟨present, fun _ => rfl⟩⟩
    intro none same
    refine ⟨Nat.le_refl _, fun _ => ⟨?_, none⟩⟩
    rw [same]
  | checkTail node tail next =>
    exact check_tail_moves knows (fresh _ (List.mem_singleton_self _))
  | link node tail next =>
    obtain ⟨ready, seen, ends⟩ := knows
    simp only [pushStep]
    split
    · rename_i exchanged
      have same := (Bool.and_eq_true_iff.mp exchanged).1
      have unchanged := same_fresh same ends.1 (fresh _ (List.mem_singleton_self _))
      exact link_moves shape own ready seen ends unchanged
    · exact moves_stay (.push v (.loadTail node)) ready
  | swingTail node tail =>
    obtain ⟨seen, leads⟩ := knows
    exact ⟨chain, free,
      exchange_tail_moves seen leads (fresh _ (List.mem_singleton_self _)), trivial⟩
  | helpTail node tail next =>
    obtain ⟨ready, seen, leads⟩ := knows
    exact ⟨chain, free, exchange_tail_moves seen leads (fresh _ (List.mem_singleton_self _)),
      exchange_tail_ready ready⟩

theorem load_behind_head_moves {ret : T} {head : TaggedIndex}
    (knows : (PopPc.loadNext head tail).Knows null m ret) :
    Moves null m chain free none (m.popStep null spurious ret (.loadNext head tail)) := by
  obtain ⟨seenHead, seenTail, passed⟩ := knows
  have later :
      (LockfreePc.pop ret (.checkHead head tail (m.next head.index))).Knows null m free := by
    refine ⟨seenHead, seenTail, passed, fun present => ⟨⟨present, fun _ => rfl⟩, ?_⟩⟩
    intro same
    refine ⟨present, fun _ => ?_⟩
    rw [← same]
    rfl
  simp only [popStep]
  split
  · rename_i seen
    refine ⟨chain, free, QueueMove.seeEmpty ?_, later⟩
    rw [seen.1]
    exact seen.2
  · exact moves_stay _ later

theorem check_head_moves {ret : T} {head next : TaggedIndex}
    (knows : (PopPc.checkHead head tail next).Knows null m ret) :
    Moves null m chain free none (m.popStep null spurious ret (.checkHead head tail next)) := by
  obtain ⟨seenHead, seenTail, passed, leads⟩ := knows
  simp only [popStep]
  split
  · split
    · rename_i alike
      split
      · exact moves_stay (.returning (.popped ret false)) trivial
      · rename_i present
        apply moves_stay (.pop ret (.helpTail tail next))
        exact ⟨seenTail, (leads present).2 alike⟩
    · rename_i ne
      split
      · exact moves_stay (.pop ret .loadHead) trivial
      · rename_i present
        apply moves_stay (.pop ret (.copyPayload head next))
        exact ⟨seenHead, passed ne, (leads present).1⟩
  · exact moves_stay (.pop ret .loadHead) trivial

theorem swing_head_moves (shape : QueueShape null m chain free owned holders) {ret : T}
    {head next : TaggedIndex} (passed : m.Passed head)
    (leads : m.HeadLeads null head next.index) (data : m.head = head → m.data next.index = ret)
    (unchanged : m.head = head) :
    Moves null m chain free none ({ m with head := head.tagged next.index },
      .pop ret (.loadPool head.index), some (.popped ret)) := by
  subst unchanged
  have second := leads.2 rfl
  obtain ⟨rest, rfl⟩ := shape_head shape
  rw [← data rfl, ← second]
  refine ⟨rest, free, QueueMove.swingHead ?_ (passed rfl), trivial⟩
  rw [second]
  exact leads.1

theorem put_moves {ret : T} {oldPool : TaggedIndex}
    (knows : (PopPc.putNode node oldPool).Knows null m ret)
    (fresh : m.pool.version < oldPool.version + tags) :
    Moves null m chain free (some node) (m.popStep null spurious ret (.putNode node oldPool)) := by
  obtain ⟨older, aimed⟩ := knows
  simp only [popStep]
  split
  · rename_i exchanged
    have same := (Bool.and_eq_true_iff.mp exchanged).1
    have unchanged := same_fresh same older fresh
    subst unchanged
    exact ⟨chain, node :: free, QueueMove.put aimed, trivial⟩
  · exact moves_stay (.pop ret (.storeFree node m.pool)) (Nat.le_refl _)

theorem pop_moves (shape : QueueShape null m chain free owned holders) {ret : T} {pc : PopPc}
    (knows : pc.Knows null m ret) (fresh : Fresh m (.pop ret pc)) :
    Moves null m chain free pc.node (m.popStep null spurious ret pc) := by
  cases pc with
  | loadHead => exact moves_stay (.pop ret (.loadTail m.head)) (seen_refl _)
  | loadTail head =>
    apply moves_stay (.pop ret (.loadNext head m.tail))
    exact ⟨knows, seen_refl _, fun ne _ => ne.symm⟩
  | loadNext head tail => exact load_behind_head_moves knows
  | checkHead head tail next => exact check_head_moves knows
  | helpTail tail next =>
    obtain ⟨seen, leads⟩ := knows
    exact ⟨chain, free,
      exchange_tail_moves seen leads (fresh _ (List.mem_singleton_self _)), trivial⟩
  | copyPayload head next =>
    obtain ⟨seen, passed, leads⟩ := knows
    apply moves_stay (.pop (m.data next.index) (.swingHead head next))
    exact ⟨seen, passed, leads, fun _ => rfl⟩
  | swingHead head next =>
    obtain ⟨seen, passed, leads, data⟩ := knows
    simp only [popStep]
    split
    · rename_i exchanged
      have same := (Bool.and_eq_true_iff.mp exchanged).1
      have unchanged := same_fresh same seen.1 (fresh _ (List.mem_singleton_self _))
      exact swing_head_moves shape passed leads data unchanged
    · exact moves_stay (.pop ret .loadHead) trivial
  | loadPool node => exact moves_stay (.pop ret (.storeFree node m.pool)) (Nat.le_refl _)
  | storeFree node oldPool =>
    refine ⟨chain, free, QueueMove.store _ (Nat.le_refl _), knows, ?_⟩
    change (m.setNext node _).pointer node = oldPool.index
    rw [m.pointer_setNext]
    exact Function.update_self ..
  | putNode node oldPool => exact put_moves knows (fresh _ (List.mem_singleton_self _))

theorem access_moves (shape : QueueShape null m chain free owned holders) {pc : LockfreePc T}
    (own : owned t = pc.node) (knows : pc.Knows null m free) (fresh : Fresh m pc)
    {o : Outcome T} (access : m.access null spurious pc = some o) :
    Moves null m chain free pc.node o := by
  cases pc with
  | idle | returning reply => contradiction
  | push v pc =>
    cases access
    exact push_moves shape own knows fresh
  | pop ret pc =>
    cases access
    exact pop_moves shape knows fresh

end Accesses

end MappedQueue
