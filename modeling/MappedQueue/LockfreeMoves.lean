import MappedQueue.Concurrency.LinkedNodes
import MappedQueue.LockfreeQueue

/-!
The chains that the pointers of the lock-free queue form: the queued nodes behind
a dummy, and the free ones. Every access of a thread is one of a few moves, each of
which keeps these chains apart from each other and from the nodes the threads own.
-/
namespace MappedQueue
open Concurrency

namespace QueueMemory
variable {T : Type}

def pointer (m : QueueMemory T) (node : Nat) : Nat := (m.next node).index

def contents (m : QueueMemory T) (chain : List Nat) : List T := chain.tail.map m.data

theorem pointer_setNext (m : QueueMemory T) (node : Nat) (word : TaggedIndex) :
    (m.setNext node word).pointer = Function.update m.pointer node word.index := by
  funext other
  by_cases own : other = node
  · subst own
    simp [pointer, setNext]
  · simp [pointer, setNext, own]

end QueueMemory

def QueueEffect.Changes {T : Type} : Option (QueueEffect T) → List T → List T → Prop
  | some (.pushed t), before, after => after = before ++ [t]
  | some (.popped t), before, after => before = t :: after
  | some .sawEmpty, before, after => before = [] ∧ after = []
  | _, before, after => after = before

structure QueueShape {T ι : Type} (null : Nat) (m : QueueMemory T) (chain free : List Nat)
    (owned : ι → Option Nat) (holders : List (ι × Nat)) : Prop where
  queued : Linked m.pointer null m.head.index chain
  pooled : Linked m.pointer null m.pool.index free
  tail : m.tail.index ∈ chain
  lag : m.pointer m.tail.index = null ∨ m.pointer (m.pointer m.tail.index) = null
  ledger : Ledger (List.range null) (chain ++ free) owned holders

/-- The moves of a thread, with the node it owns before and after. -/
inductive QueueMove {T : Type} (null : Nat) (m : QueueMemory T) :
    List Nat → List Nat → Option Nat → QueueMemory T → List Nat → List Nat → Option Nat →
    Option (QueueEffect T) → Prop where
  | stay {chain free mine} : QueueMove null m chain free mine m chain free mine none
  | refuse {chain free} (exhausted : m.pool.index = null) :
      QueueMove null m chain free none m chain free none (some .refused)
  | seeEmpty {chain free mine} (alone : m.pointer m.head.index = null) :
      QueueMove null m chain free mine m chain free mine (some .sawEmpty)
  | take {chain free} : QueueMove null m chain (m.pool.index :: free) none
      { m with pool := m.pool.tagged (m.pointer m.pool.index) } chain free (some m.pool.index) none
  | write {chain free node} (t : T) : QueueMove null m chain free (some node)
      { m with data := Function.update m.data node t } chain free (some node) none
  | store {chain free node} (word : TaggedIndex) (later : (m.next node).version ≤ word.version) :
      QueueMove null m chain free (some node) (m.setNext node word) chain free (some node) none
  | link {chain free node} (last : m.pointer m.tail.index = null) (ends : m.pointer node = null) :
      QueueMove null m chain free (some node)
        (m.setNext m.tail.index ((m.next m.tail.index).tagged node)) (chain ++ [node]) free none
        (some (.pushed (m.data node)))
  | swingTail {chain free mine} (behind : m.pointer m.tail.index ≠ null) :
      QueueMove null m chain free mine
        { m with tail := m.tail.tagged (m.pointer m.tail.index) } chain free mine none
  | swingHead {chain free} (second : m.pointer m.head.index ≠ null)
      (passed : m.tail.index ≠ m.head.index) :
      QueueMove null m (m.head.index :: chain) free none
        { m with head := m.head.tagged (m.pointer m.head.index) } chain free (some m.head.index)
        (some (.popped (m.data (m.pointer m.head.index))))
  | put {chain free node} (aimed : m.pointer node = m.pool.index) :
      QueueMove null m chain free (some node) { m with pool := m.pool.setIndex node } chain
        (node :: free) none none

section Shape
variable {T ι : Type} {null : Nat} {m m' : QueueMemory T} {chain chain' free free' : List Nat}
  {mine mine' : Option Nat} {e : Option (QueueEffect T)} {owned : ι → Option Nat}
  {holders : List (ι × Nat)} {t : ι} {node : Nat}

theorem shape_head (shape : QueueShape null m chain free owned holders) :
    ∃ rest, chain = m.head.index :: rest := by
  apply linked_start shape.queued
  intro none
  have queued := shape.queued
  rw [none] at queued
  have member := shape.tail
  rw [linked_nil queued] at member
  contradiction

theorem shape_chain_nodup (shape : QueueShape null m chain free owned holders) : chain.Nodup :=
  (List.nodup_append.mp (ledger_used shape.ledger)).1

theorem shape_apart (shape : QueueShape null m chain free owned holders) (member : node ∈ chain) :
    node ∉ free := by
  intro other
  exact (List.nodup_append.mp (ledger_used shape.ledger)).2.2 node member node other rfl

theorem shape_owned (shape : QueueShape null m chain free owned holders)
    (own : owned t = some node) : node ∉ chain ∧ node ∉ free ∧ node ≠ null := by
  have apart := ledger_apart shape.ledger own
  rw [List.mem_append, not_or] at apart
  refine ⟨apart.1, apart.2, ?_⟩
  have inside := List.mem_range.mp (ledger_owned shape.ledger own)
  exact Nat.ne_of_lt inside

theorem shape_next (shape : QueueShape null m chain free owned holders) (member : node ∈ chain)
    (present : m.pointer node ≠ null) : m.pointer node ∈ chain := by
  obtain ⟨first, rest, split, behind⟩ := linked_next_mem shape.queued member present
  rw [split]
  exact List.mem_cons_of_mem _ behind

theorem shape_contents (shape : QueueShape null m chain free owned holders) :
    (m.contents chain).length + free.length + holders.length + 1 = null := by
  obtain ⟨rest, rfl⟩ := shape_head shape
  have count := ledger_count shape.ledger
  rw [List.length_range, List.length_append, List.length_cons] at count
  rw [QueueMemory.contents, List.length_map, List.tail_cons]
  omega

theorem shape_alone (shape : QueueShape null m chain free owned holders)
    (alone : m.pointer m.head.index = null) : chain = [m.head.index] := by
  obtain ⟨rest, rfl⟩ := shape_head shape
  have behind := shape.queued.2.2
  rw [alone] at behind
  rw [linked_nil behind]

theorem shape_store (shape : QueueShape null m chain free owned holders)
    (own : owned t = some node) (word : TaggedIndex) :
    QueueShape null (m.setNext node word) chain free owned holders := by
  obtain ⟨unqueued, unpooled, _⟩ := shape_owned shape own
  have keeps : ∀ other ∈ chain, (m.setNext node word).pointer other = m.pointer other := by
    intro other member
    rw [m.pointer_setNext]
    exact Function.update_of_ne (ne_of_mem_of_not_mem member unqueued) ..
  refine ⟨linked_congr keeps shape.queued, ?_, shape.tail, ?_, shape.ledger⟩
  · rw [m.pointer_setNext]
    exact linked_update shape.pooled unpooled _
  · change (m.setNext node word).pointer m.tail.index = null ∨
      (m.setNext node word).pointer ((m.setNext node word).pointer m.tail.index) = null
    rw [keeps _ shape.tail]
    by_cases last : m.pointer m.tail.index = null
    · exact Or.inl last
    · rw [keeps _ (shape_next shape shape.tail last)]
      exact shape.lag

section Steps
variable [DecidableEq ι]

theorem shape_link (shape : QueueShape null m chain free owned holders)
    (own : owned t = some node) (last : m.pointer m.tail.index = null)
    (ends : m.pointer node = null) :
    ∃ left, QueueShape null (m.setNext m.tail.index ((m.next m.tail.index).tagged node))
      (chain ++ [node]) free (Function.update owned t none) left := by
  obtain ⟨unqueued, unpooled, present⟩ := shape_owned shape own
  obtain ⟨front, split⟩ := linked_last shape.queued shape.tail last
  have distinct := shape_chain_nodup shape
  have queued := shape.queued
  have other : node ≠ m.tail.index := fun same => unqueued (same ▸ shape.tail)
  have given : (chain ++ [node] ++ free).Perm (node :: (chain ++ free)) := by
    rw [List.append_assoc]
    exact List.perm_middle
  obtain ⟨left, ledger⟩ := ledger_give shape.ledger own given
  refine ⟨left, ?_, ?_, List.mem_append_left _ shape.tail, Or.inr ?_, ledger⟩
  · rw [m.pointer_setNext, split]
    rw [split] at distinct queued unqueued
    exact linked_append queued distinct unqueued present ends
  · rw [m.pointer_setNext]
    exact linked_update shape.pooled (shape_apart shape shape.tail) _
  · rw [m.pointer_setNext]
    change Function.update m.pointer m.tail.index node
      (Function.update m.pointer m.tail.index node m.tail.index) = null
    rw [Function.update_self, Function.update_of_ne other]
    exact ends

theorem shape_move (shape : QueueShape null m chain free owned holders) (own : owned t = mine)
    (move : QueueMove null m chain free mine m' chain' free' mine' e) :
    ∃ left, QueueShape null m' chain' free' (Function.update owned t mine') left := by
  have unchanged : Function.update owned t mine = owned := by
    rw [← own]
    exact Function.update_eq_self ..
  cases move with
  | stay | refuse _ | seeEmpty _ =>
    rw [unchanged]
    exact ⟨holders, shape⟩
  | take =>
    have ledger := ledger_take shape.ledger own List.perm_middle
    exact ⟨_, shape.queued, shape.pooled.2.2, shape.tail, shape.lag, ledger⟩
  | write t =>
    rw [unchanged]
    exact ⟨holders, shape.queued, shape.pooled, shape.tail, shape.lag, shape.ledger⟩
  | store word _ =>
    rw [unchanged]
    exact ⟨holders, shape_store shape own word⟩
  | link last ends => exact shape_link shape own last ends
  | swingTail behind =>
    rw [unchanged]
    refine ⟨holders, shape.queued, shape.pooled, shape_next shape shape.tail behind, ?_,
      shape.ledger⟩
    exact Or.inl (shape.lag.resolve_left behind)
  | swingHead _ passed =>
    have ledger := ledger_take shape.ledger own (List.Perm.refl _)
    have tail := (List.mem_cons.mp shape.tail).resolve_left passed
    exact ⟨_, shape.queued.2.2, shape.pooled, tail, shape.lag, ledger⟩
  | put aimed =>
    obtain ⟨_, _, present⟩ := shape_owned shape own
    obtain ⟨left, ledger⟩ := ledger_give shape.ledger own List.perm_middle
    refine ⟨left, shape.queued, ⟨rfl, present, ?_⟩, shape.tail, shape.lag, ledger⟩
    change Linked m.pointer null (m.pointer _) free
    rw [aimed]
    exact shape.pooled

end Steps

/-- What a move leaves as it was, or changes together with a version. -/
structure QueueFrame {T : Type} (null : Nat) (m m' : QueueMemory T) (chain free free' : List Nat)
    (mine : Option Nat) : Prop where
  head : m.head.version ≤ m'.head.version ∧
    (m'.head.version = m.head.version → m'.head = m.head)
  tail : m.tail.version ≤ m'.tail.version ∧
    (m'.tail.version = m.tail.version → m'.tail = m.tail)
  pool : m.pool.version ≤ m'.pool.version ∧
    (m'.pool.version = m.pool.version → ∀ node ∈ free, node ∈ free')
  last : m.pointer m.tail.index = null → m'.tail = m.tail
  passed : m'.head = m.head → m.tail.index ≠ m.head.index → m'.tail.index ≠ m.head.index
  versions : ∀ node, (m.next node).version ≤ (m'.next node).version
  pooled : ∀ node ∈ free, m'.next node = m.next node
  queued : ∀ node ∈ chain, m'.next node = m.next node ∨
    m.pointer node = null ∧ (m'.next node).version = (m.next node).version + 1
  data : ∀ node ∈ chain, m'.data node = m.data node
  others : ∀ node, node ∉ chain → node ∉ free → some node ≠ mine →
    m'.next node = m.next node ∧ m'.data node = m.data node

theorem frame_words (next : m'.next = m.next) (data : m'.data = m.data)
    (head : m'.head = m.head ∨ m'.head.version = m.head.version + 1)
    (tail : m'.tail = m.tail ∨ m'.tail.version = m.tail.version + 1)
    (pool : m.pool.version ≤ m'.pool.version ∧
      (m'.pool.version = m.pool.version → ∀ node ∈ free, node ∈ free'))
    (last : m.pointer m.tail.index = null → m'.tail = m.tail)
    (passed : m'.head = m.head → m.tail.index ≠ m.head.index → m'.tail.index ≠ m.head.index) :
    QueueFrame null m m' chain free free' mine where
  head := by
    rcases head with same | more
    · rw [same]
      exact ⟨Nat.le_refl _, fun _ => rfl⟩
    · constructor
      · omega
      · intro same
        omega
  tail := by
    rcases tail with same | more
    · rw [same]
      exact ⟨Nat.le_refl _, fun _ => rfl⟩
    · constructor
      · omega
      · intro same
        omega
  pool := pool
  last := last
  passed := passed
  versions := by simp [next]
  pooled := by simp [next]
  queued := by simp [next]
  data := by simp [data]
  others := by simp [next, data]

theorem frame_store {word : TaggedIndex} (later : (m.next node).version ≤ word.version)
    (pooled : node ∉ free)
    (queued : node ∈ chain → m.pointer node = null ∧ word.version = (m.next node).version + 1)
    (others : node ∉ chain → mine = some node) :
    QueueFrame null m (m.setNext node word) chain free free mine where
  head := ⟨Nat.le_refl _, fun _ => rfl⟩
  tail := ⟨Nat.le_refl _, fun _ => rfl⟩
  pool := ⟨Nat.le_refl _, fun _ _ member => member⟩
  last := fun _ => rfl
  passed := fun _ passed => passed
  versions := by
    intro other
    by_cases own : other = node
    · subst own
      simpa [QueueMemory.setNext] using later
    · simp [QueueMemory.setNext, own]
  pooled := by
    intro other member
    have ne : other ≠ node := ne_of_mem_of_not_mem member pooled
    simp [QueueMemory.setNext, ne]
  queued := by
    intro other member
    by_cases own : other = node
    · subst own
      simpa [QueueMemory.setNext] using Or.inr (queued member)
    · exact Or.inl (by simp [QueueMemory.setNext, own])
  data := fun _ _ => rfl
  others := by
    intro other unqueued _ ne
    have own : other ≠ node := by
      rintro rfl
      exact ne (others unqueued).symm
    simp [QueueMemory.setNext, own]

theorem move_frame (shape : QueueShape null m chain free owned holders) (own : owned t = mine)
    (move : QueueMove null m chain free mine m' chain' free' mine' e) :
    QueueFrame null m m' chain free free' mine := by
  cases move with
  | stay | refuse _ | seeEmpty _ =>
    exact frame_words rfl rfl (Or.inl rfl) (Or.inl rfl)
      ⟨Nat.le_refl _, fun _ _ member => member⟩ (fun _ => rfl) (fun _ passed => passed)
  | take =>
    refine frame_words rfl rfl (Or.inl rfl) (Or.inl rfl) ?_ (fun _ => rfl) fun _ passed => passed
    exact ⟨Nat.le_succ _, fun same => absurd same (Nat.succ_ne_self _)⟩
  | @write _ _ node v =>
    obtain ⟨unqueued, _, _⟩ := shape_owned shape own
    refine ⟨⟨Nat.le_refl _, fun _ => rfl⟩, ⟨Nat.le_refl _, fun _ => rfl⟩,
      ⟨Nat.le_refl _, fun _ _ member => member⟩, fun _ => rfl, fun _ passed => passed,
      fun _ => Nat.le_refl _, fun _ _ => rfl, fun _ _ => Or.inl rfl, ?_, ?_⟩
    · intro other member
      exact Function.update_of_ne (ne_of_mem_of_not_mem member unqueued) ..
    · intro other _ _ ne
      have apart : other ≠ node := fun same => ne (by rw [same])
      exact ⟨rfl, Function.update_of_ne apart ..⟩
  | store word later =>
    obtain ⟨unqueued, unpooled, _⟩ := shape_owned shape own
    exact frame_store later unpooled (fun member => absurd member unqueued) fun _ => rfl
  | link last _ =>
    have tail := shape.tail
    exact frame_store (Nat.le_succ _) (shape_apart shape tail) (fun _ => ⟨last, rfl⟩)
      fun outside => absurd tail outside
  | swingTail behind =>
    refine frame_words rfl rfl (Or.inl rfl) (Or.inr rfl)
      ⟨Nat.le_refl _, fun _ _ member => member⟩ (fun last => absurd last behind) ?_
    intro _ _
    exact linked_next_ne_start shape.queued (shape_chain_nodup shape) shape.tail behind
  | swingHead _ _ =>
    refine frame_words rfl rfl (Or.inr rfl) (Or.inl rfl)
      ⟨Nat.le_refl _, fun _ _ member => member⟩ (fun _ => rfl) ?_
    intro same _
    have version := congrArg TaggedIndex.version same
    exact absurd version (Nat.succ_ne_self _)
  | put _ =>
    refine frame_words rfl rfl (Or.inl rfl) (Or.inl rfl) ?_ (fun _ => rfl) fun _ passed => passed
    exact ⟨Nat.le_refl _, fun _ _ member => List.mem_cons_of_mem _ member⟩

theorem move_contents (shape : QueueShape null m chain free owned holders) (own : owned t = mine)
    (move : QueueMove null m chain free mine m' chain' free' mine' e) :
    QueueEffect.Changes e (m.contents chain) (m'.contents chain') := by
  obtain ⟨rest, split⟩ := shape_head shape
  cases move with
  | stay | refuse _ | take | store _ _ | swingTail _ | put _ => rfl
  | seeEmpty alone =>
    rw [shape_alone shape alone]
    exact ⟨rfl, rfl⟩
  | write v =>
    obtain ⟨unqueued, _, _⟩ := shape_owned shape own
    apply List.map_congr_left
    intro other member
    have inside : other ∈ chain := List.mem_of_mem_tail member
    exact Function.update_of_ne (ne_of_mem_of_not_mem inside unqueued) ..
  | @link _ _ node _ _ =>
    subst split
    change (rest ++ [node]).map m.data = rest.map m.data ++ [m.data node]
    simp
  | swingHead second _ =>
    obtain ⟨behind, rfl⟩ := linked_start shape.queued.2.2 second
    rfl

end Shape

end MappedQueue
