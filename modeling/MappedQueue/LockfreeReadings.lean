import MappedQueue.LockfreeMoves

/-!
What the local variables of a thread tell about the queue. A word that was read is
older than the shared one, or still the same, and as long as it is the same the
nodes it led to are where they were. No move of another thread makes any of this
untrue.
-/
namespace MappedQueue
open Concurrency

namespace TaggedIndex

/-- The shared word is the one that was read, or has been changed since. -/
def Seen (read now : TaggedIndex) : Prop :=
  read.version ≤ now.version ∧ (now.version = read.version → now = read)

variable {read now later : TaggedIndex}

theorem seen_refl (word : TaggedIndex) : Seen word word := ⟨Nat.le_refl _, fun _ => rfl⟩

theorem seen_later (seen : Seen read now) (change : Seen now later) : Seen read later := by
  constructor
  · exact Nat.le_trans seen.1 change.1
  · intro same
    have between : now.version = read.version := by
      have := seen.1
      have := change.1
      omega
    have unchanged := seen.2 between
    rw [← unchanged] at same ⊢
    exact change.2 same

theorem seen_back (seen : Seen read now) (change : Seen now later) (same : later = read) :
    now = read := by
  apply seen.2
  have := seen.1
  have := change.1
  rw [same] at this
  omega

/-- The comparison of fresh tags is one of versions. -/
theorem same_fresh (same : now.same read = true) (older : read.version ≤ now.version)
    (fresh : now.version < read.version + tags) : now = read := by
  obtain ⟨index, version⟩ := now
  obtain ⟨readIndex, readVersion⟩ := read
  simp only [TaggedIndex.same, tag, Bool.and_eq_true, beq_iff_eq] at same
  obtain ⟨rfl, congruent⟩ := same
  simp only at older fresh
  have equal : version = readVersion := by
    unfold tags at congruent fresh
    omega
  rw [equal]

theorem same_self (word : TaggedIndex) : word.same word = true := by
  simp [TaggedIndex.same]

theorem other_word (differs : ¬ now.same read = true) : now ≠ read := by
  rintro rfl
  exact differs (same_self _)

end TaggedIndex

namespace QueueMemory
variable {T : Type}

/-- No node has been taken since `oldPool` was read, or else its node is still free. -/
def FreeSeen (m : QueueMemory T) (free : List Nat) (oldPool : TaggedIndex) : Prop :=
  oldPool.version ≤ m.pool.version ∧ (m.pool.version = oldPool.version → oldPool.index ∈ free)

def FreeLeads (m : QueueMemory T) (oldPool : TaggedIndex) (index : Nat) : Prop :=
  m.pool.version = oldPool.version → m.pointer oldPool.index = index

def TailLeads (m : QueueMemory T) (null : Nat) (tail : TaggedIndex) (index : Nat) : Prop :=
  index ≠ null ∧ (m.tail = tail → m.pointer tail.index = index)

def HeadLeads (m : QueueMemory T) (null : Nat) (head : TaggedIndex) (index : Nat) : Prop :=
  index ≠ null ∧ (m.head = head → m.pointer head.index = index)

def Passed (m : QueueMemory T) (head : TaggedIndex) : Prop :=
  m.head = head → m.tail.index ≠ head.index

/-- A pointer that has not changed since `next` was read is the null pointer behind
    the last node. -/
def Ends (m : QueueMemory T) (null node : Nat) (next : TaggedIndex) : Prop :=
  next.version ≤ (m.next node).version ∧
    ((m.next node).version = next.version → m.tail.index = node ∧ m.pointer node = null)

def Ready (m : QueueMemory T) (null node : Nat) (t : T) : Prop :=
  m.data node = t ∧ m.pointer node = null

end QueueMemory

open TaggedIndex QueueMemory

def PushPc.node : PushPc → Option Nat
  | .loadPool | .loadFree _ | .takeNode _ _ | .swingTail _ _ => none
  | .writeData node | .loadOldNext node | .storeNext node _ | .loadTail node | .loadNext node _
  | .checkTail node _ _ | .link node _ _ | .helpTail node _ _ => some node

def PopPc.node : PopPc → Option Nat
  | .loadPool node | .storeFree node _ | .putNode node _ => some node
  | _ => none

def LockfreePc.node {T : Type} : LockfreePc T → Option Nat
  | .push _ pc => pc.node
  | .pop _ pc => pc.node
  | _ => none

section Knowledge
variable {T : Type}

def PushPc.Knows (null : Nat) (m : QueueMemory T) (free : List Nat) (t : T) : PushPc → Prop
  | .loadPool | .writeData _ => True
  | .loadFree oldPool => m.FreeSeen free oldPool
  | .takeNode oldPool index => m.FreeSeen free oldPool ∧ m.FreeLeads oldPool index
  | .loadOldNext node => m.data node = t
  | .storeNext node oldNext => m.data node = t ∧ m.next node = oldNext
  | .loadTail node => m.Ready null node t
  | .loadNext node tail => m.Ready null node t ∧ Seen tail m.tail
  | .checkTail node tail next =>
    m.Ready null node t ∧ Seen tail m.tail ∧ next.version ≤ (m.next tail.index).version ∧
      (next.index = null → m.tail = tail → m.Ends null tail.index next) ∧
      (next.index ≠ null → m.TailLeads null tail next.index)
  | .link node tail next =>
    m.Ready null node t ∧ Seen tail m.tail ∧ m.Ends null tail.index next
  | .swingTail node tail => Seen tail m.tail ∧ m.TailLeads null tail node
  | .helpTail node tail next =>
    m.Ready null node t ∧ Seen tail m.tail ∧ m.TailLeads null tail next.index

def PopPc.Knows (null : Nat) (m : QueueMemory T) (ret : T) : PopPc → Prop
  | .loadHead | .loadPool _ => True
  | .loadTail head => Seen head m.head
  | .loadNext head tail =>
    Seen head m.head ∧ Seen tail m.tail ∧ (head.index ≠ tail.index → m.Passed head)
  | .checkHead head tail next =>
    Seen head m.head ∧ Seen tail m.tail ∧ (head.index ≠ tail.index → m.Passed head) ∧
      (next.index ≠ null → m.HeadLeads null head next.index ∧
        (head.index = tail.index → m.TailLeads null tail next.index))
  | .helpTail tail next => Seen tail m.tail ∧ m.TailLeads null tail next.index
  | .copyPayload head next => Seen head m.head ∧ m.Passed head ∧ m.HeadLeads null head next.index
  | .swingHead head next =>
    Seen head m.head ∧ m.Passed head ∧ m.HeadLeads null head next.index ∧
      (m.head = head → m.data next.index = ret)
  | .storeFree _ oldPool => oldPool.version ≤ m.pool.version
  | .putNode node oldPool => oldPool.version ≤ m.pool.version ∧ m.pointer node = oldPool.index

def LockfreePc.Knows (null : Nat) (m : QueueMemory T) (free : List Nat) : LockfreePc T → Prop
  | .push t pc => pc.Knows null m free t
  | .pop ret pc => pc.Knows null m ret
  | _ => True

end Knowledge

section Frame
variable {T ι : Type} {null : Nat} {m m' : QueueMemory T} {chain free free' : List Nat}
  {mine : Option Nat} {owned : ι → Option Nat} {holders : List (ι × Nat)} {node index : Nat}
  {head tail next oldPool : TaggedIndex} {t : T}

theorem free_seen_frame (frame : QueueFrame null m m' chain free free' mine)
    (seen : m.FreeSeen free oldPool) : m'.FreeSeen free' oldPool := by
  obtain ⟨older, inside⟩ := seen
  obtain ⟨grows, keeps⟩ := frame.pool
  refine ⟨Nat.le_trans older grows, ?_⟩
  intro same
  have before : m.pool.version = oldPool.version := by omega
  apply keeps (by omega)
  exact inside before

theorem free_leads_frame (frame : QueueFrame null m m' chain free free' mine)
    (seen : m.FreeSeen free oldPool) (leads : m.FreeLeads oldPool index) :
    m'.FreeLeads oldPool index := by
  intro same
  obtain ⟨older, inside⟩ := seen
  have grows := frame.pool.1
  have before : m.pool.version = oldPool.version := by omega
  have kept := frame.pooled _ (inside before)
  rw [QueueMemory.pointer, kept]
  exact leads before

theorem tail_leads_frame (shape : QueueShape null m chain free owned holders)
    (frame : QueueFrame null m m' chain free free' mine) (seen : Seen tail m.tail)
    (leads : m.TailLeads null tail index) : m'.TailLeads null tail index := by
  refine ⟨leads.1, ?_⟩
  intro same
  have before := seen_back seen frame.tail same
  have pointer := leads.2 before
  have member := shape.tail
  rw [before] at member
  rcases frame.queued _ member with kept | ⟨ends, _⟩
  · rw [QueueMemory.pointer, kept]
    exact pointer
  · exact absurd (pointer.symm.trans ends) leads.1

theorem head_leads_frame (shape : QueueShape null m chain free owned holders)
    (frame : QueueFrame null m m' chain free free' mine) (seen : Seen head m.head)
    (leads : m.HeadLeads null head index) : m'.HeadLeads null head index := by
  refine ⟨leads.1, ?_⟩
  intro same
  have before := seen_back seen frame.head same
  have pointer := leads.2 before
  obtain ⟨rest, split⟩ := shape_head shape
  have member : head.index ∈ chain := by
    rw [split, before]
    exact List.mem_cons_self
  rcases frame.queued _ member with kept | ⟨ends, _⟩
  · rw [QueueMemory.pointer, kept]
    exact pointer
  · exact absurd (pointer.symm.trans ends) leads.1

theorem head_data_frame (shape : QueueShape null m chain free owned holders)
    (frame : QueueFrame null m m' chain free free' mine) (seen : Seen head m.head)
    (leads : m.HeadLeads null head index) (data : m.head = head → m.data index = t) :
    m'.head = head → m'.data index = t := by
  intro same
  have before := seen_back seen frame.head same
  have pointer := leads.2 before
  have second : m.pointer m.head.index ≠ null := by
    rw [before, pointer]
    exact leads.1
  obtain ⟨rest, split⟩ := shape_head shape
  have first : m.head.index ∈ chain := by
    rw [split]
    exact List.mem_cons_self
  have member := shape_next shape first second
  rw [before, pointer] at member
  rw [frame.data _ member]
  exact data before

theorem passed_frame (frame : QueueFrame null m m' chain free free' mine)
    (seen : Seen head m.head) (passed : m.Passed head) : m'.Passed head := by
  intro same
  have before := seen_back seen frame.head same
  have ne := passed before
  rw [← before] at same ne ⊢
  exact frame.passed same ne

theorem ends_frame (shape : QueueShape null m chain free owned holders)
    (frame : QueueFrame null m m' chain free free' mine) (ends : m.Ends null node next) :
    m'.Ends null node next := by
  have grows := frame.versions node
  refine ⟨Nat.le_trans ends.1 grows, ?_⟩
  intro same
  have older := ends.1
  have before : (m.next node).version = next.version := by omega
  obtain ⟨tail, last⟩ := ends.2 before
  have member := shape.tail
  rw [tail] at member
  rcases frame.queued _ member with kept | ⟨_, more⟩
  · constructor
    · rw [frame.last (by rw [tail]; exact last)]
      exact tail
    · rw [QueueMemory.pointer, kept]
      exact last
  · omega

theorem others_frame (frame : QueueFrame null m m' chain free free' mine)
    (apart : node ∉ chain ∧ node ∉ free ∧ some node ≠ mine) :
    m'.next node = m.next node ∧ m'.data node = m.data node :=
  frame.others node apart.1 apart.2.1 apart.2.2

theorem ready_frame (frame : QueueFrame null m m' chain free free' mine)
    (apart : node ∉ chain ∧ node ∉ free ∧ some node ≠ mine) (ready : m.Ready null node t) :
    m'.Ready null node t := by
  obtain ⟨next, data⟩ := others_frame frame apart
  rw [Ready, QueueMemory.pointer, next, data]
  exact ready

theorem push_knows_frame (shape : QueueShape null m chain free owned holders)
    (frame : QueueFrame null m m' chain free free' mine) {pc : PushPc}
    (apart : ∀ node, pc.node = some node → node ∉ chain ∧ node ∉ free ∧ some node ≠ mine)
    (knows : pc.Knows null m free t) : pc.Knows null m' free' t := by
  cases pc with
  | loadPool | writeData node => trivial
  | loadFree oldPool => exact free_seen_frame frame knows
  | takeNode oldPool index =>
    exact ⟨free_seen_frame frame knows.1, free_leads_frame frame knows.1 knows.2⟩
  | loadOldNext node => exact (others_frame frame (apart node rfl)).2.trans knows
  | storeNext node oldNext =>
    obtain ⟨next, data⟩ := others_frame frame (apart node rfl)
    exact ⟨data.trans knows.1, next.trans knows.2⟩
  | loadTail node => exact ready_frame frame (apart node rfl) knows
  | loadNext node tail =>
    exact ⟨ready_frame frame (apart node rfl) knows.1, seen_later knows.2 frame.tail⟩
  | checkTail node tail next =>
    obtain ⟨ready, seen, older, ends, leads⟩ := knows
    refine ⟨ready_frame frame (apart node rfl) ready, seen_later seen frame.tail,
      Nat.le_trans older (frame.versions _), ?_, ?_⟩
    · intro none same
      exact ends_frame shape frame (ends none (seen_back seen frame.tail same))
    · intro present
      exact tail_leads_frame shape frame seen (leads present)
  | link node tail next =>
    obtain ⟨ready, seen, ends⟩ := knows
    exact ⟨ready_frame frame (apart node rfl) ready, seen_later seen frame.tail,
      ends_frame shape frame ends⟩
  | swingTail node tail =>
    exact ⟨seen_later knows.1 frame.tail, tail_leads_frame shape frame knows.1 knows.2⟩
  | helpTail node tail next =>
    obtain ⟨ready, seen, leads⟩ := knows
    exact ⟨ready_frame frame (apart node rfl) ready, seen_later seen frame.tail,
      tail_leads_frame shape frame seen leads⟩

theorem pop_knows_frame (shape : QueueShape null m chain free owned holders)
    (frame : QueueFrame null m m' chain free free' mine) {pc : PopPc}
    (apart : ∀ node, pc.node = some node → node ∉ chain ∧ node ∉ free ∧ some node ≠ mine)
    (knows : pc.Knows null m t) : pc.Knows null m' t := by
  cases pc with
  | loadHead | loadPool node => trivial
  | loadTail head => exact seen_later knows frame.head
  | loadNext head tail =>
    obtain ⟨seenHead, seenTail, passed⟩ := knows
    exact ⟨seen_later seenHead frame.head, seen_later seenTail frame.tail,
      fun ne => passed_frame frame seenHead (passed ne)⟩
  | checkHead head tail next =>
    obtain ⟨seenHead, seenTail, passed, leads⟩ := knows
    refine ⟨seen_later seenHead frame.head, seen_later seenTail frame.tail,
      fun ne => passed_frame frame seenHead (passed ne), ?_⟩
    intro present
    obtain ⟨fromHead, fromTail⟩ := leads present
    exact ⟨head_leads_frame shape frame seenHead fromHead,
      fun same => tail_leads_frame shape frame seenTail (fromTail same)⟩
  | helpTail tail next =>
    exact ⟨seen_later knows.1 frame.tail, tail_leads_frame shape frame knows.1 knows.2⟩
  | copyPayload head next =>
    obtain ⟨seen, passed, leads⟩ := knows
    exact ⟨seen_later seen frame.head, passed_frame frame seen passed,
      head_leads_frame shape frame seen leads⟩
  | swingHead head next =>
    obtain ⟨seen, passed, leads, data⟩ := knows
    exact ⟨seen_later seen frame.head, passed_frame frame seen passed,
      head_leads_frame shape frame seen leads, head_data_frame shape frame seen leads data⟩
  | storeFree node oldPool => exact Nat.le_trans knows frame.pool.1
  | putNode node oldPool =>
    refine ⟨Nat.le_trans knows.1 frame.pool.1, ?_⟩
    rw [QueueMemory.pointer, (others_frame frame (apart node rfl)).1]
    exact knows.2

theorem knows_frame (shape : QueueShape null m chain free owned holders)
    (frame : QueueFrame null m m' chain free free' mine) {pc : LockfreePc T}
    (apart : ∀ node, pc.node = some node → node ∉ chain ∧ node ∉ free ∧ some node ≠ mine)
    (knows : pc.Knows null m free) : pc.Knows null m' free' := by
  cases pc with
  | idle | returning reply => trivial
  | push t pc => exact push_knows_frame shape frame apart knows
  | pop ret pc => exact pop_knows_frame shape frame apart knows

end Frame

end MappedQueue
