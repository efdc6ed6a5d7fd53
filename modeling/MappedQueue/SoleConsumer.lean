import MappedQueue.LockfreeRuns

/-!
A lock-free queue from which one thread alone pops. No other thread moves the head, so
that the thread's access that finds nothing behind it settles what the call returns, as
the exchange of the head does when something is there.
-/
namespace MappedQueue
open Concurrency TaggedIndex QueueMemory

section Settled
variable {T : Type}

def LockfreePc.settled (null : Nat) : LockfreePc T → Option (LockfreeReply T)
  | .push _ (.swingTail _ _) => some (.pushed true)
  | .pop ret (.checkHead _ _ next) => if next.index = null then some (.popped ret false) else none
  | .pop ret (.loadPool _) => some (.popped ret true)
  | .pop ret (.storeFree _ _) => some (.popped ret true)
  | .pop ret (.putNode _ _) => some (.popped ret true)
  | .returning reply => some reply
  | _ => none

def QueueEffect.reply (given : T) : QueueEffect T → LockfreeReply T
  | .pushed _ => .pushed true
  | .popped t => .popped t true
  | .refused => .pushed false
  | .sawEmpty => .popped given false

def Settles (null : Nat) (given : T) (pc pc' : LockfreePc T) : Option (QueueEffect T) → Prop
  | none => pc'.settled null = pc.settled null
  | some e => pc.settled null = none ∧ pc'.settled null = some (e.reply given)

/-- What the only thread that pops knows besides. -/
def PopPc.Alone (null : Nat) (m : QueueMemory T) : PopPc → Prop
  | .loadTail head => m.head = head
  | .loadNext head tail => m.head = head ∧ (m.pointer head.index = null → tail.index = head.index)
  | .checkHead head tail next => m.head = head ∧ (next.index = null → tail.index = head.index)
  | .copyPayload head _ => m.head = head
  | .swingHead head _ => m.head = head
  | _ => True

/-- What `pop` was given is in `ret` until there is an element to copy, and when the
    call returns without one. -/
def Unspoiled (null : Nat) (m : QueueMemory T) (given ret : T) :
    Option (LockfreeReply T) → Prop
  | none => ret = given ∨ m.pointer m.head.index ≠ null
  | some (.popped _ false) => ret = given
  | _ => True

def LockfreePc.Sole (null : Nat) (m : QueueMemory T) (given : T) : LockfreePc T → Prop
  | .pop ret pc => pc.Alone null m ∧
      Unspoiled null m given ret (LockfreePc.settled null (.pop ret pc))
  | .returning (.popped ret false) => ret = given
  | _ => True

end Settled

section Accesses
variable {T ι : Type} {null : Nat} {m m' : QueueMemory T} {chain chain' free free' : List Nat}
  {mine mine' : Option Nat} {e : Option (QueueEffect T)} {owned : ι → Option Nat}
  {holders : List (ι × Nat)} {t : ι} {given ret : T} {spurious : Bool}

theorem push_settles (m : QueueMemory T) (v : T) (pc : PushPc) :
    Settles null given (.push v pc) (m.pushStep null spurious v pc).2.1
      (m.pushStep null spurious v pc).2.2 := by
  cases pc with
  | loadPool =>
    simp only [pushStep, allocate]
    split
    · exact ⟨rfl, rfl⟩
    · exact rfl
  | takeNode oldPool index =>
    simp only [pushStep, allocate]
    split
    · exact rfl
    · split
      · exact ⟨rfl, rfl⟩
      · exact rfl
  | checkTail node tail next =>
    simp only [pushStep]
    split
    · split <;> exact rfl
    · exact rfl
  | link node tail next =>
    simp only [pushStep]
    split
    · exact ⟨rfl, rfl⟩
    · exact rfl
  | _ => exact rfl

theorem push_outcome (v : T) (pc : PushPc) (o : Outcome T)
    (step : m.pushStep null spurious v pc = o) :
    ((∃ pc', o.2.1 = .push v pc') ∨ ∃ accepted, o.2.1 = .returning (.pushed accepted)) ∧
      (o.2.2 = none ∨ o.2.2 = some .refused ∨ o.2.2 = some (.pushed v)) := by
  subst step
  cases pc with
  | loadPool =>
    simp only [pushStep, allocate]
    split
    · exact ⟨Or.inr ⟨_, rfl⟩, Or.inr (Or.inl rfl)⟩
    · exact ⟨Or.inl ⟨_, rfl⟩, Or.inl rfl⟩
  | takeNode oldPool index =>
    simp only [pushStep, allocate]
    split
    · exact ⟨Or.inl ⟨_, rfl⟩, Or.inl rfl⟩
    · split
      · exact ⟨Or.inr ⟨_, rfl⟩, Or.inr (Or.inl rfl)⟩
      · exact ⟨Or.inl ⟨_, rfl⟩, Or.inl rfl⟩
  | checkTail node tail next =>
    simp only [pushStep]
    split
    · split <;> exact ⟨Or.inl ⟨_, rfl⟩, Or.inl rfl⟩
    · exact ⟨Or.inl ⟨_, rfl⟩, Or.inl rfl⟩
  | link node tail next =>
    simp only [pushStep]
    split
    · exact ⟨Or.inl ⟨_, rfl⟩, Or.inr (Or.inr rfl)⟩
    · exact ⟨Or.inl ⟨_, rfl⟩, Or.inl rfl⟩
  | swingTail node tail => exact ⟨Or.inr ⟨_, rfl⟩, Or.inl rfl⟩
  | _ => exact ⟨Or.inl ⟨_, rfl⟩, Or.inl rfl⟩

theorem pop_outcome (ret : T) (pc : PopPc) (o : Outcome T)
    (step : m.popStep null spurious ret pc = o) :
    ((∃ ret' pc', o.2.1 = .pop ret' pc') ∨
      ∃ ret' success, o.2.1 = .returning (.popped ret' success)) ∧
      (o.2.2 = none ∨ o.2.2 = some .sawEmpty ∨ ∃ v, o.2.2 = some (.popped v)) := by
  subst step
  cases pc with
  | loadNext head tail =>
    simp only [popStep]
    split
    · exact ⟨Or.inl ⟨_, _, rfl⟩, Or.inr (Or.inl rfl)⟩
    · exact ⟨Or.inl ⟨_, _, rfl⟩, Or.inl rfl⟩
  | checkHead head tail next =>
    simp only [popStep]
    split
    · split <;> split
      · exact ⟨Or.inr ⟨_, _, rfl⟩, Or.inl rfl⟩
      · exact ⟨Or.inl ⟨_, _, rfl⟩, Or.inl rfl⟩
      · exact ⟨Or.inl ⟨_, _, rfl⟩, Or.inl rfl⟩
      · exact ⟨Or.inl ⟨_, _, rfl⟩, Or.inl rfl⟩
    · exact ⟨Or.inl ⟨_, _, rfl⟩, Or.inl rfl⟩
  | swingHead head next =>
    simp only [popStep]
    split
    · exact ⟨Or.inl ⟨_, _, rfl⟩, Or.inr (Or.inr ⟨_, rfl⟩)⟩
    · exact ⟨Or.inl ⟨_, _, rfl⟩, Or.inl rfl⟩
  | putNode node oldPool =>
    simp only [popStep]
    split
    · exact ⟨Or.inr ⟨_, _, rfl⟩, Or.inl rfl⟩
    · exact ⟨Or.inl ⟨_, _, rfl⟩, Or.inl rfl⟩
  | _ => exact ⟨Or.inl ⟨_, _, rfl⟩, Or.inl rfl⟩

theorem push_keeps_head (v : T) (pc : PushPc) :
    (m.pushStep null spurious v pc).1.head = m.head := by
  cases pc with
  | loadPool =>
    simp only [pushStep, allocate]
    split <;> rfl
  | takeNode oldPool index =>
    simp only [pushStep, allocate]
    split
    · rfl
    · split <;> rfl
  | checkTail node tail next =>
    simp only [pushStep]
    split
    · split <;> rfl
    · rfl
  | link node tail next =>
    simp only [pushStep]
    split <;> rfl
  | swingTail node tail | helpTail node tail next =>
    simp only [pushStep, exchangeTail]
    split <;> rfl
  | _ => rfl

/-- What there is behind the head stays there while the head does. -/
theorem behind_head_frame (shape : QueueShape null m chain free owned holders)
    (frame : QueueFrame null m m' chain free free' mine) (same : m'.head = m.head)
    (present : m.pointer m.head.index ≠ null) : m'.pointer m'.head.index ≠ null := by
  obtain ⟨rest, split⟩ := shape_head shape
  have member : m.head.index ∈ chain := by
    rw [split]
    exact List.mem_cons_self
  rw [same]
  rcases frame.queued _ member with kept | ⟨none, _⟩
  · rw [QueueMemory.pointer, kept]
    exact present
  · exact absurd none present

theorem alone_frame (shape : QueueShape null m chain free owned holders)
    (frame : QueueFrame null m m' chain free free' mine) (same : m'.head = m.head) {pc : PopPc}
    (alone : pc.Alone null m) : pc.Alone null m' := by
  cases pc with
  | loadNext head tail =>
    obtain ⟨rfl, last⟩ := alone
    refine ⟨same, ?_⟩
    intro none
    by_contra other
    have present : m.pointer m.head.index ≠ null := fun before => other (last before)
    have kept := behind_head_frame shape frame same present
    rw [same] at kept
    exact kept none
  | checkHead head tail next => exact ⟨same.trans alone.1, alone.2⟩
  | loadTail head | copyPayload head next | swingHead head next => exact same.trans alone
  | _ => trivial

theorem sole_frame (shape : QueueShape null m chain free owned holders)
    (frame : QueueFrame null m m' chain free free' mine) (same : m'.head = m.head)
    {pc : LockfreePc T} (sole : pc.Sole null m given) : pc.Sole null m' given := by
  cases pc with
  | pop ret pc =>
    obtain ⟨alone, unspoiled⟩ := sole
    refine ⟨alone_frame shape frame same alone, ?_⟩
    generalize LockfreePc.settled null (.pop ret pc) = reply at unspoiled ⊢
    cases reply with
    | none => exact unspoiled.imp_right (behind_head_frame shape frame same)
    | some reply =>
      rcases reply with _ | ⟨_, _ | _⟩
      · trivial
      · exact unspoiled
      · trivial
  | returning reply =>
    rcases reply with _ | ⟨_, _ | _⟩
    · trivial
    · exact sole
    · trivial
  | _ => trivial

theorem sole_behind_head {head tail : TaggedIndex}
    (sole : (LockfreePc.pop ret (.loadNext head tail)).Sole null m given) :
    (m.popStep null spurious ret (.loadNext head tail)).2.1.Sole null
        (m.popStep null spurious ret (.loadNext head tail)).1 given ∧
      Settles null given (.pop ret (.loadNext head tail))
        (m.popStep null spurious ret (.loadNext head tail)).2.1
        (m.popStep null spurious ret (.loadNext head tail)).2.2 := by
  obtain ⟨⟨rfl, last⟩, unspoiled⟩ := sole
  by_cases none : (m.next m.head.index).index = null
  · have untouched : ret = given := unspoiled.resolve_right fun present => present none
    simp [popStep, none, LockfreePc.Sole, PopPc.Alone, Unspoiled, Settles, LockfreePc.settled,
      QueueEffect.reply, untouched, last none]
  · simp [popStep, none, LockfreePc.Sole, PopPc.Alone, Unspoiled, Settles, LockfreePc.settled,
      QueueMemory.pointer]

theorem sole_check_head {head tail next : TaggedIndex}
    (sole : (LockfreePc.pop ret (.checkHead head tail next)).Sole null m given) :
    (m.popStep null spurious ret (.checkHead head tail next)).2.1.Sole null
        (m.popStep null spurious ret (.checkHead head tail next)).1 given ∧
      Settles null given (.pop ret (.checkHead head tail next))
        (m.popStep null spurious ret (.checkHead head tail next)).2.1
        (m.popStep null spurious ret (.checkHead head tail next)).2.2 := by
  obtain ⟨⟨rfl, last⟩, unspoiled⟩ := sole
  have unchanged := same_self m.head
  by_cases none : next.index = null
  · have untouched : ret = given := by simpa [LockfreePc.settled, none, Unspoiled] using unspoiled
    simp [popStep, unchanged, none, last none, LockfreePc.Sole, Settles, LockfreePc.settled,
      untouched]
  · have before : Unspoiled null m given ret .none := by
      simpa [LockfreePc.settled, none] using unspoiled
    by_cases alike : m.head.index = tail.index
    · simp only [popStep, unchanged, if_true, alike, none, if_false]
      exact ⟨⟨trivial, before⟩, by simp [Settles, LockfreePc.settled, none]⟩
    · simp only [popStep, unchanged, if_true, alike, none, if_false]
      exact ⟨⟨rfl, before⟩, by simp [Settles, LockfreePc.settled, none]⟩

theorem sole_pop (shape : QueueShape null m chain free owned holders) {pc : PopPc}
    (knows : pc.Knows null m ret) (sole : (LockfreePc.pop ret pc).Sole null m given) :
    (m.popStep null spurious ret pc).2.1.Sole null (m.popStep null spurious ret pc).1 given ∧
      Settles null given (.pop ret pc) (m.popStep null spurious ret pc).2.1
        (m.popStep null spurious ret pc).2.2 := by
  obtain ⟨alone, unspoiled⟩ := sole
  cases pc with
  | loadHead => exact ⟨⟨rfl, unspoiled⟩, rfl⟩
  | loadTail head =>
    obtain rfl : m.head = head := alone
    refine ⟨⟨⟨rfl, ?_⟩, unspoiled⟩, rfl⟩
    intro none
    have member := shape.tail
    rw [shape_alone shape none] at member
    exact List.mem_singleton.mp member
  | loadNext head tail => exact sole_behind_head ⟨alone, unspoiled⟩
  | checkHead head tail next => exact sole_check_head ⟨alone, unspoiled⟩
  | helpTail tail next =>
    refine ⟨⟨trivial, ?_⟩, rfl⟩
    simp only [popStep, exchangeTail]
    split
    · exact unspoiled
    · exact unspoiled
  | copyPayload head next =>
    obtain rfl : m.head = head := alone
    obtain ⟨_, _, present, leads⟩ := knows
    refine ⟨⟨rfl, Or.inr ?_⟩, rfl⟩
    change m.pointer m.head.index ≠ null
    rw [leads rfl]
    exact present
  | swingHead head next =>
    obtain rfl : m.head = head := alone
    obtain ⟨_, _, ⟨present, leads⟩, _⟩ := knows
    simp only [popStep]
    split
    · exact ⟨⟨trivial, trivial⟩, rfl, rfl⟩
    · refine ⟨⟨trivial, Or.inr ?_⟩, rfl⟩
      rw [leads rfl]
      exact present
  | loadPool node => exact ⟨⟨trivial, trivial⟩, rfl⟩
  | storeFree node oldPool => exact ⟨⟨trivial, trivial⟩, rfl⟩
  | putNode node oldPool =>
    simp only [popStep]
    split
    · exact ⟨trivial, rfl⟩
    · exact ⟨⟨trivial, trivial⟩, rfl⟩

end Accesses

end MappedQueue
