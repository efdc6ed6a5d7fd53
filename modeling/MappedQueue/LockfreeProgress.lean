import MappedQueue.Concurrency.Progress
import MappedQueue.LockfreeCalls

/-!
No thread of the lock-free queue waits for another, and as long as tags are fresh the
calls that are underway come to an end, whatever the schedule: a thread tries again
only after another one has taken a node, linked one, moved the head or the tail, or
given a node back, and the calls underway have only so much of this left to do.
-/
namespace MappedQueue
open Concurrency TaggedIndex QueueMemory

section Ranks
variable {T : Type}

/-- How many accesses at most a thread is away from a change or its return, as long as
    the others change nothing. What it has read is of use only while it is current. -/
def PushPc.rank (m : QueueMemory T) : PushPc → Nat
  | .loadPool => 4
  | .loadFree oldPool => if m.pool = oldPool then 3 else 6
  | .takeNode oldPool _ => if m.pool = oldPool then 2 else 5
  | .writeData _ => 8
  | .loadOldNext _ => 7
  | .storeNext _ _ => 6
  | .loadTail _ => 5
  | .loadNext _ tail => if m.tail = tail then 4 else 8
  | .checkTail _ tail next => if m.tail = tail ∧ m.next tail.index = next then 3 else 7
  | .link _ tail next => if m.next tail.index = next then 2 else 6
  | .swingTail _ _ => 2
  | .helpTail _ tail _ => if m.tail = tail then 2 else 6

def PopPc.rank (m : QueueMemory T) : PopPc → Nat
  | .loadHead => 7
  | .loadTail head => if m.head = head then 6 else 12
  | .loadNext head tail => if m.head = head ∧ m.tail = tail then 5 else 11
  | .checkHead head tail next =>
    if m.head = head ∧ m.tail = tail ∧ m.next head.index = next then 4 else 10
  | .copyPayload head _ => if m.head = head then 3 else 9
  | .swingHead head _ => if m.head = head then 2 else 8
  | .helpTail tail _ => if m.tail = tail then 2 else 8
  | .loadPool _ => 4
  | .storeFree _ oldPool => if m.pool = oldPool then 3 else 6
  | .putNode _ oldPool => if m.pool = oldPool then 2 else 5

def LockfreePc.rank (m : QueueMemory T) : LockfreePc T → Nat
  | .idle => 0
  | .returning _ => 1
  | .push _ pc => pc.rank m
  | .pop _ pc => pc.rank m

/-- How many changes the call will still make, but for those of the tail. -/
def LockfreePc.left : LockfreePc T → Nat
  | .idle | .returning _ => 0
  | .push _ pc =>
    match pc with
    | .loadPool | .loadFree _ | .takeNode _ _ => 3
    | .swingTail _ _ => 0
    | _ => 2
  | .pop _ pc => if pc.node = none then 2 else 1

/-- One change of the tail is due while a node is linked behind it. -/
def QueueMemory.lag (m : QueueMemory T) (null : Nat) : Nat :=
  if m.pointer m.tail.index = null then 0 else 1

theorem rank_bounded (m : QueueMemory T) (pc : LockfreePc T) : pc.rank m ≤ 12 := by
  cases pc with
  | idle | returning reply => simp [LockfreePc.rank]
  | push t pc =>
    change pc.rank m ≤ 12
    cases pc <;> simp only [PushPc.rank] <;> (try split) <;> omega
  | pop ret pc =>
    change pc.rank m ≤ 12
    cases pc <;> simp only [PopPc.rank] <;> (try split) <;> omega

theorem left_bounded (pc : LockfreePc T) : pc.left ≤ 3 := by
  cases pc with
  | idle | returning reply => simp [LockfreePc.left]
  | push t pc => cases pc <;> simp [LockfreePc.left]
  | pop ret pc =>
    simp only [LockfreePc.left]
    split <;> omega

structure Quiet (m m' : QueueMemory T) (chain : List Nat) : Prop where
  head : m'.head = m.head
  tail : m'.tail = m.tail
  pool : m'.pool = m.pool
  next : ∀ node ∈ chain, m'.next node = m.next node

/-- An access pays for a change, or brings the thread nearer to one. -/
def Spends (null : Nat) (m : QueueMemory T) (chain : List Nat) (pc : LockfreePc T)
    (o : Outcome T) : Prop :=
  o.1.lag null + o.2.1.left < m.lag null + pc.left ∨
    Quiet m o.1 chain ∧ o.2.1.left ≤ pc.left ∧ o.2.1.rank o.1 < pc.rank m

end Ranks

section Accesses
variable {T ι : Type} {null : Nat} {m : QueueMemory T} {chain free : List Nat}
  {owned : ι → Option Nat} {holders : List (ι × Nat)} {t : ι} {index node : Nat}
  {tail : TaggedIndex}

theorem quiet_refl : Quiet m m chain := ⟨rfl, rfl, rfl, fun _ _ => rfl⟩

theorem quiet_store (shape : QueueShape null m chain free owned holders)
    (own : owned t = some node) (word : TaggedIndex) : Quiet m (m.setNext node word) chain := by
  obtain ⟨unqueued, _, _⟩ := shape_owned shape own
  refine ⟨rfl, rfl, rfl, ?_⟩
  intro other member
  exact Function.update_of_ne (ne_of_mem_of_not_mem member unqueued) ..

theorem spends_quietly {pc pc' : LockfreePc T} {e : Option (QueueEffect T)}
    (left : pc'.left ≤ pc.left) (rank : pc'.rank m < pc.rank m) :
    Spends null m chain pc (m, pc', e) :=
  Or.inr ⟨quiet_refl, left, rank⟩

theorem exchange_tail_spends (shape : QueueShape null m chain free owned holders)
    (seen : Seen tail m.tail) (leads : m.TailLeads null tail index)
    (fresh : m.tail.version < tail.version + tags) :
    m.exchangeTail tail index = m ∧ m.tail ≠ tail ∨
      (m.exchangeTail tail index).lag null < m.lag null := by
  unfold exchangeTail
  split
  · rename_i same
    have unchanged := same_fresh same seen.1 fresh
    subst unchanged
    have pointer := leads.2 rfl
    have behind : m.pointer m.tail.index ≠ null := by
      rw [pointer]
      exact leads.1
    have last := shape.lag.resolve_left behind
    rw [pointer] at last
    have caught_up : QueueMemory.lag { m with tail := m.tail.tagged index } null = 0 := if_pos last
    have behind_one : m.lag null = 1 := if_neg behind
    right
    rw [caught_up, behind_one]
    exact Nat.one_pos
  · exact Or.inl ⟨rfl, other_word ‹_›⟩

theorem help_spends {pc pc' : LockfreePc T} {e : Option (QueueEffect T)}
    (shape : QueueShape null m chain free owned holders) (seen : Seen tail m.tail)
    (leads : m.TailLeads null tail index) (fresh : m.tail.version < tail.version + tags)
    (left : pc'.left ≤ pc.left) (rank : m.tail ≠ tail → pc'.rank m < pc.rank m) :
    Spends null m chain pc (m.exchangeTail tail index, pc', e) := by
  rcases exchange_tail_spends shape seen leads fresh with ⟨same, stale⟩ | less
  · rw [same]
    exact spends_quietly left (rank stale)
  · exact Or.inl (Nat.add_lt_add_of_lt_of_le less left)

theorem allocate_spends {v : T} {pc : LockfreePc T} (left : pc.left = 3) (rank : 4 ≤ pc.rank m) :
    Spends null m chain pc (m.allocate null v) := by
  unfold allocate
  split
  · apply spends_quietly
    · exact Nat.zero_le _
    · change 1 < pc.rank m
      omega
  · apply spends_quietly
    · rw [left]
      exact Nat.le_refl _
    · have near : (LockfreePc.push v (.loadFree m.pool)).rank m = 3 := if_pos rfl
      rw [near]
      omega

theorem take_node_spends {v : T} {oldPool : TaggedIndex} :
    Spends null m chain (.push v (.takeNode oldPool index))
      (m.pushStep null false v (.takeNode oldPool index)) := by
  simp only [pushStep, Bool.not_false, Bool.and_true]
  split
  · exact Or.inl (Nat.lt_succ_self _)
  · have stale : m.pool ≠ oldPool := other_word ‹_›
    apply allocate_spends rfl
    simp [LockfreePc.rank, PushPc.rank, stale]

theorem check_tail_spends {v : T} {next : TaggedIndex} (seen : Seen tail m.tail)
    (fresh : m.tail.version < tail.version + tags) :
    Spends null m chain (.push v (.checkTail node tail next))
      (m.pushStep null false v (.checkTail node tail next)) := by
  simp only [pushStep]
  split
  · have unchanged := same_fresh ‹_› seen.1 fresh
    split
    · refine spends_quietly (Nat.le_refl _) ?_
      simp only [LockfreePc.rank, PushPc.rank, unchanged, true_and]
      split <;> omega
    · refine spends_quietly (Nat.le_refl _) ?_
      simp only [LockfreePc.rank, PushPc.rank, unchanged, true_and, if_true]
      split <;> omega
  · have stale : m.tail ≠ tail := other_word ‹_›
    refine spends_quietly (Nat.le_refl _) ?_
    simp [LockfreePc.rank, PushPc.rank, stale]

/-- A node is linked where the tail has caught up, which the tail then has to do again. -/
theorem link_spends {v : T} {next : TaggedIndex} (ends : m.Ends null tail.index next)
    (fresh : (m.next tail.index).version < next.version + tags) :
    Spends null m chain (.push v (.link node tail next))
      (m.pushStep null false v (.link node tail next)) := by
  simp only [pushStep, Bool.not_false, Bool.and_true]
  split
  · have unchanged := same_fresh ‹_› ends.1 fresh
    obtain ⟨at_tail, last⟩ := ends.2 (congrArg version unchanged)
    rw [← at_tail] at last
    have caught_up : m.lag null = 0 := if_pos last
    left
    rw [caught_up]
    change QueueMemory.lag _ null + 0 < 0 + 2
    unfold QueueMemory.lag
    split <;> omega
  · have stale : m.next tail.index ≠ next := other_word ‹_›
    refine spends_quietly (Nat.le_refl _) ?_
    simp [LockfreePc.rank, PushPc.rank, stale]

theorem push_spends (shape : QueueShape null m chain free owned holders) {v : T} {pc : PushPc}
    (own : owned t = pc.node) (knows : pc.Knows null m free v) (fresh : Fresh m (.push v pc)) :
    Spends null m chain (.push v pc) (m.pushStep null false v pc) := by
  cases pc with
  | loadPool => exact allocate_spends rfl (Nat.le_refl _)
  | loadFree oldPool =>
    refine spends_quietly (Nat.le_refl _) ?_
    simp only [LockfreePc.rank, PushPc.rank]
    split <;> omega
  | takeNode oldPool index => exact take_node_spends
  | writeData node =>
    exact Or.inr ⟨⟨rfl, rfl, rfl, fun _ _ => rfl⟩, Nat.le_refl _, Nat.lt_succ_self _⟩
  | loadOldNext node => exact spends_quietly (Nat.le_refl _) (Nat.lt_succ_self _)
  | storeNext node oldNext =>
    exact Or.inr ⟨quiet_store shape own _, Nat.le_refl _, Nat.lt_succ_self _⟩
  | loadTail node =>
    refine spends_quietly (Nat.le_refl _) ?_
    simp [LockfreePc.rank, PushPc.rank]
  | loadNext node tail =>
    refine spends_quietly (Nat.le_refl _) ?_
    simp only [LockfreePc.rank, PushPc.rank, and_true]
    split <;> omega
  | checkTail node tail next =>
    exact check_tail_spends knows.2.1 (fresh _ (List.mem_singleton_self _))
  | link node tail next => exact link_spends knows.2.2 (fresh _ (List.mem_singleton_self _))
  | swingTail node tail =>
    obtain ⟨seen, leads⟩ := knows
    exact help_spends shape seen leads (fresh _ (List.mem_singleton_self _)) (Nat.le_refl _)
      fun _ => Nat.lt_succ_self _
  | helpTail node tail next =>
    obtain ⟨_, seen, leads⟩ := knows
    refine help_spends shape seen leads (fresh _ (List.mem_singleton_self _)) (Nat.le_refl _) ?_
    intro stale
    simp [LockfreePc.rank, PushPc.rank, stale]

theorem passed_present (shape : QueueShape null m chain free owned holders)
    (passed : m.Passed m.head) : m.pointer m.head.index ≠ null := by
  intro alone
  have tail := shape.tail
  rw [shape_alone shape alone] at tail
  exact passed rfl (List.mem_singleton.mp tail)

/-- With head and tail apart, a null pointer behind the head is an old one. -/
theorem check_head_spends (shape : QueueShape null m chain free owned holders) {ret : T}
    {head next : TaggedIndex} (seen : Seen head m.head)
    (passed : head.index ≠ tail.index → m.Passed head)
    (fresh : m.head.version < head.version + tags) :
    Spends null m chain (.pop ret (.checkHead head tail next))
      (m.popStep null false ret (.checkHead head tail next)) := by
  simp only [popStep]
  split
  · have unchanged := same_fresh ‹_› seen.1 fresh
    subst unchanged
    split
    · split
      · refine spends_quietly (Nat.zero_le _) ?_
        simp only [LockfreePc.rank, PopPc.rank]
        split <;> omega
      · refine spends_quietly (Nat.le_refl _) ?_
        simp only [LockfreePc.rank, PopPc.rank, true_and]
        split <;> split <;> simp_all
    · rename_i ne
      split
      · rename_i none
        have stale : m.next m.head.index ≠ next := by
          rintro rfl
          exact passed_present shape (passed ne) none
        refine spends_quietly (Nat.le_refl _) ?_
        simp [LockfreePc.rank, PopPc.rank, stale]
      · refine spends_quietly (Nat.le_refl _) ?_
        simp only [LockfreePc.rank, PopPc.rank, if_true]
        split <;> omega
  · have stale : m.head ≠ head := other_word ‹_›
    refine spends_quietly (Nat.le_refl _) ?_
    simp [LockfreePc.rank, PopPc.rank, stale]

theorem swing_head_spends {ret : T} {head next : TaggedIndex} :
    Spends null m chain (.pop ret (.swingHead head next))
      (m.popStep null false ret (.swingHead head next)) := by
  simp only [popStep, Bool.not_false, Bool.and_true]
  split
  · exact Or.inl (Nat.lt_succ_self _)
  · have stale : m.head ≠ head := other_word ‹_›
    refine spends_quietly (Nat.le_refl _) ?_
    simp [LockfreePc.rank, PopPc.rank, stale]

theorem put_node_spends {ret : T} {oldPool : TaggedIndex} :
    Spends null m chain (.pop ret (.putNode node oldPool))
      (m.popStep null false ret (.putNode node oldPool)) := by
  simp only [popStep, Bool.not_false, Bool.and_true]
  split
  · exact Or.inl (Nat.lt_succ_self _)
  · have stale : m.pool ≠ oldPool := other_word ‹_›
    refine spends_quietly (Nat.le_refl _) ?_
    simp [LockfreePc.rank, PopPc.rank, stale]

theorem pop_spends (shape : QueueShape null m chain free owned holders) {ret : T} {pc : PopPc}
    (own : owned t = pc.node) (knows : pc.Knows null m ret) (fresh : Fresh m (.pop ret pc)) :
    Spends null m chain (.pop ret pc) (m.popStep null false ret pc) := by
  cases pc with
  | loadHead | loadPool node =>
    refine spends_quietly (Nat.le_refl _) ?_
    simp [LockfreePc.rank, PopPc.rank]
  | loadTail head | loadNext head tail =>
    refine spends_quietly (Nat.le_refl _) ?_
    simp only [LockfreePc.rank, PopPc.rank, and_true]
    split <;> omega
  | checkHead head tail next =>
    exact check_head_spends shape knows.1 knows.2.2.1 (fresh _ (List.mem_singleton_self _))
  | helpTail tail next =>
    obtain ⟨seen, leads⟩ := knows
    refine help_spends shape seen leads (fresh _ (List.mem_singleton_self _)) (Nat.le_refl _) ?_
    intro stale
    simp [LockfreePc.rank, PopPc.rank, stale]
  | copyPayload head next =>
    refine spends_quietly (Nat.le_refl _) ?_
    simp only [LockfreePc.rank, PopPc.rank]
    split <;> omega
  | swingHead head next => exact swing_head_spends
  | storeFree node oldPool =>
    refine Or.inr ⟨quiet_store shape own _, Nat.le_refl _, ?_⟩
    by_cases current : m.pool = oldPool <;>
      simp [popStep, LockfreePc.rank, PopPc.rank, QueueMemory.setNext, current]
  | putNode node oldPool => exact put_node_spends

theorem access_spends (shape : QueueShape null m chain free owned holders) {pc : LockfreePc T}
    (own : owned t = pc.node) (knows : pc.Knows null m free) (fresh : Fresh m pc)
    {o : Outcome T} (access : m.access null false pc = some o) : Spends null m chain pc o := by
  cases pc with
  | idle | returning reply => contradiction
  | push v pc =>
    cases access
    exact push_spends shape own knows fresh
  | pop ret pc =>
    cases access
    exact pop_spends shape own knows fresh

theorem ends_inside {next : TaggedIndex} (member : m.tail.index ∈ chain)
    (ends : m.Ends null node next) (same : m.next node = next) : node ∈ chain := by
  obtain ⟨tail, _⟩ := ends.2 (congrArg version same)
  rw [← tail]
  exact member

theorem rank_quiet (shape : QueueShape null m chain free owned holders) {m' : QueueMemory T}
    {free' : List Nat} (quiet : Quiet m m' chain) {pc : LockfreePc T}
    (knows : pc.Knows null m free) (knows' : pc.Knows null m' free') :
    pc.rank m' = pc.rank m := by
  obtain ⟨head, tail, pool, next⟩ := quiet
  cases pc with
  | idle | returning reply => rfl
  | push v pc =>
    change pc.rank m' = pc.rank m
    cases pc with
    | link node read _ =>
      obtain ⟨_, _, ends⟩ := knows
      obtain ⟨_, _, ends'⟩ := knows'
      simp only [PushPc.rank]
      by_cases inside : read.index ∈ chain
      · rw [next _ inside]
      · -- what is behind a node that has left the queue is not what was read
        have stale := fun same => inside (ends_inside shape.tail ends same)
        have stale' := fun same => inside (ends_inside (tail ▸ shape.tail) ends' same)
        rw [if_neg stale, if_neg stale']
    | checkTail node read _ =>
      simp only [PushPc.rank, tail]
      by_cases current : m.tail = read
      · have member := shape.tail
        rw [current] at member
        rw [next _ member]
      · simp [current]
    | _ => simp only [PushPc.rank, tail, pool]
  | pop ret pc =>
    change pc.rank m' = pc.rank m
    cases pc with
    | checkHead read _ _ =>
      simp only [PopPc.rank, head, tail]
      by_cases current : m.head = read
      · obtain ⟨rest, split⟩ := shape_head shape
        have member : read.index ∈ chain := by
          rw [split, current]
          exact List.mem_cons_self
        rw [next _ member]
      · simp [current]
    | _ => simp only [PopPc.rank, head, tail, pool]

end Accesses

section Runs
variable {T ι : Type} [Inhabited T] [DecidableEq ι] {capacity : Nat} {s s' : LockfreeThreads T ι}
  {log log' : List (LockfreeEntry T ι)} {members : Finset ι} {t : ι}

def Within (members : Finset ι) (s : LockfreeThreads T ι) : Prop :=
  ∀ t, (s.threads t).pc ≠ .idle → t ∈ members

def accessesLeft (capacity : Nat) (members : Finset ι) (s : LockfreeThreads T ι) : Nat :=
  potential members 12
    (s.memory.lag (nullHandle capacity) + ∑ t ∈ members, (s.threads t).pc.left)
    fun t => (s.threads t).pc.rank s.memory

def accessBound (count : Nat) : Nat := (1 + 3 * count) * (12 * count + 1) + 12 * count

def callPrice (count : Nat) : Nat := 3 * (12 * count + 1) + 13

def Steady (members : Finset ι) : LockfreeAction T ι → Prop
  | .call t _ => t ∈ members
  | .step _ spurious => spurious = false

def LockfreeAction.credit (count : Nat) : LockfreeAction T ι → Nat
  | .call _ _ => callPrice count
  | .step _ _ => 0

def callsIn (schedule : List (LockfreeAction T ι)) : Nat :=
  schedule.countP fun a => a matches .call _ _

omit [Inhabited T] [DecidableEq ι] in
theorem credit_sum (count : Nat) (schedule : List (LockfreeAction T ι)) :
    granted (LockfreeAction.credit count) schedule = callPrice count * callsIn schedule := by
  induction schedule with
  | nil => rfl
  | cons a rest ih =>
    rw [granted, ih]
    unfold callsIn
    rw [List.countP_cons, Nat.mul_add]
    cases a <;> simp [LockfreeAction.credit, Nat.add_comm]

omit [Inhabited T] [DecidableEq ι] in
theorem accesses_bounded : accessesLeft capacity members s ≤ accessBound members.card := by
  have budget : s.memory.lag (nullHandle capacity) + ∑ t ∈ members, (s.threads t).pc.left ≤
      1 + 3 * members.card := by
    have changes : ∑ t ∈ members, (s.threads t).pc.left ≤ 3 * members.card :=
      ranks_bounded fun t _ => left_bounded _
    unfold QueueMemory.lag
    split <;> omega
  have low : accessesLeft capacity members s ≤
      (s.memory.lag (nullHandle capacity) + ∑ t ∈ members, (s.threads t).pc.left) *
        (12 * members.card + 1) + 12 * members.card :=
    potential_bounded fun t _ => rank_bounded _ _
  have more := Nat.mul_le_mul_right (12 * members.card + 1) budget
  unfold accessBound
  omega

omit [Inhabited T] in
theorem within_step {null : Nat} {a : LockfreeAction T ι} {out : Option (LockfreeEntry T ι)}
    (within : Within members s) (steady : Steady members a) (step : LockfreeStep null s a s' out) :
    a.thread ∈ members ∧ Within members s' := by
  obtain ⟨others, _⟩ := lockfree_ids step
  have member : a.thread ∈ members := by
    cases step with
    | call => exact steady
    | @access t _ _ access =>
      apply within
      intro idle
      change (s.threads t).pc = .idle at idle
      rw [idle] at access
      contradiction
    | @leave t _ _ returning =>
      apply within
      intro idle
      change (s.threads t).pc = .idle at idle
      rw [idle] at returning
      contradiction
  refine ⟨member, ?_⟩
  intro u busy
  by_cases own : u = a.thread
  · rw [own]
    exact member
  · rw [others u own] at busy
    exact within u busy

omit [Inhabited T] in
theorem call_raises (member : t ∈ members) {call : LockfreeCall T}
    (idle : (s.threads t).pc = .idle) :
    accessesLeft capacity members (s.goto t s.memory call.entrance) <
      accessesLeft capacity members s + callPrice members.card := by
  have own : ((s.goto t s.memory call.entrance).threads t).pc = call.entrance := by
    simp [LockfreeThreads.goto]
  have others : ∀ u, u ≠ t →
      ((s.goto t s.memory call.entrance).threads u).pc = (s.threads u).pc := by
    intro u ne
    simp [LockfreeThreads.goto, ne]
  have changes := sum_moved (fun u => (s.threads u).pc.left)
    (fun u => ((s.goto t s.memory call.entrance).threads u).pc.left) member
    (fun u ne => by rw [others u ne])
  have none_left : (LockfreePc.idle : LockfreePc T).left = 0 := rfl
  simp only [own, idle, none_left, Nat.add_zero] at changes
  have few := left_bounded call.entrance
  have raised : accessesLeft capacity members (s.goto t s.memory call.entrance) ≤
      accessesLeft capacity members s + 3 * (12 * members.card + 1) + 12 := by
    apply potential_raised _ member
    · intro u ne
      rw [others u ne]
      rfl
    · exact rank_bounded _ _
    · change s.memory.lag _ + _ ≤ _
      omega
  unfold callPrice
  omega

omit [Inhabited T] in
theorem access_lowers {chain free : List Nat} {holders : List (ι × Nat)}
    (sound : LockfreeSound capacity s log chain free holders) (member : t ∈ members)
    (fresh : TagsFresh s log (.step t false)) {o : Outcome T}
    (access : s.memory.access (nullHandle capacity) false (s.threads t).pc = some o) :
    accessesLeft capacity members (s.goto t o.1 o.2.1) < accessesLeft capacity members s := by
  have moves := access_moves (t := t) sound.shape rfl (sound.knows t) fresh access
  obtain ⟨chain', free', left, _, knows, _⟩ := sound_move sound.shape sound.knows
    (s.goto t o.1 o.2.1).threads
    (fun u ne => by simp [LockfreeThreads.goto, ne]) (by simp [LockfreeThreads.goto]) moves
  have own : ((s.goto t o.1 o.2.1).threads t).pc = o.2.1 := by simp [LockfreeThreads.goto]
  have others : ∀ u, u ≠ t → ((s.goto t o.1 o.2.1).threads u).pc = (s.threads u).pc := by
    intro u ne
    simp [LockfreeThreads.goto, ne]
  have changes := sum_moved (fun u => (s.threads u).pc.left)
    (fun u => ((s.goto t o.1 o.2.1).threads u).pc.left) member (fun u ne => by rw [others u ne])
  simp only [own] at changes
  rcases access_spends (t := t) sound.shape rfl (sound.knows t) fresh access with
    spent | ⟨quiet, kept, nearer⟩
  · apply potential_spent _ fun u _ => rank_bounded _ _
    change o.1.lag _ + _ < _
    omega
  · have lag : o.1.lag (nullHandle capacity) = s.memory.lag (nullHandle capacity) := by
      unfold QueueMemory.lag QueueMemory.pointer
      rw [quiet.tail, quiet.next _ sound.shape.tail]
    apply potential_quiet _ member
    · intro u ne
      have still := knows u
      rw [others u ne] at still ⊢
      exact rank_quiet sound.shape quiet (sound.knows u) still
    · rw [own]
      exact nearer
    · change o.1.lag _ + _ ≤ _
      omega

omit [Inhabited T] in
theorem leave_lowers {reply : LockfreeReply T} (member : t ∈ members)
    (returning : (s.threads t).pc = .returning reply) :
    accessesLeft capacity members (s.leave t) < accessesLeft capacity members s := by
  have own : ((s.leave t).threads t).pc = .idle := by simp [LockfreeThreads.leave]
  have others : ∀ u, u ≠ t → ((s.leave t).threads u).pc = (s.threads u).pc := by
    intro u ne
    simp [LockfreeThreads.leave, ne]
  have changes := sum_moved (fun u => (s.threads u).pc.left)
    (fun u => ((s.leave t).threads u).pc.left) member (fun u ne => by rw [others u ne])
  have outside : (LockfreePc.idle : LockfreePc T).left = 0 := rfl
  have through : (LockfreePc.returning reply).left = 0 := rfl
  simp only [own, returning, outside, through] at changes
  apply potential_quiet _ member
  · intro u ne
    rw [others u ne]
    rfl
  · rw [own, returning]
    exact Nat.one_pos
  · change s.memory.lag _ + _ ≤ _
    omega

theorem busy_goes_on (busy : (s.threads t).pc ≠ .idle) :
    ((lockfreeMachine T ι capacity).step s (.step t false)).isSome = true := by
  cases place : (s.threads t).pc with
  | idle => exact absurd place busy
  | push v pc | pop ret pc =>
    obtain ⟨o, access⟩ :
        ∃ o, s.memory.access (nullHandle capacity) false (s.threads t).pc = some o := by
      rw [place]
      exact ⟨_, rfl⟩
    rw [lockfree_access access]
    rfl
  | returning reply =>
    change (s.threadStep (nullHandle capacity) t false).isSome = true
    unfold LockfreeThreads.threadStep
    rw [place]
    rfl

/-- With fresh tags and without spurious failures the calls of `members` need a bounded
    number of accesses together, so much for those underway and so much for each that begins,
    whatever the schedule, and none of them ever waits. -/
theorem lockfree_progress (run : (lockfreeMachine T ι capacity).Reach TagsFresh s log)
    (within : Within members s) {schedule : List (LockfreeAction T ι)}
    (steady : ∀ a ∈ schedule, Steady members a)
    (exec : (lockfreeMachine T ι capacity).exec TagsFresh s log schedule = some (s', log')) :
    schedule.length ≤ accessBound members.card + callPrice members.card * callsIn schedule ∧
      ∀ t, (s'.threads t).pc ≠ .idle →
        ((lockfreeMachine T ι capacity).step s' (.step t false)).isSome = true := by
  refine ⟨?_, fun t busy => busy_goes_on busy⟩
  have most : accessesLeft capacity members s ≤ accessBound members.card := accesses_bounded
  have lowers : ∀ s log a s' out,
      ((lockfreeMachine T ι capacity).Reach TagsFresh s log ∧ Within members s) →
      Steady members a → TagsFresh s log a →
      (lockfreeMachine T ι capacity).step s a = some (s', out) →
      ((lockfreeMachine T ι capacity).Reach TagsFresh s' (log ++ out.toList) ∧
        Within members s') ∧
        accessesLeft capacity members s' < accessesLeft capacity members s +
          a.credit members.card := by
    rintro s log a s' out ⟨before, within⟩ steady fresh step
    obtain ⟨chain, free, holders, sound⟩ := sound_run before
    have moved := lockfree_step step
    obtain ⟨member, later⟩ := within_step within steady moved
    refine ⟨⟨Machine.Reach.next before fresh step, later⟩, ?_⟩
    cases moved with
    | call idle => exact call_raises member idle
    | access access =>
      cases steady
      exact access_lowers sound member fresh access
    | leave returning => exact leave_lowers member returning
  obtain ⟨_, bounded⟩ := Machine.exec_bounded lowers ⟨run, within⟩ steady exec
  rw [credit_sum] at bounded
  omega

/-- Two pushes, of which one has to take a node again and the other to begin the loop
    again, and then a pop. -/
theorem two_pushes_progress : ∃ s log, (lockfreeMachine Nat (Fin 2) 2).Reach TagsFresh s log ∧
    ∃ schedule : List (LockfreeAction Nat (Fin 2)), schedule.length = 45 ∧
      ((lockfreeMachine Nat (Fin 2) 2).exec TagsFresh s log schedule).isSome = true ∧
      schedule.length ≤ accessBound 2 + callPrice 2 := by
  let schedule : List (LockfreeAction Nat (Fin 2)) :=
    List.flatten [stepsOf 0 2, stepsOf 1 9, stepsOf 0 10, stepsOf 1 11, stepsOf 0 2,
      [.call 1 (.pop 0)], stepsOf 1 10]
  obtain ⟨s, log, run, done⟩ := Machine.reach_of_exec (lockfreeMachine Nat (Fin 2) 2) TagsFresh
    [.call 0 (.boundedPush 5), .call 1 (.boundedPush 6)]
    (fun s log => ((lockfreeMachine Nat (Fin 2) 2).exec TagsFresh s log schedule).isSome = true)
    (by decide +kernel)
  refine ⟨s, log, run, schedule, rfl, done, ?_⟩
  obtain ⟨⟨s', log'⟩, exec⟩ := Option.isSome_iff_exists.mp done
  have within : Within Finset.univ s := fun t _ => Finset.mem_univ t
  exact (lockfree_progress run within (by simp [schedule, stepsOf, Steady]) exec).1

end Runs

end MappedQueue
