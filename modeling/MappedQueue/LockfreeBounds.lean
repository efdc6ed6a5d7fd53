import MappedQueue.LockfreeCalls

/-!
No access of the lock-free queue leaves the array of nodes. A thread may follow a
word that it read long ago, to a node that has been given back and taken again in
the meantime, and whatever pointer it finds there is a node or the null handle.
-/
namespace MappedQueue
open Concurrency QueueMemory

section Places
variable {T : Type}

def PushPc.touches : PushPc → Option Nat
  | .loadFree oldPool => some oldPool.index
  | .writeData node | .loadOldNext node | .storeNext node _ => some node
  | .loadNext _ tail | .link _ tail _ => some tail.index
  | _ => none

def PopPc.touches : PopPc → Option Nat
  | .loadNext head _ => some head.index
  | .copyPayload _ next => some next.index
  | .storeFree node _ => some node
  | _ => none

def LockfreePc.touches : LockfreePc T → Option Nat
  | .push _ pc => pc.touches
  | .pop _ pc => pc.touches
  | _ => none

/-- Every word holds a node, or the null handle where there may be none. -/
structure QueueMemory.InArray (null : Nat) (m : QueueMemory T) : Prop where
  head : m.head.index < null
  tail : m.tail.index < null
  pool : m.pool.index ≤ null
  next : ∀ node, m.pointer node ≤ null

def PushPc.InArray (null : Nat) : PushPc → Prop
  | .loadPool => True
  | .loadFree oldPool => oldPool.index < null
  | .takeNode oldPool index => oldPool.index < null ∧ index ≤ null
  | .writeData node | .loadOldNext node | .storeNext node _ | .loadTail node => node < null
  | .loadNext node tail | .swingTail node tail => node < null ∧ tail.index < null
  | .checkTail node tail next => node < null ∧ tail.index < null ∧ next.index ≤ null
  | .link node tail _ => node < null ∧ tail.index < null
  | .helpTail node tail next => node < null ∧ tail.index < null ∧ next.index < null

def PopPc.InArray (null : Nat) : PopPc → Prop
  | .loadHead => True
  | .loadTail head => head.index < null
  | .loadNext head tail => head.index < null ∧ tail.index < null
  | .checkHead head tail next => head.index < null ∧ tail.index < null ∧ next.index ≤ null
  | .helpTail tail next => tail.index < null ∧ next.index < null
  | .copyPayload head next | .swingHead head next => head.index < null ∧ next.index < null
  | .loadPool node => node < null
  | .storeFree node oldPool | .putNode node oldPool => node < null ∧ oldPool.index ≤ null

def LockfreePc.InArray (null : Nat) : LockfreePc T → Prop
  | .push _ pc => pc.InArray null
  | .pop _ pc => pc.InArray null
  | _ => True

theorem touches_in_array {null node : Nat} {pc : LockfreePc T} (inArray : pc.InArray null)
    (touched : pc.touches = some node) : node < null := by
  cases pc with
  | idle | returning reply => contradiction
  | push t pc =>
    cases pc <;> cases touched
    all_goals first
      | exact inArray
      | exact inArray.1
      | exact inArray.2
  | pop ret pc =>
    cases pc <;> cases touched
    all_goals first
      | exact inArray.1
      | exact inArray.2

end Places

section Accesses
variable {T : Type} {null : Nat} {m : QueueMemory T} {spurious : Bool} {t : T} {tail : TaggedIndex}
  {index node : Nat}

theorem in_array_setNext {word : TaggedIndex} (inArray : m.InArray null)
    (within : word.index ≤ null) : (m.setNext node word).InArray null := by
  refine ⟨inArray.head, inArray.tail, inArray.pool, ?_⟩
  intro other
  rw [m.pointer_setNext]
  by_cases own : other = node
  · subst own
    rw [Function.update_self]
    exact within
  · rw [Function.update_of_ne own]
    exact inArray.next other

theorem in_array_exchangeTail (inArray : m.InArray null) (within : index < null) :
    (m.exchangeTail tail index).InArray null := by
  unfold exchangeTail
  split
  · exact ⟨inArray.head, within, inArray.pool, inArray.next⟩
  · exact inArray

theorem allocate_in_array (inArray : m.InArray null) :
    (m.allocate null t).1.InArray null ∧ (m.allocate null t).2.1.InArray null := by
  unfold allocate
  split
  · exact ⟨inArray, trivial⟩
  · rename_i present
    exact ⟨inArray, Nat.lt_of_le_of_ne inArray.pool present⟩

theorem push_in_array (inArray : m.InArray null) {pc : PushPc} (local_ : pc.InArray null) :
    (m.pushStep null spurious t pc).1.InArray null ∧
      (m.pushStep null spurious t pc).2.1.InArray null := by
  cases pc with
  | loadPool => exact allocate_in_array inArray
  | loadFree oldPool => exact ⟨inArray, local_, inArray.next _⟩
  | takeNode oldPool index =>
    simp only [pushStep]
    split
    · exact ⟨⟨inArray.head, inArray.tail, local_.2, inArray.next⟩, local_.1⟩
    · exact allocate_in_array inArray
  | writeData node =>
    exact ⟨⟨inArray.head, inArray.tail, inArray.pool, inArray.next⟩, local_⟩
  | loadOldNext node => exact ⟨inArray, local_⟩
  | storeNext node oldNext => exact ⟨in_array_setNext inArray (Nat.le_refl null), local_⟩
  | loadTail node => exact ⟨inArray, local_, inArray.tail⟩
  | loadNext node tail => exact ⟨inArray, local_.1, local_.2, inArray.next _⟩
  | checkTail node tail next =>
    obtain ⟨own, last, behind⟩ := local_
    simp only [pushStep]
    split
    · split
      · exact ⟨inArray, own, last⟩
      · rename_i present
        exact ⟨inArray, own, last, Nat.lt_of_le_of_ne behind present⟩
    · exact ⟨inArray, own⟩
  | link node tail next =>
    simp only [pushStep]
    split
    · exact ⟨in_array_setNext inArray (Nat.le_of_lt local_.1), local_⟩
    · exact ⟨inArray, local_.1⟩
  | swingTail node tail => exact ⟨in_array_exchangeTail inArray local_.1, trivial⟩
  | helpTail node tail next => exact ⟨in_array_exchangeTail inArray local_.2.2, local_.1⟩

theorem pop_in_array (inArray : m.InArray null) {pc : PopPc} (local_ : pc.InArray null) :
    (m.popStep null spurious t pc).1.InArray null ∧
      (m.popStep null spurious t pc).2.1.InArray null := by
  cases pc with
  | loadHead => exact ⟨inArray, inArray.head⟩
  | loadTail head => exact ⟨inArray, local_, inArray.tail⟩
  | loadNext head tail => exact ⟨inArray, local_.1, local_.2, inArray.next _⟩
  | checkHead head tail next =>
    obtain ⟨first, last, behind⟩ := local_
    simp only [popStep]
    split
    · split
      · split
        · exact ⟨inArray, trivial⟩
        · rename_i present
          exact ⟨inArray, last, Nat.lt_of_le_of_ne behind present⟩
      · split
        · exact ⟨inArray, trivial⟩
        · rename_i present
          exact ⟨inArray, first, Nat.lt_of_le_of_ne behind present⟩
    · exact ⟨inArray, trivial⟩
  | helpTail tail next => exact ⟨in_array_exchangeTail inArray local_.2, trivial⟩
  | copyPayload head next => exact ⟨inArray, local_⟩
  | swingHead head next =>
    simp only [popStep]
    split
    · exact ⟨⟨local_.2, inArray.tail, inArray.pool, inArray.next⟩, local_.1⟩
    · exact ⟨inArray, trivial⟩
  | loadPool node => exact ⟨inArray, local_, inArray.pool⟩
  | storeFree node oldPool => exact ⟨in_array_setNext inArray local_.2, local_⟩
  | putNode node oldPool =>
    simp only [popStep]
    split
    · exact ⟨⟨inArray.head, inArray.tail, Nat.le_of_lt local_.1, inArray.next⟩, trivial⟩
    · exact ⟨inArray, local_.1, inArray.pool⟩

theorem access_in_array (inArray : m.InArray null) {pc : LockfreePc T}
    (local_ : pc.InArray null) {o : Outcome T} (access : m.access null spurious pc = some o) :
    o.1.InArray null ∧ o.2.1.InArray null := by
  cases pc with
  | idle | returning reply => contradiction
  | push t pc =>
    cases access
    exact push_in_array inArray local_
  | pop ret pc =>
    cases access
    exact pop_in_array inArray local_

end Accesses

section Runs
variable {T ι : Type} [Inhabited T] [DecidableEq ι] {capacity : Nat} {s s' : LockfreeThreads T ι}
  {log : List (LockfreeEntry T ι)} {a : LockfreeAction T ι} {out : Option (LockfreeEntry T ι)}

structure AllInArray (null : Nat) (s : LockfreeThreads T ι) : Prop where
  memory : s.memory.InArray null
  threads : ∀ t, (s.threads t).pc.InArray null

omit [DecidableEq ι] in
theorem initialize_in_array (null count : Nat) (few : count ≤ null) :
    let m : QueueMemory T := (List.range count).foldl
      (fun m node => (m.setNext node ((m.next node).setIndex null)).deallocateUnsafe node)
      ⟨⟨0, 0⟩, ⟨0, 0⟩, ⟨null, 0⟩, fun _ => ⟨0, 0⟩, fun _ => default⟩
    m.pool.index ≤ null ∧ ∀ node, m.pointer node ≤ null := by
  induction count with
  | zero => exact ⟨Nat.le_refl null, fun _ => Nat.zero_le null⟩
  | succ count ih =>
    obtain ⟨pool, next⟩ := ih (by omega)
    rw [List.range_succ, List.foldl_append]
    simp only [List.foldl_cons, List.foldl_nil] at pool next ⊢
    generalize List.foldl _ _ (List.range count) = m at pool next
    refine ⟨Nat.le_of_lt few, ?_⟩
    intro node
    rw [pointer_deallocate]
    by_cases own : node = count
    · subst own
      rw [Function.update_self]
      exact pool
    · rw [Function.update_of_ne own]
      exact next node

omit [DecidableEq ι] in
theorem create_in_array (capacity : Nat) :
    AllInArray (nullHandle capacity) (LockfreeThreads.create capacity : LockfreeThreads T ι) := by
  have shape := create_shape (T := T) (ι := ι) capacity
  have inside : ∀ node ∈ [capacity] ++ (List.range capacity).reverse, node < nullHandle capacity :=
    fun node member => List.mem_range.mp (ledger_mem shape.ledger member)
  obtain ⟨pool, next⟩ := initialize_in_array (T := T) _ _ (Nat.le_refl (nullHandle capacity))
  obtain ⟨rest, first⟩ := shape_head shape
  have head : (QueueMemory.create capacity : QueueMemory T).head.index < nullHandle capacity := by
    apply inside
    rw [first]
    simp
  have tail := inside _ (List.mem_append_left _ shape.tail)
  refine ⟨⟨head, tail, next _, ?_⟩, fun _ => trivial⟩
  intro node
  change (QueueMemory.setNext (initializePool (nullHandle capacity)) _ _).pointer node ≤ _
  rw [QueueMemory.pointer_setNext]
  by_cases own : node = (initializePool (nullHandle capacity) : QueueMemory T).pool.index
  · subst own
    exact Nat.le_of_eq (Function.update_self ..)
  · rw [Function.update_of_ne own]
    exact next node

omit [Inhabited T] in
theorem in_array_step {null : Nat} (inArray : AllInArray null s)
    (step : LockfreeStep null s a s' out) : AllInArray null s' := by
  obtain ⟨memory, threads⟩ := inArray
  obtain ⟨others, _⟩ := lockfree_ids step
  have own : s'.memory.InArray null ∧ (s'.threads a.thread).pc.InArray null := by
    cases step with
    | @call t call idle =>
      refine ⟨memory, ?_⟩
      cases call <;> simp [LockfreeThreads.goto, LockfreeAction.thread, LockfreeCall.entrance,
        LockfreePc.InArray, PushPc.InArray, PopPc.InArray]
    | @access t spurious o access =>
      have later := access_in_array memory (threads t) access
      simpa [LockfreeThreads.goto, LockfreeAction.thread] using later
    | leave returning =>
      refine ⟨memory, ?_⟩
      simp [LockfreeThreads.leave, LockfreeAction.thread, LockfreePc.InArray]
  refine ⟨own.1, ?_⟩
  intro t
  by_cases eq : t = a.thread
  · rw [eq]
    exact own.2
  · rw [others t eq]
    exact threads t

/-- In every run, whatever the tags do, each access is to a node of the array. -/
theorem accesses_in_array (run : (lockfreeMachine T ι capacity).Reachable s log) {t : ι}
    {node : Nat} (touched : (s.threads t).pc.touches = some node) : node < nullHandle capacity := by
  have inArray : AllInArray (nullHandle capacity) s := by
    refine Machine.reach_invariant (I := fun s _ => AllInArray (nullHandle capacity) s)
      (create_in_array capacity) ?_ run
    intro s log a s' out _ inArray _ step
    exact in_array_step inArray (lockfree_step step)
  exact touches_in_array (inArray.threads t) touched

/-- A thread follows the head that it loaded to a node that is in the freelist now. -/
theorem stale_access_in_array : ∃ s log, (lockfreeMachine Nat (Fin 2) 1).Reachable s log ∧
    s.memory.pool.index = 1 ∧ (s.threads 0).pc.touches = some 1 ∧ 1 < nullHandle 1 := by
  obtain ⟨s, log, run, free, touched⟩ := Machine.reachable_of_exec (lockfreeMachine Nat (Fin 2) 1)
    (List.flatten [[.call 0 (.pop 0)], stepsOf 0 2, [.call 1 (.boundedPush 5)], stepsOf 1 12,
      [.call 1 (.pop 0)], stepsOf 1 10])
    (fun s _ => s.memory.pool.index = 1 ∧ (s.threads 0).pc.touches = some 1) (by decide +kernel)
  exact ⟨s, log, run, free, touched, accesses_in_array run touched⟩

end Runs

end MappedQueue
