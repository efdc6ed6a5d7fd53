import MappedQueue.BucketSections
import MappedQueue.LockDiscipline

/-!
The lookup of a pool over `SafeUnorderedMap` beside `GetAndCreate` at the level of its
lock operations. The pool's machine counts the sections of a lookup and takes the
bucket's mutex for each of them anew; the call itself, which unlocks and locks again on
a miss, arrives at each of its acquisitions with the mutex given up, with as many
sections behind it, and acquires in the mode that the count tells.
-/
namespace MappedQueue
open Concurrency

variable {Key Value Listener ι : Type} [DecidableEq Key]

/-- What is left of a `GetAndCreate` when it locks for section number `done`. -/
def Bucket.lookupAfter [Inhabited Value] (key : Key) (done : Nat) :
    Sections (Bucket Key Value) Value :=
  if done = 0 then Bucket.getAndCreate key
  else if done = 1 then Bucket.create key
  else Bucket.lookAgain key

def GetAndCreatePc.locksFor : GetAndCreatePc Key → Option Nat
  | .lockShared => some 0
  | .lock => some 1
  | .relockShared _ => some 2
  | _ => none

namespace SafeUnorderedMap
variable {h : Hashing Key}

def lookupAfter (h : Hashing Key) (key : Key) (done : Nat) :
    Sections (SafeUnorderedMap h (Option Listener)) (Option Listener) :=
  (Bucket.lookupAfter key done).within (fun map => map (h.bucket key)) fun map data =>
    map.put key data

theorem section_leads_on (key : Key) {done : Nat}
    {update : SafeUnorderedMap h (Option Listener) → SafeUnorderedMap h (Option Listener)}
    {next : SafeUnorderedMap h (Option Listener) →
      Sections (SafeUnorderedMap h (Option Listener)) (Option Listener)}
    (left : .atomic update next = lookupAfter h key done) (map : SafeUnorderedMap h (Option Listener)) :
    (∃ listener, next map = .ret listener) ∨ next map = lookupAfter h key (done + 1) := by
  unfold lookupAfter Bucket.lookupAfter at left
  split at left
  · rename_i first
    cases left
    cases found : (map (h.bucket key)).lookup key with
    | some listener => exact Or.inl ⟨listener, by simp [found, Sections.within]⟩
    | none =>
      subst first
      exact Or.inr (by simp [found, lookupAfter, Bucket.lookupAfter, Bucket.create,
        Bucket.lookAgain])
  · split at left
    · rename_i second
      subst second
      cases left
      exact Or.inr rfl
    · cases left
      exact Or.inl ⟨_, rfl⟩

end SafeUnorderedMap

abbrev safeLocks (queue : QueueLocks Key Value) (Listener : Type) (h : Hashing Key) :
    LockedTraits Key Value Listener :=
  ⟨queue, safeMapLocks Listener h⟩

namespace LockedPool
variable {queue : QueueLocks Key Value} {h : Hashing Key} {thrd : ι}
  {s s' : LockedPool (safeLocks queue Listener h) ι}

def SectionsCounted (s : LockedPool (safeLocks queue Listener h) ι) : Prop :=
  ∀ update next, s.pool.consumer.pc = .getFromMap (.atomic update next) →
    .atomic update next = SafeUnorderedMap.lookupAfter h s.pool.consumer.node.key s.sections

variable [DecidableEq ι] {a : QueuePool.Action Key Value Listener ι}
  {out : Option (Entry Key Value Listener ι)}

theorem counted_consumer {woken : Option ι} {pool : QueuePool (safeLocks queue Listener h).pool ι}
    {inner : List (ι × Mutex × HoldMode)} (counted : s.SectionsCounted)
    (move : QueuePool.ConsumerMove s.pool woken pool out) :
    (⟨pool, inner, s.sectionsAfter (.consumer woken)⟩ :
      LockedPool (safeLocks queue Listener h) ι).SectionsCounted := by
  intro update next there
  cases move with
  | lookup pc =>
    have none_done : s.sectionsAfter (.consumer woken) = 0 := by simp [sectionsAfter, pc]
    rw [none_done]
    exact (ConsumerPc.getFromMap.inj there).symm
  | @mapSection before rest pc =>
    have one_more : s.sectionsAfter (.consumer woken) = s.sections + 1 := by
      simp [sectionsAfter, pc]
    rw [one_more]
    have leads : rest s.pool.map = .atomic update next := ConsumerPc.getFromMap.inj there
    rcases SafeUnorderedMap.section_leads_on _ (counted _ _ pc) s.pool.map with
      ⟨listener, ended⟩ | later
    · rw [ended] at leads
      contradiction
    · exact leads.symm.trans later
  | pop pc | miss pc => rcases pc with ⟨_, rfl⟩ | ⟨_, rfl⟩ <;> contradiction
  | _ => contradiction

theorem counted_step (counted : s.SectionsCounted) (move : LockedMove thrd s a s' out) :
    s'.SectionsCounted := by
  have access : ∀ pool inner, s.pool.step a = some (pool, out) →
      (⟨pool, inner, s.sectionsAfter a⟩ :
        LockedPool (safeLocks queue Listener h) ι).SectionsCounted := by
    intro pool inner inside
    cases QueuePool.step_moves inside with
    | client move =>
      intro update next there
      rw [QueuePool.client_keeps_consumer move] at there ⊢
      exact counted update next there
    | consumer move => exact counted_consumer counted move
    | call | wakeProducer | wakeWaiter | wakeConsumer => exact counted
  cases move with
  | acquire => exact counted
  | plain may need inside => exact access _ _ inside
  | locked may need got inside => exact access _ _ inside

end LockedPool

section Runs
variable [DecidableEq ι] {queue : QueueLocks Key Value} {h : Hashing Key} {thrd : ι}
  {signed : Bool} {junk : QueueNode Key Value} {served : BucketCall Key (Option Listener) → Bool}

theorem sections_counted {s : LockedPool (safeLocks queue Listener h) ι}
    {log : List (Entry Key Value Listener ι)}
    (run : (lockedMachine (safeLocks queue Listener h) thrd signed junk).Reachable s log) :
    s.SectionsCounted := by
  refine Machine.reach_invariant (I := fun s _ => s.SectionsCounted) ?_ ?_ run
  · intro update next there
    contradiction
  · intro s log a s' out _ counted _ step
    exact LockedPool.counted_step counted (LockedPool.locked_moves step)

theorem acquired_as_wanted {b b' : BucketThreads Key (Option Listener) ι} {t : ι} {mode : HoldMode}
    {out : Option (BucketEntry Key (Option Listener) ι)} (held : b.Held)
    (wants : (b.threads t).pc.wants = some mode) (step : b.threadStep t = some (b', out)) :
    b'.mutex.mode t = some mode := by
  rw [BucketThreads.held_step held (BucketThreads.thread_moves step) t]
  cases BucketThreads.thread_moves step with
  | setLock pc | eraseLock pc | lockShared pc | lock pc | relockShared pc =>
    rw [pc] at wants
    simpa [BucketThreads.goto, BucketPc.mode, BucketPc.wants] using wants
  | _ pc =>
    rw [pc] at wants
    simp [BucketPc.wants] at wants

/-- A thread that is about to lock for a section of its `GetAndCreate` has given the mutex
    up, has just that section and those after it to do, and gets the mutex in the mode in
    which the pool's machine takes it for this section. -/
theorem locks_for_section {b : BucketThreads Key (Option Listener) ι}
    {log : List (BucketEntry Key (Option Listener) ι)}
    (run : (bucketMachine ι served).Reachable b log) {t : ι} {key : Key} {pos : GetAndCreatePc Key}
    (pc : (b.threads t).pc = .getAndCreate key pos) {done : Nat} (locks : pos.locksFor = some done) :
    b.mutex.mode t = none ∧ b.remaining t = some (Bucket.lookupAfter key done) ∧
      ∀ b' out, b.threadStep t = some (b', out) →
        b'.mutex.mode t = some ((safeMapLocks Listener h).lookupMode done) := by
  have held := BucketThreads.held_run run
  have wants : (b.threads t).pc.wants = some ((safeMapLocks Listener h).lookupMode done) ∧
      b.remaining t = some (Bucket.lookupAfter key done) := by
    unfold BucketThreads.remaining
    rw [pc]
    cases pos with
    | lockShared | lock | relockShared =>
      cases locks
      exact ⟨rfl, rfl⟩
    | _ => contradiction
  exact ⟨BucketThreads.wants_unheld held (by simp [wants.1]), wants.2,
    fun b' out step => acquired_as_wanted held wants.1 step⟩

/-- So where the pool's machine takes a mutex for a section of its lookup, the call itself
    takes the same one in the same mode, with the same sections left, and holding nothing. -/
theorem lookup_locked_as_called {s : LockedPool (safeLocks queue Listener h) ι}
    {b : BucketThreads Key (Option Listener) ι} {log : List (Entry Key Value Listener ι)}
    {calls : List (BucketEntry Key (Option Listener) ι)}
    (run : (lockedMachine (safeLocks queue Listener h) thrd signed junk).Reachable s log)
    (calling : (bucketMachine ι served).Reachable b calls)
    {update next} (there : s.pool.consumer.pc = .getFromMap (.atomic update next))
    {t : ι} {pos : GetAndCreatePc Key}
    (pc : (b.threads t).pc = .getAndCreate s.pool.consumer.node.key pos)
    (locks : pos.locksFor = some s.sections) :
    ∃ mode left, (safeLocks queue Listener h).consumerDemand s.pool.consumer s.sections =
        some (.mapMutex (h.bucket s.pool.consumer.node.key), mode) ∧
      .atomic update next = left.within (fun map => map (h.bucket s.pool.consumer.node.key))
        (fun map data => map.put s.pool.consumer.node.key data) ∧
      b.remaining t = some left ∧ b.mutex.mode t = none ∧
      ∀ b' out, b.threadStep t = some (b', out) → b'.mutex.mode t = some mode := by
  obtain ⟨given, left, taken⟩ := locks_for_section calling pc locks (h := h)
  refine ⟨_, _, ?_, sections_counted run update next there, left, given, taken⟩
  simp only [LockedTraits.consumerDemand, there]
  rfl

end Runs

end MappedQueue
