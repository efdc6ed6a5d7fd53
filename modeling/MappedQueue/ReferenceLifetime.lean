import Mathlib.Data.Fintype.Basic
import MappedQueue.BucketMoves

/-!
What a `Reference` of a bucket designates. The shared lock that it holds keeps every
writer out of the map, so an entry that is there when the iterator is dereferenced
stays. Between the emplacement and that moment nobody holds the lock for the thread:
an `Erase` of the key that comes there leaves the iterator without its entry.
-/
namespace MappedQueue
open Concurrency

variable {Key Value ι : Type}

namespace BucketPc

def designates : BucketPc Key Value → Option (Key × Option (Node Key))
  | .getAndCreate key (.dereference found) => some (key, found)
  | .reference key pointer => some (key, pointer)
  | _ => none

/-- Between the exclusive lock an iterator was obtained under and the shared one. -/
def pending [DecidableEq Key] (key : Key) : BucketPc Key Value → Bool
  | .getAndCreate other (.relockShared _) => decide (other = key)
  | _ => false

theorem designates_found {pc : BucketPc Key Value} {key : Key} {found : Option (Node Key)}
    (h : pc.designates = some (key, found)) :
    pc.found = some (key, found) ∧ pc.mode = some .shared := by
  unfold designates at h
  split at h
  · exact ⟨h, rfl⟩
  · exact ⟨h, rfl⟩
  · contradiction

theorem unlocked_found [DecidableEq Key] {pc : BucketPc Key Value} {key : Key}
    {found : Option (Node Key)} (keeps : pc.found = some (key, found)) (unlocked : pc.mode = none) :
    pc.pending key = true := by
  unfold BucketPc.found at keeps
  split at keeps
  · contradiction
  · cases keeps
    simp [pending]
  · contradiction
  · contradiction
  · contradiction

theorem pending_at [DecidableEq Key] {pc : BucketPc Key Value} {key : Key}
    (h : pc.pending key = true) : ∃ found, pc = .getAndCreate key (.relockShared found) := by
  unfold pending at h
  split at h
  · rw [of_decide_eq_true h]
    exact ⟨_, rfl⟩
  · contradiction

end BucketPc

namespace BucketThreads

def Held [DecidableEq ι] (s : BucketThreads Key Value ι) : Prop :=
  ∀ t, s.mutex.mode t = (s.threads t).pc.mode

variable [DecidableEq Key]

def IteratorsLive (s : BucketThreads Key Value ι) : Prop :=
  ∀ t key found, (s.threads t).pc.found = some (key, found) →
    s.memory.find key = found ∧ found.isSome = true

/-- No `Erase` of a key is executed while a `GetAndCreate` of the key has an iterator
    and is between its two locks. -/
def SparesPending (s : BucketThreads Key Value ι) (a : BucketAction Key Value ι) : Prop :=
  match (s.threads a.thread).pc with
  | .erase key .write => ∀ u, (s.threads u).pc.pending key = false
  | _ => True

instance [Fintype ι] (s : BucketThreads Key Value ι) (a : BucketAction Key Value ι) :
    Decidable (s.SparesPending a) := by
  unfold SparesPending
  generalize (s.threads a.thread).pc = pc
  rcases pc with _ | ⟨_, _, _⟩ | ⟨_, pos⟩ | ⟨_, _⟩ | ⟨_, _⟩ <;> try rcases pos with _ | _ | _
  all_goals dsimp only
  all_goals infer_instance

variable [DecidableEq ι] [Inhabited Value] {s s' : BucketThreads Key Value ι} {t : ι}
  {out : Option (BucketEntry Key Value ι)} {served : BucketCall Key Value → Bool}
  {log : List (BucketEntry Key Value ι)} {ok : BucketThreads Key Value ι →
    List (BucketEntry Key Value ι) → BucketAction Key Value ι → Prop}

theorem held_step (held : s.Held) (move : Move s t s' out) : s'.Held := by
  intro u
  rw [move_mutex (held t) move, move_threads move]
  by_cases own : u = t
  · subst own
    simp
  · simp [own, held u]

theorem held_run (run : (bucketMachine ι served).Reach ok s log) : s.Held := by
  refine Machine.reach_invariant (I := fun s _ => s.Held) ?_ ?_ run
  · intro t
    exact SharedMutex.mode_free
  · intro s log a s' out _ held _ step
    exact held_step held (step_moves step).1

omit [DecidableEq Key] [Inhabited Value] in
theorem wants_unheld (held : s.Held) (wants : (s.threads t).pc.wants ≠ none) :
    s.mutex.mode t = none := by
  rw [held t, BucketPc.wants_has_none wants]

theorem shared_keeps_memory {u : ι} (held : s.Held) (shared : (s.threads t).pc.mode = some .shared)
    (move : Move s u s' out) : s'.memory = s.memory := by
  rcases move_memory move with same | ⟨exclusive, _⟩
  · exact same
  · exfalso
    have writer : s.mutex.mode u = some .exclusive := by rw [held u, exclusive]
    have reader : s.mutex.mode t = some .shared := by rw [held t, shared]
    rw [SharedMutex.held_exclusive writer] at reader
    simp only [SharedMutex.mode] at reader
    split at reader <;> contradiction

theorem iterator_outlasts {u : ι} {key : Key} {node : Node Key} (held : s.Held)
    (move : Move s t s' out) (other : u ≠ t)
    (keeps : (s.threads u).pc.found = some (key, some node))
    (entry : s.memory.find key = some node)
    (spared : ∀ key, (s.threads t).pc = .erase key .write → (s.threads u).pc.pending key = false) :
    s'.memory.find key = some node := by
  rcases move_memory move with same | ⟨exclusive, ⟨emplaced, value, same⟩ | ⟨erased, pc, same⟩⟩
  · rw [same, entry]
  · rw [same]
    exact BucketMemory.find_emplace value entry
  · -- the writer excludes the other, which therefore has no lock at all
    have unlocked : (s.threads u).pc.mode = none := by
      rw [← held u]
      apply SharedMutex.exclusive_excludes _ other
      rw [held t, exclusive]
    have ne : key ≠ erased := by
      intro eq
      subst eq
      have pending := BucketPc.unlocked_found keeps unlocked
      simp [spared key pc] at pending
    rw [same, BucketMemory.find_erase_ne ne, entry]

theorem iterators_step (held : s.Held) (live : s.IteratorsLive) (move : Move s t s' out)
    (spared : ∀ key, (s.threads t).pc = .erase key .write →
      ∀ u, (s.threads u).pc.pending key = false) : s'.IteratorsLive := by
  intro u key found keeps
  by_cases own : u = t
  · subst own
    rcases move_found move keeps with ⟨before, same⟩ | now
    · rw [same]
      exact live u key found before
    · exact now
  · rw [move_threads move, Function.update_of_ne own] at keeps
    obtain ⟨entry, present⟩ := live u key found keeps
    obtain ⟨node, rfl⟩ := Option.isSome_iff_exists.mp present
    refine ⟨?_, present⟩
    apply iterator_outlasts held move own keeps entry
    intro erased pc
    exact spared erased pc u

theorem iterators_run
    (run : (bucketMachine ι served).Reach (fun s _ a => s.SparesPending a) s log) :
    s.IteratorsLive := by
  refine Machine.reach_invariant (I := fun s _ => s.IteratorsLive) ?_ ?_ run
  · intro t key found keeps
    contradiction
  · intro s log a s' out before live spares step
    apply iterators_step (held_run before) live (step_moves step).1
    intro key pc
    unfold SparesPending at spares
    rw [pc] at spares
    exact spares

theorem move_designates (move : Move s t s' out) {key : Key} {found : Option (Node Key)}
    (h : (s.threads t).pc.designates = some (key, found)) :
    (s.threads t).calls < (s'.threads t).calls ∨
      (s'.threads t).calls = (s.threads t).calls ∧
        (s'.threads t).pc.designates = some (key, found) := by
  cases move with
  | dereference pc => simpa [pc, goto, BucketPc.designates] using h
  | release pc => simp [leave]
  | read pc => exact Or.inr ⟨rfl, h⟩
  | _ pc => simp [pc, BucketPc.designates] at h

theorem move_calls (move : Move s t s' out) (u : ι) :
    (s.threads u).calls ≤ (s'.threads u).calls := by
  by_cases own : u = t
  · subst own
    cases move <;> simp [goto, leave]
  · rw [move_threads move, Function.update_of_ne own]

theorem reference_stays {key : Key} {found : Option (Node Key)} {log' : List _}
    (run : (bucketMachine ι served).Reachable s log)
    (h : (s.threads t).pc.designates = some (key, found))
    (later : (bucketMachine ι served).Continues s log s' log') :
    (s.threads t).calls < (s'.threads t).calls ∨
      (s'.threads t).calls = (s.threads t).calls ∧
        (s'.threads t).pc.designates = some (key, found) ∧ s'.memory = s.memory := by
  induction later with
  | refl => exact Or.inr ⟨rfl, h, rfl⟩
  | @next s₁ s₂ log₁ a out before step ih =>
    have move := (step_moves step).1
    rcases ih with done | ⟨calls, designates, memory⟩
    · exact Or.inl (Nat.lt_of_lt_of_le done (move_calls move t))
    · have held : s₁.Held := held_run (Machine.continues_reachable run before)
      have same := shared_keeps_memory held (BucketPc.designates_found designates).2 move
      rw [← calls, ← memory, same]
      by_cases own : t = a.thread
      · subst own
        rcases move_designates move designates with done | ⟨calls', designates'⟩
        · exact Or.inl done
        · exact Or.inr ⟨calls', designates', rfl⟩
      · refine Or.inr ?_
        rw [move_threads move, Function.update_of_ne own]
        exact ⟨rfl, designates, rfl⟩

/-- Wherever an iterator is dereferenced and its `Reference` in use, it is no null, it
    denotes the entry of the key, and until the thread is done with the call that entry
    stays, with its value. -/
def ReferencesLive (ι : Type) [DecidableEq ι] (served : BucketCall Key Value → Bool)
    (s : BucketThreads Key Value ι) (log : List (BucketEntry Key Value ι)) : Prop :=
  ∀ t key found, (s.threads t).pc.designates = some (key, found) →
    found ≠ none ∧ s.memory.find key = found ∧
      ∀ s' log', (bucketMachine ι served).Continues s log s' log' → s'.callId t = s.callId t →
        (s'.threads t).pc.designates = some (key, found) ∧ s'.memory.find key = found ∧
          s'.memory.data.lookup key = s.memory.data.lookup key

/-- In every run whose erasures spare the keys that a `GetAndCreate` has an iterator to
    and no lock for, every `Reference` designates a live entry. -/
theorem references_live_when_spared
    (run : (bucketMachine ι served).Reach (fun s _ a => s.SparesPending a) s log) :
    ReferencesLive ι served s log := by
  intro t key found h
  obtain ⟨entry, present⟩ := iterators_run run t key found (BucketPc.designates_found h).1
  refine ⟨?_, entry, ?_⟩
  · rintro rfl
    contradiction
  · intro s' log' later same
    have calls : (s'.threads t).calls = (s.threads t).calls := (Prod.mk.inj same).2
    rcases reference_stays (Machine.reach_reachable run) h later with done | ⟨_, kept, memory⟩
    · omega
    · rw [memory]
      exact ⟨kept, entry, rfl⟩

theorem references_live_beside_erase : ∃ s log,
    (bucketMachine (Fin 2) fun _ : BucketCall Nat Nat => true).Reach
      (fun s _ a => s.SparesPending a) s log ∧
    (s.threads 0).pc.designates = some (1, some ⟨1, 0⟩) ∧
    ReferencesLive (Fin 2) (fun _ => true) s log := by
  obtain ⟨s, log, run, place⟩ := Machine.reach_of_exec
    (bucketMachine (Fin 2) fun _ : BucketCall Nat Nat => true) (fun s _ a => s.SparesPending a)
    [.call 0 (.getAndCreate 1), .step 0, .step 0, .step 0, .step 0, .step 0, .step 0,
      .call 1 (.erase 2), .step 1, .step 1, .step 1, .step 0, .step 0]
    (fun s _ => (s.threads 0).pc.designates = some (1, some ⟨1, 0⟩)) (by decide)
  exact ⟨s, log, run, place, references_live_when_spared run⟩

theorem erase_finishes (served : BucketCall Key Value → Bool)
    (log : List (BucketEntry Key Value ι)) {key : Key} (held : s.mutex = .exclusive t)
    (pc : (s.threads t).pc = .erase key .write) :
    ∃ s' log', (bucketMachine ι served).Continues s log s' log' ∧ s'.mutex = .free ∧
      s'.memory = s.memory.erase key ∧ ∀ u, u ≠ t → s'.threads u = s.threads u := by
  have erase : (bucketMachine ι served).step s (.step t) =
      some ({ s with memory := s.memory.erase key }.goto t (.erase key .unlock),
        some (.mark (.applied (s.callId t) (.erase key)))) := by
    change s.threadStep t = _
    simp only [threadStep, pc, eraseStep]
  generalize next : { s with memory := s.memory.erase key }.goto t (.erase key .unlock) = s₁ at erase
  have there : (s₁.threads t).pc = .erase key .unlock := by simp [← next, goto]
  have unlock : (bucketMachine ι served).step s₁ (.step t) =
      some ({ s₁ with mutex := s₁.mutex.unlock }.leave t,
        some (.mark (.returned (s₁.callId t)))) := by
    change s₁.threadStep t = _
    simp only [threadStep, there, eraseStep]
  refine ⟨_, _, Machine.Continues.next (Machine.Continues.next Machine.Continues.refl erase) unlock,
    ?_, ?_, ?_⟩
  · rw [← next]
    change s.mutex.unlock = .free
    rw [held]
    rfl
  · rw [← next]
    rfl
  · intro u other
    simp [← next, goto, leave, other]

theorem relock_proceeds (served : BucketCall Key Value → Bool)
    (log : List (BucketEntry Key Value ι)) {key : Key} {found : Option (Node Key)} (free : s.mutex = .free)
    (pc : (s.threads t).pc = .getAndCreate key (.relockShared found)) :
    ∃ s' log', (bucketMachine ι served).Continues s log s' log' ∧
      (s'.threads t).pc.designates = some (key, found) ∧ s'.memory = s.memory := by
  have relock : (bucketMachine ι served).step s (.step t) =
      some ({ s with mutex := .shared (insert t ∅) }.goto t
        (.getAndCreate key (.dereference found)), none) := by
    change s.threadStep t = _
    simp only [threadStep, pc, getAndCreateStep, lockShared, free, SharedMutex.free,
      SharedMutex.lockShared]
  refine ⟨_, _, Machine.Continues.next Machine.Continues.refl relock, ?_, rfl⟩
  simp [goto, BucketPc.designates]

/-- The condition leaves out no harmless run: after an erasure that it rules out, the
    `GetAndCreate` can go on to dereference an iterator whose entry is gone. -/
theorem erase_while_pending_dangles {a : BucketAction Key Value ι}
    (run : (bucketMachine ι served).Reachable s log) (harms : ¬ s.SparesPending a) :
    ∃ s' log', (bucketMachine ι served).Continues s log s' log' ∧
      ¬ ReferencesLive ι served s' log' := by
  unfold SparesPending at harms
  split at harms
  · rename_i key pc
    obtain ⟨u, pending⟩ := not_forall.mp harms
    obtain ⟨found, gap⟩ := BucketPc.pending_at (eq_true_of_ne_false pending)
    have other : u ≠ a.thread := by
      rintro rfl
      rw [pc] at gap
      contradiction
    have exclusive : s.mutex = .exclusive a.thread := by
      apply SharedMutex.held_exclusive
      rw [held_run run a.thread, pc]
      rfl
    obtain ⟨s₁, log₁, erased, free, memory, others⟩ := erase_finishes served log exclusive pc
    have waiting : (s₁.threads u).pc = .getAndCreate key (.relockShared found) := by
      rw [others u other, gap]
    obtain ⟨s₂, log₂, relocked, designates, same⟩ := relock_proceeds served log₁ free waiting
    refine ⟨s₂, log₂, Machine.continues_trans erased relocked, ?_⟩
    intro live
    obtain ⟨nonnull, entry, _⟩ := live u key found designates
    rw [same, memory, BucketMemory.find_erase] at entry
    exact nonnull entry.symm
  · exact absurd trivial harms

/-- The `Erase` runs between the two locks of a `GetAndCreate` that has just created
    the entry, and the iterator is dereferenced after the entry is gone. -/
theorem reference_dangles_after_erase : ∃ s log,
    (bucketMachine (Fin 2) fun _ : BucketCall Nat Nat => true).Reachable s log ∧
    (s.threads 0).pc = .reference 1 (some ⟨1, 0⟩) ∧ s.memory.find 1 = none ∧
    ¬ ReferencesLive (Fin 2) (fun _ => true) s log := by
  obtain ⟨s, log, run, place, gone⟩ := Machine.reachable_of_exec
    (bucketMachine (Fin 2) fun _ : BucketCall Nat Nat => true)
    [.call 0 (.getAndCreate 1), .step 0, .step 0, .step 0, .step 0, .step 0, .step 0,
      .call 1 (.erase 1), .step 1, .step 1, .step 1, .step 0, .step 0]
    (fun s _ => (s.threads 0).pc = .reference 1 (some ⟨1, 0⟩) ∧ s.memory.find 1 = none) (by decide)
  refine ⟨s, log, run, place, gone, ?_⟩
  intro live
  have entry := (live 0 1 (some ⟨1, 0⟩) (by rw [place]; rfl)).2.1
  rw [gone] at entry
  contradiction

end BucketThreads

end MappedQueue
