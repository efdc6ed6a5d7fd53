import MappedQueue.ReferenceLifetime

/-!
The lock-level steps of a `GetAndCreate` against its critical sections. A thread does
by itself the sections of the call one after another, each at the access it makes
under a lock, and what the others do meanwhile leaves it the same sections to do.
-/
namespace MappedQueue
open Concurrency

variable {Key Value ι : Type} [DecidableEq Key] [Inhabited Value]

namespace Bucket

def lookAgain (key : Key) : Sections (Bucket Key Value) Value :=
  .atomic id fun data => .ret ((data.lookup key).getD default)

def create (key : Key) : Sections (Bucket Key Value) Value :=
  .atomic (fun data => data.emplace key default) fun _ => lookAgain key

end Bucket

/-- What is left to do of a `GetAndCreate`, its result once it has its iterator under
    the shared lock that the `Reference` keeps. -/
def BucketPc.remaining (memory : BucketMemory Key Value) :
    BucketPc Key Value → Option (Sections (Bucket Key Value) Value)
  | .getAndCreate key pos =>
    match pos with
    | .lockShared | .find => some (Bucket.getAndCreate key)
    | .unlockShared | .lock | .emplace => some (Bucket.create key)
    | .unlock _ | .relockShared _ => some (Bucket.lookAgain key)
    | .dereference found => some (.ret ((memory.read found).getD default))
  | .reference _ pointer => some (.ret ((memory.read pointer).getD default))
  | _ => none

namespace BucketThreads

def remaining (s : BucketThreads Key Value ι) (t : ι) : Option (Sections (Bucket Key Value) Value) :=
  (s.threads t).pc.remaining s.memory

inductive DoesSection (call : Sections (Bucket Key Value) Value) (data : Bucket Key Value) :
    Option (Sections (Bucket Key Value) Value) → Bucket Key Value → Prop where
  | stutter : DoesSection call data (some call) data
  | section {update next} (first : call = .atomic update next) :
      DoesSection call data (some (next data)) (update data)
  | finish {value} (done : call = .ret value) : DoesSection call data none data

variable [DecidableEq ι] {s s' : BucketThreads Key Value ι} {t u : ι}
  {out : Option (BucketEntry Key Value ι)} {served : BucketCall Key Value → Bool}
  {log : List (BucketEntry Key Value ι)}

theorem looks_first (key : Key) (data : Bucket Key Value) :
    DoesSection (Bucket.getAndCreate key) data
      (some (match data.lookup key with
        | some value => .ret value
        | none => Bucket.create key)) data :=
  DoesSection.section rfl

theorem own_step_section (live : s.IteratorsLive) (move : Move s t s' out)
    {call : Sections (Bucket Key Value) Value} (left : s.remaining t = some call) :
    DoesSection call s.memory.data (s'.remaining t) s'.memory.data := by
  unfold remaining at left ⊢
  cases move with
  | @hit key node pc entry =>
    rw [pc] at left
    cases left
    have read := BucketMemory.read_found entry
    obtain ⟨value, stored⟩ := Option.isSome_iff_exists.mp
      (AList.lookup_isSome.mpr (BucketMemory.find_present entry))
    have first := looks_first key s.memory.data
    rw [stored] at first
    simpa [goto, BucketPc.remaining, read, stored] using first
  | @miss key pc absent =>
    rw [pc] at left
    cases left
    have stored : s.memory.data.lookup key = none := (BucketMemory.read_found absent).symm
    have first := looks_first key s.memory.data
    rw [stored] at first
    simpa [goto, BucketPc.remaining] using first
  | @emplace key pc =>
    rw [pc] at left
    cases left
    simp only [goto, Function.update_self, BucketPc.remaining, BucketMemory.emplace_data]
    exact DoesSection.section rfl
  | @relockShared key found mutex pc taken =>
    have read := BucketMemory.read_found (live t key found (by rw [pc]; rfl)).1
    rw [pc] at left
    cases left
    simp only [goto, Function.update_self, BucketPc.remaining, read]
    exact DoesSection.section rfl
  | release pc =>
    rw [pc] at left
    cases left
    simpa [leave, BucketPc.remaining] using DoesSection.finish rfl
  | read pc =>
    rw [left]
    exact DoesSection.stutter
  | lockShared pc taken | unlockShared pc | lock pc taken | unlock pc | dereference pc =>
    rw [pc] at left
    cases left
    simpa [goto, BucketPc.remaining] using DoesSection.stutter
  | _ pc =>
    rw [pc] at left
    contradiction

theorem unshared_remaining {pc : BucketPc Key Value}
    (unshared : pc.mode ≠ some .shared) (memory memory' : BucketMemory Key Value) :
    pc.remaining memory = pc.remaining memory' := by
  cases pc with
  | getAndCreate key pos =>
    cases pos with
    | dereference found => exact absurd rfl unshared
    | _ => rfl
  | reference key pointer => exact absurd rfl unshared
  | _ => rfl

theorem other_step_section (held : s.Held) (move : Move s u s' out) (other : t ≠ u) :
    s'.remaining t = s.remaining t := by
  unfold remaining
  rw [move_threads move, Function.update_of_ne other]
  by_cases shared : (s.threads t).pc.mode = some .shared
  · rw [shared_keeps_memory held shared move]
  · exact unshared_remaining shared _ _

/-- In every run whose erasures spare the pending iterators, a `GetAndCreate` begins as
    its sections, each step of its thread does the next of them or nothing, and no step
    of another thread changes what is left of them. -/
theorem getAndCreate_refines_sections
    (run : (bucketMachine ι served).Reach (fun s _ a => s.SparesPending a) s log)
    {a : BucketAction Key Value ι} (step : (bucketMachine ι served).step s a = some (s', out)) :
    (∀ t key, a = .call t (.getAndCreate key) →
        s'.remaining t = some (Bucket.getAndCreate key)) ∧
      (∀ call, s.remaining a.thread = some call →
        DoesSection call s.memory.data (s'.remaining a.thread) s'.memory.data) ∧
      ∀ t, t ≠ a.thread → s'.remaining t = s.remaining t := by
  have move := (step_moves step).1
  refine ⟨?_, ?_, ?_⟩
  · intro t key eq
    subst eq
    simp only [bucketMachine, callStep] at step
    split at step
    · split at step
      · cases step
        simp [remaining, goto, entrance, BucketPc.remaining]
      · contradiction
    · contradiction
  · intro call left
    exact own_step_section (iterators_run run) move left
  · intro t other
    exact other_step_section (held_run run) move other

end BucketThreads

end MappedQueue
