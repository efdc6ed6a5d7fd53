import MappedQueue.Concurrency.Locality
import MappedQueue.SparedErasures

/-!
The whole `SafeUnorderedMap` and its threads. A call goes to the bucket that its key
hashes to and takes no other lock than that bucket's. A thread is inside one call at
a time, and may keep a `Reference` into one bucket while it calls another.
-/
namespace MappedQueue
open Concurrency

def BucketPc.outside {Key Value : Type} : BucketPc Key Value → Bool
  | .idle | .reference _ _ => true
  | _ => false

abbrev MapThreads {Key : Type} (h : Hashing Key) (Value ι : Type) :=
  Fin h.numberOfBuckets → BucketThreads Key Value ι

namespace MapThreads
variable {Key Value ι : Type} {h : Hashing Key}

/-- `HashMap::Get` chooses the bucket of a call. -/
def Directed (b : Fin h.numberOfBuckets) : BucketAction Key Value ι → Prop
  | .call _ call => h.bucket call.key = b
  | _ => True

instance (b : Fin h.numberOfBuckets) (a : BucketAction Key Value ι) :
    Decidable (Directed b a) := by
  cases a <;> simp only [Directed] <;> infer_instance

/-- The thread that acts in a bucket is not inside a call to another one. -/
def Admits (s : MapThreads h Value ι) (b : Fin h.numberOfBuckets)
    (a : BucketAction Key Value ι) : Prop :=
  Directed b a ∧ ∀ other, other ≠ b → ((s other).threads a.thread).pc.outside = true

instance (s : MapThreads h Value ι) (b : Fin h.numberOfBuckets) (a : BucketAction Key Value ι) :
    Decidable (Admits s b a) :=
  inferInstanceAs (Decidable (_ ∧ _))

abbrev Log (h : Hashing Key) (Value ι : Type) :=
  List (Fin h.numberOfBuckets × BucketEntry Key Value ι)

def history (log : Log h Value ι) :
    List (Mark (Fin h.numberOfBuckets × (ι × Nat)) (BucketCall Key Value)) :=
  log.filterMap fun x => x.2.toMark.map (Mark.within x.1)

theorem mem_history {log : Log h Value ι} {b : Fin h.numberOfBuckets}
    {m : Mark (ι × Nat) (BucketCall Key Value)} :
    m.within b ∈ history log ↔ (b, .mark m) ∈ log := by
  unfold history
  simp only [List.mem_filterMap, Option.map_eq_some_iff, Prod.exists]
  constructor
  · rintro ⟨c, x, member, m', mark, same⟩
    cases x with
    | read d value => contradiction
    | mark m'' =>
      cases mark
      obtain ⟨rfl, rfl⟩ : c = b ∧ m' = m := by
        cases m <;> cases m' <;> cases same <;> exact ⟨rfl, rfl⟩
      exact member
  · intro member
    exact ⟨b, _, member, m, rfl, rfl⟩

theorem history_component (b : Fin h.numberOfBuckets) (log : Log h Value ι) :
    Mark.localTo b (history log) = BucketThreads.history (Machine.component b log) := by
  unfold Mark.localTo history BucketThreads.history Machine.component
  rw [List.filterMap_filterMap, List.filterMap_filterMap]
  congr 1
  funext x
  obtain ⟨c, entry⟩ := x
  by_cases own : c = b
  · subst own
    cases entry with
    | read d value => simp [BucketEntry.toMark]
    | mark m => cases m <;> simp [BucketEntry.toMark, Mark.within, Mark.object, Mark.inside]
  · cases entry with
    | read d value => simp [BucketEntry.toMark, own]
    | mark m => cases m <;> simp [BucketEntry.toMark, Mark.within, Mark.object, own]

end MapThreads

def mapMachine {Key Value : Type} (ι : Type) [DecidableEq ι] [DecidableEq Key] [Inhabited Value]
    (h : Hashing Key) (served : BucketCall Key Value → Bool) :
    Machine (MapThreads h Value ι) (Fin h.numberOfBuckets × BucketAction Key Value ι)
      (Fin h.numberOfBuckets × BucketEntry Key Value ι) :=
  Machine.family (fun _ => bucketMachine ι served) MapThreads.Admits

end MappedQueue
