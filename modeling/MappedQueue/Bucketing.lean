import MappedQueue.Concurrency.SequentialObject
import MappedQueue.SafeUnorderedMap

/-!
The bucketed map used by one thread beside a single flat `std::map` that receives
the same calls. Every key lives in the bucket it hashes to, and what is there for
it is what the flat map holds, whatever the hash makes of the keys.
-/
namespace MappedQueue
open Concurrency

inductive BucketCall (Key Value : Type) where
  | set (key : Key) (value : Value)
  | erase (key : Key)
  | getAndCreate (key : Key)
  deriving DecidableEq, Repr

variable {Key Value : Type} [DecidableEq Key] [Inhabited Value]

namespace BucketCall

def key : BucketCall Key Value → Key
  | .set key _ => key
  | .erase key => key
  | .getAndCreate key => key

def atomically (data : StdMap Key Value) : BucketCall Key Value → StdMap Key Value × Option Value
  | .set key value => (data.emplace key value, none)
  | .erase key => (AList.erase key data, none)
  | .getAndCreate key => (data.emplace key default, (data.emplace key default).lookup key)

end BucketCall

/-- The specification: one flat map. -/
def flatMap (Key Value : Type) [DecidableEq Key] [Inhabited Value] :
    SequentialObject (StdMap Key Value) (BucketCall Key Value) (Option Value) where
  init := ∅
  perform := BucketCall.atomically

namespace SafeUnorderedMap
variable {h : Hashing Key}

def perform (map : SafeUnorderedMap h Value) :
    BucketCall Key Value → SafeUnorderedMap h Value × Option Value
  | .set key value => (map.set key value, none)
  | .erase key => (map.erase key, none)
  | .getAndCreate key => (((getAndCreate key).run map).1, some ((getAndCreate key).run map).2)

def object (h : Hashing Key) (Value : Type) [Inhabited Value] :
    SequentialObject (SafeUnorderedMap h Value) (BucketCall Key Value) (Option Value) where
  init := empty
  perform := perform

theorem perform_stored (map : SafeUnorderedMap h Value) (data : StdMap Key Value)
    (call : BucketCall Key Value) (same : map.stored call.key = data.lookup call.key) :
    (map.perform call).1.stored call.key = (call.atomically data).1.lookup call.key ∧
      (map.perform call).2 = (call.atomically data).2 := by
  cases call with
  | set key value =>
    refine ⟨?_, rfl⟩
    have entry : map.stored key = data.lookup key := same
    change (map.set key value).stored key = (data.emplace key value).lookup key
    rw [stored_set, StdMap.lookup_emplace, entry]
  | erase key =>
    refine ⟨?_, rfl⟩
    change (map.erase key).stored key = (AList.erase key data).lookup key
    rw [stored_erase, AList.lookup_erase]
  | getAndCreate key =>
    have entry : map.stored key = data.lookup key := same
    simp only [perform, BucketCall.atomically, BucketCall.key, run_getAndCreate, stored_set,
      StdMap.lookup_emplace, entry, and_self]

theorem perform_stored_ne (map : SafeUnorderedMap h Value) (call : BucketCall Key Value)
    {other : Key} (ne : other ≠ call.key) : (map.perform call).1.stored other = map.stored other := by
  cases call with
  | set key value => exact stored_set_ne value ne
  | erase key => exact stored_erase_ne ne
  | getAndCreate key =>
    simp only [perform, run_getAndCreate]
    exact stored_set_ne default ne

theorem atomically_lookup_ne (data : StdMap Key Value) (call : BucketCall Key Value) {other : Key}
    (ne : other ≠ call.key) : (call.atomically data).1.lookup other = data.lookup other := by
  cases call with
  | set key value => exact StdMap.lookup_emplace_ne value ne
  | erase key => exact AList.lookup_erase_ne ne
  | getAndCreate key => exact StdMap.lookup_emplace_ne default ne

def Represents (map : SafeUnorderedMap h Value) (data : StdMap Key Value) : Prop :=
  ∀ key, map.stored key = data.lookup key

theorem simulates_flat_map (h : Hashing Key) :
    (object h Value).Simulates (flatMap Key Value) Represents where
  init := by
    intro key
    change (empty : SafeUnorderedMap h Value).stored key = (∅ : StdMap Key Value).lookup key
    rw [stored_empty, AList.lookup_empty]
  step := by
    intro map data call same key
    change (map.perform call).1.stored key = (call.atomically data).1.lookup key
    by_cases own : key = call.key
    · subst own
      exact (perform_stored map data call (same _)).1
    · rw [perform_stored_ne map call own, atomically_lookup_ne data call own]
      exact same key
  reply := by
    intro map data call same
    exact (perform_stored map data call (same _)).2

def Placed (map : SafeUnorderedMap h Value) : Prop := ∀ b key, key ∈ map b → h.bucket key = b

omit [DecidableEq Key] [Inhabited Value] in
theorem placed_put {map : SafeUnorderedMap h Value} {key : Key} {data : Bucket Key Value}
    (placed : map.Placed) (keys : ∀ other ∈ data, other = key ∨ other ∈ map (h.bucket key)) :
    (map.put key data).Placed := by
  intro b other member
  unfold put at member
  by_cases own : b = h.bucket key
  · subst own
    rw [Function.update_self] at member
    rcases keys other member with rfl | before
    · rfl
    · exact placed _ other before
  · rw [Function.update_of_ne own] at member
    exact placed b other member

theorem placed_perform {map : SafeUnorderedMap h Value} (call : BucketCall Key Value)
    (placed : map.Placed) : (map.perform call).1.Placed := by
  have set : ∀ key value, (map.set key value).Placed :=
    fun key value => placed_put placed fun other member => StdMap.mem_emplace member
  cases call with
  | set key value => exact set key value
  | erase key =>
    apply placed_put placed
    intro other member
    rw [Bucket.erase_eq, AList.mem_erase] at member
    exact Or.inr member.2
  | getAndCreate key =>
    simp only [perform, run_getAndCreate]
    exact set key default

def oneBucket (h : Hashing Key) : Hashing Key := ⟨h.hash, 1, Nat.one_pos⟩

/-- Whatever the hash and the number of buckets, the calls of a sequence return what
    they return on one flat map, every key is stored in its own bucket at most, and
    a call never changes what another key maps to. -/
theorem bucketing_invisible (h : Hashing Key) (calls : List (BucketCall Key Value)) :
    (object h Value).replies empty calls = (flatMap Key Value).replies ∅ calls ∧
      (object h Value).replies empty calls = (object (oneBucket h) Value).replies empty calls ∧
      (∀ b key, key ∈ (object h Value).after calls b → b.val = h.hash key % h.numberOfBuckets) ∧
      (∀ key, ((object h Value).after calls).stored key =
        ((flatMap Key Value).after calls).lookup key) ∧
      ∀ call other, other ≠ call.key → ((object h Value).after (calls ++ [call])).stored other =
        ((object h Value).after calls).stored other := by
  have flat : ∀ g : Hashing Key,
      (object g Value).replies empty calls = (flatMap Key Value).replies ∅ calls :=
    fun g => SequentialObject.simulates_replies (simulates_flat_map g) calls
  have placed : ((object h Value).after calls).Placed := by
    apply SequentialObject.after_keeps [] calls
    · intro b key member
      exact absurd member (AList.notMem_empty key)
    · intro map call _
      exact placed_perform call
  refine ⟨flat h, (flat h).trans (flat (oneBucket h)).symm, ?_, ?_, ?_⟩
  · intro b key member
    rw [← placed b key member]
    rfl
  · exact SequentialObject.simulates_after (simulates_flat_map h) calls
  · intro call other ne
    rw [SequentialObject.after_append]
    exact perform_stored_ne _ call ne

end SafeUnorderedMap

end MappedQueue
