import Mathlib.Data.List.AList
import Mathlib.Logic.Function.Basic
import MappedQueue.Concurrency.Sections

/-!
The bucketed map with one reader-writer lock for each bucket. A call is modelled
by what it does between taking and releasing the lock of its bucket: `Set` and
`Erase` are one section each, `GetAndCreate` may give the lock up twice.
Values are stored inline, as a `shared_ptr` is.
-/
namespace MappedQueue
open Concurrency

variable {Key Value : Type} [DecidableEq Key]

/-- A `std::map`, keys equivalent under its order being equal. -/
abbrev StdMap (Key Value : Type) := AList fun _ : Key => Value

namespace StdMap

def emplace (data : StdMap Key Value) (key : Key) (value : Value) : StdMap Key Value :=
  if key ∈ data then data else data.insert key value

theorem lookup_emplace (data : StdMap Key Value) (key : Key) (value : Value) :
    (data.emplace key value).lookup key = some ((data.lookup key).getD value) := by
  unfold emplace
  split
  · rename_i present
    obtain ⟨old, eq⟩ := Option.isSome_iff_exists.mp (AList.lookup_isSome.mpr present)
    simp [eq]
  · rename_i absent
    simp [AList.lookup_eq_none.mpr absent]

theorem lookup_emplace_ne {data : StdMap Key Value} {key other : Key} (value : Value)
    (ne : other ≠ key) : (data.emplace key value).lookup other = data.lookup other := by
  unfold emplace
  split
  · rfl
  · exact AList.lookup_insert_ne ne

theorem lookup_emplace_hit {data : StdMap Key Value} {other : Key} {x : Value} (key : Key)
    (value : Value) (entry : data.lookup other = some x) :
    (data.emplace key value).lookup other = some x := by
  by_cases eq : other = key
  · subst eq
    rw [lookup_emplace, entry, Option.getD_some]
  · rw [lookup_emplace_ne value eq, entry]

theorem mem_emplace {data : StdMap Key Value} {key other : Key} {value : Value}
    (member : other ∈ data.emplace key value) : other = key ∨ other ∈ data := by
  unfold emplace at member
  split at member
  · exact Or.inr member
  · exact (AList.mem_insert data).mp member

end StdMap

structure Hashing (Key : Type) where
  hash : Key → Nat
  numberOfBuckets : Nat
  positive : 0 < numberOfBuckets

def Hashing.bucket (h : Hashing Key) (key : Key) : Fin h.numberOfBuckets :=
  ⟨h.hash key % h.numberOfBuckets, Nat.mod_lt _ h.positive⟩

abbrev Bucket (Key Value : Type) := StdMap Key Value

namespace Bucket

def set (data : Bucket Key Value) (key : Key) (value : Value) : Bucket Key Value :=
  data.emplace key value

/-- `data.found` and `found->Get()` read as `data.find` and `found->second.Get()`. -/
def erase (data : Bucket Key Value) (key : Key) : Bucket Key Value :=
  if key ∈ data then AList.erase key data else data

theorem erase_eq (data : Bucket Key Value) (key : Key) : data.erase key = AList.erase key data := by
  unfold erase
  split
  · rfl
  · rename_i absent
    refine AList.ext ?_
    exact (List.kerase_of_notMem_keys absent).symm

/-- A miss gives up the shared lock, emplaces a default value under the exclusive
    one and takes the shared lock again to read the entry its iterator denotes.
    The last read falls back on the default where that entry is gone, which is
    undefined behaviour in the source. -/
def getAndCreate [Inhabited Value] (key : Key) : Sections (Bucket Key Value) Value :=
  .atomic id fun data =>
    match data.lookup key with
    | some value => .ret value
    | none =>
      .atomic (fun data => data.emplace key default) fun _ =>
        .atomic id fun data => .ret ((data.lookup key).getD default)

end Bucket

abbrev SafeUnorderedMap (h : Hashing Key) (Value : Type) :=
  Fin h.numberOfBuckets → Bucket Key Value

namespace SafeUnorderedMap
variable {h : Hashing Key}

def empty : SafeUnorderedMap h Value := fun _ => ∅

def put (map : SafeUnorderedMap h Value) (key : Key) (data : Bucket Key Value) :
    SafeUnorderedMap h Value :=
  Function.update map (h.bucket key) data

def set (map : SafeUnorderedMap h Value) (key : Key) (value : Value) : SafeUnorderedMap h Value :=
  map.put key ((map (h.bucket key)).set key value)

def erase (map : SafeUnorderedMap h Value) (key : Key) : SafeUnorderedMap h Value :=
  map.put key ((map (h.bucket key)).erase key)

def getAndCreate [Inhabited Value] (key : Key) : Sections (SafeUnorderedMap h Value) Value :=
  (Bucket.getAndCreate key).within (fun map => map (h.bucket key)) fun map data => map.put key data

/-- What the map holds for a key: the entry in the bucket the key hashes to. -/
def stored (map : SafeUnorderedMap h Value) (key : Key) : Option Value :=
  (map (h.bucket key)).lookup key

@[simp] theorem stored_empty (key : Key) : (empty : SafeUnorderedMap h Value).stored key = none := by
  simp [stored, empty]

theorem stored_put (map : SafeUnorderedMap h Value) (key : Key) (data : Bucket Key Value) :
    (map.put key data).stored key = data.lookup key := by
  simp [stored, put]

theorem stored_put_ne {map : SafeUnorderedMap h Value} {key other : Key} {data : Bucket Key Value}
    (same : data.lookup other = (map (h.bucket key)).lookup other) :
    (map.put key data).stored other = map.stored other := by
  by_cases eq : h.bucket other = h.bucket key
  · simp [stored, put, eq, same]
  · simp [stored, put, Function.update_of_ne eq]

theorem stored_set (map : SafeUnorderedMap h Value) (key : Key) (value : Value) :
    (map.set key value).stored key = some ((map.stored key).getD value) := by
  rw [set, stored_put, Bucket.set, StdMap.lookup_emplace]
  rfl

theorem stored_set_first {map : SafeUnorderedMap h Value} {key : Key} (value : Value)
    (absent : map.stored key = none) : (map.set key value).stored key = some value := by
  rw [stored_set, absent, Option.getD_none]

theorem stored_set_ne {map : SafeUnorderedMap h Value} {key other : Key} (value : Value)
    (ne : other ≠ key) : (map.set key value).stored other = map.stored other :=
  stored_put_ne (StdMap.lookup_emplace_ne value ne)

theorem stored_erase (map : SafeUnorderedMap h Value) (key : Key) :
    (map.erase key).stored key = none := by
  rw [erase, stored_put, Bucket.erase_eq, AList.lookup_erase]

theorem stored_erase_ne {map : SafeUnorderedMap h Value} {key other : Key} (ne : other ≠ key) :
    (map.erase key).stored other = map.stored other := by
  apply stored_put_ne
  rw [Bucket.erase_eq, AList.lookup_erase_ne ne]

variable [Inhabited Value]

/-- Alone, `GetAndCreate` returns the entry or a default it has just inserted. -/
theorem run_getAndCreate (map : SafeUnorderedMap h Value) (key : Key) :
    (getAndCreate key).run map =
      (map.set key default, (map.stored key).getD default) := by
  have put_self : ∀ data, map (h.bucket key) = data → map.put key data = map := by
    rintro data rfl
    exact Function.update_eq_self _ _
  unfold getAndCreate
  rw [Sections.run_within (by simp [put]) (by simp [put]) _ _ (put_self _ rfl)]
  cases found : (map (h.bucket key)).lookup key with
  | some value =>
    have present : key ∈ map (h.bucket key) := AList.lookup_isSome.mp (by simp [found])
    simp [Bucket.getAndCreate, Sections.run, found, set, Bucket.set, StdMap.emplace, present,
      stored]
  | none =>
    simp [Bucket.getAndCreate, Sections.run, found, set, Bucket.set, stored,
      StdMap.lookup_emplace]

def NeverReplaces (map map' : SafeUnorderedMap h Value) : Prop :=
  ∀ key x, map.stored key = some x → map'.stored key = some x

omit [Inhabited Value] in
theorem set_never_replaces (map : SafeUnorderedMap h Value) (key : Key) (value : Value) :
    NeverReplaces map (map.set key value) := by
  intro other x entry
  by_cases eq : other = key
  · subst eq
    rw [stored_set, entry, Option.getD_some]
  · rw [stored_set_ne value eq, entry]

theorem getAndCreate_never_replaces (key : Key) :
    (getAndCreate key : Sections (SafeUnorderedMap h Value) Value).Guarantees NeverReplaces := by
  have in_bucket : (Bucket.getAndCreate key : Sections (Bucket Key Value) Value).Guarantees
      fun data data' => ∀ other x, data.lookup other = some x → data'.lookup other = some x := by
    refine Sections.Guarantees.atomic (fun _ _ _ entry => entry) fun data => ?_
    cases data.lookup key with
    | some value => exact Sections.Guarantees.ret
    | none =>
      refine Sections.Guarantees.atomic (fun _ _ _ => StdMap.lookup_emplace_hit key default) fun _ => ?_
      exact Sections.Guarantees.atomic (fun _ _ _ entry => entry) fun _ => Sections.Guarantees.ret
  refine Sections.guarantees_within ?_ in_bucket
  intro map data grows other x entry
  by_cases same : h.bucket other = h.bucket key
  · simp only [stored, put, same, Function.update_self]
    exact grows other x (by rw [← same]; exact entry)
  · simpa [stored, put, Function.update_of_ne same] using entry

/-- A lookup that begins over an entry returns it, whatever is added meanwhile. -/
theorem getAndCreate_hits (key : Key) (x : Value) :
    (getAndCreate key : Sections (SafeUnorderedMap h Value) Value).Keeps
      (fun map => map.stored key = some x) (· = x) := by
  have in_bucket : (Bucket.getAndCreate key : Sections (Bucket Key Value) Value).Keeps
      (fun data => data.lookup key = some x) (· = x) := by
    refine Sections.Keeps.atomic (fun _ entry => entry) fun data entry => ?_
    rw [entry]
    exact Sections.Keeps.ret rfl
  refine Sections.keeps_within ?_ ?_ in_bucket
  · intro map entry
    exact entry
  · intro map data _ entry
    rw [stored_put, entry]

end SafeUnorderedMap

end MappedQueue
