import MappedQueue.SafeUnorderedMap

/-!
The two maps a pool can be built on, and what they answer to the same calls. A
listener is a `shared_ptr`, so `none` is the null one. `ExcludeFromMap` is left
out: neither traits class compiles it, and no call of a pool reaches it.
-/
namespace MappedQueue
open Concurrency

variable {Key Listener : Type}

/-- Every listener the map holds for a key has the warrant `G` for that key. -/
def Warranted {Map : Type} (stored : Map → Key → Option (Option Listener))
    (G : Key → Listener → Prop) (map : Map) : Prop :=
  ∀ key x, stored map key = some (some x) → G key x

structure MapTraits (Key Listener : Type) where
  Map : Type
  empty : Map
  addToMap : Map → Key → Option Listener → Map
  getFromMap : Key → Sections Map (Option Listener)
  stored : Map → Key → Option (Option Listener)
  stored_empty : ∀ key, stored empty key = none
  addToMap_stored : ∀ {map key listener other x}, stored (addToMap map key listener) other = some x →
    stored map other = some x ∨ other = key ∧ x = listener
  getFromMap_keeps : ∀ (G : Key → Listener → Prop) (key : Key),
    (getFromMap key).Keeps (Warranted stored G) fun listener => ∀ x, listener = some x → G key x

variable [DecidableEq Key]

def StdMap.stored (data : StdMap Key (Option Listener)) (key : Key) : Option (Option Listener) :=
  data.lookup key

namespace Bucket
open StdMap

theorem warranted_emplace_default {G : Key → Listener → Prop} {data : Bucket Key (Option Listener)}
    (key : Key) (warranted : Warranted stored G data) :
    Warranted stored G (data.emplace key default) := by
  intro other x entry
  by_cases eq : other = key
  · subst eq
    rw [stored, StdMap.lookup_emplace, Option.some.injEq] at entry
    cases old : data.lookup other with
    | none => simp [old] at entry
    | some listener => exact warranted other x (by simpa [stored, old] using entry)
  · rw [stored, StdMap.lookup_emplace_ne _ eq] at entry
    exact warranted other x entry

theorem getAndCreate_keeps (G : Key → Listener → Prop) (key : Key) :
    (getAndCreate key : Sections (Bucket Key (Option Listener)) _).Keeps (Warranted stored G)
      fun listener => ∀ x, listener = some x → G key x := by
  refine Sections.Keeps.atomic (fun _ warranted => warranted) fun data warranted => ?_
  cases found : data.lookup key with
  | some value =>
    refine Sections.Keeps.ret fun x eq => warranted key x ?_
    rw [stored, found, eq]
  | none =>
    refine Sections.Keeps.atomic (fun _ => warranted_emplace_default key) fun _ _ => ?_
    refine Sections.Keeps.atomic (fun _ warranted => warranted) fun data warranted => ?_
    refine Sections.Keeps.ret fun x eq => warranted key x ?_
    cases old : data.lookup key with
    | none => simp [old] at eq
    | some listener => simpa [stored, old] using eq

end Bucket

namespace SafeUnorderedMap
variable {h : Hashing Key}

/- A bucket is judged only by the keys that hash to it. -/
theorem getAndCreate_keeps (G : Key → Listener → Prop) (key : Key) :
    (getAndCreate key : Sections (SafeUnorderedMap h (Option Listener)) _).Keeps
      (Warranted stored G) fun listener => ∀ x, listener = some x → G key x := by
  have local_keeps := Bucket.getAndCreate_keeps
    (fun other (x : Listener) => h.bucket other = h.bucket key → G other x) key
  unfold getAndCreate
  refine Sections.keeps_imp (Sections.keeps_within ?_ ?_ local_keeps) ?_
  · intro map warranted other x entry same
    exact warranted other x (by rw [stored, same]; exact entry)
  · intro map data warranted kept other x entry
    by_cases same : h.bucket other = h.bucket key
    · refine kept other x ?_ same
      simpa [stored, put, same, StdMap.stored] using entry
    · refine warranted other x ?_
      simpa [stored, put, Function.update_of_ne same] using entry
  · intro listener allowed x eq
    exact allowed x eq rfl

end SafeUnorderedMap

def SafeMapTraits (Listener : Type) (h : Hashing Key) : MapTraits Key Listener where
  Map := SafeUnorderedMap h (Option Listener)
  empty := SafeUnorderedMap.empty
  addToMap map key listener := map.set key listener
  getFromMap key := SafeUnorderedMap.getAndCreate key
  stored := SafeUnorderedMap.stored
  stored_empty := SafeUnorderedMap.stored_empty
  addToMap_stored := by
    intro map key listener other x entry
    by_cases eq : other = key
    · subst eq
      rw [SafeUnorderedMap.stored_set, Option.some.injEq] at entry
      cases old : SafeUnorderedMap.stored map other with
      | none => exact Or.inr ⟨rfl, by simpa [old] using entry.symm⟩
      | some listener => exact Or.inl (by simpa [old] using entry)
    · rw [SafeUnorderedMap.stored_set_ne _ eq] at entry
      exact Or.inl entry
  getFromMap_keeps := SafeUnorderedMap.getAndCreate_keeps

/-- A `std::map` under one mutex, assigned through `operator[]`. -/
def MapWithMutexTraits (Key Listener : Type) [DecidableEq Key] : MapTraits Key Listener where
  Map := StdMap Key (Option Listener)
  empty := ∅
  addToMap data key listener := data.insert key listener
  getFromMap key := .atomic id fun data =>
    match data.lookup key with
    | some listener => .ret listener
    | none => .ret none
  stored := StdMap.stored
  stored_empty := AList.lookup_empty
  addToMap_stored := by
    intro data key listener other x entry
    by_cases eq : other = key
    · subst eq
      exact Or.inr ⟨rfl, Option.some.inj (entry.symm.trans (AList.lookup_insert data))⟩
    · exact Or.inl ((AList.lookup_insert_ne eq).symm.trans entry)
  getFromMap_keeps := by
    intro G key
    refine Sections.Keeps.atomic (fun _ warranted => warranted) fun data warranted => ?_
    cases found : data.lookup key with
    | none => exact Sections.Keeps.ret (by simp)
    | some listener =>
      exact Sections.Keeps.ret fun x eq => warranted key x (found.trans (congrArg some eq))

end MappedQueue
