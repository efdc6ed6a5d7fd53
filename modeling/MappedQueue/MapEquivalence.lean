import MappedQueue.MapTraits

/-!
What the two maps answer to one sequence of calls. The map under a mutex answers
with the latest listener set for the key. The bucketed map answers with whatever
the first call for the key left there, because neither `Set` nor `GetAndCreate`
replaces an entry. The answers agree on exactly the sequences in which these two
are the same listener at every lookup.
-/
namespace MappedQueue
open Concurrency

inductive MapCall (Key Listener : Type) where
  | addToMap (key : Key) (listener : Option Listener)
  | getFromMap (key : Key)
  deriving DecidableEq, Repr

variable {Key Listener : Type}

def MapTraits.answers (T : MapTraits Key Listener) : T.Map → List (MapCall Key Listener) →
    List (Option Listener)
  | _, [] => []
  | map, .addToMap key listener :: rest => answers T (T.addToMap map key listener) rest
  | map, .getFromMap key :: rest =>
    ((T.getFromMap key).run map).2 :: answers T ((T.getFromMap key).run map).1 rest

def repliesFrom (view : List (MapCall Key Listener) → Key → Option Listener) :
    List (MapCall Key Listener) → List (MapCall Key Listener) → List (Option Listener)
  | _, [] => []
  | past, .addToMap key listener :: rest =>
    repliesFrom view (past ++ [.addToMap key listener]) rest
  | past, .getFromMap key :: rest =>
    view past key :: repliesFrom view (past ++ [.getFromMap key]) rest

theorem replies_eq_iff (view view' : List (MapCall Key Listener) → Key → Option Listener)
    (past calls : List (MapCall Key Listener)) :
    repliesFrom view past calls = repliesFrom view' past calls ↔
      ∀ before key after, calls = before ++ .getFromMap key :: after →
        view (past ++ before) key = view' (past ++ before) key := by
  induction calls generalizing past with
  | nil => simp [repliesFrom]
  | cons call rest ih =>
    have later : (∀ before key after, rest = before ++ .getFromMap key :: after →
          view (past ++ [call] ++ before) key = view' (past ++ [call] ++ before) key) ↔
        ∀ before key after, call :: rest = (call :: before) ++ .getFromMap key :: after →
          view (past ++ call :: before) key = view' (past ++ call :: before) key := by
      simp
    cases call with
    | addToMap key listener =>
      simp only [repliesFrom, ih]
      rw [later]
      constructor
      · intro h before k after parts
        cases before with
        | nil => simp at parts
        | cons first before =>
          obtain ⟨rfl, _⟩ := List.cons.inj parts
          exact h before k after parts
      · intro h before k after parts
        exact h _ k after parts
    | getFromMap key =>
      simp only [repliesFrom, List.cons.injEq, ih]
      rw [later]
      constructor
      · rintro ⟨now, h⟩ before k after parts
        cases before with
        | nil =>
          obtain ⟨same, _⟩ := List.cons.inj parts
          cases same
          simpa using now
        | cons first before =>
          obtain ⟨rfl, _⟩ := List.cons.inj parts
          exact h before k after parts
      · intro h
        exact ⟨by simpa using h [] key rest rfl, fun before k after parts => h _ k after parts⟩

section Views
variable [DecidableEq Key]

def MapCall.touches (key : Key) : MapCall Key Listener → Option (Option Listener)
  | .addToMap other listener => if other = key then some listener else none
  | .getFromMap other => if other = key then some none else none

def MapCall.adds (key : Key) : MapCall Key Listener → Option (Option Listener)
  | .addToMap other listener => if other = key then some listener else none
  | .getFromMap _ => none

/-- The listener of the first call for the key, null where that was a lookup. -/
def firstTouch (calls : List (MapCall Key Listener)) (key : Key) : Option Listener :=
  (calls.findSome? (MapCall.touches key)).getD none

/-- The listener of the latest `AddToMap` for the key, null where there was none. -/
def latestAdd (calls : List (MapCall Key Listener)) (key : Key) : Option Listener :=
  (calls.reverse.findSome? (MapCall.adds key)).getD none

/-- The first call for a key settles it: at every lookup, the latest listener
    added for the key is the one that the first call for the key put there. -/
def FirstCallSettles (calls : List (MapCall Key Listener)) : Prop :=
  ∀ before key after, calls = before ++ .getFromMap key :: after →
    firstTouch before key = latestAdd before key

theorem latest_after_add (past : List (MapCall Key Listener)) (key other : Key)
    (listener : Option Listener) : latestAdd (past ++ [.addToMap key listener]) other =
      if other = key then listener else latestAdd past other := by
  simp only [latestAdd, List.reverse_append, List.reverse_cons, List.reverse_nil, List.nil_append,
    List.cons_append, List.findSome?_cons, MapCall.adds]
  split
  · rename_i hit
    split at hit <;> simp_all
  · rename_i miss
    split at miss
    · simp at miss
    · rename_i ne
      simp [Ne.symm ne]

theorem latest_after_get (past : List (MapCall Key Listener)) (key other : Key) :
    latestAdd (past ++ [.getFromMap key]) other = latestAdd past other := by
  simp [latestAdd, MapCall.adds, List.findSome?_cons]

theorem touched_after (past : List (MapCall Key Listener)) (call : MapCall Key Listener)
    (key : Key) : (past ++ [call]).findSome? (MapCall.touches key) =
      (past.findSome? (MapCall.touches key)).or (call.touches key) := by
  simp [List.findSome?_append, List.findSome?_cons]
  cases call.touches key <;> rfl

end Views

section Answers
variable [DecidableEq Key] {h : Hashing Key}

theorem stored_after_set {map : SafeUnorderedMap h (Option Listener)}
    {past : List (MapCall Key Listener)} {call : MapCall Key Listener} {key : Key}
    {listener : Option Listener}
    (known : ∀ k, map.stored k = past.findSome? (MapCall.touches k))
    (touch : ∀ k, call.touches k = if key = k then some listener else none) :
    ∀ k, (map.set key listener).stored k = (past ++ [call]).findSome? (MapCall.touches k) := by
  intro k
  rw [touched_after, ← known k, touch k]
  by_cases eq : key = k
  · subst eq
    rw [SafeUnorderedMap.stored_set]
    cases map.stored key <;> simp
  · rw [SafeUnorderedMap.stored_set_ne _ (Ne.symm eq)]
    simp [eq]

theorem safe_answers (past calls : List (MapCall Key Listener))
    (map : SafeUnorderedMap h (Option Listener))
    (known : ∀ k, map.stored k = past.findSome? (MapCall.touches k)) :
    (SafeMapTraits Listener h).answers map calls = repliesFrom firstTouch past calls := by
  induction calls generalizing past map with
  | nil => rfl
  | cons call rest ih =>
    cases call with
    | addToMap key listener =>
      exact ih _ _ (stored_after_set known fun k => rfl)
    | getFromMap key =>
      have run := SafeUnorderedMap.run_getAndCreate map key
      simp only [MapTraits.answers, repliesFrom, SafeMapTraits, run, List.cons.injEq]
      constructor
      · rw [known key]
        rfl
      · exact ih _ _ (stored_after_set known fun k => rfl)

theorem mutex_answers (past calls : List (MapCall Key Listener))
    (data : StdMap Key (Option Listener))
    (known : ∀ k, (data.lookup k).getD none = latestAdd past k) :
    (MapWithMutexTraits Key Listener).answers data calls = repliesFrom latestAdd past calls := by
  induction calls generalizing past data with
  | nil => rfl
  | cons call rest ih =>
    cases call with
    | addToMap key listener =>
      refine ih _ (data.insert key listener) fun k => ?_
      rw [latest_after_add]
      by_cases eq : k = key
      · subst eq
        simp
      · simp [eq, AList.lookup_insert_ne eq, known k]
    | getFromMap key =>
      have run : ((MapWithMutexTraits Key Listener).getFromMap key).run data =
          (data, (data.lookup key).getD none) := by
        cases found : data.lookup key <;> simp [MapWithMutexTraits, Sections.run, found]
      simp only [MapTraits.answers, repliesFrom, run, List.cons.injEq]
      exact ⟨known key, ih _ _ fun k => by rw [latest_after_get]; exact known k⟩

/-- The bucketed map and the map under a mutex answer alike exactly when the
    first call for a key settles what every later lookup of it has to return. -/
theorem safe_map_agrees_with_mutex_map_iff (h : Hashing Key) (calls : List (MapCall Key Listener)) :
    (SafeMapTraits Listener h).answers (SafeMapTraits Listener h).empty calls =
        (MapWithMutexTraits Key Listener).answers (MapWithMutexTraits Key Listener).empty calls ↔
      FirstCallSettles calls := by
  have safe := safe_answers (h := h) [] calls SafeUnorderedMap.empty (by simp)
  have mutex := mutex_answers [] calls (∅ : StdMap Key (Option Listener))
    (by simp [latestAdd])
  change (SafeMapTraits Listener h).answers SafeUnorderedMap.empty calls =
    (MapWithMutexTraits Key Listener).answers (∅ : StdMap Key (Option Listener)) calls ↔ _
  rw [safe, mutex, replies_eq_iff]
  simp [FirstCallSettles]

theorem safe_map_forgets_late_listener :
    (SafeMapTraits Nat ⟨id, 256, by decide⟩).answers
        (SafeMapTraits Nat ⟨id, 256, by decide⟩).empty
        [.getFromMap 1, .addToMap 1 (some 7), .getFromMap 1] = [none, none] ∧
      (MapWithMutexTraits Nat Nat).answers (MapWithMutexTraits Nat Nat).empty
        [.getFromMap 1, .addToMap 1 (some 7), .getFromMap 1] = [none, some 7] := by
  decide

end Answers

end MappedQueue
