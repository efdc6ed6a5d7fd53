import Mathlib.Data.List.Basic
import Mathlib.Logic.Function.Basic

/-!
How many members of a family are in a place of some kind. One member moves at a
time, and the count follows it.
-/
namespace Concurrency

def census {θ φ : Type} (kind : φ → Bool) (members : List θ) (place : θ → φ) : Nat :=
  members.countP fun t => kind (place t)

section Counts
variable {θ φ : Type} {kind : φ → Bool} {members : List θ} {place place' : θ → φ}

theorem census_congr (same : ∀ t ∈ members, place' t = place t) :
    census kind members place' = census kind members place :=
  List.countP_congr fun t member => by rw [same t member]

theorem census_cons (t : θ) :
    census kind (t :: members) place =
      census kind members place + if kind (place t) then 1 else 0 :=
  List.countP_cons

theorem census_eq_zero_iff :
    census kind members place = 0 ↔ ∀ t ∈ members, kind (place t) = false := by
  simp [census, List.countP_eq_zero]

/-- One member moves: the count loses its old place and gains its new one. -/
theorem census_update [DecidableEq θ] {t : θ} (distinct : members.Nodup) (member : t ∈ members)
    (there : φ) :
    census kind members (Function.update place t there) + (if kind (place t) then 1 else 0) =
      census kind members place + if kind there then 1 else 0 := by
  induction members with
  | nil => simp at member
  | cons u rest ih =>
    obtain ⟨apart, distinct⟩ := List.nodup_cons.mp distinct
    rw [census_cons, census_cons]
    by_cases own : u = t
    · subst own
      have others : census kind rest (Function.update place u there) = census kind rest place := by
        apply census_congr
        intro v member
        have other : v ≠ u := ne_of_mem_of_not_mem member apart
        exact Function.update_of_ne other ..
      rw [others, Function.update_self]
      omega
    · have later := ih distinct ((List.mem_cons.mp member).resolve_left fun eq => own eq.symm)
      rw [Function.update_of_ne own]
      omega

end Counts

end Concurrency
