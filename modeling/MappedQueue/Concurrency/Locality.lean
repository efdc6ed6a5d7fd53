import MappedQueue.Concurrency.Linearization

/-!
Machines side by side that share nothing but their callers. A run of all of them is
a run of each, and the marks of their calls are in time if those of each are: one
order linearizes the calls of all the objects together.
-/
namespace Concurrency

namespace Machine
variable {β σ α ε : Type} [DecidableEq β]

/-- Steps of one of the machines at a time, of those that `admits` lets through. -/
def family (m : β → Machine σ α ε) (admits : (β → σ) → β → α → Prop)
    [∀ s b a, Decidable (admits s b a)] : Machine (β → σ) (β × α) (β × ε) where
  init := fun b => (m b).init
  step := fun s a =>
    if admits s a.1 a.2 then
      ((m a.1).step (s a.1) a.2).map fun next =>
        (Function.update s a.1 next.1, next.2.map fun x => (a.1, x))
    else none

def component (b : β) (log : List (β × ε)) : List ε :=
  log.filterMap fun x => if x.1 = b then some x.2 else none

theorem mem_component {b : β} {log : List (β × ε)} {x : ε} :
    x ∈ component b log ↔ (b, x) ∈ log := by
  unfold component
  simp only [List.mem_filterMap, Option.ite_none_right_eq_some, Option.some.injEq, Prod.exists]
  constructor
  · rintro ⟨_, _, member, rfl, rfl⟩
    exact member
  · intro member
    exact ⟨b, x, member, rfl, rfl⟩

theorem component_append (b : β) (past rest : List (β × ε)) :
    component b (past ++ rest) = component b past ++ component b rest := List.filterMap_append

theorem component_own (b : β) (out : Option ε) :
    component b (out.map fun x => (b, x)).toList = out.toList := by
  cases out <;> simp [component]

theorem component_other {b c : β} (other : b ≠ c) (out : Option ε) :
    component b (out.map fun x => (c, x)).toList = [] := by
  cases out <;> simp [component, other.symm]

variable {m : β → Machine σ α ε} {admits : (β → σ) → β → α → Prop}
  [∀ s b a, Decidable (admits s b a)] {s s' : β → σ} {log : List (β × ε)} {a : β × α}
  {out : Option (β × ε)}

theorem family_step (step : (family m admits).step s a = some (s', out)) :
    admits s a.1 a.2 ∧ ∃ next entry, (m a.1).step (s a.1) a.2 = some (next, entry) ∧
      s' = Function.update s a.1 next ∧ out = entry.map fun x => (a.1, x) := by
  simp only [family] at step
  split at step
  · rename_i admitted
    obtain ⟨⟨next, entry⟩, moved, same⟩ := Option.map_eq_some_iff.mp step
    cases same
    exact ⟨admitted, next, entry, moved, rfl, rfl⟩
  · contradiction

/-- Each machine has made a run of its own, under what held of its steps. -/
theorem reach_component {ok : (β → σ) → List (β × ε) → β × α → Prop}
    (each : β → σ → List ε → α → Prop)
    (weaker : ∀ s log a, ok s log a → each a.1 (s a.1) (component a.1 log) a.2)
    (run : (family m admits).Reach ok s log) (b : β) :
    (m b).Reach (each b) (s b) (component b log) := by
  induction run with
  | init => exact Reach.init
  | @next s s' log a out before allowed step ih =>
    obtain ⟨_, next, entry, moved, rfl, rfl⟩ := family_step step
    rw [component_append]
    by_cases own : b = a.1
    · subst own
      rw [component_own, Function.update_self]
      exact Reach.next ih (weaker s log a allowed) moved
    · rw [component_other own, Function.update_of_ne own, List.append_nil]
      exact ih

end Machine

namespace Mark
variable {β Id C : Type}

def within (b : β) : Mark Id C → Mark (β × Id) C
  | .called c call => .called (b, c) call
  | .applied c call => .applied (b, c) call
  | .returned c => .returned (b, c)

def object : Mark (β × Id) C → β
  | .called c _ | .applied c _ | .returned c => c.1

def inside : Mark (β × Id) C → Mark Id C
  | .called c call => .called c.2 call
  | .applied c call => .applied c.2 call
  | .returned c => .returned c.2

theorem within_inside (x : Mark (β × Id) C) : x.inside.within x.object = x := by
  cases x <;> rfl

variable [DecidableEq β]

def localTo (b : β) (history : List (Mark (β × Id) C)) : List (Mark Id C) :=
  history.filterMap fun x => if x.object = b then some x.inside else none

theorem localTo_append (b : β) (past rest : List (Mark (β × Id) C)) :
    localTo b (past ++ rest) = localTo b past ++ localTo b rest := List.filterMap_append

theorem localTo_object (x : Mark (β × Id) C) (rest : List (Mark (β × Id) C)) :
    localTo x.object (x :: rest) = x.inside :: localTo x.object rest := by
  simp [localTo]

theorem mem_localTo {b : β} {history : List (Mark (β × Id) C)} {x : Mark Id C} :
    x ∈ localTo b history ↔ x.within b ∈ history := by
  unfold localTo
  simp only [List.mem_filterMap, Option.ite_none_right_eq_some, Option.some.injEq]
  constructor
  · rintro ⟨y, member, rfl, rfl⟩
    rw [within_inside]
    exact member
  · intro member
    exact ⟨_, member, by cases x <;> rfl, by cases x <;> rfl⟩

theorem effects_localTo (b : β) (history : List (Mark (β × Id) C)) :
    effects (localTo b history) =
      (effects history).filterMap fun x => if x.1.1 = b then some (x.1.2, x.2) else none := by
  unfold effects localTo
  rw [List.filterMap_filterMap, List.filterMap_filterMap]
  congr 1
  funext x
  cases x with
  | called c call | applied c call | returned c =>
    by_cases own : c.1 = b <;> simp [effect, object, inside, own]

theorem mem_effectIds_localTo {b : β} {history : List (Mark (β × Id) C)} {c : Id} :
    c ∈ effectIds (localTo b history) ↔ (b, c) ∈ effectIds history := by
  simp only [mem_effectIds, mem_localTo, within]

end Mark

section Locality
variable {β Id C : Type} [DecidableEq β] {history : List (Mark (β × Id) C)}

theorem timed_of_local (each : ∀ b, Whenever Timed (Mark.localTo b history)) :
    Whenever Timed history := by
  intro past x rest parts
  have timed : Timed (Mark.localTo x.object past) x.inside := by
    apply each x.object _ _ (Mark.localTo x.object rest)
    rw [parts, Mark.localTo_append, Mark.localTo_object]
  constructor
  · rintro ⟨b, c⟩ call rfl other member
    exact timed.begun c call rfl other (Mark.mem_localTo.mpr member)
  · rintro ⟨b, c⟩ call rfl member
    exact timed.fresh c call rfl (Mark.mem_effectIds_localTo.mpr member)
  · rintro ⟨b, c⟩ call rfl
    exact Mark.mem_localTo.mp (timed.called c call rfl)
  · rintro ⟨b, c⟩ call rfl member
    exact timed.once c call rfl (Mark.mem_effectIds_localTo.mpr member)
  · rintro ⟨b, c⟩ rfl
    exact Mark.mem_effectIds_localTo.mp (timed.applied c rfl)

end Locality

end Concurrency
