import Mathlib.Data.List.Basic

/-!
Machines whose steps are chosen by a scheduler and may write one entry to a
log. A run is judged by the state it ends in together with everything logged on
the way, so a property of the past is a property of the pair. Runs may be
restricted to the steps that meet a condition on the state before the step.
-/
namespace Concurrency

structure Machine (σ α ε : Type) where
  init : σ
  step : σ → α → Option (σ × Option ε)

/-- Whatever was logged, it was logged after a past that `R` allows. -/
def Whenever {ε : Type} (R : List ε → ε → Prop) (log : List ε) : Prop :=
  ∀ before x after, log = before ++ x :: after → R before x

def Before {ε : Type} (x y : ε) (log : List ε) : Prop :=
  ∃ past rest, log = past ++ y :: rest ∧ x ∈ past

section Logs
variable {ε : Type} {R : List ε → ε → Prop}

theorem whenever_nil : Whenever R [] := by
  intro before x after parts
  simp at parts

theorem append_toList_split {log before after : List ε} {out : Option ε} {x : ε}
    (parts : log ++ out.toList = before ++ x :: after) :
    (out = some x ∧ before = log ∧ after = []) ∨
      ∃ rest, after = rest ++ out.toList ∧ log = before ++ x :: rest := by
  cases out with
  | none => exact Or.inr ⟨after, by simp, by simpa using parts⟩
  | some y =>
    rcases List.eq_nil_or_concat after with rfl | ⟨rest, z, rfl⟩
    · obtain ⟨rfl, same⟩ := List.append_inj' parts rfl
      cases same
      exact Or.inl ⟨rfl, rfl, rfl⟩
    · have parts' : log ++ [y] = (before ++ x :: rest) ++ [z] := by simpa using parts
      obtain ⟨rfl, same⟩ := List.append_inj' parts' rfl
      cases same
      exact Or.inr ⟨rest, List.concat_eq_append, rfl⟩

theorem whenever_append_toList {log : List ε} {out : Option ε} (past : Whenever R log)
    (now : ∀ x, out = some x → R log x) : Whenever R (log ++ out.toList) := by
  intro before x after parts
  rcases append_toList_split parts with ⟨eq, rfl, _⟩ | ⟨rest, _, earlier⟩
  · exact now x eq
  · exact past before x rest earlier

end Logs

namespace Machine
variable {σ α ε : Type} {m : Machine σ α ε} {ok : σ → List ε → α → Prop}

/-- States and logs of the runs all of whose steps meet `ok`. -/
inductive Reach (m : Machine σ α ε) (ok : σ → List ε → α → Prop) : σ → List ε → Prop where
  | init : Reach m ok m.init []
  | next {s s' : σ} {log : List ε} {a : α} {out : Option ε} (before : Reach m ok s log)
      (allowed : ok s log a) (step : m.step s a = some (s', out)) :
      Reach m ok s' (log ++ out.toList)

abbrev Reachable (m : Machine σ α ε) : σ → List ε → Prop := m.Reach fun _ _ _ => True

inductive Continues (m : Machine σ α ε) (s : σ) (log : List ε) : σ → List ε → Prop where
  | refl : Continues m s log s log
  | next {s₁ s₂ : σ} {log₁ : List ε} {a : α} {out : Option ε} (before : Continues m s log s₁ log₁)
      (step : m.step s₁ a = some (s₂, out)) : Continues m s log s₂ (log₁ ++ out.toList)

theorem reach_invariant {I : σ → List ε → Prop} (start : I m.init [])
    (keep : ∀ s log a s' out, Reach m ok s log → I s log → ok s log a →
      m.step s a = some (s', out) → I s' (log ++ out.toList))
    {s : σ} {log : List ε} (h : Reach m ok s log) : I s log := by
  induction h with
  | init => exact start
  | next before allowed step ih => exact keep _ _ _ _ _ before ih allowed step

theorem reach_mono {ok' : σ → List ε → α → Prop} {s : σ} {log : List ε}
    (weaker : ∀ s log a, Reach m ok s log → ok s log a → ok' s log a)
    (h : Reach m ok s log) : Reach m ok' s log := by
  induction h with
  | init => exact Reach.init
  | next before allowed step ih => exact Reach.next ih (weaker _ _ _ before allowed) step

theorem reach_reachable {s : σ} {log : List ε} (h : Reach m ok s log) : m.Reachable s log :=
  reach_mono (fun _ _ _ _ _ => trivial) h

theorem reach_whenever {R : List ε → ε → Prop}
    (emit : ∀ s log a s' x, Reach m ok s log → ok s log a →
      m.step s a = some (s', some x) → R log x)
    {s : σ} {log : List ε} (h : Reach m ok s log) : Whenever R log := by
  induction h with
  | init => exact whenever_nil
  | next before allowed step ih =>
    exact whenever_append_toList ih fun x eq => emit _ _ _ _ x before allowed (eq ▸ step)

/-- A run has been through every prefix of its log. -/
theorem reach_prefix {s : σ} {log : List ε} (h : Reach m ok s log) :
    ∀ past rest, log = past ++ rest → ∃ s', Reach m ok s' past := by
  induction h with
  | init =>
    intro past rest parts
    obtain ⟨rfl, _⟩ := List.append_eq_nil_iff.mp parts.symm
    exact ⟨_, Reach.init⟩
  | @next s s' log a out before allowed step ih =>
    intro past rest parts
    rcases List.eq_nil_or_concat rest with rfl | ⟨rest, x, rfl⟩
    · rw [List.append_nil] at parts
      exact ⟨s', parts ▸ Reach.next before allowed step⟩
    · cases out with
      | none => exact ih past _ (by simpa using parts)
      | some y =>
        have parts' : log ++ [y] = (past ++ rest) ++ [x] := by simpa using parts
        exact ih past rest (List.append_inj' parts' rfl).1

theorem continues_trans {s₁ s₂ s₃ : σ} {log₁ log₂ log₃ : List ε}
    (first : m.Continues s₁ log₁ s₂ log₂) (second : m.Continues s₂ log₂ s₃ log₃) :
    m.Continues s₁ log₁ s₃ log₃ := by
  induction second with
  | refl => exact first
  | next before step ih => exact Continues.next ih step

theorem continues_reachable {s₁ s₂ : σ} {log₁ log₂ : List ε} (run : m.Reachable s₁ log₁)
    (later : m.Continues s₁ log₁ s₂ log₂) : m.Reachable s₂ log₂ := by
  induction later with
  | refl => exact run
  | next before step ih => exact Reach.next ih trivial step

section Schedules
variable [∀ s log a, Decidable (ok s log a)]

def exec (m : Machine σ α ε) (ok : σ → List ε → α → Prop) [∀ s log a, Decidable (ok s log a)]
    (s : σ) (log : List ε) : List α → Option (σ × List ε)
  | [] => some (s, log)
  | a :: as =>
    if ok s log a then
      match m.step s a with
      | some (s', out) => exec m ok s' (log ++ out.toList) as
      | none => none
    else none

theorem exec_reach {as : List α} {s s' : σ} {log log' : List ε} (h : Reach m ok s log)
    (run : m.exec ok s log as = some (s', log')) : Reach m ok s' log' := by
  induction as generalizing s log with
  | nil =>
    simp only [exec, Option.some.injEq, Prod.mk.injEq] at run
    obtain ⟨rfl, rfl⟩ := run
    exact h
  | cons a as ih =>
    simp only [exec] at run
    split at run
    · rename_i allowed
      split at run
      · rename_i step
        exact ih (Reach.next h allowed step) run
      · contradiction
    · contradiction

/-- Where exactly the steps that fail `ok` raise a measure, a schedule keeps it if and only
    if every step on the way meets `ok`. -/
theorem exec_keeps_iff (measure : σ → List ε → Nat)
    (kept : ∀ s log a s' out, m.step s a = some (s', out) → ok s log a →
      measure s' (log ++ out.toList) = measure s log)
    (raised : ∀ s log a s' out, m.step s a = some (s', out) → ¬ ok s log a →
      measure s log < measure s' (log ++ out.toList))
    {as : List α} {s s' : σ} {log log' : List ε}
    (run : m.exec (fun _ _ _ => True) s log as = some (s', log')) :
    measure s log ≤ measure s' log' ∧
      (measure s' log' = measure s log ↔ m.exec ok s log as = some (s', log')) := by
  induction as generalizing s log with
  | nil =>
    have same := run
    simp only [exec, Option.some.injEq, Prod.mk.injEq] at run
    obtain ⟨rfl, rfl⟩ := run
    exact ⟨Nat.le_refl _, fun _ => same, fun _ => rfl⟩
  | cons a as ih =>
    simp only [exec, if_true] at run
    split at run
    · rename_i s₁ out step
      obtain ⟨later, rest⟩ := ih run
      by_cases meets : ok s log a
      · have now := kept s log a s₁ out step meets
        refine ⟨now ▸ later, ?_⟩
        simp only [exec, if_pos meets, step]
        rw [← now]
        exact rest
      · have now := raised s log a s₁ out step meets
        refine ⟨Nat.le_of_lt (Nat.lt_of_lt_of_le now later), ?_⟩
        simp only [exec, if_neg meets]
        constructor
        · intro same
          exact absurd (Nat.lt_of_lt_of_le now later) (by omega)
        · intro refused
          contradiction
    · contradiction

theorem reach_of_exec (m : Machine σ α ε) (ok : σ → List ε → α → Prop)
    [∀ s log a, Decidable (ok s log a)] (as : List α) (P : σ → List ε → Prop)
    [∀ s log, Decidable (P s log)]
    (run : (m.exec ok m.init [] as).any (fun p => decide (P p.1 p.2)) = true) :
    ∃ s log, Reach m ok s log ∧ P s log := by
  obtain ⟨⟨s, log⟩, eq, holds⟩ := (Option.any_eq_true _ _).mp run
  exact ⟨s, log, exec_reach Reach.init eq, of_decide_eq_true holds⟩

theorem reachable_of_exec (m : Machine σ α ε) (as : List α) (P : σ → List ε → Prop)
    [∀ s log, Decidable (P s log)]
    (run : (m.exec (fun _ _ _ => True) m.init [] as).any (fun p => decide (P p.1 p.2)) = true) :
    ∃ s log, m.Reachable s log ∧ P s log :=
  reach_of_exec m _ as P run

end Schedules

end Machine

end Concurrency
