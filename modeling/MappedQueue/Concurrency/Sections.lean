import Mathlib.Data.List.Basic

/-!
A call that works on shared memory in several critical sections, other threads
being free to run between any two of them. Each section is one atomic update;
what the call does next may depend on the memory the section found.
-/
namespace Concurrency

inductive Sections (M R : Type) where
  | ret (r : R) : Sections M R
  | atomic (update : M → M) (next : M → Sections M R) : Sections M R

namespace Sections
variable {M N R : Type}

def run : Sections M R → M → M × R
  | ret r, m => (m, r)
  | atomic update next, m => run (next m) (update m)

def within (view : M → N) (put : M → N → M) : Sections N R → Sections M R
  | ret r => ret r
  | atomic update next =>
    atomic (fun m => put m (update (view m))) fun m => within view put (next (view m))

/-- Every section keeps `I`, and the call returns something that satisfies `P`
    whatever memories satisfying `I` its sections meet. -/
inductive Keeps (I : M → Prop) (P : R → Prop) : Sections M R → Prop where
  | ret {r : R} (result : P r) : Keeps I P (ret r)
  | atomic {update : M → M} {next : M → Sections M R} (keep : ∀ m, I m → I (update m))
      (rest : ∀ m, I m → Keeps I P (next m)) : Keeps I P (atomic update next)

theorem keeps_imp {I : M → Prop} {P Q : R → Prop} {call : Sections M R} (h : Keeps I P call)
    (weaker : ∀ r, P r → Q r) : Keeps I Q call := by
  induction h with
  | ret result => exact Keeps.ret (weaker _ result)
  | atomic keep rest ih => exact Keeps.atomic keep ih

theorem keeps_within {view : M → N} {put : M → N → M} {I : M → Prop} {J : N → Prop}
    {P : R → Prop} (seen : ∀ m, I m → J (view m)) (written : ∀ m n, I m → J n → I (put m n))
    {call : Sections N R} (h : Keeps J P call) : Keeps I P (within view put call) := by
  induction h with
  | ret result => exact Keeps.ret result
  | atomic keep rest ih =>
    exact Keeps.atomic (fun m hm => written m _ hm (keep _ (seen m hm)))
      fun m hm => ih _ (seen m hm)

/-- Whatever memory a section meets, it changes it as `G` allows. -/
inductive Guarantees (G : M → M → Prop) : Sections M R → Prop where
  | ret {r : R} : Guarantees G (ret r)
  | atomic {update : M → M} {next : M → Sections M R} (change : ∀ m, G m (update m))
      (rest : ∀ m, Guarantees G (next m)) : Guarantees G (atomic update next)

theorem guarantees_within {view : M → N} {put : M → N → M} {G : M → M → Prop} {H : N → N → Prop}
    (written : ∀ m n, H (view m) n → G m (put m n)) {call : Sections N R}
    (h : Guarantees H call) : Guarantees G (within view put call) := by
  induction h with
  | ret => exact Guarantees.ret
  | atomic change rest ih =>
    exact Guarantees.atomic (fun m => written m _ (change (view m))) fun m => ih (view m)

theorem run_within {view : M → N} {put : M → N → M}
    (put_view : ∀ m n, view (put m n) = n) (put_put : ∀ m n n', put (put m n) n' = put m n')
    (call : Sections N R) (m : M) (start : put m (view m) = m) :
    (within view put call).run m =
      (put m (call.run (view m)).1, (call.run (view m)).2) := by
  induction call generalizing m with
  | ret r => simp [within, run, start]
  | atomic update next ih =>
    simp only [within, run]
    rw [ih _ _ (by rw [put_view, put_put]), put_view, put_put]

end Sections

end Concurrency
