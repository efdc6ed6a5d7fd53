import Mathlib.Data.List.Induction

/-!
An object that one caller uses: every call changes its state and replies. Two
objects whose states stay related while their replies agree cannot be told apart
by any sequence of calls.
-/
namespace Concurrency

structure SequentialObject (M C R : Type) where
  init : M
  perform : M → C → M × R

namespace SequentialObject
variable {M N C R : Type} {o : SequentialObject M C R} {p : SequentialObject N C R}

def after (o : SequentialObject M C R) (calls : List C) : M :=
  calls.foldl (fun m call => (o.perform m call).1) o.init

def replies (o : SequentialObject M C R) : M → List C → List R
  | _, [] => []
  | m, call :: rest => (o.perform m call).2 :: o.replies (o.perform m call).1 rest

theorem after_append (calls : List C) (call : C) :
    o.after (calls ++ [call]) = (o.perform (o.after calls) call).1 := by
  unfold after
  rw [List.foldl_append]
  rfl

theorem after_keeps {I : M → Prop} (calls more : List C) (start : I (o.after calls))
    (keep : ∀ m, ∀ call ∈ more, I m → I (o.perform m call).1) : I (o.after (calls ++ more)) := by
  induction more using List.reverseRecOn with
  | nil =>
    rw [List.append_nil]
    exact start
  | append_singleton more call ih =>
    rw [← List.append_assoc, after_append]
    apply keep _ call (by simp)
    apply ih
    intro m earlier member
    exact keep m earlier (List.mem_append_left _ member)

/-- Related states stay related, and each call replies the same in both. -/
structure Simulates (o : SequentialObject M C R) (p : SequentialObject N C R)
    (related : M → N → Prop) : Prop where
  init : related o.init p.init
  step : ∀ m n call, related m n → related (o.perform m call).1 (p.perform n call).1
  reply : ∀ m n call, related m n → (o.perform m call).2 = (p.perform n call).2

theorem simulates_after {related : M → N → Prop} (h : Simulates o p related) (calls : List C) :
    related (o.after calls) (p.after calls) := by
  induction calls using List.reverseRecOn with
  | nil => exact h.init
  | append_singleton calls call ih =>
    rw [after_append, after_append]
    exact h.step _ _ call ih

theorem simulates_replies {related : M → N → Prop} (h : Simulates o p related) (calls : List C) :
    o.replies o.init calls = p.replies p.init calls := by
  have from_related : ∀ m n, related m n → o.replies m calls = p.replies n calls := by
    induction calls with
    | nil =>
      intro m n same
      rfl
    | cons call rest ih =>
      intro m n same
      unfold replies
      rw [h.reply m n call same, ih _ _ (h.step m n call same)]
  exact from_related _ _ h.init

end SequentialObject

end Concurrency
