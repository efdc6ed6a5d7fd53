import Mathlib.Algebra.Group.Action.Defs
import Mathlib.Algebra.Order.BigOperators.Group.Finset
import MappedQueue.Concurrency.Machine

/-!
Threads that are never blocked and still may have to try again, each time another one
has changed what they read. Every change is paid from a budget they share, and between
two changes a thread that moves comes nearer to the end of its call or to a change of
its own. Then there are few steps in all, however the threads are scheduled.
-/
namespace Concurrency

section Potential
variable {ι : Type} {members : Finset ι} {bound budget budget' : Nat} {rank rank' : ι → Nat} {t : ι}

/-- How many steps the members have left, if a rank is at most `bound`. -/
def potential (members : Finset ι) (bound budget : Nat) (rank : ι → Nat) : Nat :=
  budget * (bound * members.card + 1) + ∑ t ∈ members, rank t

theorem ranks_bounded (low : ∀ t ∈ members, rank t ≤ bound) :
    ∑ t ∈ members, rank t ≤ bound * members.card := by
  have sum := Finset.sum_le_card_nsmul members rank bound low
  rw [smul_eq_mul, Nat.mul_comm] at sum
  exact sum

theorem potential_bounded (low : ∀ t ∈ members, rank t ≤ bound) :
    potential members bound budget rank ≤
      budget * (bound * members.card + 1) + bound * members.card :=
  Nat.add_le_add_left (ranks_bounded low) _

theorem potential_spent (less : budget' < budget) (low : ∀ t ∈ members, rank' t ≤ bound) :
    potential members bound budget' rank' < potential members bound budget rank := by
  have again := ranks_bounded low
  have paid : (budget' + 1) * (bound * members.card + 1) ≤ budget * (bound * members.card + 1) :=
    Nat.mul_le_mul_right _ less
  unfold potential
  rw [Nat.add_mul, Nat.one_mul] at paid
  omega

theorem potential_quiet (kept : budget' ≤ budget) (member : t ∈ members)
    (others : ∀ u, u ≠ t → rank' u = rank u) (nearer : rank' t < rank t) :
    potential members bound budget' rank' < potential members bound budget rank := by
  have ranks : ∑ u ∈ members, rank' u < ∑ u ∈ members, rank u := by
    apply Finset.sum_lt_sum
    · intro u _
      by_cases own : u = t
      · subst own
        exact Nat.le_of_lt nearer
      · exact Nat.le_of_eq (others u own)
    · exact ⟨t, member, nearer⟩
  have paid : budget' * (bound * members.card + 1) ≤ budget * (bound * members.card + 1) :=
    Nat.mul_le_mul_right _ kept
  unfold potential
  omega

theorem sum_moved [DecidableEq ι] (rank rank' : ι → Nat) (member : t ∈ members)
    (others : ∀ u, u ≠ t → rank' u = rank u) :
    ∑ u ∈ members, rank' u + rank t = ∑ u ∈ members, rank u + rank' t := by
  have rest : ∑ u ∈ members.erase t, rank' u = ∑ u ∈ members.erase t, rank u := by
    apply Finset.sum_congr rfl
    intro u other
    exact others u (Finset.ne_of_mem_erase other)
  have before := Finset.add_sum_erase members rank member
  have after := Finset.add_sum_erase members rank' member
  omega

theorem potential_raised [DecidableEq ι] {more : Nat} (dearer : budget' ≤ budget + more)
    (member : t ∈ members) (others : ∀ u, u ≠ t → rank' u = rank u) (low : rank' t ≤ bound) :
    potential members bound budget' rank' ≤
      potential members bound budget rank + more * (bound * members.card + 1) + bound := by
  have paid : budget' * (bound * members.card + 1) ≤
      budget * (bound * members.card + 1) + more * (bound * members.card + 1) := by
    rw [← Nat.add_mul]
    exact Nat.mul_le_mul_right _ dearer
  have moved := sum_moved rank rank' member others
  unfold potential
  omega

end Potential

def granted {α : Type} (credit : α → Nat) : List α → Nat
  | [] => 0
  | a :: rest => credit a + granted credit rest

theorem granted_none {α : Type} (schedule : List α) : granted (fun _ => 0) schedule = 0 := by
  induction schedule with
  | nil => rfl
  | cons a rest ih => simp [granted, ih]

namespace Machine
variable {σ α ε : Type} {m : Machine σ α ε} {ok : σ → List ε → α → Prop}
  [∀ s log a, Decidable (ok s log a)]

/-- A schedule is no longer than a measure that every step of it lowers, but for the
    credit that it gets, and keeps what its steps keep. -/
theorem exec_bounded {I : σ → List ε → Prop} {measure : σ → Nat} {serves : α → Prop}
    {credit : α → Nat}
    (lowers : ∀ s log a s' out, I s log → serves a → ok s log a → m.step s a = some (s', out) →
      I s' (log ++ out.toList) ∧ measure s' < measure s + credit a)
    {schedule : List α} {s s' : σ} {log log' : List ε} (start : I s log)
    (serving : ∀ a ∈ schedule, serves a) (run : m.exec ok s log schedule = some (s', log')) :
    I s' log' ∧ schedule.length + measure s' ≤ measure s + granted credit schedule := by
  induction schedule generalizing s log with
  | nil =>
    simp only [exec, Option.some.injEq, Prod.mk.injEq] at run
    obtain ⟨rfl, rfl⟩ := run
    exact ⟨start, by simp [granted]⟩
  | cons a rest ih =>
    simp only [exec] at run
    split at run
    · rename_i allowed
      split at run
      · rename_i step
        obtain ⟨keeps, less⟩ := lowers _ _ _ _ _ start (serving a List.mem_cons_self) allowed step
        obtain ⟨kept, bounded⟩ :=
          ih keeps (fun b member => serving b (List.mem_cons_of_mem _ member)) run
        rw [List.length_cons, granted]
        exact ⟨kept, by omega⟩
      · contradiction
    · contradiction

end Machine

end Concurrency
