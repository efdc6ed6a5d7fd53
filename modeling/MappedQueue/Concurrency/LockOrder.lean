import Mathlib.Logic.Relation
import Mathlib.Order.RelClasses

/-!
Threads that hold mutexes and try to acquire others. A mutex stays with a thread that
stands between its acquisition and its release. Where every thread goes up in some order
of the mutexes, nobody waits in a circle, whatever the modes in which the mutexes are
held and wanted.
-/
namespace Concurrency

variable {Thread Mutex Rank : Type}

theorem holder_stands {mutex mutex' : Option Thread} {stands stands' : Thread → Bool}
    {t : Thread}
    (others : ∀ u, u ≠ t → stands' u = stands u)
    (own : mutex' = mutex ∧ (stands t = true → stands' t = true) ∨
      mutex' = some t ∧ stands' t = true ∨ mutex' = none)
    (h : ∀ u, mutex = some u → stands u = true) : ∀ u, mutex' = some u → stands' u = true := by
  intro u held
  rcases own with ⟨same, kept⟩ | ⟨taken, here⟩ | free
  · have before := h u (same ▸ held)
    by_cases eq : u = t
    · subst eq
      exact kept before
    · rw [others u eq, before]
  · cases held.symm.trans taken
    exact here
  · simp [free] at held

def WaitsFor (tries holds : Thread → Mutex → Prop) (t u : Thread) : Prop :=
  ∃ mutex, tries t mutex ∧ holds u mutex

/-- A thread tries only for mutexes above all that it holds. -/
def GoesUp [Preorder Rank] (rank : Mutex → Rank) (tries holds : Thread → Mutex → Prop) : Prop :=
  ∀ t wanted held, tries t wanted → holds t held → rank held < rank wanted

variable [Preorder Rank] {rank : Mutex → Rank} {tries holds : Thread → Mutex → Prop}

theorem chain_goes_up (order : GoesUp rank tries holds) {t u : Thread}
    (chain : Relation.TransGen (WaitsFor tries holds) t u) :
    ∃ wanted held, tries t wanted ∧ holds u held ∧ rank wanted ≤ rank held := by
  induction chain with
  | single waits =>
    obtain ⟨mutex, wanted, held⟩ := waits
    exact ⟨mutex, mutex, wanted, held, le_rfl⟩
  | tail chain waits ih =>
    obtain ⟨wanted, held, first, taken, above⟩ := ih
    obtain ⟨mutex, next, last⟩ := waits
    have higher := order _ mutex held next taken
    exact ⟨wanted, mutex, first, last, above.trans higher.le⟩

theorem no_waiting_circle (order : GoesUp rank tries holds) (t : Thread) :
    ¬ Relation.TransGen (WaitsFor tries holds) t t := by
  intro circle
  obtain ⟨wanted, held, first, taken, above⟩ := chain_goes_up order circle
  have below := order t wanted held first taken
  exact absurd (below.trans_le above) (lt_irrefl _)

/-- Whom a thread waits for, directly or not, there is one among them who waits for nobody. -/
theorem chain_ends [WellFoundedGT Rank] (order : GoesUp rank tries holds) (t : Thread) :
    ∃ u, Relation.ReflTransGen (WaitsFor tries holds) t u ∧ ∀ v, ¬ WaitsFor tries holds u v := by
  have holder_ends : ∀ r mutex u, rank mutex = r → holds u mutex →
      ∃ v, Relation.ReflTransGen (WaitsFor tries holds) u v ∧ ∀ w, ¬ WaitsFor tries holds v w := by
    intro r
    induction r using WellFoundedGT.induction with
    | ind r ih =>
      intro mutex u eq held
      by_cases waits : ∃ v, WaitsFor tries holds u v
      · obtain ⟨v, next, wanted, taken⟩ := waits
        have higher := order u next mutex wanted held
        obtain ⟨w, chain, last⟩ := ih _ (eq ▸ higher) next v rfl taken
        exact ⟨w, chain.head ⟨next, wanted, taken⟩, last⟩
      · exact ⟨u, Relation.ReflTransGen.refl, not_exists.mp waits⟩
  by_cases waits : ∃ u, WaitsFor tries holds t u
  · obtain ⟨u, mutex, wanted, held⟩ := waits
    obtain ⟨v, chain, last⟩ := holder_ends _ mutex u rfl held
    exact ⟨v, chain.head ⟨mutex, wanted, held⟩, last⟩
  · exact ⟨t, Relation.ReflTransGen.refl, not_exists.mp waits⟩

theorem no_second_acquisition (order : GoesUp rank tries holds) {t : Thread} {mutex : Mutex}
    (wanted : tries t mutex) : ¬ holds t mutex := by
  intro held
  exact lt_irrefl _ (order t mutex mutex wanted held)

end Concurrency
