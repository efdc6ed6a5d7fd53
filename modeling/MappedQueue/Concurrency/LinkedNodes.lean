import Mathlib.Data.List.Nodup
import Mathlib.Logic.Function.Basic

/-!
Nodes that are chained by a pointer each of them holds, and nodes that a thread
keeps to itself. A node is in a chain or has one owner: what is taken out of a
chain goes to the thread that took it, and comes back from it.
-/
namespace Concurrency

section Chains
variable {N : Type} {next next' : N → N} {null start node : N} {chain : List N}

/-- The nodes that the pointers lead through from `start` up to `null`. -/
def Linked (next : N → N) (null : N) : N → List N → Prop
  | start, [] => start = null
  | start, node :: rest => start = node ∧ node ≠ null ∧ Linked next null (next node) rest

theorem linked_congr (same : ∀ node ∈ chain, next' node = next node)
    (linked : Linked next null start chain) : Linked next' null start chain := by
  induction chain generalizing start with
  | nil => exact linked
  | cons node rest ih =>
    obtain ⟨first, present, later⟩ := linked
    refine ⟨first, present, ?_⟩
    rw [same node List.mem_cons_self]
    apply ih _ later
    intro other member
    exact same other (List.mem_cons_of_mem _ member)

theorem linked_start (linked : Linked next null start chain) (present : start ≠ null) :
    ∃ rest, chain = start :: rest := by
  cases chain with
  | nil => exact absurd linked present
  | cons node rest => exact ⟨rest, by rw [linked.1]⟩

theorem linked_nil (linked : Linked next null null chain) : chain = [] := by
  cases chain with
  | nil => rfl
  | cons node rest =>
    obtain ⟨first, present, _⟩ := linked
    exact absurd first.symm present

theorem linked_present (linked : Linked next null start chain) (member : node ∈ chain) :
    node ≠ null := by
  induction chain generalizing start with
  | nil => contradiction
  | cons first rest ih =>
    rcases List.mem_cons.mp member with rfl | member
    · exact linked.2.1
    · exact ih linked.2.2 member

theorem linked_next_mem (linked : Linked next null start chain) (member : node ∈ chain)
    (present : next node ≠ null) : ∃ first rest, chain = first :: rest ∧ next node ∈ rest := by
  induction chain generalizing start with
  | nil => contradiction
  | cons first rest ih =>
    refine ⟨first, rest, rfl, ?_⟩
    rcases List.mem_cons.mp member with rfl | member
    · obtain ⟨later, split⟩ := linked_start linked.2.2 present
      rw [split]
      exact List.mem_cons_self
    · obtain ⟨_, _, split, behind⟩ := ih linked.2.2 member
      rw [split]
      exact List.mem_cons_of_mem _ behind

theorem linked_next_ne_start (linked : Linked next null start chain) (distinct : chain.Nodup)
    (member : node ∈ chain) (present : next node ≠ null) : next node ≠ start := by
  obtain ⟨first, rest, rfl, behind⟩ := linked_next_mem linked member present
  intro same
  rw [same, linked.1] at behind
  exact (List.nodup_cons.mp distinct).1 behind

theorem linked_last (linked : Linked next null start chain) (member : node ∈ chain)
    (ends : next node = null) : ∃ front, chain = front ++ [node] := by
  induction chain generalizing start with
  | nil => contradiction
  | cons first rest ih =>
    obtain ⟨_, _, later⟩ := linked
    rcases List.mem_cons.mp member with rfl | member
    · rw [ends] at later
      exact ⟨[], by rw [linked_nil later]; rfl⟩
    · obtain ⟨front, split⟩ := ih later member
      exact ⟨first :: front, by rw [split]; rfl⟩

section Changes
variable [DecidableEq N]

theorem linked_update (linked : Linked next null start chain) (outside : node ∉ chain)
    (pointer : N) : Linked (Function.update next node pointer) null start chain := by
  apply linked_congr _ linked
  intro other member
  exact Function.update_of_ne (ne_of_mem_of_not_mem member outside) ..

theorem linked_cons (linked : Linked next null start chain) (outside : node ∉ chain)
    (present : node ≠ null) :
    Linked (Function.update next node start) null node (node :: chain) := by
  refine ⟨rfl, present, ?_⟩
  rw [Function.update_self]
  exact linked_update linked outside start

theorem linked_append {last : N} (linked : Linked next null start (chain ++ [last]))
    (distinct : (chain ++ [last]).Nodup) (outside : node ∉ chain ++ [last])
    (present : node ≠ null) (ends : next node = null) :
    Linked (Function.update next last node) null start (chain ++ [last] ++ [node]) := by
  induction chain generalizing start with
  | nil =>
    obtain ⟨first, exists_last, _⟩ := linked
    have other : node ≠ last := fun same => outside (by rw [same]; exact List.mem_singleton_self _)
    refine ⟨first, exists_last, ?_⟩
    rw [Function.update_self]
    refine ⟨rfl, present, ?_⟩
    rw [Function.update_of_ne other]
    exact ends
  | cons first rest ih =>
    obtain ⟨same, exists_first, later⟩ := linked
    obtain ⟨apart, distinct⟩ := List.nodup_cons.mp distinct
    refine ⟨same, exists_first, ?_⟩
    have other : first ≠ last := by
      intro eq
      exact apart (by rw [eq]; simp)
    rw [Function.update_of_ne other]
    exact ih later distinct fun member => outside (List.mem_cons_of_mem _ member)

end Changes

end Chains

section Owners
variable {ι N : Type} {all used used' : List N} {owned : ι → Option N} {holders : List (ι × N)}
  {t u : ι} {node : N}

/-- Every node is used, or has the owner that `holders` tells. -/
structure Ledger (all used : List N) (owned : ι → Option N) (holders : List (ι × N)) : Prop where
  everything : (used ++ holders.map Prod.snd).Perm all
  once : all.Nodup
  holds : ∀ t node, (t, node) ∈ holders ↔ owned t = some node

theorem ledger_nodup (ledger : Ledger all used owned holders) :
    (used ++ holders.map Prod.snd).Nodup :=
  ledger.everything.nodup_iff.mpr ledger.once

theorem ledger_used (ledger : Ledger all used owned holders) : used.Nodup :=
  (List.nodup_append.mp (ledger_nodup ledger)).1

theorem ledger_count (ledger : Ledger all used owned holders) :
    used.length + holders.length = all.length := by
  have same := ledger.everything.length_eq
  rw [List.length_append, List.length_map] at same
  exact same

theorem ledger_held (ledger : Ledger all used owned holders) (holds : owned t = some node) :
    node ∈ holders.map Prod.snd :=
  List.mem_map_of_mem (f := Prod.snd) ((ledger.holds t node).mpr holds)

theorem ledger_apart (ledger : Ledger all used owned holders) (holds : owned t = some node) :
    node ∉ used := by
  intro member
  have apart := (List.nodup_append.mp (ledger_nodup ledger)).2.2
  exact apart node member node (ledger_held ledger holds) rfl

theorem ledger_owned (ledger : Ledger all used owned holders) (holds : owned t = some node) :
    node ∈ all :=
  ledger.everything.mem_iff.mp (List.mem_append_right _ (ledger_held ledger holds))

theorem ledger_mem (ledger : Ledger all used owned holders) (member : node ∈ used) : node ∈ all :=
  ledger.everything.mem_iff.mp (List.mem_append_left _ member)

theorem ledger_owner (ledger : Ledger all used owned holders) (first : owned t = some node)
    (second : owned u = some node) : t = u := by
  have distinct := (List.nodup_append.mp (ledger_nodup ledger)).2.1
  have same := List.inj_on_of_nodup_map distinct ((ledger.holds t node).mpr first)
    ((ledger.holds u node).mpr second) rfl
  exact (Prod.mk.inj same).1

theorem ledger_owners (ledger : Ledger all used owned holders) :
    (holders.map Prod.fst).Nodup ∧ ∀ t, t ∈ holders.map Prod.fst ↔ (owned t).isSome = true := by
  constructor
  · have distinct := List.Nodup.of_map _ (List.nodup_append.mp (ledger_nodup ledger)).2.1
    apply distinct.map_on
    rintro ⟨t, node⟩ first ⟨u, other⟩ second same
    obtain rfl : t = u := same
    have one := (ledger.holds t node).mp first
    rw [(ledger.holds t other).mp second] at one
    cases one
    rfl
  · intro t
    rw [Option.isSome_iff_exists]
    simp only [List.mem_map, Prod.exists, exists_and_right, exists_eq_right, ledger.holds]

section Changes
variable [DecidableEq ι]

theorem ledger_take (ledger : Ledger all used owned holders) (idle : owned t = none)
    (taken : used.Perm (node :: used')) :
    Ledger all used' (Function.update owned t (some node)) ((t, node) :: holders) where
  everything := by
    have moved : (used' ++ node :: holders.map Prod.snd).Perm (used ++ holders.map Prod.snd) :=
      List.perm_middle.trans (taken.symm.append_right _)
    exact moved.trans ledger.everything
  once := ledger.once
  holds := by
    intro u other
    rw [List.mem_cons]
    by_cases own : u = t
    · subst own
      rw [Function.update_self, ledger.holds, idle]
      simp [eq_comm]
    · rw [Function.update_of_ne own, ledger.holds]
      simp [own]

theorem ledger_give (ledger : Ledger all used owned holders) (holds : owned t = some node)
    (given : used'.Perm (node :: used)) :
    ∃ left, Ledger all used' (Function.update owned t none) left := by
  obtain ⟨before, after, split⟩ := List.append_of_mem ((ledger.holds t node).mpr holds)
  refine ⟨before ++ after, ?_, ledger.once, ?_⟩
  · have parts : (node :: (used ++ (before ++ after).map Prod.snd)).Perm
        (used ++ holders.map Prod.snd) := by
      rw [split, List.map_append, List.map_append, List.map_cons, ← List.append_assoc,
        ← List.append_assoc]
      exact List.perm_middle.symm
    exact ((given.append_right _).trans parts).trans ledger.everything
  · intro u other
    have distinct : holders.Nodup :=
      List.Nodup.of_map _ (List.nodup_append.mp (ledger_nodup ledger)).2.1
    rw [split] at distinct
    have gone : (t, node) ∉ before ++ after :=
      (List.nodup_cons.mp (List.perm_middle.nodup_iff.mp distinct)).1
    have rest : (u, other) ∈ before ++ after ↔ (u, other) ∈ holders ∧ (u, other) ≠ (t, node) := by
      rw [split, List.perm_middle.mem_iff, List.mem_cons]
      constructor
      · intro member
        exact ⟨Or.inr member, fun same => gone (same ▸ member)⟩
      · intro both
        exact both.1.resolve_left both.2
    rw [rest, ledger.holds]
    by_cases own : u = t
    · subst own
      rw [Function.update_self, holds]
      constructor
      · intro both
        cases both.1
        exact absurd rfl both.2
      · intro none
        contradiction
    · rw [Function.update_of_ne own]
      simp [own]

end Changes

end Owners

end Concurrency
