import Mathlib.Data.List.Induction
import Mathlib.Logic.Function.Basic
import MappedQueue.Concurrency.Machine

/-!
Calls that overlap, each taking effect at one moment between its begin and its
return. The order of these moments is a sequential order of the calls that agrees
with real time. Callers that make one call after another, and number them, mark
their history in a way that lets the order be read off.
-/
namespace Concurrency

inductive Mark (Id C : Type) where
  | called (c : Id) (call : C)
  | applied (c : Id) (call : C)
  | returned (c : Id)
  deriving DecidableEq, Repr

namespace Mark
variable {Id C : Type}

def effect : Mark Id C → Option (Id × C)
  | .applied c call => some (c, call)
  | _ => none

def effects (history : List (Mark Id C)) : List (Id × C) := history.filterMap effect

def effectIds (history : List (Mark Id C)) : List Id := (effects history).map Prod.fst

@[simp] theorem mem_effects {history : List (Mark Id C)} {c : Id} {call : C} :
    (c, call) ∈ effects history ↔ .applied c call ∈ history := by
  unfold effects
  rw [List.mem_filterMap]
  constructor
  · rintro ⟨x, member, eq⟩
    cases x with
    | applied d other =>
      cases eq
      exact member
    | _ => contradiction
  · intro member
    exact ⟨_, member, rfl⟩

theorem mem_effectIds {history : List (Mark Id C)} {c : Id} :
    c ∈ effectIds history ↔ ∃ call, .applied c call ∈ history := by
  simp [effectIds]

theorem effects_append (past rest : List (Mark Id C)) :
    effects (past ++ rest) = effects past ++ effects rest := List.filterMap_append

theorem effects_silent {out : Option (Mark Id C)} (silent : ∀ c call, out ≠ some (.applied c call)) :
    effects out.toList = [] := by
  cases out with
  | none => rfl
  | some x =>
    cases x with
    | applied c call => exact absurd rfl (silent c call)
    | _ => rfl

theorem effectIds_append (past rest : List (Mark Id C)) :
    effectIds (past ++ rest) = effectIds past ++ effectIds rest := by
  simp [effectIds, effects_append]

end Mark

section Orders
variable {Id C : Type}

/-- An order of the calls that began in a history, among them all those that have
    returned, in which a call stands behind the ones that returned before it began. -/
structure Linearizes (order : List (Id × C)) (history : List (Mark Id C)) : Prop where
  begun : Whenever (fun past x => ∀ c call, x = .called c call → ∀ other, .called c other ∉ past)
    history
  once : (order.map Prod.fst).Nodup
  called : ∀ c call, (c, call) ∈ order → .called c call ∈ history
  complete : ∀ c, .returned c ∈ history → c ∈ order.map Prod.fst
  realTime : ∀ c d call, Before (.returned c) (.called d call) history →
    d ∈ order.map Prod.fst → Before c d (order.map Prod.fst)

/-- What may be logged of a call: it begins before it takes effect, takes effect once
    and before it returns. -/
structure Timed (past : List (Mark Id C)) (x : Mark Id C) : Prop where
  begun : ∀ c call, x = .called c call → ∀ other, .called c other ∉ past
  fresh : ∀ c call, x = .called c call → c ∉ Mark.effectIds past
  called : ∀ c call, x = .applied c call → .called c call ∈ past
  once : ∀ c call, x = .applied c call → c ∉ Mark.effectIds past
  applied : ∀ c, x = .returned c → c ∈ Mark.effectIds past

variable {history : List (Mark Id C)}

theorem effects_once (timed : Whenever Timed history) : (Mark.effectIds history).Nodup := by
  induction history using List.reverseRecOn with
  | nil => exact List.nodup_nil
  | append_singleton past x ih =>
    have earlier : Whenever Timed past := by
      intro before y after parts
      exact timed before y (after ++ [x]) (by simp [parts])
    have now := timed past x [] rfl
    rw [Mark.effectIds_append]
    cases x with
    | applied c call =>
      have new : c ∉ Mark.effectIds past := now.once c call rfl
      change (Mark.effectIds past ++ [c]).Nodup
      apply List.nodup_append.mpr
      refine ⟨ih earlier, by simp, ?_⟩
      rintro d member e single rfl
      rw [List.mem_singleton] at single
      exact new (single ▸ member)
    | _ =>
      change (Mark.effectIds past ++ []).Nodup
      rw [List.append_nil]
      exact ih earlier

theorem effects_linearize (timed : Whenever Timed history) :
    Linearizes (Mark.effects history) history where
  begun := fun past x rest parts => (timed past x rest parts).begun
  once := effects_once timed
  called := by
    intro c call member
    obtain ⟨past, rest, parts⟩ := List.append_of_mem (Mark.mem_effects.mp member)
    have begun := (timed past _ rest parts).called c call rfl
    rw [parts]
    exact List.mem_append_left _ begun
  complete := by
    intro c member
    obtain ⟨past, rest, parts⟩ := List.append_of_mem member
    have applied := (timed past _ rest parts).applied c rfl
    change c ∈ Mark.effectIds history
    rw [parts, Mark.effectIds_append]
    exact List.mem_append_left _ applied
  realTime := by
    rintro c d call ⟨past, rest, parts, returned⟩ member
    -- the one call has taken effect when the other begins, which has not
    have first : c ∈ Mark.effectIds past := by
      obtain ⟨before, after, split⟩ := List.append_of_mem returned
      have applied := (timed before _ (after ++ .called d call :: rest)
        (by simp [parts, split])).applied c rfl
      rw [split, Mark.effectIds_append]
      exact List.mem_append_left _ applied
    have second : d ∈ Mark.effectIds (.called d call :: rest) := by
      have later : d ∈ Mark.effectIds past ++ Mark.effectIds (.called d call :: rest) := by
        rw [← Mark.effectIds_append, ← parts]
        exact member
      rcases List.mem_append.mp later with early | later
      · exact absurd early ((timed past _ rest parts).fresh d call rfl)
      · exact later
    obtain ⟨between, after, split⟩ := List.append_of_mem second
    refine ⟨Mark.effectIds past ++ between, after, ?_, List.mem_append_left _ first⟩
    change Mark.effectIds history = _
    rw [parts, Mark.effectIds_append, split, List.append_assoc]

end Orders

structure Caller (C : Type) where
  calls : Nat
  current : Option C
  applied : Bool

/-- The ways a thread gets on with its calls, with what it marks. A call may go on
    after it has returned, as long as its result is in use. -/
inductive CallerMove {ι C : Type} (t : ι) :
    Caller C → Caller C → Option (Mark (ι × Nat) C) → Prop where
  | silent {caller} : CallerMove t caller caller none
  | call {n call} : CallerMove t ⟨n, none, false⟩ ⟨n, some call, false⟩ (some (.called (t, n) call))
  | apply {n call} :
      CallerMove t ⟨n, some call, false⟩ ⟨n, some call, true⟩ (some (.applied (t, n) call))
  | reply {n call} :
      CallerMove t ⟨n, some call, true⟩ ⟨n, some call, true⟩ (some (.returned (t, n)))
  | leave {n call} : CallerMove t ⟨n, some call, true⟩ ⟨n + 1, none, false⟩ none
  | finish {n call} :
      CallerMove t ⟨n, some call, true⟩ ⟨n + 1, none, false⟩ (some (.returned (t, n)))

section Callers
variable {ι C : Type}

def Caller.begun (caller : Caller C) : Nat := caller.calls + if caller.current.isSome then 1 else 0

def Caller.done (caller : Caller C) : Nat := caller.calls + if caller.applied then 1 else 0

structure Recorded (callers : ι → Caller C) (history : List (Mark (ι × Nat) C)) : Prop where
  begun : ∀ t n call, .called (t, n) call ∈ history → n < (callers t).begun
  done : ∀ t n call, .applied (t, n) call ∈ history → n < (callers t).done
  called : ∀ t call, (callers t).current = some call →
    .called (t, (callers t).calls) call ∈ history
  applied : ∀ t call, (callers t).current = some call → (callers t).applied = true →
    .applied (t, (callers t).calls) call ∈ history

variable {callers : ι → Caller C} {caller caller' : Caller C} {t : ι}
  {history : List (Mark (ι × Nat) C)} {out : Option (Mark (ι × Nat) C)}

theorem move_grows (move : CallerMove t caller caller' out) :
    caller.begun ≤ caller'.begun ∧ caller.done ≤ caller'.done := by
  cases move <;> simp [Caller.begun, Caller.done]

theorem move_marks (move : CallerMove t caller caller' out) {u : ι} {n : Nat} {call : C} :
    (out = some (.called (u, n) call) → u = t ∧ n < caller'.begun) ∧
      (out = some (.applied (u, n) call) → u = t ∧ n < caller'.done) := by
  constructor
  · intro eq
    cases move with
    | call => cases eq; simp [Caller.begun]
    | _ => cases eq
  · intro eq
    cases move with
    | apply => cases eq; simp [Caller.done]
    | _ => cases eq

theorem move_timed (recorded : Recorded callers history)
    (move : CallerMove t (callers t) caller' out) {x : Mark (ι × Nat) C} (eq : out = some x) :
    Timed history x := by
  have begun := fun n call => recorded.begun t n call
  have done : ∀ n, (t, n) ∈ Mark.effectIds history → n < (callers t).done := by
    intro n member
    obtain ⟨call, member⟩ := Mark.mem_effectIds.mp member
    exact recorded.done t n call member
  have called := recorded.called t
  have applied := recorded.applied t
  generalize callers t = caller at move begun done called applied
  cases move with
  | silent | leave => contradiction
  | @call n call =>
    cases eq
    constructor
    · rintro _ _ ⟨⟩ other member
      exact absurd (begun n other member) (by simp [Caller.begun])
    · rintro _ _ ⟨⟩ member
      exact absurd (done n member) (by simp [Caller.done])
    all_goals intros; contradiction
  | @apply n call =>
    cases eq
    refine ⟨by intros; contradiction, by intros; contradiction, ?_, ?_, by intros; contradiction⟩
    · rintro _ _ ⟨⟩
      exact called call rfl
    · rintro _ _ ⟨⟩ member
      exact absurd (done n member) (by simp [Caller.done])
  | @reply n call | @finish n call =>
    cases eq
    refine ⟨by intros; contradiction, by intros; contradiction, by intros; contradiction,
      by intros; contradiction, ?_⟩
    rintro _ ⟨⟩
    exact Mark.mem_effectIds.mpr ⟨call, applied call rfl rfl⟩

structure Accounted (callers : ι → Caller C) (history : List (Mark (ι × Nat) C)) : Prop where
  recorded : Recorded callers history
  timed : Whenever Timed history

theorem accounted_start : Accounted (fun _ : ι => (⟨0, none, false⟩ : Caller C)) [] := by
  refine ⟨⟨?_, ?_, ?_, ?_⟩, whenever_nil⟩
  all_goals intros; contradiction

section Run
variable [DecidableEq ι]

theorem below_move {mark : ι × Nat → C → Mark (ι × Nat) C} {bound : Caller C → Nat}
    (below : ∀ u n call, mark (u, n) call ∈ history → n < bound (callers u))
    (grows : bound (callers t) ≤ bound caller')
    (now : ∀ u n call, out = some (mark (u, n) call) → u = t ∧ n < bound caller') :
    ∀ u n call, mark (u, n) call ∈ history ++ out.toList →
      n < bound (Function.update callers t caller' u) := by
  intro u n call member
  rcases List.mem_append.mp member with before | marked
  · have less := below u n call before
    by_cases own : u = t
    · subst own
      rw [Function.update_self]
      omega
    · rwa [Function.update_of_ne own]
  · obtain ⟨rfl, less⟩ := now u n call (Option.mem_toList.mp marked)
    rwa [Function.update_self]

theorem told_move (tells : Caller C → C → Prop) {mark : ι × Nat → C → Mark (ι × Nat) C}
    (told : ∀ u call, tells (callers u) call → mark (u, (callers u).calls) call ∈ history)
    (now : ∀ call, tells caller' call → out = some (mark (t, caller'.calls) call) ∨
      tells (callers t) call ∧ caller'.calls = (callers t).calls) :
    ∀ u call, tells (Function.update callers t caller' u) call →
      mark (u, (Function.update callers t caller' u).calls) call ∈ history ++ out.toList := by
  intro u call holds
  by_cases own : u = t
  · subst own
    rw [Function.update_self] at holds ⊢
    rcases now call holds with marked | ⟨before, same⟩
    · exact List.mem_append_right _ (Option.mem_toList.mpr marked)
    · rw [same]
      exact List.mem_append_left _ (told u call before)
  · rw [Function.update_of_ne own] at holds ⊢
    exact List.mem_append_left _ (told u call holds)

theorem recorded_move (recorded : Recorded callers history)
    (move : CallerMove t (callers t) caller' out) :
    Recorded (Function.update callers t caller') (history ++ out.toList) where
  begun := by
    apply below_move recorded.begun (move_grows move).1
    intro u n call
    exact (move_marks move).1
  done := by
    apply below_move recorded.done (move_grows move).2
    intro u n call
    exact (move_marks move).2
  called := by
    apply told_move (fun caller call => caller.current = some call) recorded.called
    intro call current
    generalize callers t = caller at move
    cases move with
    | call => cases current; exact Or.inl rfl
    | silent | apply | reply => exact Or.inr ⟨current, rfl⟩
    | leave | finish => contradiction
  applied := by
    have told : ∀ u call, (callers u).current = some call ∧ (callers u).applied = true →
        .applied (u, (callers u).calls) call ∈ history :=
      fun u call holds => recorded.applied u call holds.1 holds.2
    intro u call current effect
    refine told_move (fun caller call => caller.current = some call ∧ caller.applied = true) told
      ?_ u call ⟨current, effect⟩
    rintro call ⟨current, effect⟩
    generalize callers t = caller at move
    cases move with
    | apply => cases current; exact Or.inl rfl
    | silent | reply => exact Or.inr ⟨⟨current, effect⟩, rfl⟩
    | call | leave | finish => contradiction

theorem accounted_move (accounted : Accounted callers history)
    (move : CallerMove t (callers t) caller' out) :
    Accounted (Function.update callers t caller') (history ++ out.toList) where
  recorded := recorded_move accounted.recorded move
  timed := whenever_append_toList accounted.timed
    fun _ eq => move_timed accounted.recorded move eq

end Run

end Callers

end Concurrency
