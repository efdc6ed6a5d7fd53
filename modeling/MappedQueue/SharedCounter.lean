import MappedQueue.SharedSignature

/-!
The counter of a shared signature. It follows the number of threads that are between
their increment and their decrement, modulo the width of `size_t`. No more threads than
fit in it ever live at once, so the thread that brings it to zero, or one that read zero
after it, goes on to store the flag.
-/
namespace MappedQueue
open Concurrency

variable {π ι : Type} {Key Value Listener : π → Type}
  {T : ∀ p, DefaultTraits (Key p) (Value p) (Listener p)}

namespace SharedPools

def isCounted (phase : Option SignPhase) : Bool := phase.any SignPhase.counted

def counted (s : SharedPools T ι) : Nat :=
  census isCounted s.created s.phase

structure Counting (s : SharedPools T ι) : Prop where
  distinct : s.created.Nodup
  known : ∀ p, p ∈ s.created ↔ s.phase p ≠ none
  counter : s.sign.consumersLeft = UInt64.ofNat s.counted

def HasRun (s : SharedPools T ι) : Prop :=
  ∃ p, (s.phase p).any SignPhase.increased = true

def CounterExact (s : SharedPools T ι) : Prop :=
  s.sign.consumersLeft.toNat = s.counted

/-- With the counter back at zero and no thread on its way to signal it, the flag is
    stored. -/
def CompletionSeen (s : SharedPools T ι) : Prop :=
  s.HasRun → s.sign.consumersLeft = 0 → (∀ p, (s.phase p).any SignPhase.signalling = false) →
    s.sign.event.notifyFlag = true

/-- No thread counts itself in over a full counter. -/
def CounterFits (s : SharedPools T ι) : SharedAction Key Value Listener ι → Prop
  | .pool p (.consumer _) => s.phase p = some .starting → s.counted + 1 < UInt64.size
  | _ => True

instance (s : SharedPools T ι) (a : SharedAction Key Value Listener ι) :
    Decidable (s.CounterFits a) := by
  rcases a with _ | ⟨p, _ | _ | _ | _ | _ | _⟩ | _ | _ | _ <;> dsimp only [CounterFits] <;>
    infer_instance

def WillSignal (s : SharedPools T ι) : Prop :=
  ∃ p, s.phase p = some .testing ∨ s.phase p = some .storing

/-- A zero counter has been signalled, is still to be signalled, or has never been
    anything but zero. -/
structure Signalled (s : SharedPools T ι) : Prop where
  fits : s.counted < UInt64.size
  notifying : ∀ p, s.phase p = some .notifying → s.sign.event.notifyFlag = true
  zero : s.sign.consumersLeft = 0 →
    s.sign.event.notifyFlag = true ∨ s.WillSignal ∨ ¬ s.HasRun

theorem update_known [DecidableEq π] (phases : π → Option SignPhase) (p q : π) (there : SignPhase) :
    Function.update phases p (some there) q ≠ none ↔ q = p ∨ phases q ≠ none := by
  by_cases own : q = p
  · subst own
    simp
  · simp [own]

theorem member_of_phase {s : SharedPools T ι} {p : π} {before : SignPhase} (h : s.Counting)
    (there : s.phase p = some before) : p ∈ s.created :=
  (h.known p).mpr (by simp [there])

section Steps
variable [DecidableEq π] {s s' : SharedPools T ι} {p : π} {before after : SignPhase}

theorem counted_thread (h : s.Counting) (there : s.phase p = some before)
    (created : s'.created = s.created) (phases : s'.phase = Function.update s.phase p (some after)) :
    s'.counted + (if before.counted then 1 else 0) =
      s.counted + if after.counted then 1 else 0 := by
  have moved : census isCounted s.created (Function.update s.phase p (some after)) +
      (if isCounted (s.phase p) then 1 else 0) =
        census isCounted s.created s.phase + if isCounted (some after) then 1 else 0 :=
    census_update h.distinct (member_of_phase h there) (some after)
  rw [there] at moved
  unfold counted
  rw [created, phases]
  exact moved

theorem counted_create (h : s.Counting) (fresh : s.phase p = none)
    (created : s'.created = p :: s.created)
    (phases : s'.phase = Function.update s.phase p (some .created)) : s'.counted = s.counted := by
  have apart : p ∉ s.created := fun member => (h.known p).mp member fresh
  have others : census isCounted s.created s'.phase = s.counted := by
    apply census_congr
    intro q member
    rw [phases]
    exact Function.update_of_ne (ne_of_mem_of_not_mem member apart) ..
  unfold counted
  rw [created, census_cons, others, phases, Function.update_self]
  rfl

theorem phase_move_counter {sign sign' : SignConsumerFinished ι} {n n' : Nat}
    (move : PhaseMove sign sign' before after) (counter : sign.consumersLeft = UInt64.ofNat n)
    (count : n' + (if before.counted then 1 else 0) = n + if after.counted then 1 else 0) :
    sign'.consumersLeft = UInt64.ofNat n' := by
  cases move with
  | increase eq =>
    have more : n' = n + 1 := by simpa [SignPhase.counted] using count
    rw [eq, more, UInt64.ofNat_add, ← counter]
    rfl
  | decrement left event =>
    have fewer : n = n' + 1 := by simpa [SignPhase.counted] using count.symm
    rw [left, counter, fewer, UInt64.ofNat_add]
    exact UInt64.add_sub_cancel ..
  | stay same =>
    have still : n' = n := by omega
    rw [same, still, counter]
  | start same | leave same | testZero _ same | testOther _ same =>
    have still : n' = n := by simpa [SignPhase.counted] using count
    rw [same, still, counter]
  | store left | notify left =>
    have still : n' = n := by simpa [SignPhase.counted] using count
    rw [left, still, counter]

theorem counting_move {a : SharedAction Key Value Listener ι} {out : Option (SharedEntry π ι)}
    (h : s.Counting) (move : SignMove s s' a out) : s'.Counting := by
  cases move with
  | create fresh created phases same =>
    have count := counted_create h fresh created phases
    constructor
    · rw [created]
      exact List.nodup_cons.mpr ⟨fun member => (h.known _).mp member fresh, h.distinct⟩
    · intro q
      rw [created, phases, List.mem_cons, update_known, h.known q]
    · rw [same, count, h.counter]
  | thread there created phases move =>
    have count := counted_thread h there created phases
    constructor
    · rw [created]
      exact h.distinct
    · intro q
      rw [created, phases, update_known, ← h.known q]
      constructor
      · exact Or.inr
      · rintro (rfl | member)
        · exact member_of_phase h there
        · exact member
    · exact phase_move_counter move h.counter count
  | other created phases left flag silent =>
    have count : s'.counted = s.counted := by simp [counted, created, phases]
    exact ⟨created ▸ h.distinct, by rw [created, phases]; exact h.known, by rw [left, count, h.counter]⟩

theorem phase_of_update {there : SignPhase} {q : π}
    (phases : s'.phase = Function.update s.phase p (some after)) (now : s'.phase q = some there) :
    there = after ∨ s.phase q = some there := by
  rw [phases] at now
  by_cases own : q = p
  · subst own
    exact Or.inl (by simpa using now.symm)
  · exact Or.inr (by rwa [Function.update_of_ne own] at now)

theorem will_signal_after {phase : Option SignPhase} (there : s.phase p = phase)
    (phases : s'.phase = Function.update s.phase p (some after))
    (elsewhere : phase ≠ some .testing ∧ phase ≠ some .storing) (will : s.WillSignal) :
    s'.WillSignal := by
  obtain ⟨q, still⟩ := will
  have other : q ≠ p := by
    rintro rfl
    rw [there] at still
    exact still.elim elsewhere.1 elsewhere.2
  exact ⟨q, by rwa [phases, Function.update_of_ne other]⟩

theorem never_run_after (phases : s'.phase = Function.update s.phase p (some after))
    (fresh : after.increased = false) (never : ¬ s.HasRun) : ¬ s'.HasRun := by
  rintro ⟨q, ran⟩
  rw [phases] at ran
  by_cases own : q = p
  · subst own
    simp [fresh] at ran
  · rw [Function.update_of_ne own] at ran
    exact never ⟨q, ran⟩

theorem outlook_after {phase : Option SignPhase} (there : s.phase p = phase)
    (phases : s'.phase = Function.update s.phase p (some after))
    (elsewhere : phase ≠ some .testing ∧ phase ≠ some .storing) (same : s'.sign = s.sign)
    (never : ¬ s.HasRun → ¬ s'.HasRun)
    (outlook : s.sign.event.notifyFlag = true ∨ s.WillSignal ∨ ¬ s.HasRun) :
    s'.sign.event.notifyFlag = true ∨ s'.WillSignal ∨ ¬ s'.HasRun := by
  rcases outlook with flag | will | unrun
  · exact Or.inl (by rw [same, flag])
  · exact Or.inr (Or.inl (will_signal_after there phases elsewhere will))
  · exact Or.inr (Or.inr (never unrun))

theorem phase_move_keeps_flag {sign sign' : SignConsumerFinished ι}
    (move : PhaseMove sign sign' before after) (flag : sign.event.notifyFlag = true) :
    sign'.event.notifyFlag = true := by
  cases move with
  | stay same | start same | leave same | testZero _ same | testOther _ same => rw [same, flag]
  | increase eq => rw [eq]; exact flag
  | decrement _ event => rw [event, flag]
  | store _ event => rw [event]; rfl
  | notify _ event => rw [event]; exact flag

end Steps

section Signals
variable [DecidableEq π] {s s' : SharedPools T ι} {a : SharedAction Key Value Listener ι}
  {out : Option (SharedEntry π ι)}

theorem counted_fits (counting : s.Counting) (fits : s.counted < UInt64.size) (room : s.CounterFits a)
    (move : SignMove s s' a out) : s'.counted < UInt64.size := by
  cases move with
  | create fresh created phases => rwa [counted_create counting fresh created phases]
  | thread there created phases move =>
    have count := counted_thread counting there created phases
    cases move with
    | increase eq =>
      have more := room there
      simp [SignPhase.counted] at count
      omega
    | stay => omega
    | _ =>
      simp [SignPhase.counted] at count
      omega
  | other created phases => simpa [counted, created, phases] using fits

theorem notifying_after (h : s.Signalled) (move : SignMove s s' a out) :
    ∀ q, s'.phase q = some .notifying → s'.sign.event.notifyFlag = true := by
  intro q now
  cases move with
  | create fresh created phases same =>
    rcases phase_of_update phases now with eq | before
    · simp at eq
    · rw [same, h.notifying q before]
  | thread there created phases move =>
    rcases phase_of_update phases now with eq | before
    · cases move with
      | stay same => rw [same, h.notifying _ (eq ▸ there)]
      | store left event => rw [event]; rfl
      | _ => simp at eq
    · exact phase_move_keeps_flag move (h.notifying q before)
  | other created phases left flag => rw [flag, h.notifying q (phases ▸ now)]

theorem zero_after (counting : s.Counting) (h : s.Signalled) (fits : s'.counted < UInt64.size)
    (move : SignMove s s' a out) (zero : s'.sign.consumersLeft = 0) :
    s'.sign.event.notifyFlag = true ∨ s'.WillSignal ∨ ¬ s'.HasRun := by
  cases move with
  | create fresh created phases same =>
    rw [same] at zero
    exact outlook_after fresh phases (by simp) same (never_run_after phases rfl) (h.zero zero)
  | @thread p woken before after there created phases move =>
    have here : s'.phase p = some after := by rw [phases, Function.update_self]
    have count := counted_thread counting there created phases
    have counter := phase_move_counter move counting.counter count
    cases move with
    | stay same =>
      have unchanged := phases_stay there phases
      rw [same] at zero ⊢
      rw [WillSignal, HasRun, unchanged]
      exact h.zero zero
    | start same =>
      rw [same] at zero
      exact outlook_after there phases (by simp) same (never_run_after phases rfl) (h.zero zero)
    | increase eq =>
      have more : s'.counted = s.counted + 1 := by simpa [SignPhase.counted] using count
      have value := congrArg UInt64.toNat (zero.symm.trans counter)
      rw [UInt64.toNat_ofNat_of_lt' fits] at value
      simp [more] at value
    | leave same =>
      rw [same] at zero
      have ran : s.HasRun := ⟨p, by rw [there]; rfl⟩
      exact outlook_after there phases (by simp) same (absurd ran) (h.zero zero)
    | decrement left event => exact Or.inr (Or.inl ⟨p, Or.inl here⟩)
    | testZero _ same => exact Or.inr (Or.inl ⟨p, Or.inr here⟩)
    | testOther others same => exact absurd (same ▸ zero) others
    | store left event => exact Or.inl (by rw [event]; rfl)
    | notify left event => exact Or.inl (by rw [event]; exact h.notifying p there)
  | other created phases left flag =>
    rw [WillSignal, HasRun, phases, flag]
    exact h.zero (left ▸ zero)

theorem signalled_step (counting : s.Counting) (h : s.Signalled) (room : s.CounterFits a)
    (move : SignMove s s' a out) : s'.Signalled := by
  have fits := counted_fits counting h.fits room move
  exact ⟨fits, notifying_after h move, zero_after counting h fits move⟩

end Signals

end SharedPools

section Runs
variable [DecidableEq π] [DecidableEq ι] {s : SharedPools T ι} {log : List (SharedEntry π ι)}

theorem counting_run (run : (sharedMachine T).Reachable s log) : s.Counting := by
  refine Machine.reach_invariant (I := fun s _ => s.Counting) ?_ ?_ run
  · constructor
    · exact List.nodup_nil
    · intro p
      simp [sharedMachine, SharedPools.create, SharedPools.phase]
    · rfl
  · intro s log a s' out _ h _ step
    exact SharedPools.counting_move h (SharedPools.sign_moves step)

/-- As long as every increment fits, the counter is the number of threads counted in,
    and its return to zero is signalled. -/
theorem counter_exact_and_seen
    (run : (sharedMachine T).Reach (fun s _ a => s.CounterFits a) s log) :
    s.CounterExact ∧ s.CompletionSeen := by
  have counting := counting_run (Machine.reach_reachable run)
  have signalled : s.Signalled := by
    refine Machine.reach_invariant (I := fun s _ => s.Signalled) ?_ ?_ run
    · constructor
      · exact Nat.zero_lt_succ _
      · intro p
        simp [sharedMachine, SharedPools.create, SharedPools.phase]
      · intro _
        refine Or.inr (Or.inr ?_)
        simp [SharedPools.HasRun, sharedMachine, SharedPools.create, SharedPools.phase]
    · intro s log a s' out before h room step
      exact SharedPools.signalled_step (counting_run (Machine.reach_reachable before)) h room
        (SharedPools.sign_moves step)
  constructor
  · rw [SharedPools.CounterExact, counting.counter]
    exact UInt64.toNat_ofNat_of_lt' signalled.fits
  · intro ran zero quiet
    rcases signalled.zero zero with flag | ⟨p, testing | storing⟩ | never
    · exact flag
    · have idle := quiet p
      simp [testing, SignPhase.signalling] at idle
    · have idle := quiet p
      simp [storing, SignPhase.signalling] at idle
    · exact absurd ran never

end Runs

section Schedules
open SharedPools

abbrev mutexPools (π : Type) [DecidableEq π] : Machine
    (SharedPools (fun _ : π => (⟨QueueWithMutexTraits Nat Nat 1, MapWithMutexTraits Nat Nat⟩ :
      DefaultTraits Nat Nat Nat)) (Fin 2))
    (SharedAction (fun _ : π => Nat) (fun _ => Nat) (fun _ => Nat) (Fin 2))
    (SharedEntry π (Fin 2)) :=
  sharedMachine _

/-- The first thread brings the counter to zero and then reads one, another thread having
    come in. It is the second that signals. -/
theorem completion_seen_by_second :
    ∃ s log, (mutexPools (Fin 2)).Reach (fun s _ a => s.CounterFits a) s log ∧
      (s.HasRun ∧ s.sign.consumersLeft = 0 ∧ ∀ p, (s.phase p).any SignPhase.signalling = false) ∧
      s.CounterExact ∧ s.CompletionSeen := by
  obtain ⟨s, log, run, ran, zero, quiet⟩ := Machine.reach_of_exec (mutexPools (Fin 2))
    (fun s _ a => s.CounterFits a)
    [.create 0 ⟨0, 0⟩, .create 1 ⟨0, 0⟩, .pool 0 (.consumer none), .pool 0 (.consumer none),
      .pool 0 (.call 0 (.finish .stopProcessing)), .pool 0 (.client 0), .pool 0 (.consumer none),
      .pool 0 (.consumer none), .pool 0 (.consumer none), .pool 1 (.consumer none),
      .pool 1 (.consumer none), .pool 0 (.consumer none),
      .pool 1 (.call 1 (.finish .stopProcessing)), .pool 1 (.client 1), .pool 1 (.consumer none),
      .pool 1 (.consumer none), .pool 1 (.consumer none), .pool 1 (.consumer none),
      .pool 1 (.consumer none), .pool 1 (.consumer none)]
    (fun s _ => s.phase 0 = some .done ∧ s.sign.consumersLeft = 0 ∧
      ∀ p, (s.phase p).any SignPhase.signalling = false) (by decide)
  exact ⟨s, log, run, ⟨⟨0, by rw [ran]; rfl⟩, zero, quiet⟩, counter_exact_and_seen run⟩

end Schedules

end MappedQueue
