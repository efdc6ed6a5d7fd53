import MappedQueue.BucketThreads

/-!
What one step of the threads of a bucket can do, said once, and what follows of
each part of the state: how the mover gets on with its call, the mode in which it
holds the mutex, the map, and the iterator it keeps.
-/
namespace MappedQueue
open Concurrency

variable {Key Value ι : Type}

namespace BucketPc

def call : BucketPc Key Value → Option (BucketCall Key Value)
  | .idle => none
  | .set key value _ => some (.set key value)
  | .erase key _ => some (.erase key)
  | .getAndCreate key _ => some (.getAndCreate key)
  | .reference key _ => some (.getAndCreate key)

def found : BucketPc Key Value → Option (Key × Option (Node Key))
  | .getAndCreate key (.unlock found) => some (key, found)
  | .getAndCreate key (.relockShared found) => some (key, found)
  | .getAndCreate key (.dereference found) => some (key, found)
  | .reference key pointer => some (key, pointer)
  | _ => none

def applied : BucketPc Key Value → Bool
  | .set _ _ .unlock => true
  | .erase _ .unlock => true
  | pc => pc.found.isSome

def mode : BucketPc Key Value → Option HoldMode
  | .set _ _ .write | .set _ _ .unlock => some .exclusive
  | .erase _ .write | .erase _ .unlock => some .exclusive
  | .getAndCreate _ .emplace | .getAndCreate _ (.unlock _) => some .exclusive
  | .getAndCreate _ .find | .getAndCreate _ .unlockShared => some .shared
  | .getAndCreate _ (.dereference _) => some .shared
  | .reference _ _ => some .shared
  | _ => none

/-- How the next step of a thread acquires the mutex. -/
def wants : BucketPc Key Value → Option HoldMode
  | .set _ _ .lock | .erase _ .lock | .getAndCreate _ .lock => some .exclusive
  | .getAndCreate _ .lockShared | .getAndCreate _ (.relockShared _) => some .shared
  | _ => none

theorem wants_has_none {pc : BucketPc Key Value} (wants : pc.wants ≠ none) : pc.mode = none := by
  unfold BucketPc.wants at wants
  split at wants <;> first | rfl | exact absurd rfl wants

end BucketPc

def BucketThread.caller (thread : BucketThread Key Value) : Caller (BucketCall Key Value) :=
  ⟨thread.calls, thread.pc.call, thread.pc.applied⟩

def BucketEntry.toMark : BucketEntry Key Value ι → Option (Mark (ι × Nat) (BucketCall Key Value))
  | .mark m => some m
  | .read _ _ => none

namespace BucketThreads
variable [DecidableEq ι] [DecidableEq Key] [Inhabited Value]
  {s s' : BucketThreads Key Value ι} {t : ι} {out : Option (BucketEntry Key Value ι)}

inductive Move (s : BucketThreads Key Value ι) (t : ι) :
    BucketThreads Key Value ι → Option (BucketEntry Key Value ι) → Prop where
  | call {call} (pc : (s.threads t).pc = .idle) :
      Move s t (s.goto t (entrance call)) (some (.mark (.called (s.callId t) call)))
  | setLock {key value mutex} (pc : (s.threads t).pc = .set key value .lock)
      (taken : s.mutex.lock t = some mutex) :
      Move s t ({ s with mutex := mutex }.goto t (.set key value .write)) none
  | setWrite {key value} (pc : (s.threads t).pc = .set key value .write) :
      Move s t ({ s with memory := s.memory.emplace key value }.goto t (.set key value .unlock))
        (some (.mark (.applied (s.callId t) (.set key value))))
  | setUnlock {key value} (pc : (s.threads t).pc = .set key value .unlock) :
      Move s t ({ s with mutex := s.mutex.unlock }.leave t)
        (some (.mark (.returned (s.callId t))))
  | eraseLock {key mutex} (pc : (s.threads t).pc = .erase key .lock)
      (taken : s.mutex.lock t = some mutex) :
      Move s t ({ s with mutex := mutex }.goto t (.erase key .write)) none
  | eraseWrite {key} (pc : (s.threads t).pc = .erase key .write) :
      Move s t ({ s with memory := s.memory.erase key }.goto t (.erase key .unlock))
        (some (.mark (.applied (s.callId t) (.erase key))))
  | eraseUnlock {key} (pc : (s.threads t).pc = .erase key .unlock) :
      Move s t ({ s with mutex := s.mutex.unlock }.leave t)
        (some (.mark (.returned (s.callId t))))
  | lockShared {key mutex} (pc : (s.threads t).pc = .getAndCreate key .lockShared)
      (taken : s.mutex.lockShared t = some mutex) :
      Move s t ({ s with mutex := mutex }.goto t (.getAndCreate key .find)) none
  | hit {key node} (pc : (s.threads t).pc = .getAndCreate key .find)
      (entry : s.memory.find key = some node) :
      Move s t (s.goto t (.getAndCreate key (.dereference (some node))))
        (some (.mark (.applied (s.callId t) (.getAndCreate key))))
  | miss {key} (pc : (s.threads t).pc = .getAndCreate key .find)
      (absent : s.memory.find key = none) :
      Move s t (s.goto t (.getAndCreate key .unlockShared)) none
  | unlockShared {key} (pc : (s.threads t).pc = .getAndCreate key .unlockShared) :
      Move s t ({ s with mutex := s.mutex.unlockShared t }.goto t (.getAndCreate key .lock)) none
  | lock {key mutex} (pc : (s.threads t).pc = .getAndCreate key .lock)
      (taken : s.mutex.lock t = some mutex) :
      Move s t ({ s with mutex := mutex }.goto t (.getAndCreate key .emplace)) none
  | emplace {key} (pc : (s.threads t).pc = .getAndCreate key .emplace) :
      Move s t ({ s with memory := s.memory.emplace key default }.goto t
          (.getAndCreate key (.unlock ((s.memory.emplace key default).find key))))
        (some (.mark (.applied (s.callId t) (.getAndCreate key))))
  | unlock {key found} (pc : (s.threads t).pc = .getAndCreate key (.unlock found)) :
      Move s t ({ s with mutex := s.mutex.unlock }.goto t
        (.getAndCreate key (.relockShared found))) none
  | relockShared {key found mutex}
      (pc : (s.threads t).pc = .getAndCreate key (.relockShared found))
      (taken : s.mutex.lockShared t = some mutex) :
      Move s t ({ s with mutex := mutex }.goto t (.getAndCreate key (.dereference found))) none
  | dereference {key found} (pc : (s.threads t).pc = .getAndCreate key (.dereference found)) :
      Move s t (s.goto t (.reference key found)) (some (.mark (.returned (s.callId t))))
  | release {key pointer} (pc : (s.threads t).pc = .reference key pointer) :
      Move s t ({ s with mutex := s.mutex.unlockShared t }.leave t) none
  | read {key pointer} (pc : (s.threads t).pc = .reference key pointer) :
      Move s t s (some (.read (s.callId t) (s.memory.read pointer)))

omit [DecidableEq Key] [Inhabited Value] in
theorem lock_taken {pc : BucketPc Key Value} (h : s.lock t pc = some (s', out)) :
    ∃ mutex, s.mutex.lock t = some mutex ∧ s' = { s with mutex := mutex }.goto t pc ∧ out = none := by
  unfold lock at h
  split at h
  · cases h
    exact ⟨_, ‹_›, rfl, rfl⟩
  · contradiction

omit [DecidableEq Key] [Inhabited Value] in
theorem lockShared_taken {pc : BucketPc Key Value} (h : s.lockShared t pc = some (s', out)) :
    ∃ mutex, s.mutex.lockShared t = some mutex ∧ s' = { s with mutex := mutex }.goto t pc ∧
      out = none := by
  unfold lockShared at h
  split at h
  · cases h
    exact ⟨_, ‹_›, rfl, rfl⟩
  · contradiction

theorem set_moves {key : Key} {value : Value} {pos : WritePc}
    (pc : (s.threads t).pc = .set key value pos) (h : s.setStep t key value pos = some (s', out)) :
    Move s t s' out := by
  cases pos with
  | lock =>
    obtain ⟨mutex, taken, rfl, rfl⟩ := lock_taken h
    exact Move.setLock pc taken
  | write => cases h; exact Move.setWrite pc
  | unlock => cases h; exact Move.setUnlock pc

theorem erase_moves {key : Key} {pos : WritePc} (pc : (s.threads t).pc = .erase key pos)
    (h : s.eraseStep t key pos = some (s', out)) : Move s t s' out := by
  cases pos with
  | lock =>
    obtain ⟨mutex, taken, rfl, rfl⟩ := lock_taken h
    exact Move.eraseLock pc taken
  | write => cases h; exact Move.eraseWrite pc
  | unlock => cases h; exact Move.eraseUnlock pc

theorem getAndCreate_moves {key : Key} {pos : GetAndCreatePc Key}
    (pc : (s.threads t).pc = .getAndCreate key pos)
    (h : s.getAndCreateStep t key pos = some (s', out)) : Move s t s' out := by
  cases pos with
  | lockShared =>
    obtain ⟨mutex, taken, rfl, rfl⟩ := lockShared_taken h
    exact Move.lockShared pc taken
  | find =>
    simp only [getAndCreateStep] at h
    split at h <;> cases h
    · exact Move.hit pc ‹_›
    · exact Move.miss pc ‹_›
  | unlockShared => cases h; exact Move.unlockShared pc
  | lock =>
    obtain ⟨mutex, taken, rfl, rfl⟩ := lock_taken h
    exact Move.lock pc taken
  | emplace => cases h; exact Move.emplace pc
  | unlock found => cases h; exact Move.unlock pc
  | relockShared found =>
    obtain ⟨mutex, taken, rfl, rfl⟩ := lockShared_taken h
    exact Move.relockShared pc taken
  | dereference found => cases h; exact Move.dereference pc

theorem thread_moves (h : s.threadStep t = some (s', out)) : Move s t s' out := by
  unfold threadStep at h
  split at h
  · contradiction
  · exact set_moves ‹_› h
  · exact erase_moves ‹_› h
  · exact getAndCreate_moves ‹_› h
  · cases h; exact Move.release ‹_›

theorem step_moves {served : BucketCall Key Value → Bool} {a : BucketAction Key Value ι}
    (step : (bucketMachine ι served).step s a = some (s', out)) :
    Move s a.thread s' out ∧
      ∀ c call, out = some (.mark (.called c call)) → served call = true := by
  cases a with
  | call t call =>
    simp only [bucketMachine] at step
    split at step
    · rename_i allowed
      unfold callStep at step
      split at step
      · cases step
        refine ⟨Move.call ‹_›, ?_⟩
        rintro _ _ ⟨⟩
        exact allowed
      · contradiction
    · contradiction
  | step t =>
    change s.threadStep t = _ at step
    have move := thread_moves step
    refine ⟨move, ?_⟩
    intro c call eq
    cases move with
    | call pc => simp [threadStep, pc] at step
    | _ => cases eq
  | read t =>
    change s.readStep t = _ at step
    unfold readStep at step
    split at step
    · cases step
      refine ⟨Move.read ‹_›, ?_⟩
      intro c call eq
      cases eq
    · contradiction

section Effects

attribute [local simp] goto leave callId BucketPc.call BucketPc.applied BucketPc.found BucketPc.mode
  BucketEntry.toMark

theorem move_threads (move : Move s t s' out) :
    s'.threads = Function.update s.threads t (s'.threads t) := by
  cases move <;> simp

theorem move_caller (move : Move s t s' out) :
    CallerMove t (s.threads t).caller (s'.threads t).caller (out.bind BucketEntry.toMark) := by
  cases move with
  | @call call pc =>
    cases call <;> simpa [BucketThread.caller, pc, entrance] using CallerMove.call
  | setWrite pc | eraseWrite pc | hit pc | emplace pc =>
    simpa [BucketThread.caller, pc] using CallerMove.apply
  | setUnlock pc | eraseUnlock pc => simpa [BucketThread.caller, pc] using CallerMove.finish
  | dereference pc => simpa [BucketThread.caller, pc] using CallerMove.reply
  | release pc => simpa [BucketThread.caller, pc] using CallerMove.leave
  | _ pc => simpa [BucketThread.caller, pc] using CallerMove.silent

theorem move_mutex (held : s.mutex.mode t = (s.threads t).pc.mode) (move : Move s t s' out) :
    s'.mutex.mode = Function.update s.mutex.mode t (s'.threads t).pc.mode := by
  cases move with
  | setLock pc taken | eraseLock pc taken | lock pc taken =>
    simpa using SharedMutex.lock_mode taken
  | lockShared pc taken | relockShared pc taken =>
    simpa using SharedMutex.lockShared_mode taken
  | setUnlock pc | eraseUnlock pc | unlock pc =>
    rw [pc] at held
    simpa using SharedMutex.unlock_mode held
  | unlockShared pc | release pc =>
    rw [pc] at held
    simpa using SharedMutex.unlockShared_mode held
  | @call call pc =>
    rw [pc] at held
    cases call <;> simpa [entrance] using held
  | _ pc =>
    rw [pc] at held
    simpa [pc] using held

theorem move_memory (move : Move s t s' out) :
    s'.memory = s.memory ∨
      (s.threads t).pc.mode = some .exclusive ∧
        ((∃ key value, s'.memory = s.memory.emplace key value) ∨
          ∃ key, (s.threads t).pc = .erase key .write ∧ s'.memory = s.memory.erase key) := by
  cases move with
  | setWrite pc | emplace pc =>
    refine Or.inr ⟨by rw [pc]; rfl, Or.inl ⟨_, _, rfl⟩⟩
  | eraseWrite pc => exact Or.inr ⟨by rw [pc]; rfl, Or.inr ⟨_, pc, rfl⟩⟩
  | _ => exact Or.inl rfl

/-- A call does to the map, where it is marked as applied, what it does atomically. -/
theorem move_data (move : Move s t s' out) :
    (∃ c call, out = some (.mark (.applied c call)) ∧
        s'.memory.data = (call.atomically s.memory.data).1) ∨
      (∀ c call, out ≠ some (.mark (.applied c call))) ∧ s'.memory.data = s.memory.data := by
  cases move with
  | setWrite pc | emplace pc =>
    refine Or.inl ⟨_, _, rfl, ?_⟩
    exact BucketMemory.emplace_data ..
  | eraseWrite pc =>
    refine Or.inl ⟨_, _, rfl, ?_⟩
    exact BucketMemory.erase_data ..
  | @hit key node pc entry =>
    refine Or.inl ⟨_, _, rfl, ?_⟩
    simp [BucketCall.atomically, StdMap.emplace, BucketMemory.find_present entry]
  | _ => exact Or.inr ⟨by simp, rfl⟩

theorem move_found (move : Move s t s' out) {key : Key} {found : Option (Node Key)}
    (keeps : (s'.threads t).pc.found = some (key, found)) :
    (s.threads t).pc.found = some (key, found) ∧ s'.memory = s.memory ∨
      s'.memory.find key = found ∧ found.isSome = true := by
  cases move with
  | unlock pc | relockShared pc | dereference pc | read pc =>
    refine Or.inl ⟨?_, rfl⟩
    simpa [pc] using keeps
  | @hit here node pc entry =>
    have same : here = key ∧ some node = found := by simpa using keeps
    obtain ⟨rfl, rfl⟩ := same
    exact Or.inr ⟨entry, rfl⟩
  | @emplace here pc =>
    have same : here = key ∧ (s.memory.emplace here default).find here = found := by
      simpa using keeps
    obtain ⟨rfl, rfl⟩ := same
    exact Or.inr ⟨rfl, BucketMemory.find_emplaced ..⟩
  | @call call pc => cases call <;> simp [entrance] at keeps
  | _ pc => simp at keeps

end Effects

end BucketThreads

end MappedQueue
