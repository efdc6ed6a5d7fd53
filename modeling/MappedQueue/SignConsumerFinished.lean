import MappedQueue.Event

/-!
The completion signature: a counter of running consumer threads and the event
that the last of them notifies. The decrement and the test of the counter are
two separate atomic accesses.
-/
namespace MappedQueue
open Concurrency

structure SignConsumerFinished (ι : Type) where
  consumersLeft : UInt64
  event : Event ι
  deriving DecidableEq, Repr

inductive DecreasePc where
  | decrement
  | testLeft
  | storeFlag
  | notifyAll
  deriving DecidableEq, Repr

namespace SignConsumerFinished
variable {ι : Type}

def create : SignConsumerFinished ι := ⟨0, Event.create⟩

/-- The cast to `bool` is true of every value but zero. -/
def isConsumersFinished (s : SignConsumerFinished ι) : Bool := s.consumersLeft != 0

def increaseConsumersLeft (s : SignConsumerFinished ι) : SignConsumerFinished ι :=
  { s with consumersLeft := s.consumersLeft + 1 }

/-- One step of `DecreaseConsumersLeft`. No next position means that the call returns. -/
def decreaseStep (s : SignConsumerFinished ι) :
    DecreasePc → SignConsumerFinished ι × Option DecreasePc
  | .decrement => ({ s with consumersLeft := s.consumersLeft - 1 }, some .testLeft)
  | .testLeft => (s, if s.consumersLeft = 0 then some .storeFlag else none)
  | .storeFlag => ({ s with event := s.event.storeFlag }, some .notifyAll)
  | .notifyAll => ({ s with event := s.event.notifyAll }, none)

end SignConsumerFinished

end MappedQueue
