-- What a run logs. A run is a block: it is opened and entered, its parsers log
-- what they gave up, one verdict closes the matter, and the run is left.
import TextParsers.Outcome
namespace TextParsers

/-- One entry of a log. -/
inductive Event where
  /-- A run on a text of so many bytes is opened. -/
  | opened (length : Nat)
  | entered
  | exited
  /-- Every alternative at a place failed. -/
  | noAlternative (position alternatives : Nat)
  | tooFew (matched min : Nat)
  | tooMany (matched max : Nat)
  /-- A run ended in a success. -/
  | succeeded (position : Nat)
  /-- A run ended in a failure. -/
  | failed (position : Nat) (expected : String)
  deriving DecidableEq, Repr

/-- How much an entry matters. -/
inductive Level where
  | trace
  | debug
  deriving DecidableEq, Repr

namespace Event

/-- The level of an entry. To enter a run and to leave it have none. -/
def level? : Event → Option Level
  | .opened _ => some .trace
  | .entered => none
  | .exited => none
  | .noAlternative _ _ => some .trace
  | .tooFew _ _ => some .trace
  | .tooMany _ _ => some .trace
  | .succeeded _ => some .debug
  | .failed _ _ => some .debug

/-- The entry opens a run. All others stand in one. -/
def opensRun : Event → Bool
  | .opened _ => true
  | _ => false

end Event

/-- What is logged, oldest first. -/
abbrev Log := List Event

/-- The entry that closes a run. -/
def Outcome.verdict {α : Type} : Outcome α → Event
  | .success _ c => .succeeded c.position
  | .failure e c => .failed c.position e

end TextParsers
