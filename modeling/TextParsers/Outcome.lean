-- How a parse ends: a success with a value, or a failure with a message, and
-- in both cases the place it ended at.
import TextParsers.Cursor
namespace TextParsers

/-- How a parse ends. -/
inductive Outcome (α : Type) where
  | success (value : α) (cursor : Cursor)
  | failure (expected : String) (cursor : Cursor)
  deriving DecidableEq, Repr

namespace Outcome

variable {α β : Type}

def isSuccess : Outcome α → Bool
  | .success .. => true
  | .failure .. => false

def isFailure : Outcome α → Bool
  | .success .. => false
  | .failure .. => true

/-- The place the parse ended at. -/
def cursor : Outcome α → Cursor
  | .success _ c => c
  | .failure _ c => c

def value? : Outcome α → Option α
  | .success a _ => some a
  | .failure .. => none

/-- The message of a failure. -/
def expected? : Outcome α → Option String
  | .success .. => none
  | .failure e _ => some e

def mapValue (f : α → β) : Outcome α → Outcome β
  | .success a c => .success (f a) c
  | .failure e c => .failure e c

def mapExpected (f : String → String) : Outcome α → Outcome α
  | .success a c => .success a c
  | .failure e c => .failure (f e) c

end Outcome

end TextParsers
