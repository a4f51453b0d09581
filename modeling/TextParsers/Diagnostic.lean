-- A failure on its own, for a reader who does not hold the text: the message,
-- where it arose, and what was left there.
import TextParsers.Outcome
namespace TextParsers

/-- A failure that has left its text behind. -/
structure Diagnostic where
  expected : String
  position : Nat
  rest : String
  deriving DecidableEq, Repr

/-- The diagnostic of a message at a place. -/
def Diagnostic.ofCursor (expected : String) (c : Cursor) : Diagnostic :=
  ⟨expected, c.position, c.remainder⟩

/-- The line a reader sees. A diagnostic without a message ends after its position. -/
def Diagnostic.display (d : Diagnostic) : String :=
  let place := "parse error at offset " ++ Nat.repr d.position
  if d.expected = "" then place else place ++ ": " ++ d.expected

/-- The value and the place of a success, or the diagnostic of a failure. -/
def Outcome.toExcept {α : Type} : Outcome α → Except Diagnostic (α × Cursor)
  | .success a c => .ok (a, c)
  | .failure e c => .error (.ofCursor e c)

end TextParsers
