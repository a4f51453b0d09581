-- How values, places, outcomes, diagnostics and logs are written as JSON. A place
-- shows what is left, but not its byte offset.
import TextParsers.Json.Basic
import TextParsers.Diagnostic
import TextParsers.Event
import TextParsers.Value
namespace TextParsers

mutual

def Value.toJson : Value → Json
  | .null => .null
  | .bool b => .bool b
  | .int n => .int n
  | .text s => .text s
  | .list items => .list (Value.itemsToJson items)

def Value.itemsToJson : List Value → List Json
  | [] => []
  | v :: vs => v.toJson :: Value.itemsToJson vs

end

def Cursor.toJson (c : Cursor) : Json :=
  .object [("text", .text c.text), ("rest", .text c.remainder), ("position", .int c.position)]

/-- A success and a failure are told apart by their kind. -/
def Outcome.toJson : Outcome Value → Json
  | .success v c =>
    .object [("kind", .text "success"), ("value", v.toJson), ("context", c.toJson)]
  | .failure e c =>
    .object [("kind", .text "error"), ("expected", .text e), ("context", c.toJson)]

/-! ## Logs -/

def Level.label : Level → String
  | .trace => "TRACE"
  | .debug => "DEBUG"

namespace Event

/-- What an entry says. One that opens a run says its name. -/
def message : Event → String
  | .opened _ => "parse"
  | .entered => "enter"
  | .exited => "exit"
  | .noAlternative _ _ => "no alternative matched"
  | .tooFew _ _ => "too few repetitions"
  | .tooMany _ _ => "too many repetitions"
  | .succeeded _ => "parse succeeded"
  | .failed _ _ => "parse failed"

/-- What an entry tells beside its message. -/
def fields : Event → List (String × Json)
  | .opened length => [("len", .int length)]
  | .entered => []
  | .exited => []
  | .noAlternative position alternatives =>
    [("position", .int position), ("alternatives", .int alternatives)]
  | .tooFew matched min => [("matched", .int matched), ("min", .int min)]
  | .tooMany matched max => [("matched", .int matched), ("max", .int max)]
  | .succeeded position => [("position", .int position)]
  | .failed position expected => [("position", .int position), ("expected", .text expected)]

/-- An entry without a level is its message. One with a level says whether it opens a run. -/
def toJson (e : Event) : Json :=
  match e.level? with
  | none => .text e.message
  | some level =>
    .object [(if e.opensRun then "span" else "event", .text e.message),
      ("level", .text level.label), ("fields", .object e.fields)]

end Event

end TextParsers
