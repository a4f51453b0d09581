-- Debug texts. What is shown is a tree of records, which is written on one line or
-- over several, one field a line.
import TextParsers.Diagnostic
import TextParsers.Text.Quoted
namespace TextParsers

mutual

/-- What a debug text shows. -/
inductive Dump where
  /-- A word that is written as it is. -/
  | plain (word : String)
  | quoted (s : String)
  | record (name : String) (fields : Fields)

/-- The fields of a record, in order. -/
inductive Fields where
  | nil
  | cons (name : String) (value : Dump) (more : Fields)

end

namespace Dump

/-! ## On one line -/

mutual

/-- A record is its name and its fields in braces. -/
def compact : Dump → String
  | .plain word => word
  | .quoted s => Text.Quoted.quote s
  | .record name .nil => name
  | .record name (.cons field value more) =>
    name ++ " \x7b " ++ field ++ ": " ++ value.compact ++ compactMore more ++ " \x7d"

def compactMore : Fields → String
  | .nil => ""
  | .cons field value more => ", " ++ field ++ ": " ++ value.compact ++ compactMore more

end

/-! ## Over several lines -/

/-- A line at a depth, four blanks a level. -/
def line (depth : Nat) (s : String) : String := String.ofList (List.replicate (4 * depth) ' ') ++ s

mutual

/-- The lines of a tree, with `lead` before the first and `tail` after the last. -/
def lines (depth : Nat) (lead tail : String) : Dump → List String
  | .plain word => [line depth (lead ++ word ++ tail)]
  | .quoted s => [line depth (lead ++ Text.Quoted.quote s ++ tail)]
  | .record name .nil => [line depth (lead ++ name ++ tail)]
  | .record name (.cons field value more) =>
    line depth (lead ++ name ++ " \x7b") ::
      (value.lines (depth + 1) (field ++ ": ") "," ++ linesMore (depth + 1) more ++
        [line depth ("\x7d" ++ tail)])

def linesMore (depth : Nat) : Fields → List String
  | .nil => []
  | .cons field value more => value.lines depth (field ++ ": ") "," ++ linesMore depth more

end

/-- The tree over several lines. -/
def pretty (d : Dump) : String := "\n".intercalate (d.lines 0 "" "")

end Dump

/-! ## What is shown -/

def Cursor.dump (c : Cursor) : Dump :=
  .record "Context" (.cons "text" (.quoted c.text) (.cons "offset" (.plain (Nat.repr c.offset))
    (.cons "position" (.plain (Nat.repr c.position)) .nil)))

def Diagnostic.dump (d : Diagnostic) : Dump :=
  .record "ParseError" (.cons "expected" (.quoted d.expected)
    (.cons "position" (.plain (Nat.repr d.position)) (.cons "rest" (.quoted d.rest) .nil)))

/-- A value that a debug text can show. -/
inductive Scalar where
  | unit
  | int (n : Int)
  | text (s : String)
  deriving DecidableEq, Repr

def Scalar.dump : Scalar → Dump
  | .unit => .plain "()"
  | .int n => .plain (Int.repr n)
  | .text s => .quoted s

def Outcome.dump : Outcome Scalar → Dump
  | .success v c => .record "Success" (.cons "value" v.dump (.cons "context" c.dump .nil))
  | .failure e c => .record "Failure" (.cons "expected" (.quoted e) (.cons "context" c.dump .nil))

/-- A parser with reworded failures, seen from outside, round a number in the place of a
parser. It may be reworded again. -/
inductive Reworded where
  | core (n : Int)
  | layer (inner : Reworded)
  deriving DecidableEq, Repr

/-- A function has no text of its own. -/
def Reworded.dump : Reworded → Dump
  | .core n => .plain (Int.repr n)
  | .layer inner =>
    .record "MapErr" (.cons "parser" inner.dump (.cons "mapper" (.quoted "<function>") .nil))

end TextParsers
