-- Grammars as data. A node says how to read a value; it may name a rule, which
-- is looked up only when a parse reaches it, so rules may name each other and
-- themselves.
import TextParsers.Grammar.Mapper
namespace TextParsers

/-- A way to read a value. -/
inductive Node where
  | anyChar
  | endOfText
  | char (c : Char)
  | satisfy (cls : CharClass)
  | literal (s : String)
  /-- All of the nodes, one after another. -/
  | all (nodes : List Node)
  /-- The same, built from pairs. -/
  | row (nodes : List Node)
  | choice (nodes : List Node)
  | many (node : Node)
  | many1 (node : Node)
  | count (n : Nat) (node : Node)
  | countBetween (min max : Nat) (node : Node)
  | skip (node : Node)
  | not (node : Node)
  | optional (shown : Bool) (node : Node)
  | map (f : Mapper) (node : Node)
  | reword (f : Rewording) (node : Node)
  | surround (opening closing : Char) (node : Node)
  /-- The body of a rule. -/
  | rule (name : String)
  /-- The node itself, lent to more than one owner. -/
  | shared (node : Node)
  | accept (value : Value) (n : Nat)
  | fail (expected : String) (n : Nat)
  /-- To the place after `n` characters of the text. -/
  | jump (n : Nat)
  /-- To the place after `n` characters of another text. -/
  | enter (text : String) (n : Nat)
  /-- A run of its own on what is left. -/
  | nested (node : Node)
  deriving Repr

/-- Rules by name. -/
structure Grammar where
  rules : List (String × Node)
  deriving Repr

/-- The body of a rule. -/
def Grammar.body? (g : Grammar) (name : String) : Option Node := g.rules.lookup name

end TextParsers
