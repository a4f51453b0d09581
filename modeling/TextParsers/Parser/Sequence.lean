-- Parsers one after another. Each starts where the one before it ended, and the
-- first failure is the answer, as it is.
import TextParsers.Parser.Basic
namespace TextParsers

variable {α β : Type}

/-- `n + 1` values, in pairs that nest to the right. -/
def Tuple (α : Type) : Nat → Type
  | 0 => α
  | n + 1 => α × Tuple α n

/-- The values of a tuple in order. -/
def Tuple.toList : {n : Nat} → Tuple α n → List α
  | 0, a => [a]
  | _ + 1, (a, as) => a :: Tuple.toList as

namespace Parser

/-- Parsers of one type, with their values in order. -/
def all : List (Parser α) → Parser (List α)
  | [] => pure []
  | p :: ps => do
    let a ← p
    let as ← all ps
    return a :: as

/-- Two parsers of any types. A longer row is a pair whose second part is a pair. -/
def pair (p : Parser α) (q : Parser β) : Parser (α × β) := fun c =>
  match p c with
  | none => none
  | some ⟨.failure e d, log⟩ => some ⟨.failure e d, log⟩
  | some ⟨.success a d, log⟩ => (q d).map fun r => ⟨r.outcome.mapValue (a, ·), log ++ r.log⟩

/-- The parsers of a tuple one after another, with their values in a tuple. -/
def tuple : {n : Nat} → Tuple (Parser α) n → Parser (Tuple α n)
  | 0, p => p
  | _ + 1, (p, ps) => pair p (tuple ps)

/-- The pairs of a row, read as a list. -/
def row : List (Parser α) → Parser (List α)
  | [] => pure []
  | [p] => p.map ([·])
  | p :: ps => (pair p (row ps)).map fun (a, as) => a :: as

/-- The given characters, one by one. It fails at the first that differs. -/
def literalChars : List Char → Parser (List Char)
  | [] => accept [] 0
  | x :: xs => fun c =>
    if c.peek = some x then (literalChars xs).map (x :: ·) (c.advance 1)
    else refuse (.otherChar c.peek x) c

/-- A given text. -/
def literal (s : String) : Parser (List Char) := literalChars s.toList

/-- Content between two characters. -/
def surround (opening closing : Char) (content : Parser α) : Parser α := do
  skip (char opening)
  let a ← content
  skip (char closing)
  return a

end Parser

end TextParsers
