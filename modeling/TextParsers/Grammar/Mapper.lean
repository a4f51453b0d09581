-- The functions that a grammar may name: tests of one character, changes of a
-- value, and changes of a message.
import TextParsers.Value
namespace TextParsers

/-! ## Tests of a character -/

/-- A set of characters. The named sets hold ASCII characters only. -/
inductive CharClass where
  | digit
  | lower
  | upper
  | letter
  /-- Blank, tab, line feed and carriage return. -/
  | space
  | every
  | empty
  | oneOf (chars : List Char)
  | noneOf (chars : List Char)
  /-- All between two characters, these included; empty if the bounds are crossed. -/
  | range (lo hi : Char)
  deriving DecidableEq, Repr

def CharClass.holds : CharClass → Char → Bool
  | .digit, c => c.isDigit
  | .lower, c => c.isLower
  | .upper, c => c.isUpper
  | .letter, c => c.isAlpha
  | .space, c => c == ' ' || c == '\t' || c == '\n' || c == '\r'
  | .every, _ => true
  | .empty, _ => false
  | .oneOf chars, c => chars.contains c
  | .noneOf chars, c => !chars.contains c
  | .range lo hi, c => lo.toNat ≤ c.toNat && c.toNat ≤ hi.toNat

/-! ## Changes of a value -/

/-- A change of a value. -/
inductive Mapper where
  | keep
  | const (value : Value)
  /-- Into a list of its own. -/
  | wrap
  /-- Into a list behind a tag. -/
  | tag (label : String)
  /-- All texts inside, run together. -/
  | join
  | size
  | item (i : Nat)
  /-- The number that the texts inside write. -/
  | natural
  /-- The next number. What is no number stays. -/
  | increment
  /-- The sum of all numbers inside. -/
  | sum
  deriving Repr

def Mapper.apply : Mapper → Value → Value
  | .keep, v => v
  | .const value, _ => value
  | .wrap, v => .list [v]
  | .tag label, v => .list [.text label, v]
  | .join, v => .text v.joined
  | .size, v => .int v.size
  | .item i, v => v.item i
  | .natural, v => .int (Value.natural v.joined)
  | .increment, .int n => .int (Value.word (n + 1))
  | .increment, v => v
  | .sum, v => .int v.total

/-! ## Changes of a message -/

/-- A change of the message of a failure. -/
inductive Rewording where
  | replace (s : String)
  | before (s : String)
  | after (s : String)
  deriving DecidableEq, Repr

def Rewording.apply : Rewording → String → String
  | .replace s, _ => s
  | .before s, e => s ++ e
  | .after s, e => e ++ s

end TextParsers
