-- The values that grammars build: nothing, flags, whole numbers, texts, and
-- lists of values. Numbers are 64-bit words with a sign, and a sum that does not
-- fit wraps round.
namespace TextParsers

inductive Value where
  | null
  | bool (b : Bool)
  | int (n : Int)
  | text (s : String)
  | list (items : List Value)
  deriving Repr, Inhabited

namespace Value

/-! ## Equality -/

mutual

/-- The two values are the same. -/
def same : Value → Value → Bool
  | .null, .null => true
  | .bool a, .bool b => a == b
  | .int a, .int b => a == b
  | .text a, .text b => a == b
  | .list as, .list bs => sameItems as bs
  | _, _ => false

def sameItems : List Value → List Value → Bool
  | [], [] => true
  | a :: as, b :: bs => same a b && sameItems as bs
  | _, _ => false

end

mutual

theorem same_iff_eq : (a b : Value) → (same a b = true ↔ a = b)
  | .null, b => by cases b <;> simp [same]
  | .bool _, b => by cases b <;> simp [same]
  | .int _, b => by cases b <;> simp [same]
  | .text _, b => by cases b <;> simp [same]
  | .list as, b => by cases b <;> simp [same, sameItems_iff_eq as]

theorem sameItems_iff_eq : (as bs : List Value) → (sameItems as bs = true ↔ as = bs)
  | [], bs => by cases bs <;> simp [sameItems]
  | a :: as, bs => by cases bs <;> simp [sameItems, same_iff_eq a, sameItems_iff_eq as]

end

instance : DecidableEq Value := fun a b => decidable_of_iff _ (same_iff_eq a b)

/-! ## Values of what parsers yield -/

/-- A character is a text of one. -/
def ofChar (c : Char) : Value := .text (String.singleton c)

/-- A text, as the list of its characters. -/
def ofChars (cs : List Char) : Value := .list (cs.map ofChar)

def ofUnit (_ : Unit) : Value := .null

/-- A value that may be missing is itself, or null. -/
def ofOption (v : Option Value) : Value := v.getD .null

/-- A value that may be missing, marked as present or not. -/
def ofOptionShown : Option Value → Value
  | some v => .list [.text "some", v]
  | none => .list [.text "none"]

/-! ## What a value holds -/

mutual

/-- Everything in a value that is no list, depth first. -/
def leaves : Value → List Value
  | .list items => leavesOf items
  | v => [v]

def leavesOf : List Value → List Value
  | [] => []
  | v :: vs => leaves v ++ leavesOf vs

end

/-- The texts inside a value, run together. -/
def joined (v : Value) : String :=
  String.join (v.leaves.filterMap fun
    | .text s => some s
    | _ => none)

/-- A whole number as a 64-bit word with a sign. -/
def word (n : Int) : Int := Int.bmod n 0x10000000000000000

/-- The sum of the numbers inside a value. -/
def total (v : Value) : Int :=
  word ((v.leaves.filterMap fun
    | .int n => some n
    | _ => none).foldr (· + ·) 0)

/-- How many characters a text has, or items a list. Nothing else has a size. -/
def size : Value → Nat
  | .text s => s.length
  | .list items => items.length
  | _ => 0

/-- An item of a list, or null. -/
def item (v : Value) (i : Nat) : Value :=
  match v with
  | .list items => items.getD i .null
  | _ => .null

/-- A text of decimal digits as a number below 2^32, whatever zeros it starts with. Any other text
is 0, the empty one too, and so is a number with a sign, be it a plus: grammars take their numbers
from runs of digits, and a sign would be a part of its own. -/
def natural (s : String) : Nat :=
  let cs := s.toList
  let n := Nat.ofDigitChars 10 cs 0
  if cs ≠ [] ∧ cs.all Char.isDigit ∧ n < 0x100000000 then n else 0

end Value

end TextParsers
