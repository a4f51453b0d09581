-- Why a parser refuses the text in front of it, and the words it says so in.
namespace TextParsers

/-- Why a parser refuses. -/
inductive Refusal where
  /-- A character was wanted at the end of the text. -/
  | noCharacter
  /-- The end of the text was wanted before it. -/
  | textLeft
  /-- Another character was wanted; at the end of the text none is found. -/
  | otherChar (found : Option Char) (wanted : Char)
  /-- The next character is not one of those that were wanted, or there is none. -/
  | outsideClass
  /-- No alternative fits. Each has its own reason, so nothing is said. -/
  | noAlternative
  /-- Something is there that must not be. -/
  | unwanted
  /-- An exact number of repetitions was wanted and fewer fit. -/
  | shortCount (wanted actual : Nat)
  | tooFew (min : Nat)
  | tooMany (max : Nat)
  deriving DecidableEq, Repr

/-- What a refusal says. -/
def Refusal.wording : Refusal → String
  | .noCharacter => "empty character"
  | .textLeft => "not EOF"
  | .otherChar found wanted =>
    String.ofList found.toList ++ " is not " ++ String.singleton wanted
  | .outsideClass => "no match predicate"
  | .noAlternative => ""
  | .unwanted => "matched"
  | .shortCount wanted actual =>
    "expected count " ++ Nat.repr wanted ++ " actual " ++ Nat.repr actual
  | .tooFew min => "match count < " ++ Nat.repr min
  | .tooMany max => Nat.repr max ++ " < match count"

end TextParsers
