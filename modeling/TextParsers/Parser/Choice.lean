-- Alternatives. Each is tried at the same place, and what failed before the
-- first success leaves its log and nothing else.
import TextParsers.Parser.Basic
namespace TextParsers.Parser

variable {α : Type}

/-- Runs `p`, and `q` at the same place if `p` fails. -/
def orElse (p q : Parser α) : Parser α := fun c =>
  match p c with
  | none => none
  | some ⟨.success a d, log⟩ => some ⟨.success a d, log⟩
  | some ⟨.failure .., log⟩ => (q c).map (·.after log)

/-- The answer after so many alternatives have failed. -/
def noAlternative (alternatives : Nat) : Parser α := fun c =>
  some ⟨.failure Refusal.noAlternative.wording c, [.noAlternative c.position alternatives]⟩

/-- The first of the parsers that succeeds. -/
def choice (ps : List (Parser α)) : Parser α := ps.foldr orElse (noAlternative ps.length)

end TextParsers.Parser
