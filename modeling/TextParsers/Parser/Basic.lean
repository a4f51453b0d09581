-- Parsers and the smallest of them. A parser is a partial function of the place
-- it starts at: one that never ends gives no answer. Running it on a text wraps
-- what it logs into a block.
import TextParsers.Event
import TextParsers.Refusal
namespace TextParsers

/-- What a parser answers: how it ended, and what it logged on the way. -/
structure Reply (α : Type) where
  outcome : Outcome α
  log : Log
  deriving DecidableEq, Repr

/-- A parser of values of type `α`. No answer means that it does not end, or not within
the steps it was given. -/
def Parser (α : Type) := Cursor → Option (Reply α)

variable {α β : Type}

/-- The reply with entries logged before it. -/
def Reply.after (r : Reply α) (earlier : Log) : Reply α := ⟨r.outcome, earlier ++ r.log⟩

namespace Parser

/-! ## Answers that look at nothing -/

/-- Succeeds with `a`, `n` characters further on. -/
def accept (a : α) (n : Nat) : Parser α := fun c => some ⟨.success a (c.advance n), []⟩

/-- Fails with a message, `n` characters further on. -/
def fail (expected : String) (n : Nat) : Parser α := fun c =>
  some ⟨.failure expected (c.advance n), []⟩

/-- Fails where it stands. -/
def refuse (why : Refusal) : Parser α := fun c => some ⟨.failure why.wording c, []⟩

/-- Never ends. -/
def silent : Parser α := fun _ => none

/-! ## One character -/

/-- Any character. -/
def anyChar : Parser Char := fun c =>
  match c.peek with
  | some a => accept a 1 c
  | none => refuse .noCharacter c

/-- A character that passes a test. -/
def satisfy (test : Char → Bool) : Parser Char := fun c =>
  match c.peek with
  | some a => if test a then accept a 1 c else refuse .outsideClass c
  | none => refuse .outsideClass c

/-- One given character. -/
def char (wanted : Char) : Parser Char := fun c =>
  if c.peek = some wanted then accept wanted 1 c else refuse (.otherChar c.peek wanted) c

/-- The end of the text. -/
def endOfText : Parser Unit := fun c =>
  if c.isEmpty then accept () 0 c else refuse .textLeft c

/-! ## Another outcome -/

/-- Runs `p` and puts another outcome in place of its own. The new one may depend on where
`p` started. -/
def settle (p : Parser α) (f : Cursor → Outcome α → Outcome β) : Parser β := fun c =>
  (p c).map fun r => ⟨f c r.outcome, r.log⟩

/-- Changes the value of a success. -/
def map (f : α → β) (p : Parser α) : Parser β := p.settle fun _ o => o.mapValue f

/-- Changes the message of a failure. -/
def reword (f : String → String) (p : Parser α) : Parser α := p.settle fun _ o => o.mapExpected f

/-- Forgets the value. A failure is reported where `p` started, however far it got. -/
def skip (p : Parser α) : Parser Unit := p.settle fun c o =>
  match o with
  | .success _ d => .success () d
  | .failure e _ => .failure e c

/-- Steps over one character where `p` fails. At the end of the text there is nothing to
step over, and it succeeds all the same. -/
def not (p : Parser α) : Parser Unit := p.settle fun c o =>
  match o with
  | .success .. => .failure Refusal.unwanted.wording c
  | .failure .. => .success () (c.advance 1)

/-- Succeeds without a value, and without a move, where `p` fails. -/
def optional (p : Parser α) : Parser (Option α) := p.settle fun c o =>
  match o with
  | .success a d => .success (some a) d
  | .failure .. => .success none c

/-! ## One after the other -/

/-- Runs `p`, and then what its value calls for, from where `p` ended. A failure of `p` is
the answer. -/
protected def bind (p : Parser α) (next : α → Parser β) : Parser β := fun c =>
  match p c with
  | none => none
  | some ⟨.failure e d, log⟩ => some ⟨.failure e d, log⟩
  | some ⟨.success a d, log⟩ => (next a d).map (·.after log)

instance : Monad Parser where
  pure a := accept a 0
  bind := Parser.bind
  map := Parser.map

/-! ## A run on a text -/

/-- Parses a text from its start, and logs the run as a block. -/
def run (p : Parser α) (text : String) : Option (Reply α) :=
  (p (.start text)).map fun r =>
    ⟨r.outcome,
      .opened text.utf8ByteSize :: .entered :: (r.log ++ [r.outcome.verdict, .exited])⟩

/-! ## Other places -/

/-- Goes to the place after `n` characters of a text, wherever it stood before. -/
def enter (text : String) (n : Nat) : Parser Unit := fun _ =>
  some ⟨.success () ((Cursor.start text).advance n), []⟩

/-- Goes to the place after `n` characters of the text it is in, forwards or backwards. -/
def jump (n : Nat) : Parser Unit := fun c => enter c.text n c

/-- Runs `p` on what is left as a text of its own, and ends in that text. -/
def nested (p : Parser α) : Parser α := fun c => p.run c.remainder

end Parser

end TextParsers
