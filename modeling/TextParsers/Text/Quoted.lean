-- Texts in quotes, as debug texts show them. Quotes and backslashes are escaped,
-- the commonest control characters have short names, and the others are written
-- by their number.
namespace TextParsers.Text.Quoted

/-- A control character of ASCII. -/
def isControl (c : Char) : Bool := c.toNat < 0x20 || c.toNat == 0x7f

/-- How one character is written between quotes. -/
def escape (c : Char) : List Char :=
  if c = '"' then ['\\', '"']
  else if c = '\\' then ['\\', '\\']
  else if c = '\n' then ['\\', 'n']
  else if c = '\r' then ['\\', 'r']
  else if c = '\t' then ['\\', 't']
  else if c = '\x00' then ['\\', '0']
  else if isControl c then ['\\', 'u', '\x7b'] ++ Nat.toDigits 16 c.toNat ++ ['\x7d']
  else [c]

/-- The characters between the quotes. -/
def encode (cs : List Char) : List Char := cs.flatMap escape

/-- A text in quotes. -/
def quote (s : String) : String := String.ofList ('"' :: encode s.toList ++ ['"'])

end TextParsers.Text.Quoted
