-- A place in a text. A cursor counts what lies behind it in characters and in
-- bytes, and keeps the characters that are left. Both counts change only in
-- `advance`, which stops at the end of the text.
namespace TextParsers

/-- A place in a text. -/
structure Cursor where
  text : String
  /-- The characters that are left. -/
  rest : List Char
  /-- How many bytes of UTF-8 lie behind. -/
  offset : Nat
  /-- How many characters lie behind. -/
  position : Nat
  deriving DecidableEq, Repr

namespace Cursor

/-- The place before the first character. -/
def start (text : String) : Cursor := ⟨text, text.toList, 0, 0⟩

/-- What is left, as a text of its own. -/
def remainder (c : Cursor) : String := String.ofList c.rest

/-- The next character. -/
def peek (c : Cursor) : Option Char := c.rest.head?

/-- Every byte of the text lies behind. -/
def isEmpty (c : Cursor) : Bool := c.offset == c.text.utf8ByteSize

/-- Moves over the next `n` characters, or over all that are left if there are fewer. -/
def advance (c : Cursor) (n : Nat) : Cursor :=
  let passed := c.rest.take n
  { c with
    rest := c.rest.drop n
    offset := c.offset + (String.ofList passed).utf8ByteSize
    position := c.position + passed.length }

/-! ## Laws -/

@[simp] theorem text_advance (c : Cursor) (n : Nat) : (c.advance n).text = c.text := rfl

@[simp] theorem rest_advance (c : Cursor) (n : Nat) : (c.advance n).rest = c.rest.drop n := rfl

@[simp] theorem position_advance (c : Cursor) (n : Nat) :
    (c.advance n).position = c.position + min n c.rest.length := by
  simp [advance]

@[simp] theorem rest_start_remainder (c : Cursor) : (start c.remainder).rest = c.rest :=
  String.toList_ofList

@[simp] theorem advance_zero (c : Cursor) : c.advance 0 = c := by
  simp [advance]

/-- Two moves are one move over both distances. -/
theorem advance_advance (c : Cursor) (a b : Nat) :
    (c.advance a).advance b = c.advance (a + b) := by
  have h : c.rest.take (a + b) = c.rest.take a ++ (c.rest.drop a).take b := by
    rw [List.take_add]
  simp only [advance, h, String.ofList_append, String.utf8ByteSize_append, List.length_append,
    List.drop_drop, Nat.add_assoc]

end Cursor

end TextParsers
