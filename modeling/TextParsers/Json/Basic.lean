-- JSON trees. All numbers that the library writes are whole.
namespace TextParsers

inductive Json where
  | null
  | bool (b : Bool)
  | int (n : Int)
  | text (s : String)
  | list (items : List Json)
  /-- Fields in the order they are written. -/
  | object (fields : List (String × Json))
  deriving Repr, Inhabited

end TextParsers
