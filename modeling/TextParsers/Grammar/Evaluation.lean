-- The parser of a node, made step by step. A rule may lead back to itself and a
-- repetition may jump back, so a parse need not end. Every step therefore counts against
-- a limit, and a parse that runs out of steps gives no answer.
import TextParsers.Grammar.Node
import TextParsers.Parser.Choice
import TextParsers.Parser.Repetition
import TextParsers.Parser.Sequence
namespace TextParsers

/-- The parser of a node, made from the parsers `p` of the nodes it leads to, with so many turns
for each repetition. A rule without a body has no answer. -/
def Grammar.step (g : Grammar) (turns : Nat) (p : Node → Parser Value) : Node → Parser Value
  | .anyChar => Parser.anyChar.map Value.ofChar
  | .endOfText => Parser.endOfText.map Value.ofUnit
  | .char c => (Parser.char c).map Value.ofChar
  | .satisfy cls => (Parser.satisfy cls.holds).map Value.ofChar
  | .literal s => (Parser.literal s).map Value.ofChars
  | .all nodes => (Parser.all (nodes.map p)).map Value.list
  | .row nodes => (Parser.row (nodes.map p)).map Value.list
  | .choice nodes => Parser.choice (nodes.map p)
  | .many node => ((p node).many turns).map Value.list
  | .many1 node => ((p node).many1 turns).map Value.list
  | .count n node => ((p node).count n).map Value.list
  | .countBetween min max node => ((p node).countBetween turns min max).map Value.list
  | .skip node => (p node).skip.map Value.ofUnit
  | .not node => (p node).not.map Value.ofUnit
  | .optional shown node =>
    (p node).optional.map (if shown then Value.ofOptionShown else Value.ofOption)
  | .map f node => (p node).map f.apply
  | .reword f node => (p node).reword f.apply
  | .surround opening closing node => (p node).surround opening closing
  | .rule name =>
    match g.body? name with
    | some body => p body
    | none => Parser.silent
  | .shared node => p node
  | .accept value n => Parser.accept value n
  | .fail expected n => Parser.fail expected n
  | .jump n => (Parser.jump n).map Value.ofUnit
  | .enter text n => (Parser.enter text n).map Value.ofUnit
  | .nested node => (p node).nested

/-- The parser of a node, within so many steps from a node to the nodes it is made of. The
same limit holds for the turns of each repetition. -/
def Grammar.parser (g : Grammar) : (limit : Nat) → Node → Parser Value
  | 0, _ => Parser.silent
  | limit + 1, node => g.step limit (g.parser limit) node

theorem Grammar.parser_succ (g : Grammar) (limit : Nat) (node : Node) :
    g.parser (limit + 1) node = g.step limit (g.parser limit) node := rfl

/-- More steps than any parse takes that ends in a lifetime. -/
def Grammar.ample : Nat := 0x4000000000000000

/-- The parser of a node, with steps to spare. -/
def Grammar.parse (g : Grammar) (node : Node) : Parser Value := g.parser ample node

end TextParsers
