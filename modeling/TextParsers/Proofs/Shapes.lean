-- The law of values. The shape of a node forgets what the node does with values,
-- and nothing else. Parses of two grammars of one shape take the same course: they
-- come to the same places, fail with the same messages and log the same entries.
import TextParsers.Proofs.GrammarRuns
namespace TextParsers

/-! ## Shapes -/

mutual

/-- The node with all that only builds values left out: changes of values, values that are
accepted, and how an optional value is shown. -/
def Node.shape : Node → Node
  | .all nodes => .all (Node.shapes nodes)
  | .row nodes => .row (Node.shapes nodes)
  | .choice nodes => .choice (Node.shapes nodes)
  | .many node => .many node.shape
  | .many1 node => .many1 node.shape
  | .count n node => .count n node.shape
  | .countBetween min max node => .countBetween min max node.shape
  | .skip node => .skip node.shape
  | .not node => .not node.shape
  | .optional _ node => .optional false node.shape
  | .map _ node => .map .keep node.shape
  | .reword f node => .reword f node.shape
  | .surround opening closing node => .surround opening closing node.shape
  | .shared node => .shared node.shape
  | .nested node => .nested node.shape
  | .accept _ n => .accept .null n
  | node => node

def Node.shapes : List Node → List Node
  | [] => []
  | node :: nodes => node.shape :: Node.shapes nodes

end

/-- The rules with the shapes of their bodies. -/
def Grammar.shape (g : Grammar) : Grammar := ⟨g.rules.map fun rule => (rule.1, rule.2.shape)⟩

theorem Grammar.body?_shape (g : Grammar) (name : String) :
    g.shape.body? name = (g.body? name).map Node.shape := by
  obtain ⟨rules⟩ := g
  unfold Grammar.body? Grammar.shape
  induction rules with
  | nil => rfl
  | cons rule rules ih =>
    obtain ⟨other, body⟩ := rule
    simp only [List.map_cons, List.lookup_cons]
    cases name == other with
    | true => rfl
    | false => exact ih

/-! ## A node and its shape -/

theorem Node.forall₂_shapes {N : Node → Node → Prop} {nodes : List Node}
    (h : ∀ node ∈ nodes, N node node.shape) : List.Forall₂ N nodes (Node.shapes nodes) := by
  induction nodes with
  | nil => exact .nil
  | cons node nodes ih =>
    obtain ⟨hnode, hnodes⟩ := List.forall_mem_cons.mp h
    exact .cons hnode (ih hnodes)

/-- A node and its shape differ in values only. -/
theorem Node.like_shape {N : Node → Node → Prop} {node : Node}
    (h : ∀ child ∈ node.children, N child child.shape) :
    Node.Like (fun _ _ => True) N node node.shape := by
  cases node with
  | all nodes => exact .all (Node.forall₂_shapes h)
  | row nodes => exact .row (Node.forall₂_shapes h)
  | choice nodes => exact .choice (Node.forall₂_shapes h)
  | optional shown child =>
    exact .optional (h child (List.mem_singleton_self _)) fun _ _ _ => trivial
  | map f child => exact .map (h child (List.mem_singleton_self _)) fun _ _ _ => trivial
  | accept v n => exact .accept trivial n
  | many child | many1 child | count n child | countBetween min max child | skip child
  | not child | reword f child | surround opening closing child | shared child
  | nested child =>
    constructor
    exact h child (List.mem_singleton_self _)
  | _ => constructor

/-! ## Parses that take the same course -/

/-- The two replies differ in their value at most. -/
structure Reply.SameCourse (r s : Reply Value) : Prop where
  kind : r.outcome.isSuccess = s.outcome.isSuccess
  cursor : r.outcome.cursor = s.outcome.cursor
  expected : r.outcome.expected? = s.outcome.expected?
  log : r.log = s.log

theorem Reply.Alike.sameCourse {r s : Reply Value}
    (h : r.Alike (.within fun _ => True) (fun _ _ => True) s) : r.SameCourse s := by
  obtain ⟨o, l⟩ := r
  obtain ⟨o', l'⟩ := s
  obtain ⟨ho, hl⟩ := h
  cases ho with
  | success _ hc => exact ⟨rfl, hc.1, rfl, hl⟩
  | failure hf => exact ⟨rfl, hf.2.1, congrArg some hf.1, hl⟩

theorem Reply.SameCourse.trans {r s t : Reply Value} (h : r.SameCourse s) (h' : s.SameCourse t) :
    r.SameCourse t :=
  ⟨h.kind.trans h'.kind, h.cursor.trans h'.cursor, h.expected.trans h'.expected,
    h.log.trans h'.log⟩

section

variable {g h : Grammar} {c : Cursor}

/-- Nodes that differ in values only, down to the rules, take the same course. -/
theorem Grammar.Answers.of_like {N : Node → Node → Prop} {a b : Node} {r : Reply Value}
    (hr : g.Answers a c r) (hN : ∀ a b, N a b → Node.Like (fun _ _ => True) N a b)
    (hbody : ∀ name body, g.body? name = some body →
      ∃ body', h.body? name = some body' ∧ N body body') (hab : N a b) :
    ∃ s, h.Answers b c s ∧ r.SameCourse s := by
  obtain ⟨limit, hr⟩ := hr
  have hsim := Grammar.parser_simulatedBy_of_like Likeness.lawful_within_true
    Likeness.samePlace_within Value.congruent_true hN (fun name _ body _ => hbody name body)
    limit hab
  obtain ⟨s, hs, hrs⟩ := (hsim c c ⟨rfl, trivial⟩).exists_of_eq_some hr
  exact ⟨s, ⟨limit, hs⟩, hrs.sameCourse⟩

variable {node : Node}

/-- The shape of a node, among the shapes of the rules, takes the course of the node. -/
theorem Grammar.Answers.shape {r : Reply Value} (hr : g.Answers node c r)
    (hg : ∀ name, h.body? name = (g.body? name).map Node.shape) :
    ∃ s, h.Answers node.shape c s ∧ r.SameCourse s := by
  refine hr.of_like (N := fun a b => b = a.shape) ?_ ?_ rfl
  · rintro a _ rfl
    exact Node.like_shape fun _ _ => rfl
  · intro name body hb
    exact ⟨body.shape, by rw [hg, hb, Option.map_some], rfl⟩

theorem Grammar.Answers.of_shape {s : Reply Value} (hs : h.Answers node.shape c s)
    (hg : ∀ name, h.body? name = (g.body? name).map Node.shape) :
    ∃ r, g.Answers node c r ∧ s.SameCourse r := by
  refine hs.of_like (N := fun a b => a = b.shape) ?_ ?_ rfl
  · rintro _ b rfl
    exact (Node.like_shape (N := fun a b => b = a.shape) fun _ _ => rfl).flip
  · intro name _ hb
    rw [hg, Option.map_eq_some_iff] at hb
    obtain ⟨body, hb, rfl⟩ := hb
    exact ⟨body, hb, rfl⟩

end

/-! ## The law -/

/-- Two grammars that differ only in what they do with values parse alike. At every place one
parse ends exactly if the other does, and then both succeed or both fail, at one place, with one
message and one log. -/
theorem values_never_steer_a_parse (g g' : Grammar) (node node' : Node) (c : Cursor)
    (hg : ∀ name, (g.body? name).map Node.shape = (g'.body? name).map Node.shape)
    (hn : node.shape = node'.shape) :
    ((∃ r, g.Answers node c r) ↔ ∃ r', g'.Answers node' c r') ∧
    ∀ r r', g.Answers node c r → g'.Answers node' c r' →
      r.outcome.isSuccess = r'.outcome.isSuccess ∧
      r.outcome.cursor = r'.outcome.cursor ∧
      r.outcome.expected? = r'.outcome.expected? ∧
      r.log = r'.log := by
  have hshape : ∀ name, g.shape.body? name = (g.body? name).map Node.shape := g.body?_shape
  have hshape' : ∀ name, g.shape.body? name = (g'.body? name).map Node.shape := fun name => by
    rw [hshape, hg]
  have hleft : ∀ r, g.Answers node c r → ∃ r', g'.Answers node' c r' ∧ r.SameCourse r' := by
    intro r hr
    obtain ⟨s, hs, hrs⟩ := hr.shape hshape
    rw [hn] at hs
    obtain ⟨r', hr', hsr'⟩ := hs.of_shape hshape'
    exact ⟨r', hr', hrs.trans hsr'⟩
  refine ⟨⟨?_, ?_⟩, ?_⟩
  · rintro ⟨r, hr⟩
    obtain ⟨r', hr', -⟩ := hleft r hr
    exact ⟨r', hr'⟩
  · rintro ⟨r', hr'⟩
    obtain ⟨s, hs, -⟩ := hr'.shape hshape'
    rw [← hn] at hs
    obtain ⟨r, hr, -⟩ := hs.of_shape hshape
    exact ⟨r, hr⟩
  · intro r r' hr hr'
    obtain ⟨s, hs, hrs⟩ := hleft r hr
    obtain rfl := hs.unique hr'
    exact ⟨hrs.kind, hrs.cursor, hrs.expected, hrs.log⟩

/-- A count and a tag in a recursive rule, with a nested run at the bottom that jumps. -/
theorem a_count_and_a_tag_take_the_same_course :
    let g : Grammar := ⟨[("r", .choice [.map .size (.row [.char 'a', .rule "r"]),
      .nested (.optional true (.row [.jump 1, .accept (.int 7) 1]))])]⟩
    let g' : Grammar := ⟨[("r", .choice [.map (.tag "t") (.row [.char 'a', .rule "r"]),
      .nested (.optional false (.row [.jump 1, .accept .null 1]))])]⟩
    let r : Reply Value := ⟨.success (.int 2) ⟨"bc", [], 2, 2⟩,
      [.opened 2, .entered, .succeeded 2, .exited]⟩
    let r' : Reply Value := ⟨.success (.list [.text "t", .list [.text "a", .list [.null, .null]]])
      ⟨"bc", [], 2, 2⟩, [.opened 2, .entered, .succeeded 2, .exited]⟩
    (∀ name, (g.body? name).map Node.shape = (g'.body? name).map Node.shape) ∧
    g.Answers (.rule "r") (.start "abc") r ∧ g'.Answers (.rule "r") (.start "abc") r' ∧
    r.outcome.cursor = r'.outcome.cursor ∧ r.log = r'.log := by
  intro g g' r r'
  have hg : ∀ name, (g.body? name).map Node.shape = (g'.body? name).map Node.shape := by
    intro name
    rw [← g.body?_shape, ← g'.body?_shape]
    rfl
  have hr : g.Answers (.rule "r") (.start "abc") r := ⟨16, by decide⟩
  have hr' : g'.Answers (.rule "r") (.start "abc") r' := ⟨16, by decide⟩
  obtain ⟨-, hcursor, -, hlog⟩ :=
    (values_never_steer_a_parse g g' (.rule "r") (.rule "r") (.start "abc") hg rfl).2 r r' hr hr'
  exact ⟨hg, hr, hr', hcursor, hlog⟩

end TextParsers
