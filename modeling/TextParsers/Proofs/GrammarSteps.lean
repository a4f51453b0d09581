-- One step of a parse, from two nodes of one kind. `Node.Like` compares them. A step
-- from like nodes keeps any simulation that their parts have, so a law about two whole
-- parses has to look only at the nodes that lead out of their parts.
import TextParsers.Grammar.Evaluation
import TextParsers.Proofs.Likeness
namespace TextParsers

/-! ## The nodes that a node is made of -/

/-- The nodes directly inside. -/
def Node.children : Node → List Node
  | .all nodes => nodes
  | .row nodes => nodes
  | .choice nodes => nodes
  | .many node => [node]
  | .many1 node => [node]
  | .count _ node => [node]
  | .countBetween _ _ node => [node]
  | .skip node => [node]
  | .not node => [node]
  | .optional _ node => [node]
  | .map _ node => [node]
  | .reword _ node => [node]
  | .surround _ _ node => [node]
  | .shared node => [node]
  | .nested node => [node]
  | _ => []

theorem Node.sizeOf_lt_of_mem_children {node child : Node} (h : child ∈ node.children) :
    sizeOf child < sizeOf node := by
  cases node with
  | all nodes | row nodes | choice nodes =>
    have hlt : sizeOf child < sizeOf nodes := List.sizeOf_lt_of_mem h
    simp only [Node.all.sizeOf_spec, Node.row.sizeOf_spec, Node.choice.sizeOf_spec]
    omega
  | many _ | many1 _ | count _ _ | countBetween _ _ _ | skip _ | not _ | optional _ _ | map _ _
  | reword _ _ | surround _ _ _ | shared _ | nested _ =>
    obtain rfl := List.mem_singleton.mp h
    decreasing_tactic
  | _ => cases h

/-- What holds of a node if it holds of the nodes directly inside holds of every node. -/
@[elab_as_elim]
theorem Node.induction_on_children {motive : Node → Prop} (node : Node)
    (h : ∀ node, (∀ child ∈ node.children, motive child) → motive node) : motive node := by
  induction hn : sizeOf node using Nat.strongRecOn generalizing node with
  | ind n ih =>
    refine h node fun child hc => ih (sizeOf child) ?_ child rfl
    rw [← hn]
    exact Node.sizeOf_lt_of_mem_children hc

/-! ## Nodes of one kind -/

/-- A comparison of values that lists cannot tell from equality. -/
structure Value.Congruent (V : Value → Value → Prop) : Prop where
  refl : ∀ v, V v v
  list : ∀ {as bs}, List.Forall₂ V as bs → V (.list as) (.list bs)

theorem Value.congruent_eq : Value.Congruent Eq where
  refl _ := rfl
  list h := by rw [List.forall₂_eq_eq_eq] at h; rw [h]

theorem Value.congruent_true : Value.Congruent fun _ _ => True where
  refl _ := trivial
  list _ := trivial

/-- The two nodes are of one kind, and the nodes directly inside compare by `N`. The values
that they build may differ as far as `V` allows. -/
inductive Node.Like (V : Value → Value → Prop) (N : Node → Node → Prop) : Node → Node → Prop
  | anyChar : Like V N .anyChar .anyChar
  | endOfText : Like V N .endOfText .endOfText
  | char (c : Char) : Like V N (.char c) (.char c)
  | satisfy (cls : CharClass) : Like V N (.satisfy cls) (.satisfy cls)
  | literal (s : String) : Like V N (.literal s) (.literal s)
  | all {as bs : List Node} (h : List.Forall₂ N as bs) : Like V N (.all as) (.all bs)
  | row {as bs : List Node} (h : List.Forall₂ N as bs) : Like V N (.row as) (.row bs)
  | choice {as bs : List Node} (h : List.Forall₂ N as bs) : Like V N (.choice as) (.choice bs)
  | many {a b : Node} (h : N a b) : Like V N (.many a) (.many b)
  | many1 {a b : Node} (h : N a b) : Like V N (.many1 a) (.many1 b)
  | count (n : Nat) {a b : Node} (h : N a b) : Like V N (.count n a) (.count n b)
  | countBetween (min max : Nat) {a b : Node} (h : N a b) :
      Like V N (.countBetween min max a) (.countBetween min max b)
  | skip {a b : Node} (h : N a b) : Like V N (.skip a) (.skip b)
  | not {a b : Node} (h : N a b) : Like V N (.not a) (.not b)
  | optional {shown shown' : Bool} {a b : Node} (h : N a b)
      (hs : ∀ v w, Option.Rel V v w →
        V ((if shown then Value.ofOptionShown else Value.ofOption) v)
          ((if shown' then Value.ofOptionShown else Value.ofOption) w)) :
      Like V N (.optional shown a) (.optional shown' b)
  | map {f f' : Mapper} {a b : Node} (h : N a b)
      (hf : ∀ v w, V v w → V (f.apply v) (f'.apply w)) : Like V N (.map f a) (.map f' b)
  | reword (f : Rewording) {a b : Node} (h : N a b) : Like V N (.reword f a) (.reword f b)
  | surround (opening closing : Char) {a b : Node} (h : N a b) :
      Like V N (.surround opening closing a) (.surround opening closing b)
  | rule (name : String) : Like V N (.rule name) (.rule name)
  | shared {a b : Node} (h : N a b) : Like V N (.shared a) (.shared b)
  | accept {v w : Value} (h : V v w) (n : Nat) : Like V N (.accept v n) (.accept w n)
  | fail (expected : String) (n : Nat) : Like V N (.fail expected n) (.fail expected n)
  | jump (n : Nat) : Like V N (.jump n) (.jump n)
  | enter (text : String) (n : Nat) : Like V N (.enter text n) (.enter text n)
  | nested {a b : Node} (h : N a b) : Like V N (.nested a) (.nested b)

/-- A node is like itself if the nodes directly inside are. -/
theorem Node.like_self {N : Node → Node → Prop} {node : Node}
    (h : ∀ child ∈ node.children, N child child) : Node.Like Eq N node node := by
  cases node with
  | all nodes => exact .all (List.forall₂_same.mpr h)
  | row nodes => exact .row (List.forall₂_same.mpr h)
  | choice nodes => exact .choice (List.forall₂_same.mpr h)
  | optional shown child =>
    refine .optional (h child (List.mem_singleton_self _)) fun v w hvw => ?_
    cases hvw with
    | some hv => rw [hv]
    | none => exact Value.congruent_eq.refl _
  | map f child => exact .map (h child (List.mem_singleton_self _)) fun _ _ => congrArg _
  | accept v n => exact .accept rfl n
  | many child | many1 child | count n child | countBetween min max child | skip child
  | not child | reword f child | surround opening closing child | shared child
  | nested child =>
    constructor
    exact h child (List.mem_singleton_self _)
  | _ => constructor

theorem Node.Like.mono {V : Value → Value → Prop} {N M : Node → Node → Prop} {a b : Node}
    (h : Node.Like V N a b) (hNM : ∀ a b, N a b → M a b) : Node.Like V M a b := by
  cases h with
  | all h => exact .all (h.imp hNM)
  | row h => exact .row (h.imp hNM)
  | choice h => exact .choice (h.imp hNM)
  | optional h hs => exact .optional (hNM _ _ h) hs
  | map h hf => exact .map (hNM _ _ h) hf
  | accept h n => exact .accept h n
  | many h | many1 h | count _ h | countBetween _ _ h | skip h | not h | reword _ h
  | surround _ _ h | shared h | nested h =>
    constructor
    exact hNM _ _ h
  | _ => constructor

theorem Node.Like.flip {V : Value → Value → Prop} {N : Node → Node → Prop} {a b : Node}
    (h : Node.Like V N a b) : Node.Like (fun v w => V w v) (fun a b => N b a) b a := by
  cases h with
  | all h => exact .all h.flip
  | row h => exact .row h.flip
  | choice h => exact .choice h.flip
  | optional h hs =>
    refine .optional h fun v w hvw => hs w v ?_
    cases hvw with
    | some hv => exact .some hv
    | none => exact .none
  | map h hf => exact .map h fun v w hv => hf w v hv
  | many h | many1 h | count _ h | countBetween _ _ h | skip h | not h | reword _ h
  | surround _ _ h | shared h | accept h _ | nested h =>
    constructor
    exact h
  | _ => constructor

theorem Node.Like.flip_eq {N : Node → Node → Prop} {a b : Node} (h : Node.Like Eq N a b) :
    Node.Like Eq (fun a b => N b a) b a := by
  have heq : (fun v w : Value => w = v) = Eq := by
    funext v w
    exact propext eq_comm
  have hflip := h.flip
  rwa [heq] at hflip

/-! ## Simulation of one step -/

section

variable {R : Likeness} {V : Value → Value → Prop}

/-- What a step asks at nodes that leave the text they are in. -/
def Likeness.Crosses (R : Likeness) (V : Value → Value → Prop) (p q : Node → Parser Value) :
    Node → Node → Prop
  | .jump n, _ => (Parser.jump n).SimulatedBy R Eq (Parser.jump n)
  | .enter text n, _ => (Parser.enter text n).SimulatedBy R Eq (Parser.enter text n)
  | .nested a, .nested b => (p a).nested.SimulatedBy R V (q b).nested
  | _, _ => True

theorem Parser.SimulatedBy.ofList (hV : Value.Congruent V) {p q : Parser (List Value)}
    (h : p.SimulatedBy R (List.Forall₂ V) q) :
    (p.map Value.list).SimulatedBy R V (q.map Value.list) :=
  h.map fun _ _ => hV.list

theorem Parser.SimulatedBy.ofSame (hV : Value.Congruent V) {α : Type} {p q : Parser α}
    (h : p.SimulatedBy R Eq q) (f : α → Value) : (p.map f).SimulatedBy R V (q.map f) := by
  refine h.map fun a b hab => ?_
  rw [hab]
  exact hV.refl _

theorem Parser.forall₂_map {p q : Node → Parser Value} {as bs : List Node}
    (h : List.Forall₂ (fun a b => (p a).SimulatedBy R V (q b)) as bs) :
    List.Forall₂ (Parser.SimulatedBy R V) (as.map p) (bs.map q) := by
  rw [List.forall₂_map_left_iff, List.forall₂_map_right_iff]
  exact h

/-- A step from one of two like nodes is simulated by the step from the other, if the steps
from their parts are, and the second may take as many turns. -/
theorem Grammar.step_simulatedBy (hR : R.Lawful) (hV : Value.Congruent V) {g g' : Grammar}
    {m n : Nat} (hmn : m ≤ n) {p q : Node → Parser Value} {a b : Node}
    (hab : Node.Like V (fun a b => (p a).SimulatedBy R V (q b)) a b)
    (hbody : ∀ name body, a = .rule name → g.body? name = some body →
      ∃ body', g'.body? name = some body' ∧ (p body).SimulatedBy R V (q body'))
    (hcross : R.Crosses V p q a b) : (g.step m p a).SimulatedBy R V (g'.step n q b) := by
  cases hab with
  | anyChar => exact (Parser.simulatedBy_anyChar hR).ofSame hV _
  | endOfText => exact (Parser.simulatedBy_endOfText hR).ofSame hV _
  | char c => exact (Parser.simulatedBy_char hR c).ofSame hV _
  | satisfy cls => exact (Parser.simulatedBy_satisfy hR _).ofSame hV _
  | literal s => exact (Parser.simulatedBy_literalChars hR _).ofSame hV _
  | all h => exact (Parser.simulatedBy_all hR (Parser.forall₂_map h)).ofList hV
  | row h => exact (Parser.simulatedBy_row hR (Parser.forall₂_map h)).ofList hV
  | choice h => exact Parser.simulatedBy_choice hR (Parser.forall₂_map h)
  | many h => exact (h.many hR hmn).ofList hV
  | many1 h => exact (h.many1 hR hmn).ofList hV
  | count n h => exact (h.count hR n).ofList hV
  | countBetween min max h => exact (h.countBetween hR hmn min max).ofList hV
  | skip h => exact (h.skip hR).ofSame hV _
  | not h => exact (h.not hR).ofSame hV _
  | optional h hs => exact h.optional.map hs
  | map h hf => exact h.map hf
  | reword f h => exact h.reword hR _
  | surround opening closing h => exact h.surround hR opening closing
  | rule name =>
    simp only [Grammar.step]
    rcases hb : g.body? name with _ | body
    · exact Parser.simulatedBy_silent
    · obtain ⟨body', hb', hsim⟩ := hbody name body rfl hb
      rw [hb']
      exact hsim
  | shared h => exact h
  | accept h n => exact Parser.simulatedBy_accept hR h n
  | fail expected n => exact Parser.simulatedBy_fail hR expected n
  | jump n => exact Parser.SimulatedBy.ofSame hV hcross _
  | enter text n => exact Parser.SimulatedBy.ofSame hV hcross _
  | nested h => exact hcross

/-! ## Likenesses of one place -/

/-- A likeness that compares parses at one and the same place, in whatever text. -/
structure Likeness.SamePlace (R : Likeness) : Prop where
  eq : ∀ {c d}, R.place c d → c = d
  entered : ∀ text n, R.place ((Cursor.start text).advance n) ((Cursor.start text).advance n)
  log_opened : ∀ length, R.log [.opened length, .entered] [.opened length, .entered]
  log_verdict : ∀ {α β : Type} {W : α → β → Prop} {o : Outcome α} {o' : Outcome β},
    o.Alike R W o' → R.log [o.verdict, .exited] [o'.verdict, .exited]

theorem Parser.SimulatedBy.nested (hR : R.Lawful) (hS : R.SamePlace) {α β : Type}
    {W : α → β → Prop} {p : Parser α} {q : Parser β} (h : p.SimulatedBy R W q) :
    p.nested.SimulatedBy R W q.nested := by
  intro c d hc
  obtain rfl := hS.eq hc
  have hstart : R.place (.start c.remainder) (.start c.remainder) := by
    have := hS.entered c.remainder 0
    rwa [Cursor.advance_zero] at this
  refine (h _ _ hstart).map fun r s hrs => ⟨hrs.outcome, ?_⟩
  exact hR.log_append (hS.log_opened _) (hR.log_append hrs.log (hS.log_verdict hrs.outcome))

/-- Parses of one place leave their text alike. -/
theorem Likeness.SamePlace.crosses (hR : R.Lawful) (hS : R.SamePlace) {p q : Node → Parser Value}
    {a b : Node} (hab : Node.Like V (fun a b => (p a).SimulatedBy R V (q b)) a b) :
    R.Crosses V p q a b := by
  cases hab with
  | jump n =>
    intro c d hc
    obtain rfl := hS.eq hc
    exact .both ⟨.success rfl (hS.entered _ n), hR.log_nil⟩
  | enter text n => exact fun _ _ _ => .both ⟨.success rfl (hS.entered text n), hR.log_nil⟩
  | nested h => exact h.nested hR hS
  | _ => trivial

/-- If nodes that compare by `N` are like, and the bodies of rules that compare do so too, then
parses of one place from nodes that compare take the same steps. -/
theorem Grammar.parser_simulatedBy_of_like (hR : R.Lawful) (hS : R.SamePlace)
    (hV : Value.Congruent V) {g h : Grammar} {N : Node → Node → Prop}
    (hN : ∀ a b, N a b → Node.Like V N a b)
    (hbody : ∀ name b body, N (.rule name) b → g.body? name = some body →
      ∃ body', h.body? name = some body' ∧ N body body')
    (limit : Nat) {a b : Node} (hab : N a b) :
    (g.parser limit a).SimulatedBy R V (h.parser limit b) := by
  induction limit generalizing a b with
  | zero => exact Parser.simulatedBy_silent
  | succ limit ih =>
    have hlike := (hN a b hab).mono fun _ _ => ih
    rw [Grammar.parser_succ, Grammar.parser_succ]
    refine Grammar.step_simulatedBy hR hV (Nat.le_refl limit) hlike ?_ (hS.crosses hR hlike)
    rintro name body rfl hb
    obtain ⟨body', hb', hbody'⟩ := hbody name b body hab hb
    exact ⟨body', hb', ih hbody'⟩

end

end TextParsers
