-- What a grammar answers, and the induction over its nodes and steps that the laws
-- of whole grammars rest on: a parse acts like the same parse at a like place, and
-- like the same parse with more steps. A run on a text is a parse from its start, with
-- what it logged in a block.
import TextParsers.Proofs.GrammarSteps
namespace TextParsers

/-! ## What a grammar is made of -/

mutual

/-- The node, and all that stands inside it. -/
def Node.parts : Node → List Node
  | .all nodes => .all nodes :: Node.partsOf nodes
  | .row nodes => .row nodes :: Node.partsOf nodes
  | .choice nodes => .choice nodes :: Node.partsOf nodes
  | .many node => .many node :: node.parts
  | .many1 node => .many1 node :: node.parts
  | .count n node => .count n node :: node.parts
  | .countBetween min max node => .countBetween min max node :: node.parts
  | .skip node => .skip node :: node.parts
  | .not node => .not node :: node.parts
  | .optional shown node => .optional shown node :: node.parts
  | .map f node => .map f node :: node.parts
  | .reword f node => .reword f node :: node.parts
  | .surround opening closing node => .surround opening closing node :: node.parts
  | .shared node => .shared node :: node.parts
  | .nested node => .nested node :: node.parts
  | node => [node]

def Node.partsOf : List Node → List Node
  | [] => []
  | node :: nodes => node.parts ++ Node.partsOf nodes

end

/-- All nodes of a grammar that starts at `node`: those of the node and of every rule. -/
def Grammar.parts (g : Grammar) (node : Node) : List Node :=
  node.parts ++ g.rules.flatMap fun rule => rule.2.parts

/-- The node goes to a place of its own choice, back in the text or in another text. -/
def Node.leaps : Node → Bool
  | .jump _ => true
  | .enter _ _ => true
  | _ => false

/-- The node reads what is left as a text of its own. -/
def Node.nests : Node → Bool
  | .nested _ => true
  | _ => false

theorem Node.mem_partsOf_iff {nodes : List Node} {k : Node} :
    k ∈ Node.partsOf nodes ↔ ∃ node ∈ nodes, k ∈ node.parts := by
  induction nodes with
  | nil => simp [Node.partsOf]
  | cons node nodes ih => simp [Node.partsOf, ih]

theorem Node.mem_parts_self (node : Node) : node ∈ node.parts := by
  cases node <;> simp [Node.parts]

theorem Node.mem_parts_of_mem_children {node child k : Node} (hc : child ∈ node.children)
    (hk : k ∈ child.parts) : k ∈ node.parts := by
  cases node with
  | all nodes | row nodes | choice nodes =>
    exact List.mem_cons_of_mem _ (Node.mem_partsOf_iff.mpr ⟨child, hc, hk⟩)
  | many _ | many1 _ | count _ _ | countBetween _ _ _ | skip _ | not _ | optional _ _ | map _ _
  | reword _ _ | surround _ _ _ | shared _ | nested _ =>
    obtain rfl := List.mem_singleton.mp hc
    exact List.mem_cons_of_mem _ hk
  | _ => cases hc

theorem Node.eq_or_mem_parts_child {node k : Node} (hk : k ∈ node.parts) :
    k = node ∨ ∃ child ∈ node.children, k ∈ child.parts := by
  cases node with
  | all nodes | row nodes | choice nodes =>
    exact (List.mem_cons.mp hk).imp_right Node.mem_partsOf_iff.mp
  | many _ | many1 _ | count _ _ | countBetween _ _ _ | skip _ | not _ | optional _ _ | map _ _
  | reword _ _ | surround _ _ _ | shared _ | nested _ =>
    exact (List.mem_cons.mp hk).imp_right fun h => ⟨_, List.mem_singleton_self _, h⟩
  | _ => exact .inl (List.mem_singleton.mp hk)

theorem Node.mem_parts_trans {node m k : Node} (hm : m ∈ node.parts) (hk : k ∈ m.parts) :
    k ∈ node.parts := by
  induction node using Node.induction_on_children with
  | h node ih =>
    rcases Node.eq_or_mem_parts_child hm with rfl | ⟨child, hc, hm⟩
    · exact hk
    · exact Node.mem_parts_of_mem_children hc (ih child hc hm)

theorem Grammar.mem_rules_of_body? {g : Grammar} {name : String} {body : Node}
    (h : g.body? name = some body) : (name, body) ∈ g.rules := by
  unfold Grammar.body? at h
  obtain ⟨before, after, hrules, -⟩ := List.lookup_eq_some_iff.mp h
  simp [hrules]

theorem Grammar.mem_parts_of_body? {g : Grammar} {name : String} {node body k : Node}
    (hb : g.body? name = some body) (hk : k ∈ body.parts) : k ∈ g.parts node :=
  List.mem_append_right _ (List.mem_flatMap.mpr ⟨_, Grammar.mem_rules_of_body? hb, hk⟩)

/-- A part of a grammar has no parts but those of the grammar. -/
theorem Grammar.mem_parts_trans {g : Grammar} {node m k : Node} (hm : m ∈ g.parts node)
    (hk : k ∈ g.parts m) : k ∈ g.parts node := by
  rcases List.mem_append.mp hk with hk | hk
  · rcases List.mem_append.mp hm with hm | hm
    · exact List.mem_append_left _ (Node.mem_parts_trans hm hk)
    · obtain ⟨rule, hrule, hm⟩ := List.mem_flatMap.mp hm
      exact List.mem_append_right _
        (List.mem_flatMap.mpr ⟨rule, hrule, Node.mem_parts_trans hm hk⟩)
  · exact List.mem_append_right _ hk

theorem Grammar.mem_parts_self (g : Grammar) (node : Node) : node ∈ g.parts node :=
  List.mem_append_left _ node.mem_parts_self

theorem Grammar.mem_parts_of_mem_children {g : Grammar} {root node child : Node}
    (hn : node ∈ g.parts root) (hc : child ∈ node.children) : child ∈ g.parts root := by
  apply Grammar.mem_parts_trans hn
  exact List.mem_append_left _ (Node.mem_parts_of_mem_children hc child.mem_parts_self)

/-! ## Simulation of whole grammars -/

/-- What a likeness has to keep at a node that leaves the text it is in. The other nodes ask
for nothing. -/
def Likeness.Bears (R : Likeness) : Node → Prop
  | .jump n => (Parser.jump n).SimulatedBy R Eq (Parser.jump n)
  | .enter text n => (Parser.enter text n).SimulatedBy R Eq (Parser.enter text n)
  | .nested _ => ∀ p q : Parser Value, p.SimulatedBy R Eq q → p.nested.SimulatedBy R Eq q.nested
  | _ => True

section

variable {R : Likeness}

theorem Likeness.bears_of_stays {k : Node} (hl : k.leaps = false) (hn : k.nests = false) :
    R.Bears k := by
  cases k with
  | jump _ => simp [Node.leaps] at hl
  | enter _ _ => simp [Node.leaps] at hl
  | nested _ => simp [Node.nests] at hn
  | _ => trivial

/-- A node acts like itself at like places, also if it is given more steps there. The
induction is on the steps, which every way from a node to its parts takes one of. -/
theorem Grammar.parser_simulatedBy (hR : R.Lawful) (g : Grammar) {m n : Nat} (hmn : m ≤ n)
    {node : Node} (hb : ∀ k ∈ g.parts node, R.Bears k) :
    (g.parser m node).SimulatedBy R Eq (g.parser n node) := by
  have hrules : ∀ {name body}, g.body? name = some body → ∀ k ∈ body.parts, R.Bears k :=
    fun h k hk => hb k (Grammar.mem_parts_of_body? h hk)
  replace hb : ∀ k ∈ node.parts, R.Bears k := fun k hk => hb k (List.mem_append_left _ hk)
  induction m generalizing n node with
  | zero => exact Parser.simulatedBy_silent
  | succ m ih =>
    obtain ⟨n, rfl⟩ : ∃ k, n = k + 1 := ⟨n - 1, by omega⟩
    have hmn : m ≤ n := by omega
    have hchild : ∀ child ∈ node.children,
        (g.parser m child).SimulatedBy R Eq (g.parser n child) := fun child hc =>
      ih hmn fun k hk => hb k (Node.mem_parts_of_mem_children hc hk)
    rw [Grammar.parser_succ, Grammar.parser_succ]
    refine Grammar.step_simulatedBy hR Value.congruent_eq hmn (Node.like_self hchild) ?_ ?_
    · rintro name body - hbody
      exact ⟨body, hbody, ih hmn (hrules hbody)⟩
    · have hself : R.Bears node := hb node (Node.mem_parts_self node)
      cases node with
      | jump _ => exact hself
      | enter _ _ => exact hself
      | nested child => exact hself _ _ (hchild child (List.mem_singleton_self _))
      | _ => trivial

end

/-! ## One parse at places with a property -/

/-- The same place, which has the property, and the same log. -/
def Likeness.within (P : Cursor → Prop) : Likeness where
  place c d := c = d ∧ P c
  failed e c f d := e = f ∧ c = d ∧ P c
  log l m := l = m

section

variable {P : Cursor → Prop}

theorem Likeness.lawful_within (hP : ∀ c n, P c → P (c.advance n)) : (within P).Lawful where
  advance := by
    rintro c _ ⟨rfl, hc⟩ n
    exact ⟨rfl, hP c n hc⟩
  peek := fun ⟨h, _⟩ => congrArg _ h
  isEmpty := fun ⟨h, _⟩ => congrArg _ h
  moved := by
    rintro c _ c' _ ⟨rfl, _⟩ ⟨rfl, _⟩
    rfl
  failed := fun ⟨h, hc⟩ _ => ⟨rfl, h, hc⟩
  failed_back := fun ⟨he, _⟩ ⟨h, hc⟩ => ⟨he, h, hc⟩
  failed_reword := fun ⟨he, h⟩ w => ⟨congrArg w he, h⟩
  log_nil := rfl
  log_append := fun h h' => congrArg₂ _ h h'
  log_noAlternative := by
    rintro c _ ⟨rfl, _⟩ n
    rfl
  log_tooFew := fun _ => rfl
  log_tooMany := fun _ => rfl

/-- Every place has this property, so moves keep it. -/
theorem Likeness.lawful_within_true : (within fun _ => True).Lawful :=
  lawful_within fun _ _ _ => trivial

theorem Outcome.alike_within_iff {α : Type} {o o' : Outcome α} :
    o.Alike (.within P) Eq o' ↔ o = o' ∧ P o.cursor := by
  constructor
  · rintro (⟨rfl, rfl, hc⟩ | ⟨rfl, rfl, hc⟩)
    · exact ⟨rfl, hc⟩
    · exact ⟨rfl, hc⟩
  · rintro ⟨rfl, hc⟩
    cases o with
    | success a c => exact .success rfl ⟨rfl, hc⟩
    | failure e c => exact .failure ⟨rfl, rfl, hc⟩

theorem Reply.alike_within_iff {α : Type} {r s : Reply α} :
    r.Alike (.within P) Eq s ↔ r = s ∧ P r.outcome.cursor := by
  obtain ⟨o, l⟩ := r
  obtain ⟨o', l'⟩ := s
  constructor
  · rintro ⟨ho, hl⟩
    obtain ⟨rfl, hc⟩ := Outcome.alike_within_iff.mp ho
    obtain rfl : l = l' := hl
    exact ⟨rfl, hc⟩
  · rintro ⟨h, hc⟩
    cases h
    exact ⟨Outcome.alike_within_iff.mpr ⟨rfl, hc⟩, rfl⟩

theorem Likeness.samePlace_within : (within fun _ => True).SamePlace where
  eq h := h.1
  entered _ _ := ⟨rfl, trivial⟩
  log_opened _ := rfl
  log_verdict h := by
    cases h with
    | success _ hc =>
      obtain ⟨rfl, -⟩ := hc
      rfl
    | failure hf =>
      obtain ⟨rfl, rfl, -⟩ := hf
      rfl

theorem Parser.simulatedBy_within_iff {α : Type} {p q : Parser α} :
    p.SimulatedBy (.within fun _ => True) Eq q ↔ ∀ c r, p c = some r → q c = some r := by
  constructor
  · intro h c r hr
    obtain ⟨s, hs, hrs⟩ := (h c c ⟨rfl, trivial⟩).exists_of_eq_some hr
    rw [hs, (Reply.alike_within_iff.mp hrs).1]
  · rintro h c _ ⟨rfl, -⟩
    rcases hp : p c with _ | r
    · exact .silent
    · rw [h c r hp]
      exact .both (Reply.alike_within_iff.mpr ⟨rfl, trivial⟩)

theorem Likeness.bears_within_jump {n : Nat}
    (h : ∀ c, P c → P ((Cursor.start c.text).advance n)) : (within P).Bears (.jump n) := by
  rintro c _ ⟨rfl, hc⟩
  exact .both (Reply.alike_within_iff.mpr ⟨rfl, h c hc⟩)

theorem Likeness.bears_within_enter {text : String} {n : Nat}
    (h : P ((Cursor.start text).advance n)) : (within P).Bears (.enter text n) := by
  rintro c _ ⟨rfl, hc⟩
  exact .both (Reply.alike_within_iff.mpr ⟨rfl, h⟩)

theorem Likeness.bears_within_nested {node : Node}
    (h : ∀ c, P c → P (.start c.remainder)) : (within P).Bears (.nested node) := by
  rintro p q hpq c _ ⟨rfl, hc⟩
  refine (hpq _ _ ⟨rfl, h c hc⟩).map fun r s hrs => ?_
  obtain ⟨rfl, hr⟩ := Reply.alike_within_iff.mp hrs
  exact Reply.alike_within_iff.mpr ⟨rfl, hr⟩

/-- Only the start of a nested run matters to a node that does not leap. -/
theorem Likeness.bears_within_of_stays {k : Node} (hk : k.leaps = false)
    (h : ∀ c, P c → P (.start c.remainder)) : (within P).Bears k := by
  cases k with
  | jump _ => simp [Node.leaps] at hk
  | enter _ _ => simp [Node.leaps] at hk
  | nested _ => exact bears_within_nested h
  | _ => trivial

/-- A property that every move keeps, and that the nodes which leave the text keep, is kept
by every parse. -/
theorem Grammar.parser_keeps {g : Grammar} {node : Node} (hP : ∀ c n, P c → P (c.advance n))
    (hb : ∀ k ∈ g.parts node, (Likeness.within P).Bears k) {limit : Nat} {c : Cursor}
    {r : Reply Value} (hc : P c) (h : g.parser limit node c = some r) : P r.outcome.cursor := by
  have hsim := g.parser_simulatedBy (Likeness.lawful_within hP) (Nat.le_refl limit) hb
  obtain ⟨s, -, hrs⟩ := (hsim c c ⟨rfl, hc⟩).exists_of_eq_some h
  exact (Reply.alike_within_iff.mp hrs).2

theorem Grammar.gather_keeps {g : Grammar} {node : Node} (hP : ∀ c n, P c → P (c.advance n))
    (hb : ∀ k ∈ g.parts node, (Likeness.within P).Bears k) {limit turns : Nat} {c : Cursor}
    {k : Parser.Harvest Value} (hc : P c) (h : (g.parser limit node).gather turns c = some k) :
    P k.stop := by
  have hlaw := Likeness.lawful_within hP
  have hsim := g.parser_simulatedBy hlaw (Nat.le_refl limit) hb
  obtain ⟨k', -, hk⟩ := (hsim.gather hlaw (Nat.le_refl turns) ⟨rfl, hc⟩).exists_of_eq_some h
  exact hk.stop.2

end

/-! ## Answers -/

/-- More steps do not change an answer. -/
theorem Grammar.parser_mono (g : Grammar) {m n : Nat} (hmn : m ≤ n) {node : Node} {c : Cursor}
    {r : Reply Value} (h : g.parser m node c = some r) : g.parser n node c = some r := by
  have hb : ∀ k ∈ g.parts node, (Likeness.within fun _ => True).Bears k := by
    intro k _
    cases k with
    | jump n => exact Likeness.bears_within_jump fun _ _ => trivial
    | enter text n => exact Likeness.bears_within_enter trivial
    | nested node => exact Likeness.bears_within_nested fun _ _ => trivial
    | _ => trivial
  have hsim := g.parser_simulatedBy (Likeness.lawful_within fun _ _ _ => trivial) hmn hb
  obtain ⟨s, hs, hrs⟩ := (hsim c c ⟨rfl, trivial⟩).exists_of_eq_some h
  rw [hs, (Reply.alike_within_iff.mp hrs).1]

/-- The parse of a node ends with a reply, in some number of steps. -/
def Grammar.Answers (g : Grammar) (node : Node) (c : Cursor) (r : Reply Value) : Prop :=
  ∃ limit, g.parser limit node c = some r

theorem Grammar.Answers.unique {g : Grammar} {node : Node} {c : Cursor} {r s : Reply Value}
    (hr : g.Answers node c r) (hs : g.Answers node c s) : r = s := by
  obtain ⟨m, hm⟩ := hr
  obtain ⟨n, hn⟩ := hs
  have hm' := g.parser_mono (Nat.le_max_left m n) hm
  have hn' := g.parser_mono (Nat.le_max_right m n) hn
  rw [hm'] at hn'
  exact Option.some.inj hn'

/-! ## Runs on a text -/

/-- The block that a run on a text logs, with its body. Behind the body stands where the run
succeeded, or where it failed and with what message. -/
def Outcome.block {α : Type} (o : Outcome α) (text : String) (body : Log) : Log :=
  .opened text.utf8ByteSize :: .entered :: body ++
    match o with
    | .success _ c => [.succeeded c.position, .exited]
    | .failure e c => [.failed c.position e, .exited]

theorem Outcome.block_eq {α : Type} (o : Outcome α) (text : String) (body : Log) :
    o.block text body =
      .opened text.utf8ByteSize :: .entered :: (body ++ [o.verdict, .exited]) := by
  cases o <;> rfl

theorem Parser.run_eq_some_iff {α : Type} {p : Parser α} {text : String} {r : Reply α} :
    p.run text = some r ↔
      ∃ s, p (.start text) = some s ∧ r = ⟨s.outcome, s.outcome.block text s.log⟩ := by
  simp only [Parser.run, Option.map_eq_some_iff, Outcome.block_eq]
  exact exists_congr fun _ => and_congr_right fun _ => eq_comm

/-- The run of a node on a text ends with a reply. -/
def Grammar.Runs (g : Grammar) (node : Node) (text : String) (r : Reply Value) : Prop :=
  ∃ limit, (g.parser limit node).run text = some r

theorem Grammar.runs_iff {g : Grammar} {node : Node} {text : String} {r : Reply Value} :
    g.Runs node text r ↔
      ∃ s, g.Answers node (.start text) s ∧ r = ⟨s.outcome, s.outcome.block text s.log⟩ := by
  simp only [Grammar.Runs, Grammar.Answers, Parser.run_eq_some_iff]
  constructor
  · rintro ⟨limit, s, hs, rfl⟩
    exact ⟨s, ⟨limit, hs⟩, rfl⟩
  · rintro ⟨s, ⟨limit, hs⟩, rfl⟩
    exact ⟨limit, s, hs, rfl⟩

end TextParsers
