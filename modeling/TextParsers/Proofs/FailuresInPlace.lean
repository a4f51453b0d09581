-- Nodes that fail where they were given the text. A sequence reports its failure from deep
-- inside, but a choice, a skip and a negation come back to where they started, whatever
-- their parts do. `Node.rewinds` reads off a node that it is of this kind, given which
-- rules are.
import TextParsers.Proofs.FirstSuccess
namespace TextParsers

/-! ## The analysis -/

/-- The node fails where it started, or not at all, if the marked rules do. The first nodes look at
one place only; the next go back to it, whatever stands inside; others never fail; and the rest
fail as the node inside does. -/
def Node.rewinds (marked : String → Bool) : Node → Bool
  | .anyChar => true
  | .endOfText => true
  | .char _ => true
  | .satisfy _ => true
  | .choice _ => true
  | .skip _ => true
  | .not _ => true
  | .accept _ _ => true
  | .jump _ => true
  | .enter _ _ => true
  | .many _ => true
  | .optional _ _ => true
  | .all nodes => nodes.isEmpty
  | .count n _ => n == 0
  | .map _ node => node.rewinds marked
  | .reword _ node => node.rewinds marked
  | .many1 node => node.rewinds marked
  | .shared node => node.rewinds marked
  | .rule name => marked name
  | .literal _ => false
  | .row _ => false
  | .countBetween _ _ _ => false
  | .surround _ _ _ => false
  | .fail _ _ => false
  | .nested _ => false

/-! ## Parsers that fail in place -/

variable {α β : Type}

/-- Every failure is reported where the parser started. -/
def Parser.FailsInPlace (p : Parser α) : Prop :=
  ∀ c e d log, p c = some ⟨.failure e d, log⟩ → d = c

namespace Parser

variable {p : Parser α}

theorem failsInPlace_silent : (silent : Parser α).FailsInPlace := by
  intro c e d log h
  cases h

theorem failsInPlace_accept (a : α) (n : Nat) : (accept a n).FailsInPlace := by
  intro c e d log h
  cases h

theorem failsInPlace_enter (text : String) (n : Nat) : (enter text n).FailsInPlace := by
  intro c e d log h
  cases h

theorem failsInPlace_jump (n : Nat) : (jump n).FailsInPlace := by
  intro c e d log h
  exact failsInPlace_enter c.text n c e d log h

theorem failsInPlace_refuse (why : Refusal) : (refuse why : Parser α).FailsInPlace := by
  intro c e d log h
  cases h
  rfl

/-! ### One character -/

theorem failsInPlace_anyChar : anyChar.FailsInPlace := by
  intro c e d log h
  unfold anyChar at h
  split at h
  · exact failsInPlace_accept _ _ c e d log h
  · exact failsInPlace_refuse _ c e d log h

theorem failsInPlace_satisfy (test : Char → Bool) : (satisfy test).FailsInPlace := by
  intro c e d log h
  unfold satisfy at h
  split at h
  · split at h
    · exact failsInPlace_accept _ _ c e d log h
    · exact failsInPlace_refuse _ c e d log h
  · exact failsInPlace_refuse _ c e d log h

theorem failsInPlace_char (wanted : Char) : (char wanted).FailsInPlace := by
  intro c e d log h
  unfold char at h
  split at h
  · exact failsInPlace_accept _ _ c e d log h
  · exact failsInPlace_refuse _ c e d log h

theorem failsInPlace_endOfText : endOfText.FailsInPlace := by
  intro c e d log h
  unfold endOfText at h
  split at h
  · exact failsInPlace_accept _ _ c e d log h
  · exact failsInPlace_refuse _ c e d log h

/-! ### Another outcome -/

/-- If the new outcome is no failure but at the start, it does not matter what `p` does. -/
theorem failsInPlace_settle {f : Cursor → Outcome α → Outcome β}
    (hf : ∀ c o e d, f c o = .failure e d → d = c) (p : Parser α) : (p.settle f).FailsInPlace := by
  intro c e d log h
  obtain ⟨r, -, hr⟩ := Option.map_eq_some_iff.mp h
  exact hf c r.outcome e d (congrArg Reply.outcome hr)

/-- If the new outcome fails only where `p` did, it fails in place if `p` does. -/
theorem FailsInPlace.settle (hp : p.FailsInPlace) {f : Cursor → Outcome α → Outcome β}
    (hf : ∀ c o e d, f c o = .failure e d → ∃ e', o = .failure e' d) :
    (p.settle f).FailsInPlace := by
  intro c e d log h
  obtain ⟨⟨o, l⟩, hr, heq⟩ := Option.map_eq_some_iff.mp h
  obtain ⟨e', rfl⟩ := hf c o e d (congrArg Reply.outcome heq)
  exact hp c e' d l hr

theorem FailsInPlace.map (hp : p.FailsInPlace) (f : α → β) : (p.map f).FailsInPlace := by
  refine hp.settle fun c o e d h => ?_
  cases o with
  | success a x => cases h
  | failure e' x =>
    cases h
    exact ⟨_, rfl⟩

theorem FailsInPlace.reword (hp : p.FailsInPlace) (f : String → String) :
    (p.reword f).FailsInPlace := by
  refine hp.settle fun c o e d h => ?_
  cases o with
  | success a x => cases h
  | failure e' x =>
    cases h
    exact ⟨_, rfl⟩

theorem failsInPlace_skip (p : Parser α) : p.skip.FailsInPlace := by
  refine failsInPlace_settle (fun c o e d h => ?_) p
  cases o with
  | success a x => cases h
  | failure e' x =>
    cases h
    rfl

theorem failsInPlace_not (p : Parser α) : p.not.FailsInPlace := by
  refine failsInPlace_settle (fun c o e d h => ?_) p
  cases o with
  | success a x =>
    cases h
    rfl
  | failure e' x => cases h

theorem failsInPlace_optional (p : Parser α) : p.optional.FailsInPlace := by
  refine failsInPlace_settle (fun c o e d h => ?_) p
  cases o with
  | success a x => cases h
  | failure e' x => cases h

/-! ### Alternatives and repetition -/

theorem failsInPlace_choice (ps : List (Parser α)) : (choice ps).FailsInPlace := by
  intro c e d log h
  obtain ⟨-, -, -, hd, -⟩ := choice_eq_failure_iff.mp h
  exact hd

theorem failsInPlace_many (turns : Nat) (p : Parser α) : (p.many turns).FailsInPlace := by
  intro c e d log h
  obtain ⟨k, -, hk⟩ := Option.map_eq_some_iff.mp h
  cases hk

/-- Only the first run of `p` can make the repetition fail. -/
theorem FailsInPlace.many1 (hp : p.FailsInPlace) (turns : Nat) : (p.many1 turns).FailsInPlace := by
  intro c e d log h
  unfold Parser.many1 at h
  rcases hr : p c with _ | ⟨⟨a, x⟩ | ⟨e', x⟩, l⟩
  · simp [hr] at h
  · simp only [hr] at h
    obtain ⟨k, -, hk⟩ := Option.map_eq_some_iff.mp h
    cases hk
  · simp only [hr] at h
    cases h
    exact hp c _ _ _ hr

end Parser

/-! ## Nodes that rewind -/

section

variable {g : Grammar} {marked : String → Bool}

/-- A step fails in place from a node that rewinds, if the steps from all such nodes inside do. -/
theorem Grammar.step_failsInPlace {turns : Nat} {p : Node → Parser Value} {node : Node}
    (hp : ∀ child, child.rewinds marked = true → (p child).FailsInPlace)
    (hm : ∀ name body, marked name = true → g.body? name = some body → body.rewinds marked = true)
    (hn : node.rewinds marked = true) : (g.step turns p node).FailsInPlace := by
  cases node with
  | anyChar => exact Parser.failsInPlace_anyChar.map _
  | endOfText => exact Parser.failsInPlace_endOfText.map _
  | char c => exact (Parser.failsInPlace_char c).map _
  | satisfy cls => exact (Parser.failsInPlace_satisfy _).map _
  | choice nodes => exact Parser.failsInPlace_choice _
  | skip child => exact (Parser.failsInPlace_skip _).map _
  | not child => exact (Parser.failsInPlace_not _).map _
  | accept v n => exact Parser.failsInPlace_accept v n
  | jump n => exact (Parser.failsInPlace_jump n).map _
  | enter text n => exact (Parser.failsInPlace_enter text n).map _
  | many child => exact (Parser.failsInPlace_many turns _).map _
  | optional shown child => exact (Parser.failsInPlace_optional _).map _
  | all nodes =>
    obtain rfl := List.isEmpty_iff.mp hn
    exact (Parser.failsInPlace_accept [] 0).map _
  | count n child =>
    obtain rfl := eq_of_beq hn
    exact (Parser.failsInPlace_accept [] 0).map _
  | map f child => exact (hp child hn).map _
  | reword f child => exact (hp child hn).reword _
  | many1 child => exact ((hp child hn).many1 turns).map _
  | shared child => exact hp child hn
  | rule name =>
    simp only [Grammar.step]
    rcases hb : g.body? name with _ | body
    · exact Parser.failsInPlace_silent
    · exact hp body (hm name body hn hb)
  | literal _ | row _ | countBetween _ _ _ | surround _ _ _ | fail _ _ | nested _ => cases hn

/-- The induction is on the steps, since a marked rule may lead back to itself. -/
theorem Grammar.parser_failsInPlace
    (hm : ∀ name body, marked name = true → g.body? name = some body → body.rewinds marked = true)
    (limit : Nat) {node : Node} (hn : node.rewinds marked = true) :
    (g.parser limit node).FailsInPlace := by
  induction limit generalizing node with
  | zero => exact Parser.failsInPlace_silent
  | succ limit ih =>
    rw [Grammar.parser_succ]
    exact Grammar.step_failsInPlace (fun child hc => ih hc) hm hn

end

/-! ## The law -/

/-- A node that rewinds, with marked rules whose bodies do so too, reports each of its failures at
the place that it was given, however far the nodes inside came, and wherever they went. -/
theorem a_node_that_rewinds_fails_where_it_started (g : Grammar) (marked : String → Bool)
    (hm : ∀ name body, marked name = true → g.body? name = some body → body.rewinds marked = true)
    (node : Node) (hn : node.rewinds marked = true) (c d : Cursor) (e : String) (log : Log)
    (hr : g.Answers node c ⟨.failure e d, log⟩) : d = c := by
  obtain ⟨limit, hr⟩ := hr
  exact g.parser_failsInPlace hm limit hn c e d log hr

/-- Two rules that name each other. Where the second finds its first character it goes on, into
another text, and fails there. -/
theorem rules_that_name_each_other_fail_in_place :
    let g : Grammar := ⟨[
      ("list", .reword (.before "no list: ") (.many1 (.rule "item"))),
      ("item", .skip (.row [.char 'é', .optional true (.rule "list"), .enter "zz" 1, .char 'b']))]⟩
    let marked : String → Bool := fun name => name == "list" || name == "item"
    let c := (Cursor.start "aééc").advance 1
    let d : Cursor := ⟨"aééc", ['é', 'é', 'c'], 1, 1⟩
    (∀ name body, marked name = true → g.body? name = some body → body.rewinds marked = true) ∧
    (Node.rule "list").rewinds marked = true ∧
    g.Answers (.rule "list") c ⟨.failure "no list: z is not b" d, []⟩ ∧ d = c := by
  intro g marked c d
  have hrules : ∀ rule ∈ g.rules, rule.2.rewinds marked = true := by decide
  have hm : ∀ name body, marked name = true → g.body? name = some body →
      body.rewinds marked = true :=
    fun name body _ hb => hrules (name, body) (Grammar.mem_rules_of_body? hb)
  have hr : g.Answers (.rule "list") c ⟨.failure "no list: z is not b" d, []⟩ := ⟨24, by decide⟩
  exact ⟨hm, rfl, hr, a_node_that_rewinds_fails_where_it_started g marked hm _ rfl c d _ _ hr⟩

end TextParsers
