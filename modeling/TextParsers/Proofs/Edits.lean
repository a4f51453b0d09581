-- The law of failures. Parsers are similar if they succeed alike, however they fail.
-- Edits that change no more than how a node fails, made anywhere in a grammar, leave
-- it similar to what it was. The repetitions, choices and negations of similar parsers
-- are not only similar but give the same outcomes.
import TextParsers.Proofs.Meaning
import TextParsers.Proofs.ReachedCursors
import Mathlib.Logic.Relation
namespace TextParsers

variable {α β : Type}

/-! ## Similar parsers -/

/-- The value and the place of a success. -/
def Outcome.success? : Outcome α → Option (α × Cursor)
  | .success a c => some (a, c)
  | .failure .. => none

/-- At every place both parsers succeed, with one value and at one place, or both fail, or
neither ends. Messages, and the places of failures, may differ. -/
def Parser.Similar (p q : Parser α) : Prop :=
  ∀ c : Cursor, c.Consistent →
    (p c).map (fun r => r.outcome.success?) = (q c).map fun r => r.outcome.success?

/-- At every place both parsers have one outcome, or neither ends. -/
def Parser.SameOutcome (p q : Parser α) : Prop :=
  ∀ c : Cursor, c.Consistent → (p c).map (fun r => r.outcome) = (q c).map fun r => r.outcome

/-- The places that the parser ends at are places in a text. -/
def Parser.KeepsConsistent (p : Parser α) : Prop :=
  ∀ (c : Cursor) (r : Reply α), c.Consistent → p c = some r → r.outcome.cursor.Consistent

theorem Grammar.meaning_keepsConsistent (g : Grammar) (node : Node) :
    (g.meaning node).KeepsConsistent := by
  intro c r hc hr
  obtain ⟨limit, hr⟩ := Grammar.meaning_eq_some.mp hr
  exact Grammar.consistent_of_parser hc hr

namespace Parser

variable {p q r : Parser α} {c : Cursor}

theorem Similar.refl (p : Parser α) : p.Similar p := fun _ _ => rfl

theorem Similar.symm (h : p.Similar q) : q.Similar p := fun c hc => (h c hc).symm

theorem Similar.trans (h : p.Similar q) (h' : q.Similar r) : p.Similar r :=
  fun c hc => (h c hc).trans (h' c hc)

/-- The ways in which similar parsers can answer. -/
theorem Similar.cases (h : p.Similar q) (hc : c.Consistent) :
    (p c = none ∧ q c = none) ∨
    (∃ a d l m, p c = some ⟨.success a d, l⟩ ∧ q c = some ⟨.success a d, m⟩) ∨
    ∃ e d l f d' m, p c = some ⟨.failure e d, l⟩ ∧ q c = some ⟨.failure f d', m⟩ := by
  have hc := h c hc
  rcases hp : p c with _ | ⟨⟨a, d⟩ | ⟨e, d⟩, l⟩ <;>
    rcases hq : q c with _ | ⟨⟨b, d'⟩ | ⟨f, d'⟩, m⟩ <;>
    simp_all [Outcome.success?]

/-! ## Combinators that forget how a part failed -/

/-- An outcome in place of another that does not look at a failure is the same for both. -/
theorem Similar.settle (h : p.Similar q) {f : Cursor → Outcome α → Outcome β}
    (hf : ∀ c e d e' d', f c (.failure e d) = f c (.failure e' d')) :
    (p.settle f).SameOutcome (q.settle f) := by
  intro c hc
  unfold Parser.settle
  rcases h.cases hc with ⟨hp, hq⟩ | ⟨a, d, l, m, hp, hq⟩ | ⟨e, d, l, e', d', m, hp, hq⟩
  · rw [hp, hq]
  · rw [hp, hq]
    rfl
  · rw [hp, hq]
    exact congrArg some (hf c e d e' d')

theorem Similar.not (h : p.Similar q) : p.not.SameOutcome q.not :=
  h.settle fun _ _ _ _ _ => rfl

theorem Similar.optional (h : p.Similar q) : p.optional.SameOutcome q.optional :=
  h.settle fun _ _ _ _ _ => rfl

/-- What a repetition gathers does not depend on how its last run failed. -/
theorem Similar.gather (h : p.Similar q) (hp : p.KeepsConsistent) (turns : Nat)
    (hc : c.Consistent) :
    (p.gather turns c).map (fun k => (k.values, k.stop)) =
      (q.gather turns c).map fun k => (k.values, k.stop) := by
  induction turns generalizing c with
  | zero => rfl
  | succ turns ih =>
    unfold Parser.gather
    by_cases hempty : c.isEmpty = true
    · rw [if_pos hempty, if_pos hempty]
    rw [if_neg hempty, if_neg hempty]
    rcases h.cases hc with ⟨hr, hs⟩ | ⟨a, d, l, m, hr, hs⟩ | ⟨e, d, l, f, d', m, hr, hs⟩
    · rw [hr, hs]
    · rw [hr, hs]
      by_cases hd : d.position = c.position
      · simp only [hd, if_true, Option.map_some]
      · have hrest := congrArg (Option.map fun x => (a :: x.1, x.2)) (ih (hp c _ hc hr))
        simp only [hd, if_false, Option.map_map] at hrest ⊢
        exact hrest
    · rw [hr, hs]
      rfl

theorem Similar.many (h : p.Similar q) (hp : p.KeepsConsistent) (turns : Nat) :
    (p.many turns).SameOutcome (q.many turns) := by
  intro c hc
  have hk := congrArg (Option.map fun x => Outcome.success x.1 x.2) (h.gather hp turns hc)
  unfold Parser.many
  simp only [Option.map_map] at hk ⊢
  exact hk

theorem Similar.countBetween (h : p.Similar q) (hp : p.KeepsConsistent) (turns min max : Nat) :
    (p.countBetween turns min max).SameOutcome (q.countBetween turns min max) := by
  intro c hc
  have hk := h.gather hp turns hc
  unfold Parser.countBetween
  rcases hr : p.gather turns c with _ | x
  · rw [hr] at hk
    rw [Option.map_eq_none_iff.mp hk.symm]
  · rw [hr] at hk
    obtain ⟨y, hs, heq⟩ := Option.map_eq_some_iff.mp hk.symm
    obtain ⟨hvalues, hstop⟩ := Prod.mk.inj heq
    rw [hs]
    exact congrArg some (Parser.Harvest.outcome_judged_eq hvalues.symm hstop.symm)

theorem Similar.countFrom (h : p.Similar q) (hp : p.KeepsConsistent) (seen left : Nat) :
    (p.countFrom seen left).SameOutcome (q.countFrom seen left) := by
  induction left generalizing seen with
  | zero => exact fun _ _ => rfl
  | succ left ih =>
    intro c hc
    unfold Parser.countFrom
    rcases h.cases hc with ⟨hr, hs⟩ | ⟨a, d, l, m, hr, hs⟩ | ⟨e, d, l, f, d', m, hr, hs⟩
    · rw [hr, hs]
    · rw [hr, hs]
      have hrest := congrArg (Option.map fun o => o.mapValue (a :: ·))
        (ih (seen + 1) d (hp c _ hc hr))
      simp only [Option.map_map] at hrest ⊢
      exact hrest
    · rw [hr, hs]
      rfl

theorem Similar.orElse (h : p.Similar q) {p' q' : Parser α} (h' : p'.SameOutcome q') :
    (p.orElse p').SameOutcome (q.orElse q') := by
  intro c hc
  unfold Parser.orElse
  rcases h.cases hc with ⟨hp, hq⟩ | ⟨a, d, l, m, hp, hq⟩ | ⟨e, d, l, f, d', m, hp, hq⟩
  · rw [hp, hq]
  · rw [hp, hq]
    rfl
  · rw [hp, hq]
    simp only [Option.map_map]
    exact h' c hc

theorem sameOutcome_choice {ps qs : List (Parser α)} (h : List.Forall₂ Similar ps qs) :
    (choice ps).SameOutcome (choice qs) := by
  unfold choice
  rw [h.length_eq]
  generalize qs.length = alternatives
  induction h with
  | nil => exact fun _ _ => rfl
  | cons hpq _ ih => exact hpq.orElse ih

end Parser

/-! ## Success as a likeness -/

/-- The same place in a text. Failures and logs are not compared. -/
def Likeness.success : Likeness where
  place c d := c = d ∧ c.Consistent
  failed _ _ _ _ := True
  log _ _ := True

theorem Likeness.lawful_success : success.Lawful where
  advance := by
    rintro c _ ⟨rfl, hc⟩ n
    exact ⟨rfl, Cursor.consistent_advance hc n⟩
  peek h := congrArg _ h.1
  isEmpty h := congrArg _ h.1
  moved := by
    rintro c _ c' _ ⟨rfl, -⟩ ⟨rfl, -⟩
    rfl
  failed _ _ := trivial
  failed_back _ _ := trivial
  failed_reword _ _ := trivial
  log_nil := trivial
  log_append _ _ := trivial
  log_noAlternative _ _ := trivial
  log_tooFew _ := trivial
  log_tooMany _ := trivial

theorem Likeness.samePlace_success : success.SamePlace where
  eq h := h.1
  entered text n := ⟨rfl, Cursor.consistent_advance (Cursor.consistent_start text) n⟩
  log_opened _ := trivial
  log_verdict _ := trivial

theorem Outcome.alike_success_iff {o o' : Outcome α} :
    o.Alike .success Eq o' ↔
      o.success? = o'.success? ∧ ∀ x ∈ o.success?, x.2.Consistent := by
  constructor
  · rintro (⟨rfl, rfl, hc⟩ | _)
    · refine ⟨rfl, fun x hx => ?_⟩
      cases hx
      exact hc
    · exact ⟨rfl, fun x hx => by cases hx⟩
  · rintro ⟨h, hc⟩
    cases o with
    | success a c =>
      cases o' with
      | success b d =>
        cases h
        exact .success rfl ⟨rfl, hc _ rfl⟩
      | failure f d => cases h
    | failure e c =>
      cases o' with
      | success b d => cases h
      | failure f d => exact .failure trivial

/-- Wherever the first parser succeeds, or fails, the second does the same. -/
theorem Parser.simulatedBy_success_iff {p q : Parser α} :
    p.SimulatedBy .success Eq q ↔
      ∀ c : Cursor, c.Consistent → ∀ x, (p c).map (fun r => r.outcome.success?) = some x →
        (q c).map (fun r => r.outcome.success?) = some x ∧ ∀ y ∈ x, y.2.Consistent := by
  constructor
  · intro h c hc x hx
    obtain ⟨r, hr, rfl⟩ := Option.map_eq_some_iff.mp hx
    obtain ⟨s, hs, hrs⟩ := (h c c ⟨rfl, hc⟩).exists_of_eq_some hr
    obtain ⟨heq, hcons⟩ := Outcome.alike_success_iff.mp hrs.outcome
    exact ⟨by rw [hs, Option.map_some, heq], hcons⟩
  · rintro h c _ ⟨rfl, hc⟩
    rcases hp : p c with _ | r
    · exact .silent
    · obtain ⟨hq, hcons⟩ := h c hc _ (congrArg _ hp)
      obtain ⟨s, hs, hrs⟩ := Option.map_eq_some_iff.mp hq
      rw [hs]
      exact .both ⟨Outcome.alike_success_iff.mpr ⟨hrs.symm, hcons⟩, trivial⟩

theorem Parser.similar_of_simulatedBy {p q : Parser α} (h : p.SimulatedBy .success Eq q)
    (h' : q.SimulatedBy .success Eq p) : p.Similar q := by
  rw [Parser.simulatedBy_success_iff] at h h'
  intro c hc
  exact Option.ext fun x => ⟨fun hx => (h c hc x hx).1, fun hx => (h' c hc x hx).1⟩

theorem Parser.SimulatedBy.of_similar {p p' q q' : Parser α} (h : p.SimulatedBy .success Eq q)
    (hp : p'.Similar p) (hq : q.Similar q') : p'.SimulatedBy .success Eq q' := by
  rw [Parser.simulatedBy_success_iff] at h ⊢
  intro c hc x hx
  rw [hp c hc] at hx
  rw [← hq c hc]
  exact h c hc x hx

/-! ## Edits -/

/-- The node is a rule. -/
def Node.refers : Node → Bool
  | .rule _ => true
  | _ => false

/-- One edit of a node that leaves its successes as they are. -/
inductive Node.Edit : Node → Node → Prop
  | addReword (f : Rewording) (node : Node) : Edit node (.reword f node)
  | dropReword (f : Rewording) (node : Node) : Edit (.reword f node) node
  | changeReword (f f' : Rewording) (node : Node) : Edit (.reword f node) (.reword f' node)
  | changeFail (expected expected' : String) (n n' : Nat) :
      Edit (.fail expected n) (.fail expected' n')
  /-- Similar nodes take each other's place if no rule stands in them. -/
  | replace {a b : Node} (ha : ∀ k ∈ a.parts, k.refers = false)
      (hb : ∀ k ∈ b.parts, k.refers = false)
      (h : ((⟨[]⟩ : Grammar).meaning a).Similar ((⟨[]⟩ : Grammar).meaning b)) : Edit a b

/-- Edits made in parts of a node, one in each part at most. -/
inductive Node.Edited : Node → Node → Prop
  | same (a : Node) : Edited a a
  | here {a b : Node} (h : Node.Edit a b) : Edited a b
  | inside {a b : Node} (h : Node.Like Eq Edited a b) : Edited a b

/-- Edits made in a node and in the bodies of rules. -/
def Grammar.Edited (x y : Grammar × Node) : Prop :=
  x.2.Edited y.2 ∧ ∀ name, Option.Rel Node.Edited (x.1.body? name) (y.1.body? name)

theorem Node.Edit.symm {a b : Node} (h : Node.Edit a b) : Node.Edit b a := by
  cases h with
  | addReword f => exact .dropReword f a
  | dropReword f => exact .addReword f b
  | changeReword f f' node => exact .changeReword f' f node
  | changeFail expected expected' n n' => exact .changeFail expected' expected n' n
  | replace ha hb h => exact .replace hb ha h.symm

theorem Parser.similar_reword (p : Parser α) (w : String → String) : (p.reword w).Similar p := by
  intro c _
  unfold Parser.reword Parser.settle
  rcases p c with _ | ⟨⟨a, d⟩ | ⟨e, d⟩, log⟩
  · rfl
  · rfl
  · rfl

section

variable {g h : Grammar}

/-- A node without rules parses alike in all grammars. -/
theorem Grammar.meaning_of_no_rule (g h : Grammar) {a : Node}
    (ha : ∀ k ∈ a.parts, k.refers = false) {c : Cursor} {r : Reply Value}
    (hr : g.meaning a c = some r) : h.meaning a c = some r := by
  obtain ⟨limit, hr⟩ := Grammar.meaning_eq_some.mp hr
  have hsim : (g.parser limit a).SimulatedBy (.within fun _ => True) Eq (h.parser limit a) := by
    refine Grammar.parser_simulatedBy_of_like
      (N := fun a b => a = b ∧ ∀ k ∈ a.parts, k.refers = false)
      Likeness.lawful_within_true Likeness.samePlace_within Value.congruent_eq ?_ ?_ limit ⟨rfl, ha⟩
    · rintro a _ ⟨rfl, ha⟩
      exact Node.like_self fun child hc =>
        ⟨rfl, fun k hk => ha k (Node.mem_parts_of_mem_children hc hk)⟩
    · rintro name _ body ⟨-, hrule⟩
      cases hrule (.rule name) (Node.mem_parts_self _)
  exact Grammar.meaning_eq_some.mpr ⟨limit, Parser.simulatedBy_within_iff.mp hsim c r hr⟩

theorem Grammar.meaning_eq_of_no_rule (g h : Grammar) {a : Node}
    (ha : ∀ k ∈ a.parts, k.refers = false) : g.meaning a = h.meaning a := by
  funext c
  exact Option.ext fun r => ⟨g.meaning_of_no_rule h ha, h.meaning_of_no_rule g ha⟩

/-- An edit of a node keeps its successes if nodes that are not edited keep theirs, with as many
steps as the node has, and as its part has. -/
theorem Node.Edit.simulatedBy {a b : Node} (hab : Node.Edit a b) {limit : Nat}
    (hnode : ∀ a, (g.parser (limit + 1) a).SimulatedBy .success Eq (h.meaning a))
    (hpart : ∀ a, (g.parser limit a).SimulatedBy .success Eq (h.meaning a)) :
    (g.parser (limit + 1) a).SimulatedBy .success Eq (h.meaning b) := by
  have hreword : ∀ f node, h.meaning (.reword f node) = (h.meaning node).reword f.apply :=
    fun f node => Grammar.meaning_eq_step fun _ _ => rfl
  cases hab with
  | addReword f =>
    rw [hreword]
    exact (hnode a).of_similar (Parser.Similar.refl _) (Parser.similar_reword _ _).symm
  | dropReword f =>
    exact (hpart b).of_similar (Parser.similar_reword _ _) (Parser.Similar.refl _)
  | changeReword f f' node =>
    rw [hreword]
    exact (hpart node).of_similar (Parser.similar_reword _ _)
      (Parser.similar_reword _ _).symm
  | changeFail expected expected' n n' =>
    have hfail : h.meaning (.fail expected' n') = Parser.fail expected' n' :=
      Grammar.meaning_eq_step fun _ _ => rfl
    rw [hfail]
    exact fun _ _ _ => .both ⟨.failure trivial, trivial⟩
  | replace ha hb hsimilar =>
    rw [Grammar.meaning_eq_of_no_rule h ⟨[]⟩ hb]
    refine (hnode a).of_similar (Parser.Similar.refl _) ?_
    rw [Grammar.meaning_eq_of_no_rule h ⟨[]⟩ ha]
    exact hsimilar

/-- If nodes that compare by `N` are the same, or one edit apart, or are like with parts that
compare, then the successes of the first are successes of the second. The induction is on the
steps of the first parse, since the second may take any number of steps for each of them. -/
theorem Grammar.parser_simulatedBy_of_edits {N : Node → Node → Prop} (hrefl : ∀ a, N a a)
    (hN : ∀ a b, N a b → a = b ∨ Node.Edit a b ∨ Node.Like Eq N a b)
    (hbody : ∀ name body, g.body? name = some body →
      ∃ body', h.body? name = some body' ∧ N body body')
    (limit : Nat) {a b : Node} (hab : N a b) :
    (g.parser limit a).SimulatedBy .success Eq (h.meaning b) := by
  induction limit generalizing a b with
  | zero => exact Parser.simulatedBy_silent
  | succ limit ih =>
    have hlike : ∀ {a b}, Node.Like Eq N a b →
        (g.parser (limit + 1) a).SimulatedBy .success Eq (h.meaning b) := by
      intro a b hab
      replace hab := hab.mono fun _ _ => ih
      have hstep : (g.step limit (g.parser limit) a).SimulatedBy .success Eq
          (h.step limit h.meaning b) := by
        refine Grammar.step_simulatedBy Likeness.lawful_success Value.congruent_eq
          (Nat.le_refl limit) hab ?_
          (Likeness.samePlace_success.crosses Likeness.lawful_success hab)
        rintro name body - hb
        obtain ⟨body', hb', hbody'⟩ := hbody name body hb
        exact ⟨body', hb', ih hbody'⟩
      rw [Grammar.parser_succ]
      intro c d hc
      exact (hstep c d hc).of_le fun _ => Grammar.meaning_of_step
    have hsame : ∀ a, (g.parser (limit + 1) a).SimulatedBy .success Eq (h.meaning a) :=
      fun a => hlike (Node.like_self fun child _ => hrefl child)
    rcases hN a b hab with rfl | hedit | hab
    · exact hsame a
    · exact hedit.simulatedBy hsame fun a => ih (hrefl a)
    · exact hlike hab

/-- The successes of a node are the successes of any node it is edited to. -/
theorem Grammar.meaning_simulatedBy_of_edits {N : Node → Node → Prop} (hrefl : ∀ a, N a a)
    (hN : ∀ a b, N a b → a = b ∨ Node.Edit a b ∨ Node.Like Eq N a b)
    (hbody : ∀ name body, g.body? name = some body →
      ∃ body', h.body? name = some body' ∧ N body body') {a b : Node} (hab : N a b) :
    (g.meaning a).SimulatedBy .success Eq (h.meaning b) := by
  rintro c _ ⟨rfl, hc⟩
  rcases hr : g.meaning a c with _ | r
  · exact .silent
  · obtain ⟨limit, hr⟩ := Grammar.meaning_eq_some.mp hr
    rw [← hr]
    exact Grammar.parser_simulatedBy_of_edits hrefl hN hbody limit hab c c ⟨rfl, hc⟩

end

/-- Grammars that some edits tell apart are similar. -/
theorem Grammar.Edited.similar {x y : Grammar × Node} (h : Grammar.Edited x y) :
    (x.1.meaning x.2).Similar (y.1.meaning y.2) := by
  obtain ⟨hnode, hbody⟩ := h
  have hcases : ∀ a b, Node.Edited a b → a = b ∨ Node.Edit a b ∨ Node.Like Eq Node.Edited a b := by
    intro a b hab
    cases hab with
    | same a => exact .inl rfl
    | here h => exact .inr (.inl h)
    | inside h => exact .inr (.inr h)
  apply Parser.similar_of_simulatedBy
  · refine Grammar.meaning_simulatedBy_of_edits Node.Edited.same hcases ?_ hnode
    intro name body hb
    have hrel := hbody name
    rw [hb] at hrel
    generalize y.1.body? name = z at hrel ⊢
    cases hrel with
    | some h => exact ⟨_, rfl, h⟩
  · refine Grammar.meaning_simulatedBy_of_edits (N := fun a b => Node.Edited b a) Node.Edited.same
      ?_ ?_ hnode
    · intro a b hab
      rcases hcases b a hab with rfl | h | h
      · exact .inl rfl
      · exact .inr (.inl h.symm)
      · exact .inr (.inr h.flip_eq)
    · intro name body hb
      have hrel := hbody name
      rw [hb] at hrel
      generalize x.1.body? name = z at hrel ⊢
      cases hrel with
      | some h => exact ⟨_, rfl, h⟩

/-- However many edits are made one after another, in the node and in the rules, what they lead
to is similar to what it was. -/
theorem Grammar.similar_of_edits {x y : Grammar × Node}
    (h : Relation.ReflTransGen Grammar.Edited x y) :
    (x.1.meaning x.2).Similar (y.1.meaning y.2) := by
  induction h with
  | refl => exact Parser.Similar.refl _
  | tail _ hedit ih => exact ih.trans hedit.similar

/-! ## Nodes that may take each other's place -/

/-- A given character, and a class that holds no other. -/
theorem similar_char_satisfy (g : Grammar) {wanted : Char} {cls : CharClass}
    (h : ∀ a, cls.holds a = true ↔ a = wanted) :
    (g.meaning (.char wanted)).Similar (g.meaning (.satisfy cls)) := by
  have hchar : g.meaning (.char wanted) = (Parser.char wanted).map Value.ofChar :=
    Grammar.meaning_eq_step fun _ _ => rfl
  have hclass : g.meaning (.satisfy cls) = (Parser.satisfy cls.holds).map Value.ofChar :=
    Grammar.meaning_eq_step fun _ _ => rfl
  rw [hchar, hclass]
  intro c _
  unfold Parser.map Parser.settle Parser.char Parser.satisfy
  rcases hp : c.peek with _ | a
  · rfl
  · by_cases ha : a = wanted
    · have hholds := (h a).mpr ha
      subst ha
      simp only [hholds, if_true]
    · have hholds : ¬ cls.holds a = true := fun hcls => ha ((h a).mp hcls)
      have hne : ¬ some a = some wanted := fun heq => ha (Option.some.inj heq)
      simp only [hholds, hne, if_false]
      rfl

/-- Any character, and the class of all characters. -/
theorem similar_anyChar_satisfy (g : Grammar) :
    (g.meaning .anyChar).Similar (g.meaning (.satisfy .every)) := by
  have hany : g.meaning .anyChar = Parser.anyChar.map Value.ofChar :=
    Grammar.meaning_eq_step fun _ _ => rfl
  have hclass : g.meaning (.satisfy .every) =
      (Parser.satisfy CharClass.every.holds).map Value.ofChar :=
    Grammar.meaning_eq_step fun _ _ => rfl
  rw [hany, hclass]
  intro c _
  unfold Parser.map Parser.settle Parser.anyChar Parser.satisfy
  rcases c.peek with _ | a
  · rfl
  · rfl

/-! ## The law -/

/-- Edits that change no more than how nodes fail, as many as one likes, in the node and in the
rules, leave a grammar similar to what it was. Combinators that go on after a failure do not see
how their parts fail: on similar parsers they have the same outcomes, failures included. -/
theorem how_a_parser_fails_never_changes_what_succeeds :
    (∀ (g g' : Grammar) (node node' : Node),
      Relation.ReflTransGen Grammar.Edited (g, node) (g', node') →
      (g.meaning node).Similar (g'.meaning node')) ∧
    (∀ (α : Type) (p q : Parser α), p.KeepsConsistent → p.Similar q →
      p.not.SameOutcome q.not ∧ p.optional.SameOutcome q.optional ∧
      (∀ turns, (p.many turns).SameOutcome (q.many turns)) ∧
      (∀ n, (p.count n).SameOutcome (q.count n)) ∧
      ∀ turns min max, (p.countBetween turns min max).SameOutcome (q.countBetween turns min max)) ∧
    ∀ (α : Type) (ps qs : List (Parser α)), List.Forall₂ Parser.Similar ps qs →
      (Parser.choice ps).SameOutcome (Parser.choice qs) := by
  refine ⟨?_, ?_, ?_⟩
  · intro g g' node node' h
    exact Grammar.similar_of_edits h
  · intro α p q hp h
    exact ⟨h.not, h.optional, h.many hp, h.countFrom hp 0, h.countBetween hp⟩
  · intro α ps qs h
    exact Parser.sameOutcome_choice h

/-- In a recursive rule that may jump, characters become classes, the recursion gets another
message, and the last alternative fails elsewhere. -/
theorem edits_in_a_recursive_rule :
    let body : Node := .choice [.row [.char 'a', .rule "r"], .row [.anyChar, .jump 1], .fail "no" 1]
    let body' : Node := .choice [.row [.satisfy (.oneOf ['a']), .reword (.before "r: ") (.rule "r")],
      .row [.satisfy .every, .jump 1], .fail "" 0]
    let g : Grammar := ⟨[("r", body)]⟩
    let g' : Grammar := ⟨[("r", body')]⟩
    let node : Node := .reword (.replace "r") (.rule "r")
    Relation.ReflTransGen Grammar.Edited (g, node) (g', .rule "r") ∧
    (g.meaning node).KeepsConsistent ∧
    (g.meaning node).Similar (g'.meaning (.rule "r")) ∧
    ((g.meaning node).countBetween 5 2 3).SameOutcome
      ((g'.meaning (.rule "r")).countBetween 5 2 3) ∧
    (Parser.choice [g.meaning node]).SameOutcome (Parser.choice [g'.meaning (.rule "r")]) := by
  intro body body' g g' node
  obtain ⟨hedits, hparts, hchoice⟩ := how_a_parser_fails_never_changes_what_succeeds
  have hchar : Node.Edit (.char 'a') (.satisfy (.oneOf ['a'])) :=
    .replace (by decide) (by decide) (similar_char_satisfy _ (by simp [CharClass.holds]))
  have hrow : Node.Edited (.row [.char 'a', .rule "r"])
      (.row [.satisfy (.oneOf ['a']), .reword (.before "r: ") (.rule "r")]) :=
    .inside (.row (.cons (.here hchar) (.cons (.here (.addReword _ _)) .nil)))
  have hany : Node.Edited (.row [.anyChar, .jump 1]) (.row [.satisfy .every, .jump 1]) :=
    .inside (.row (.cons (.here (.replace (by decide) (by decide) (similar_anyChar_satisfy _)))
      (.cons (.same _) .nil)))
  have hbody : Node.Edited body body' :=
    .inside (.choice (.cons hrow (.cons hany (.cons (.here (.changeFail _ _ _ _)) .nil))))
  have hrules : ∀ name, Option.Rel Node.Edited (g.body? name) (g'.body? name) := by
    intro name
    by_cases hn : name = "r"
    · subst hn
      exact .some hbody
    · have hnone : ∀ b, (⟨[("r", b)]⟩ : Grammar).body? name = none := by
        intro b
        simp only [Grammar.body?, List.lookup_cons, beq_eq_false_iff_ne.mpr hn, List.lookup_nil]
      rw [hnone, hnone]
      exact .none
  have hsame : ∀ name, Option.Rel Node.Edited (g'.body? name) (g'.body? name) := by
    intro name
    cases g'.body? name with
    | none => exact .none
    | some b => exact .some (.same b)
  have hfirst : Grammar.Edited (g, node) (g', node) := ⟨.same node, hrules⟩
  have hsecond : Grammar.Edited (g', node) (g', .rule "r") := ⟨.here (.dropReword _ _), hsame⟩
  have hchain : Relation.ReflTransGen Grammar.Edited (g, node) (g', .rule "r") :=
    .tail (.single hfirst) hsecond
  have hkeeps := g.meaning_keepsConsistent node
  have hsimilar := hedits g g' node (.rule "r") hchain
  obtain ⟨-, -, -, -, hcount⟩ := hparts Value _ _ hkeeps hsimilar
  exact ⟨hchain, hkeeps, hsimilar, hcount 5 2 3, hchoice Value _ _ (.cons hsimilar .nil)⟩

end TextParsers
