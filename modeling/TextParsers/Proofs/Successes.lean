-- When parsers succeed. For each way to build a parser one statement says when it succeeds,
-- with which value and at which place, by the successes of the parsers it is built from. So a
-- language that a grammar reads can be told node by node; and where a grammar always ends, it
-- fails on everything else.
import TextParsers.Proofs.FirstSuccess
import TextParsers.Proofs.LeftRecursion
import TextParsers.Proofs.RepetitionsAgree
namespace TextParsers

variable {α : Type} {c d e : Cursor} {a : α} {as : List α}

/-! ## What lies between two places -/

/-- These characters are what is left at `c`, up to `d`. -/
def Cursor.Passes (c : Cursor) (cs : List Char) (d : Cursor) : Prop :=
  cs <+: c.rest ∧ d = c.advance cs.length

namespace Cursor

variable {cs ds : List Char}

theorem Passes.rest_eq (h : c.Passes cs d) : c.rest = cs ++ d.rest := by
  obtain ⟨tail, htail⟩ := h.1
  rw [h.2, rest_advance, ← htail, List.drop_left]

theorem Passes.position_eq (h : c.Passes cs d) : d.position = c.position + cs.length := by
  have hle := h.1.length_le
  rw [h.2, position_advance]
  omega

theorem Passes.consistent (h : c.Passes cs d) (hc : c.Consistent) : d.Consistent := by
  rw [h.2]
  exact consistent_advance hc _

theorem passes_nil_iff : c.Passes [] d ↔ d = c := by
  simp [Passes]

theorem passes_append_iff : c.Passes (cs ++ ds) e ↔ ∃ d, c.Passes cs d ∧ d.Passes ds e := by
  constructor
  · intro ⟨⟨tail, htail⟩, he⟩
    rw [List.append_assoc] at htail
    have hcs : c.Passes cs (c.advance cs.length) := ⟨⟨_, htail⟩, rfl⟩
    refine ⟨_, hcs, ⟨tail, ?_⟩, ?_⟩
    · rw [← List.append_cancel_left_eq, htail, ← hcs.rest_eq]
    · rw [he, advance_advance, List.length_append]
  · intro ⟨d, hcs, hds⟩
    refine ⟨⟨e.rest, ?_⟩, ?_⟩
    · rw [hcs.rest_eq, hds.rest_eq, List.append_assoc]
    · rw [hds.2, hcs.2, advance_advance, List.length_append]

theorem passes_cons_iff {x : Char} :
    c.Passes (x :: cs) e ↔ ∃ d, c.Passes [x] d ∧ d.Passes cs e := by
  rw [← List.singleton_append, passes_append_iff]

theorem passes_singleton_iff {x : Char} :
    c.Passes [x] d ↔ c.rest.head? = some x ∧ d = c.advance 1 := by
  unfold Passes
  rw [List.head?_eq_some_iff]
  exact and_congr_left' (exists_congr fun _ => eq_comm)

end Cursor

namespace Parser

variable {p : Parser α} {ps : List (Parser α)}

/-! ## One character -/

theorem accept_succeeds_iff {b : α} {n : Nat} :
    (accept b n).Succeeds c a d ↔ a = b ∧ d = c.advance n := by
  simp [Succeeds, accept, eq_comm]

theorem refuse_not_succeeds (why : Refusal) : ¬ (refuse why : Parser α).Succeeds c a d := by
  simp [Succeeds, refuse]

theorem satisfy_succeeds_iff {test : Char → Bool} {x : Char} :
    (satisfy test).Succeeds c x d ↔ c.Passes [x] d ∧ test x = true := by
  rw [Cursor.passes_singleton_iff]
  unfold Succeeds satisfy Cursor.peek
  cases hx : c.rest.head? with
  | none => exact iff_of_false (refuse_not_succeeds _) (by simp)
  | some y =>
    by_cases hy : test y = true
    · simp only [hy, if_true]
      apply accept_succeeds_iff.trans
      grind
    · simp only [hy]
      apply iff_of_false (refuse_not_succeeds _)
      grind

theorem char_succeeds_iff {x y : Char} :
    (char x).Succeeds c y d ↔ c.Passes [x] d ∧ y = x := by
  rw [Cursor.passes_singleton_iff]
  unfold Succeeds char Cursor.peek
  by_cases hx : c.rest.head? = some x
  · simp only [hx, if_true]
    apply accept_succeeds_iff.trans
    grind
  · simp only [hx, if_false]
    apply iff_of_false (refuse_not_succeeds _)
    grind

theorem endOfText_succeeds_iff (hc : c.Consistent) {u : Unit} :
    endOfText.Succeeds c u d ↔ c.rest = [] ∧ d = c := by
  unfold Succeeds endOfText
  rw [← hc.isEmpty_iff]
  by_cases he : c.isEmpty = true
  · simp only [he, if_true]
    apply accept_succeeds_iff.trans
    simp
  · simp only [he]
    apply iff_of_false (refuse_not_succeeds _)
    simp

/-! ## One after the other -/

theorem skip_succeeds_iff {u : Unit} : p.skip.Succeeds c u d ↔ ∃ a, p.Succeeds c a d := by
  unfold Succeeds skip settle
  rcases hp : p c with _ | ⟨⟨a, x⟩ | ⟨e, x⟩, l⟩
  · simp
  · simp
  · simp

theorem all_nil_succeeds_iff : (all ([] : List (Parser α))).Succeeds c as d ↔ as = [] ∧ d = c := by
  apply accept_succeeds_iff.trans
  rw [Cursor.advance_zero]

theorem all_cons_succeeds_iff :
    (all (p :: ps)).Succeeds c as e ↔
      ∃ a bs d, as = a :: bs ∧ p.Succeeds c a d ∧ (all ps).Succeeds d bs e := by
  rw [all_cons, bind_succeeds_iff]
  constructor
  · intro ⟨a, d, hp, hps⟩
    obtain ⟨bs, hbs, has⟩ := map_succeeds_iff.mp hps
    exact ⟨a, bs, d, has, hp, hbs⟩
  · intro ⟨a, bs, d, has, hp, hbs⟩
    exact ⟨a, d, hp, map_succeeds_iff.mpr ⟨bs, hbs, has⟩⟩

theorem skip_char_succeeds_iff {x : Char} {u : Unit} :
    (char x).skip.Succeeds c u d ↔ c.Passes [x] d := by
  simp [skip_succeeds_iff, char_succeeds_iff]

theorem surround_succeeds_iff {opening closing : Char} :
    (p.surround opening closing).Succeeds c a e ↔
      ∃ d b, c.Passes [opening] d ∧ p.Succeeds d a b ∧ b.Passes [closing] e := by
  rw [surround_eq_bind, bind_succeeds_iff]
  simp only [bind_succeeds_iff, map_succeeds_iff, skip_char_succeeds_iff]
  grind

/-! ## Failures -/

/-- What ends fails where it does not succeed. -/
theorem fails_iff_not_succeeds (h : ∃ r, p c = some r) :
    p.Fails c ↔ ¬ ∃ a d, p.Succeeds c a d := by
  constructor
  · intro hf ⟨a, d, hs⟩
    exact hf.not_succeeds hs
  · intro hs
    obtain ⟨⟨⟨a, d⟩ | ⟨e, d⟩, log⟩, hr⟩ := h
    · exact absurd ⟨a, d, log, hr⟩ hs
    · exact ⟨e, d, log, hr⟩

theorem map_eq_failure_iff {β : Type} {f : α → β} {s : String} {log : Log} :
    p.map f c = some ⟨.failure s d, log⟩ ↔ p c = some ⟨.failure s d, log⟩ := by
  unfold map settle
  rcases hp : p c with _ | ⟨⟨a, x⟩ | ⟨t, x⟩, l⟩
  · simp
  · simp [Outcome.mapValue]
  · simp [Outcome.mapValue]

/-! ## Alternatives -/

theorem succeeds_iff_outcome? : p.Succeeds c a d ↔ p.outcome? c = some (.success a d) := by
  unfold Succeeds outcome?
  constructor
  · intro ⟨log, hp⟩
    rw [hp, Option.map_some]
  · intro h
    obtain ⟨⟨o, log⟩, hp, ho⟩ := Option.map_eq_some_iff.mp h
    exact ⟨log, by rw [hp, ← ho]⟩

theorem choice_nil_not_succeeds : ¬ (choice ([] : List (Parser α))).Succeeds c a d := by
  rintro ⟨log, h⟩
  cases h

theorem choice_cons_succeeds_iff :
    (choice (p :: ps)).Succeeds c a d ↔
      p.Succeeds c a d ∨ p.Fails c ∧ (choice ps).Succeeds c a d := by
  rw [succeeds_iff_outcome?, outcome?_choice_cons, succeeds_iff_outcome?, succeeds_iff_outcome?]
  unfold Fails outcome?
  rcases hp : p c with _ | ⟨⟨b, x⟩ | ⟨e, x⟩, l⟩
  · simp
  · simp [Outcome.isSuccess]
  · simp [Outcome.isSuccess]

end Parser

/-! ## Nodes -/

section

variable {g : Grammar} {node : Node} {nodes : List Node} {v : Value}

theorem Grammar.map_meaning_succeeds_iff {f : Mapper} :
    (g.meaning (.map f node)).Succeeds c v d ↔
      ∃ w, (g.meaning node).Succeeds c w d ∧ v = f.apply w := by
  rw [Grammar.meaning_eq_step fun _ _ => rfl]
  exact Parser.map_succeeds_iff

theorem Grammar.char_meaning_succeeds_iff {x : Char} :
    (g.meaning (.char x)).Succeeds c v d ↔ c.Passes [x] d ∧ v = .ofChar x := by
  rw [Grammar.meaning_eq_step fun _ _ => rfl]
  apply Parser.map_succeeds_iff.trans
  simp only [Parser.char_succeeds_iff]
  grind

theorem Grammar.skip_char_meaning_succeeds_iff {x : Char} :
    (g.meaning (.skip (.char x))).Succeeds c v d ↔ c.Passes [x] d ∧ v = .null := by
  rw [Grammar.meaning_eq_step fun _ _ => rfl]
  apply Parser.map_succeeds_iff.trans
  simp [Parser.skip_succeeds_iff, Grammar.char_meaning_succeeds_iff, Value.ofUnit]

theorem Grammar.endOfText_meaning_succeeds_iff (hc : c.Consistent) :
    (g.meaning .endOfText).Succeeds c v d ↔ c.rest = [] ∧ v = .null ∧ d = c := by
  rw [Grammar.meaning_eq_step fun _ _ => rfl]
  apply Parser.map_succeeds_iff.trans
  simp only [Parser.endOfText_succeeds_iff hc, Value.ofUnit]
  grind

theorem Grammar.endOfText_meaning_fails (hc : c.Consistent) (hleft : c.rest ≠ []) :
    g.meaning .endOfText c = some ⟨.failure "not EOF" c, []⟩ := by
  rw [Grammar.meaning_eq_step fun _ _ => rfl]
  apply Parser.map_eq_failure_iff.mpr
  unfold Parser.endOfText
  rw [if_neg (mt hc.isEmpty_iff.mp hleft)]
  rfl

theorem Grammar.row_meaning_succeeds_iff :
    (g.meaning (.row nodes)).Succeeds c v d ↔
      ∃ vs, (Parser.all (nodes.map g.meaning)).Succeeds c vs d ∧ v = .list vs := by
  rw [Grammar.meaning_eq_step fun _ _ => rfl]
  simp only [Grammar.step, Parser.row_eq_all]
  exact Parser.map_succeeds_iff

theorem Grammar.row_nil_meaning_succeeds_iff :
    (g.meaning (.row [])).Succeeds c v d ↔ v = .list [] ∧ d = c := by
  simp [Grammar.row_meaning_succeeds_iff, Parser.all_nil_succeeds_iff, and_comm]

theorem Grammar.row_cons_meaning_succeeds_iff :
    (g.meaning (.row (node :: nodes))).Succeeds c v e ↔
      ∃ a as d, (g.meaning node).Succeeds c a d ∧ (g.meaning (.row nodes)).Succeeds d (.list as) e ∧
        v = .list (a :: as) := by
  simp only [Grammar.row_meaning_succeeds_iff, List.map_cons, Parser.all_cons_succeeds_iff]
  grind

theorem Grammar.pair_meaning_succeeds_iff {first second : Node} :
    (g.meaning (.row [first, second])).Succeeds c v e ↔
      ∃ a b d, (g.meaning first).Succeeds c a d ∧ (g.meaning second).Succeeds d b e ∧
        v = .list [a, b] := by
  simp only [Grammar.row_cons_meaning_succeeds_iff, Grammar.row_nil_meaning_succeeds_iff]
  grind

theorem Grammar.triple_meaning_succeeds_iff {first second third : Node} {x : Cursor} :
    (g.meaning (.row [first, second, third])).Succeeds c v x ↔
      ∃ a₁ a₂ a₃ d e, (g.meaning first).Succeeds c a₁ d ∧ (g.meaning second).Succeeds d a₂ e ∧
        (g.meaning third).Succeeds e a₃ x ∧ v = .list [a₁, a₂, a₃] := by
  rw [Grammar.row_cons_meaning_succeeds_iff]
  simp only [Grammar.pair_meaning_succeeds_iff]
  grind

theorem Grammar.surround_meaning_succeeds_iff {opening closing : Char} :
    (g.meaning (.surround opening closing node)).Succeeds c v e ↔
      ∃ d b, c.Passes [opening] d ∧ (g.meaning node).Succeeds d v b ∧ b.Passes [closing] e := by
  rw [Grammar.meaning_eq_step fun _ _ => rfl]
  exact Parser.surround_succeeds_iff

/-- What a node succeeds with is what a step from its parts does, with enough turns. -/
theorem Grammar.meaning_succeeds_iff_step :
    (g.meaning node).Succeeds c v d ↔ ∃ turns, (g.step turns g.meaning node).Succeeds c v d := by
  simp only [Parser.Succeeds, Grammar.meaning_eq_some, Grammar.answers_iff_step]
  exact exists_comm

/-- A repetition succeeds with what its node gathers. -/
theorem Grammar.many_meaning_succeeds_iff :
    (g.meaning (.many node)).Succeeds c v d ↔
      ∃ vs, (∃ log, (g.meaning node).Gathers c ⟨vs, d, log⟩) ∧ v = .list vs := by
  rw [Grammar.meaning_succeeds_iff_step]
  simp only [Grammar.step, Parser.map_succeeds_iff, ← Parser.many_succeeds_iff]
  grind

end

/-! ## Runs -/

/-- A run ends as the parse from the start of its text does. -/
theorem Grammar.exists_runs_iff {g : Grammar} {node : Node} {text : String} {o : Outcome Value} :
    (∃ log, g.Runs node text ⟨o, log⟩) ↔ ∃ log, g.meaning node (.start text) = some ⟨o, log⟩ := by
  simp only [Grammar.meaning_eq_some, Grammar.runs_iff]
  constructor
  · rintro ⟨_, r, hr, heq⟩
    cases heq
    exact ⟨r.log, hr⟩
  · rintro ⟨log, hr⟩
    exact ⟨_, _, hr, rfl⟩

/-! ## Grammars that end -/

/-- A rule that is named has a body. -/
def Grammar.knows (g : Grammar) : Node → Bool
  | .rule name => (g.body? name).isSome
  | _ => true

/-- A part of a grammar ends everywhere if nothing in it leaps, the rules that it names have
bodies, and a rank falls from each rule to those in left position in its body. All of this can be
read off the grammar. -/
theorem Grammar.meaning_ends {g : Grammar} {root node : Node} (marked : String → Bool)
    (rank : String → Nat)
    (hparts : ∀ k ∈ g.parts root, k.leaps = false ∧ g.knows k = true)
    (hrules : ∀ rule ∈ g.rules, (rule.2.nullable marked = true → marked rule.1 = true) ∧
      ∀ name ∈ rule.2.leftRules marked, rank name < rank rule.1)
    (hnode : node ∈ g.parts root) (c : Cursor) : ∃ r, g.meaning node c = some r := by
  have hbody : ∀ {name body}, g.body? name = some body → (name, body) ∈ g.rules :=
    Grammar.mem_rules_of_body?
  have hrank : ∀ name body, g.body? name = some body →
      ∀ name' ∈ body.leftRules marked, rank name' < rank name :=
    fun _ _ hb => (hrules _ (hbody hb)).2
  exact Grammar.meaning_endsBelow (fun k hk => (hparts k hk).1)
    (fun name hname => Option.isSome_iff_exists.mp (hparts _ hname).2)
    (fun name body hb => (hrules _ (hbody hb)).1) hrank (c.rest.length + 1) hnode c
    (Nat.lt_succ_self _)

end TextParsers
