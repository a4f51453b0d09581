-- The law of forward flow. A parse that never leaps ends further on in what was
-- left, whether it succeeds or fails. If it reads no text of its own either, it
-- ends where some move from its start would.
import TextParsers.Proofs.GrammarRuns
namespace TextParsers

variable {c : Cursor}

/-! ## What no move loses -/

/-- A parse without leaps leaves a suffix of what was left, also where it reads what is left
as a text of its own. -/
theorem Grammar.Answers.rest_suffix {g : Grammar} {node : Node} {r : Reply Value}
    (hg : ∀ k ∈ g.parts node, k.leaps = false) (hr : g.Answers node c r) :
    r.outcome.cursor.rest <:+ c.rest := by
  obtain ⟨limit, hr⟩ := hr
  refine Grammar.parser_keeps (P := fun d => d.rest <:+ c.rest) ?_ ?_ (List.suffix_refl _) hr
  · intro d n hd
    exact (List.drop_suffix n d.rest).trans hd
  · refine fun k hk => Likeness.bears_within_of_stays (hg k hk) fun d hd => ?_
    rwa [Cursor.rest_start_remainder]

/-- A parse that stays in its text ends at a move from its start. -/
theorem Grammar.Answers.eq_advance {g : Grammar} {node : Node} {r : Reply Value}
    (hl : ∀ k ∈ g.parts node, k.leaps = false) (hn : ∀ k ∈ g.parts node, k.nests = false)
    (hr : g.Answers node c r) : ∃ n, r.outcome.cursor = c.advance n := by
  obtain ⟨limit, hr⟩ := hr
  refine Grammar.parser_keeps (P := fun d => ∃ n, d = c.advance n) ?_ ?_ ?_ hr
  · rintro _ m ⟨n, rfl⟩
    exact ⟨n + m, Cursor.advance_advance c n m⟩
  · intro k hk
    exact Likeness.bears_of_stays (hl k hk) (hn k hk)
  · exact ⟨0, (Cursor.advance_zero c).symm⟩

/-! ## The law -/

/-- A parse without leaps leaves a suffix of what was left. If it has no nested runs either,
it stays in its text, and its position grows by as many characters as what is left shrinks,
so it neither succeeds nor fails before its start. -/
theorem a_parse_without_leaps_flows_forward (g : Grammar) (node : Node) (c : Cursor)
    (r : Reply Value) (hg : ∀ k ∈ g.parts node, k.leaps = false) (hr : g.Answers node c r) :
    r.outcome.cursor.rest <:+ c.rest ∧
    ((∀ k ∈ g.parts node, k.nests = false) →
      r.outcome.cursor.text = c.text ∧
      r.outcome.cursor.position =
        c.position + (c.rest.length - r.outcome.cursor.rest.length) ∧
      c.position ≤ r.outcome.cursor.position) := by
  refine ⟨hr.rest_suffix hg, fun hn => ?_⟩
  obtain ⟨n, hd⟩ := hr.eq_advance hg hn
  rw [hd, Cursor.position_advance, Cursor.rest_advance, List.length_drop]
  refine ⟨rfl, ?_, ?_⟩
  · omega
  · omega

/-- A recursive rule that reads letters, and then a failure behind them. -/
theorem a_failure_behind_a_recursive_rule :
    let g : Grammar := ⟨[("r", .choice [.row [.char 'a', .rule "r"], .many1 (.char 'b')])]⟩
    let node : Node := .all [.rule "r", .endOfText]
    (∀ k ∈ g.parts node, k.leaps = false) ∧
    g.Answers node ((Cursor.start "xaabbc").advance 1)
      ⟨.failure "not EOF" ⟨"xaabbc", ['c'], 5, 5⟩, []⟩ ∧
    ['c'] <:+ ['a', 'a', 'b', 'b', 'c'] ∧ 5 = 1 + (5 - 1) := by
  intro g node
  have hg : ∀ k ∈ g.parts node, k.leaps = false := by decide
  have hr : g.Answers node ((Cursor.start "xaabbc").advance 1)
      ⟨.failure "not EOF" ⟨"xaabbc", ['c'], 5, 5⟩, []⟩ := ⟨12, by decide⟩
  obtain ⟨hsuffix, hstays⟩ := a_parse_without_leaps_flows_forward g node _ _ hg hr
  exact ⟨hg, hr, hsuffix, (hstays (by decide)).2.1⟩

end TextParsers
