-- Repetitions of a parser whose successes all go forward. Each of them has a test of its
-- own for when to stop: only the open repetition looks whether text is left, and only
-- it looks at positions. Here the tests come to the same, as no success goes forward
-- where nothing is left, so all repetitions walk one chain of successes.
import TextParsers.Proofs.BoundedRepetition
import TextParsers.Proofs.CountedSequences
import TextParsers.Proofs.Nullability
namespace TextParsers

variable {α β : Type} {c d : Cursor} {a : α} {as : List α}

/-- If each turn stays in the text and ends further on, so does a chain of them, by as many
characters at least as there are turns. -/
theorem Chain.moves_on {turn : Cursor → α → Cursor → Prop}
    (h : ∀ c a d, c.Consistent → turn c a d →
      d.Consistent ∧ d.text = c.text ∧ c.position < d.position)
    (hs : Chain turn c as d) (hc : c.Consistent) :
    d.Consistent ∧ d.text = c.text ∧ c.position + as.length ≤ d.position := by
  induction hs with
  | nil c => exact ⟨hc, rfl, by simp⟩
  | cons ht _ ih =>
    obtain ⟨hd, htext, hlt⟩ := h _ _ _ hc ht
    obtain ⟨he, htext', hle⟩ := ih hd
    refine ⟨he, htext'.trans htext, ?_⟩
    rw [List.length_cons]
    omega

namespace Parser

variable {p : Parser α}

/-- Every success stays in the text, and ends further on. -/
def MovesOn (p : Parser α) : Prop :=
  ∀ c a d, c.Consistent → p.Succeeds c a d → d.text = c.text ∧ c.position < d.position

/-- Every success stays in the text, and none goes back. -/
def NeverGoesBack (p : Parser α) : Prop :=
  ∀ c a d, c.Consistent → p.Succeeds c a d → d.text = c.text ∧ c.position ≤ d.position

theorem MovesOn.neverGoesBack (hm : p.MovesOn) : p.NeverGoesBack := by
  intro c a d hc hs
  obtain ⟨htext, hlt⟩ := hm c a d hc hs
  exact ⟨htext, Nat.le_of_lt hlt⟩

/-! ## Successes one after the other -/

theorem bind_succeeds_iff {f : α → Parser β} {b : β} {e : Cursor} :
    (p >>= f).Succeeds c b e ↔ ∃ a d, p.Succeeds c a d ∧ (f a).Succeeds d b e := by
  constructor
  · rintro ⟨log, h⟩
    obtain ⟨a, d, l, m, hp, hf, -⟩ := bind_eq_success_iff.mp h
    exact ⟨a, d, ⟨l, hp⟩, m, hf⟩
  · rintro ⟨a, d, ⟨l, hp⟩, m, hf⟩
    exact ⟨l ++ m, bind_eq_success_iff.mpr ⟨a, d, l, m, hp, hf, rfl⟩⟩

theorem map_succeeds_iff {f : α → β} {b : β} :
    (p.map f).Succeeds c b d ↔ ∃ a, p.Succeeds c a d ∧ b = f a := by
  constructor
  · rintro ⟨log, h⟩
    obtain ⟨⟨⟨a, e⟩ | ⟨e, x⟩, l⟩, hp, hr⟩ := Option.map_eq_some_iff.mp h
    · cases hr
      exact ⟨a, ⟨l, hp⟩, rfl⟩
    · cases hr
  · rintro ⟨a, ⟨log, hp⟩, rfl⟩
    exact ⟨log, Option.map_eq_some_iff.mpr ⟨_, hp, rfl⟩⟩

/-- The first success of `many1` is one of `p`, and the others are what `many` gathers from
there. -/
theorem many1_succeeds_iff {turns : Nat} :
    (p.many1 turns).Succeeds c as d ↔
      ∃ b bs e, as = b :: bs ∧ p.Succeeds c b e ∧ (p.many turns).Succeeds e bs d := by
  rw [many1_eq_bind, bind_succeeds_iff]
  constructor
  · rintro ⟨b, e, hb, h⟩
    obtain ⟨bs, hbs, rfl⟩ := map_succeeds_iff.mp h
    exact ⟨b, bs, e, rfl, hb, hbs⟩
  · rintro ⟨b, bs, e, rfl, hb, hbs⟩
    exact ⟨b, e, hb, map_succeeds_iff.mpr ⟨bs, hbs, rfl⟩⟩

/-! ## Where no success goes back -/

section

variable (hp : p.KeepsConsistent) (hb : p.NeverGoesBack)
include hp hb

/-- A turn that does not go back goes forward. -/
theorem chain_turn_moves_on (hs : Chain p.Turn c as d) (hc : c.Consistent) :
    d.Consistent ∧ d.text = c.text ∧ c.position + as.length ≤ d.position := by
  refine hs.moves_on ?_ hc
  rintro c a d hc ⟨-, hs, hmoved⟩
  obtain ⟨htext, hle⟩ := hb c a d hc hs
  exact ⟨hp.of_succeeds hc hs, htext, by omega⟩

/-- If `p` answers wherever in the text it is run, a repetition of it ends: the positions of its
turns grow, up to the length of the text. -/
theorem exists_gathers_of_neverGoesBack (hc : c.Consistent)
    (hends : ∀ d, d.Consistent → d.text = c.text → ∃ r, p d = some r) : ∃ h, p.Gathers c h := by
  -- No turn goes back, so the repetition follows the documented rule, and that one ends.
  have hforward : p.GoesForward c := by
    intro as d a e hs ht
    obtain ⟨hd, -, -⟩ := chain_turn_moves_on hp hb hs hc
    have hle := (hb d a e hd ht.2.1).2
    exact Nat.lt_of_le_of_ne hle (Ne.symm ht.2.2)
  obtain ⟨limit, h, hh⟩ := gatherForward_ends c.text.length fun as d hs => by
    obtain ⟨hd, htext, -⟩ := chain_turn_moves_on hp hb (hs.mono fun _ _ _ ht => ht.1) hc
    refine ⟨?_, hends d hd htext⟩
    rw [← htext]
    exact hd.position_le
  exact ⟨h, limit, by rw [gather_eq_gatherForward hforward, hh]⟩

end

/-! ## Where successes go forward -/

section

variable (hp : p.KeepsConsistent) (hm : p.MovesOn)
include hp hm

/-- A success that goes forward is a turn: there is no place behind the end of the text. -/
theorem turn_iff_succeeds (hc : c.Consistent) : p.Turn c a d ↔ p.Succeeds c a d := by
  constructor
  · rintro ⟨-, h, -⟩
    exact h
  · intro h
    obtain ⟨htext, hlt⟩ := hm c a d hc h
    have hle := (hp.of_succeeds hc h).position_le
    rw [htext] at hle
    refine ⟨?_, h, by omega⟩
    rw [← Bool.not_eq_true, hc.isEmpty_iff, hc.rest_eq_nil_iff]
    omega

/-- Where a repetition rests `p` fails. Nothing is known of `p` where nothing is left, as it was
not run there, so it must answer then. -/
theorem fails_of_rests (hc : c.Consistent) (hends : c.rest = [] → ∃ r, p c = some r)
    (h : p.Rests c) : p.Fails c := by
  have hnot : ∀ a d, ¬ p.Succeeds c a d := fun a d hs =>
    h.not_turn ((turn_iff_succeeds hp hm hc).mpr hs)
  rcases h with he | hf | ⟨a, d, hs, -⟩
  · obtain ⟨⟨⟨a, d⟩ | ⟨e, d⟩, log⟩, hr⟩ := hends (hc.isEmpty_iff.mp he)
    · exact absurd ⟨log, hr⟩ (hnot a d)
    · exact ⟨e, d, log, hr⟩
  · exact hf
  · exact absurd hs (hnot a d)

/-- A chain of successes stays in the text, and each of them reads a character of it. -/
theorem chain_moves_on (hs : Chain p.Succeeds c as d) (hc : c.Consistent) :
    d.Consistent ∧ d.text = c.text ∧ c.position + as.length ≤ d.position := by
  refine hs.moves_on (fun c a d hc h => ?_) hc
  obtain ⟨htext, hlt⟩ := hm c a d hc h
  exact ⟨hp.of_succeeds hc h, htext, hlt⟩

theorem chain_turn_iff_succeeds (hc : c.Consistent) :
    Chain p.Turn c as d ↔ Chain p.Succeeds c as d := by
  constructor
  · intro hs
    exact hs.mono fun _ _ _ h => h.2.1
  · intro hs
    exact (hs.of_invariant Cursor.Consistent (fun _ _ _ hc h => hp.of_succeeds hc h)
      (fun _ _ _ hc h => (turn_iff_succeeds hp hm hc).mpr h) hc).1

/-- A repetition gathers the values of a chain of successes, up to a place where it rests. -/
theorem gathers_iff_successes (hc : c.Consistent) :
    (∃ log, p.Gathers c ⟨as, d, log⟩) ↔ Chain p.Succeeds c as d ∧ p.Rests d := by
  rw [gathers_iff_chain, chain_turn_iff_succeeds hp hm hc]

/-- The first success of `many1` is a turn as the others are. -/
theorem exists_many1_succeeds_iff (hc : c.Consistent) :
    (∃ turns, (p.many1 turns).Succeeds c as d) ↔
      (∃ log, p.Gathers c ⟨as, d, log⟩) ∧ 1 ≤ as.length := by
  constructor
  · rintro ⟨turns, h⟩
    obtain ⟨b, bs, e, rfl, hb, hbs⟩ := many1_succeeds_iff.mp h
    obtain ⟨hs, hd⟩ := gathers_iff_chain.mp (many_succeeds_iff.mp ⟨turns, hbs⟩)
    -- `many1` ran `p` without a look at what is left, but as `p` succeeded, something was.
    have ht := (turn_iff_succeeds hp hm hc).mpr hb
    exact ⟨gathers_iff_chain.mpr ⟨.cons ht hs, hd⟩, by simp⟩
  · rintro ⟨hh, hlen⟩
    obtain ⟨hs, hd⟩ := gathers_iff_chain.mp hh
    cases hs with
    | nil c => simp at hlen
    | cons ht hs =>
      obtain ⟨turns, hbs⟩ := many_succeeds_iff.mpr (gathers_iff_chain.mpr ⟨hs, hd⟩)
      exact ⟨turns, many1_succeeds_iff.mpr ⟨_, _, _, rfl, ht.2.1, hbs⟩⟩

/-- A repetition of `p` gathers at most as many values as characters are left. -/
theorem length_le_of_gathers {log : Log} (hc : c.Consistent) (hh : p.Gathers c ⟨as, d, log⟩) :
    as.length ≤ c.rest.length := by
  obtain ⟨hs, -⟩ := (gathers_iff_successes hp hm hc).mp ⟨log, hh⟩
  obtain ⟨hd, htext, hle⟩ := chain_moves_on hp hm hs hc
  have hc' := hc.position_add_length
  have hd' := hd.position_add_length
  rw [htext] at hd'
  omega

/-- If `p` answers wherever in the text it is run, a repetition of it ends. -/
theorem exists_gathers (hc : c.Consistent)
    (hends : ∀ d, d.Consistent → d.text = c.text → ∃ r, p d = some r) : ∃ h, p.Gathers c h :=
  exists_gathers_of_neverGoesBack hp hm.neverGoesBack hc hends

end

/-- Behind a repetition `p` fails where it stopped, and so do the two in a row. -/
theorem pair_of_gathers {h : Harvest α} {e : String} {x : Cursor} {log : Log}
    (hh : p.Gathers c h) (hx : p h.stop = some ⟨.failure e x, log⟩) (r : Reply (List α × α)) :
    (∃ turns, (p.many turns).pair p c = some r) ↔ r = ⟨.failure e x, h.log ++ log⟩ := by
  rw [pair_many_eq_some_iff hh, hx, eq_comm]
  exact Option.some_inj

/-! ## Grammars -/

/-- A node that is not nullable moves on wherever it succeeds, if it stays in its text. -/
theorem movesOn_of_not_nullable {g : Grammar} {node : Node} (marked : String → Bool)
    (hl : ∀ k ∈ g.parts node, k.leaps = false) (hn : ∀ k ∈ g.parts node, k.nests = false)
    (hm : ∀ name body, g.body? name = some body → body.nullable marked = true →
      marked name = true)
    (hnode : node.nullable marked = false) (limit : Nat) : (g.parser limit node).MovesOn := by
  rintro c a d hc ⟨log, hr⟩
  have hself : node ∈ g.parts node := List.mem_append_left _ node.mem_parts_self
  have htakes := Grammar.takes_one_of_not_nullable hl hm limit hself hnode c a d log hr
  obtain ⟨n, hd⟩ := Grammar.Answers.eq_advance hl hn ⟨limit, hr⟩
  simp only [Outcome.cursor] at hd
  have htext : d.text = c.text := by rw [hd, Cursor.text_advance]
  have hc' := hc.position_add_length
  have hd' := (Grammar.consistent_of_parser hc hr).position_add_length
  simp only [Outcome.cursor, htext] at hd'
  exact ⟨htext, by omega⟩

/-! ## The law -/

/-- Take a parser whose every success stays in the text and goes forward. If it answers wherever
in the text it is run, then `many` succeeds. Where `many` succeeds with `k` values, so does the
count of each `n` up to `k`, with the first `n` of them; `many1` and the bounds of one and the
largest machine word are met exactly if `k` is at least one, with the same values and at the same
place; and at least `k` characters were left. `many` does not run the parser where nothing is
left. If the parser answers also there, a count of more than `k` fails where `many` stopped and
reports `k`; the bounds of `n` and `n` are met exactly if the count of `n` succeeds at a place
where the parser fails; and `many` with the parser behind it fails. -/
theorem all_repetitions_walk_one_chain (p : Parser α) (hp : p.KeepsConsistent) (hm : p.MovesOn)
    (c : Cursor) (hc : c.Consistent) (hlen : c.text.length < 0x10000000000000000) :
    ((∀ d, d.Consistent → d.text = c.text → ∃ r, p d = some r) →
      ∃ values stop, ∃ turns, (p.many turns).Succeeds c values stop) ∧
    ∀ values stop, (∃ turns, (p.many turns).Succeeds c values stop) →
      (∀ n ≤ values.length, ∃ d, (p.count n).Succeeds c (values.take n) d) ∧
      (∀ as d, (∃ turns, (p.many1 turns).Succeeds c as d) ↔
        1 ≤ values.length ∧ as = values ∧ d = stop) ∧
      (∀ as d, (∃ turns, (p.countBetween turns 1 0xFFFFFFFFFFFFFFFF).Succeeds c as d) ↔
        1 ≤ values.length ∧ as = values ∧ d = stop) ∧
      values.length ≤ c.rest.length ∧
      ((stop.rest = [] → ∃ r, p stop = some r) →
        (∀ n, values.length < n → ∃ log, p.count n c = some ⟨.failure
          ("expected count " ++ Nat.repr n ++ " actual " ++ Nat.repr values.length) stop, log⟩) ∧
        (∀ n as d, (∃ turns, (p.countBetween turns n n).Succeeds c as d) ↔
          (p.count n).Succeeds c as d ∧ p.Fails d) ∧
        ∃ e x log, ∀ r, (∃ turns, (p.many turns).pair p c = some r) ↔ r = ⟨.failure e x, log⟩) := by
  refine ⟨fun hends => ?_, fun values stop hmany => ?_⟩
  · obtain ⟨⟨values, stop, log⟩, hh⟩ := exists_gathers hp hm hc hends
    exact ⟨values, stop, many_succeeds_iff.mpr ⟨log, hh⟩⟩
  obtain ⟨log, hh⟩ := many_succeeds_iff.mp hmany
  obtain ⟨hs, hrests⟩ := (gathers_iff_successes hp hm hc).mp ⟨log, hh⟩
  have hstop := (chain_moves_on hp hm hs hc).1
  have hle := length_le_of_gathers hp hm hc hh
  have hgathers : ∀ {as d}, (∃ log, p.Gathers c ⟨as, d, log⟩) ↔ as = values ∧ d = stop := by
    intro as d
    constructor
    · rintro ⟨log', hh'⟩
      cases hh'.unique hh
      exact ⟨rfl, rfl⟩
    · rintro ⟨rfl, rfl⟩
      exact ⟨log, hh⟩
  refine ⟨fun n hn => ?_, fun as d => ?_, fun as d => ?_, hle,
    fun hends => ⟨fun n hn => ?_, ?_, ?_⟩⟩
  · -- The chain is cut behind its first `n` turns.
    rw [← List.take_append_drop n values, chain_append_iff] at hs
    obtain ⟨d, hfirst, -⟩ := hs
    exact ⟨d, count_succeeds_iff.mpr ⟨hfirst, by simp [hn]⟩⟩
  · rw [exists_many1_succeeds_iff hp hm hc, hgathers]
    constructor
    · rintro ⟨⟨rfl, rfl⟩, hone⟩
      exact ⟨hone, rfl, rfl⟩
    · rintro ⟨hone, rfl, rfl⟩
      exact ⟨⟨rfl, rfl⟩, hone⟩
  · rw [countBetween_succeeds_iff, hgathers]
    -- The upper bound is never missed, as no more values than characters are gathered.
    have hmax : c.rest.length ≤ 0xFFFFFFFFFFFFFFFF := by
      have := hc.position_add_length
      omega
    constructor
    · rintro ⟨⟨rfl, rfl⟩, hone, -⟩
      exact ⟨hone, rfl, rfl⟩
    · rintro ⟨hone, rfl, rfl⟩
      exact ⟨⟨rfl, rfl⟩, hone, hle.trans hmax⟩
  · obtain ⟨e, x, l, hfails⟩ := fails_of_rests hp hm hstop hends hrests
    obtain ⟨log', hreply⟩ := count_of_chain_of_failure hs hfails
    exact ⟨log', (hreply n hn).1⟩
  · intro n as d
    rw [countBetween_succeeds_iff, hgathers, count_succeeds_iff]
    constructor
    · rintro ⟨⟨rfl, rfl⟩, hlo, hhi⟩
      exact ⟨⟨hs, by omega⟩, fails_of_rests hp hm hstop hends hrests⟩
    · -- Where `p` fails a repetition rests, so the count has found all values there are.
      rintro ⟨⟨has, rfl⟩, hd⟩
      have hsame := hgathers.mp ((gathers_iff_successes hp hm hc).mpr ⟨has, .inr (.inl hd)⟩)
      exact ⟨hsame, le_rfl, le_rfl⟩
  · obtain ⟨e, x, l, hfails⟩ := fails_of_rests hp hm hstop hends hrests
    exact ⟨e, x, log ++ l, pair_of_gathers hh hfails⟩

/-- A recursive rule that reads letters, repeated behind a character of two bytes and up to a
mark. -/
theorem a_recursive_rule_is_repeated_twice :
    let g : Grammar := ⟨[("r", .choice [.row [.char 'a', .rule "r"], .char 'b'])]⟩
    let p := g.parser 7 (.rule "r")
    let c := (Cursor.start "éabb!").advance 1
    let d := (Cursor.start "éabb!").advance 4
    let v : Value := .list [.text "a", .text "b"]
    p.KeepsConsistent ∧ p.MovesOn ∧ c.Consistent ∧ c.text.length < 0x10000000000000000 ∧
    (∃ turns, (p.many turns).Succeeds c [v, .text "b"] d) ∧ d.rest ≠ [] ∧
    (∃ e, (p.count 1).Succeeds c [v] e) ∧
    (∃ turns, (p.countBetween turns 1 0xFFFFFFFFFFFFFFFF).Succeeds c [v, .text "b"] d) ∧
    (∃ log, p.count 5 c = some ⟨.failure "expected count 5 actual 2" d, log⟩) ∧
    ((∃ turns, (p.countBetween turns 2 2).Succeeds c [v, .text "b"] d) ↔
      (p.count 2).Succeeds c [v, .text "b"] d ∧ p.Fails d) := by
  intro g p c d v
  have hp : p.KeepsConsistent := fun _ _ => Grammar.consistent_of_parser
  have hm : p.MovesOn := by
    have hl : ∀ k ∈ g.parts (.rule "r"), k.leaps = false := by decide
    have hn : ∀ k ∈ g.parts (.rule "r"), k.nests = false := by decide
    have hrules : ∀ rule ∈ g.rules, rule.2.nullable (fun _ => false) = false := by decide
    refine movesOn_of_not_nullable (fun _ => false) hl hn ?_ rfl 7
    intro name body hb hnull
    rw [hrules _ (Grammar.mem_rules_of_body? hb)] at hnull
    cases hnull
  have hc : c.Consistent := Cursor.consistent_advance (Cursor.consistent_start _) 1
  have hlen : c.text.length < 0x10000000000000000 := by decide
  have hmany : ∃ turns, (p.many turns).Succeeds c [v, .text "b"] d :=
    ⟨3, [.noAlternative 4 2], by decide⟩
  have hleft : d.rest ≠ [] := by decide
  have hwording : "expected count " ++ Nat.repr 5 ++ " actual " ++ Nat.repr 2 =
      "expected count 5 actual 2" := by decide
  obtain ⟨-, hwalk⟩ := all_repetitions_walk_one_chain p hp hm c hc hlen
  obtain ⟨hcount, -, hbetween, -, hstopped⟩ := hwalk _ _ hmany
  obtain ⟨hshort, hexact, -⟩ := hstopped fun hnil => absurd hnil hleft
  have hfive := hshort 5 (by decide)
  simp only [List.length_cons, List.length_nil, Nat.reduceAdd, hwording] at hfive
  exact ⟨hp, hm, hc, hlen, hmany, hleft, hcount 1 (by decide),
    (hbetween _ _).mpr ⟨by decide, rfl, rfl⟩, hfive, hexact 2 _ _⟩

end Parser

end TextParsers
