-- Repetitions of parsers that may succeed without a move: an optional parser, or one
-- that is a repetition itself. Each stops the outer repetition where it comes to a
-- stand, and the value of that last run is not kept. So an optional parser gathers
-- what the parser inside does, and a repetition of repetitions gathers at most once.
import TextParsers.Proofs.RepetitionsAgree
namespace TextParsers

variable {α : Type} {c d : Cursor} {as : List α}

namespace Parser

variable {p q : Parser α}

/-! ## An optional parser repeated -/

/-- Where `p` fails the optional parser succeeds at the position it started from, which ends a
repetition as the failure does. -/
theorem gather_optional (p : Parser α) (turns : Nat) (c : Cursor) :
    p.optional.gather turns c =
      (p.gather turns c).map fun h => ⟨h.values.map some, h.stop, h.log⟩ := by
  induction turns generalizing c with
  | zero => rfl
  | succ turns ih =>
    by_cases hc : c.isEmpty = true
    · simp only [gather, hc, if_true, Option.map_some, List.map_nil]
    rw [Bool.not_eq_true] at hc
    rcases hp : p c with _ | ⟨⟨a, d⟩ | ⟨e, d⟩, log⟩
    · have hopt : p.optional c = none := by simp only [optional, settle, hp, Option.map_none]
      rw [gather_silent hc hp, gather_silent hc hopt]
      rfl
    · have hopt : p.optional c = some ⟨.success (some a) d, log⟩ := by
        simp only [optional, settle, hp, Option.map_some]
      by_cases hd : d.position = c.position
      · simp only [gather, hc, hp, hopt, hd, if_true, if_false, Bool.false_eq_true,
          Option.map_some, List.map_nil]
      · rw [gather_turn hc hp hd, gather_turn hc hopt hd, ih]
        simp only [Option.map_map, Function.comp_def, List.map_cons]
    · have hopt : p.optional c = some ⟨.success none c, log⟩ := by
        simp only [optional, settle, hp, Option.map_some]
      simp only [gather, hc, hp, hopt, if_true, if_false, Bool.false_eq_true, Option.map_some,
        List.map_nil]

theorem many_optional (p : Parser α) (turns : Nat) :
    p.optional.many turns = (p.many turns).map (List.map some) := by
  funext c
  simp only [many, Parser.map, settle, gather_optional, Option.map_map]
  rfl

/-! ## More turns for the parser that is repeated -/

/-- What a repetition gathers it also gathers with a parser that answers more often. -/
theorem Gathers.of_le (h : ∀ c r, p c = some r → q c = some r) {k : Harvest α}
    (hk : p.Gathers c k) : q.Gathers c k := by
  obtain ⟨turns, hk⟩ := hk
  have happroaches : Approaches (fun _ => q) p :=
    fun c r hr => Filter.Eventually.of_forall fun _ => h c r hr
  obtain ⟨_, hmore⟩ := (happroaches.gather hk).exists
  exact ⟨0 + turns, hmore 0⟩

/-- With more turns the parser answers at more places, and nowhere differently. -/
def Grows (q : Nat → Parser α) : Prop :=
  ∀ m n, m ≤ n → ∀ c r, q m c = some r → q n c = some r

theorem grows_many (p : Parser α) : Grows fun turns => p.many turns := by
  intro m n hmn c r hr
  obtain ⟨h, hh, rfl⟩ := Option.map_eq_some_iff.mp hr
  exact Option.map_eq_some_iff.mpr ⟨h, gather_mono hmn hh, rfl⟩

theorem grows_many1 (p : Parser α) : Grows fun turns => p.many1 turns := by
  intro m n hmn c r hr
  simp only [many1] at hr ⊢
  rcases hp : p c with _ | ⟨⟨a, d⟩ | ⟨e, d⟩, log⟩
  · rw [hp] at hr
    cases hr
  · simp only [hp] at hr ⊢
    obtain ⟨h, hh, rfl⟩ := Option.map_eq_some_iff.mp hr
    rw [gather_mono hmn hh]
    rfl
  · simp only [hp] at hr ⊢
    exact hr

theorem Grows.gathers_unique {q : Nat → Parser α} (hq : Grows q) {m n : Nat} {h k : Harvest α}
    (hh : (q m).Gathers c h) (hk : (q n).Gathers c k) : h = k :=
  (hh.of_le (hq m _ (Nat.le_max_left m n))).unique (hk.of_le (hq n _ (Nat.le_max_right m n)))

/-- What is gathered with some number of turns is the only thing a repetition succeeds with. -/
theorem Grows.many_succeeds_iff {q : Nat → Parser α} (hq : Grows q) {m : Nat} {log : Log}
    (h : (q m).Gathers c ⟨as, d, log⟩) (bs : List α) (e : Cursor) :
    (∃ m n, ((q m).many n).Succeeds c bs e) ↔ bs = as ∧ e = d := by
  constructor
  · rintro ⟨m', n, hr⟩
    obtain ⟨log', hk⟩ := Parser.many_succeeds_iff.mp ⟨n, hr⟩
    cases hq.gathers_unique hk h
    exact ⟨rfl, rfl⟩
  · rintro ⟨rfl, rfl⟩
    obtain ⟨n, hr⟩ := Parser.many_succeeds_iff.mpr ⟨log, h⟩
    exact ⟨m, n, hr⟩

/-! ## A repetition repeated -/

/-- Where `p` rests a repetition of it succeeds without a value and without a move. -/
theorem Rests.many_succeeds (h : p.Rests c) (turns : Nat) :
    (p.many (turns + 1)).Succeeds c [] c := by
  obtain ⟨log, hlog⟩ := gather_rest h
  exact ⟨log, by simp only [many, hlog, Option.map_some]⟩

theorem Rests.many (h : p.Rests c) (turns : Nat) : (p.many (turns + 1)).Rests c :=
  .inr (.inr ⟨[], c, h.many_succeeds turns, rfl⟩)

theorem exists_succ_of_many_succeeds {turns : Nat} (h : (p.many turns).Succeeds c as d) :
    ∃ t, turns = t + 1 := by
  obtain ⟨log, hr⟩ := h
  cases turns with
  | zero => cases hr
  | succ t => exact ⟨t, rfl⟩

section

variable (hp : p.KeepsConsistent) (hb : p.NeverGoesBack)
include hp hb

/-- Where `p` rests, `many1` keeps a success of `p` that does not move, but does not move
either. -/
theorem Rests.many1 (h : p.Rests c) (hc : c.Consistent) (turns : Nat) :
    (p.many1 (turns + 1)).Rests c := by
  rcases h with he | ⟨e, d, log, hf⟩ | ⟨a, d, hs, hd⟩
  · exact .inl he
  · exact .inr (.inl ⟨e, d, log, by simp only [Parser.many1, hf]⟩)
  · have hstays : d = c :=
      (hp.of_succeeds hc hs).eq_of_position_eq hc (hb c a d hc hs).1 hd
    rw [hstays] at hs
    have hrests : p.Rests c := .inr (.inr ⟨a, c, hs, rfl⟩)
    have hone : (p.many1 (turns + 1)).Succeeds c [a] c :=
      many1_succeeds_iff.mpr ⟨a, [], c, rfl, hs, hrests.many_succeeds turns⟩
    exact .inr (.inr ⟨[a], c, hone, rfl⟩)

/-- A parser that reads all turns of `p` at once, and rests where they end, is repeated once if
there are any. -/
theorem gathers_once {q : Parser (List α)} (hs : Chain p.Turn c as d) (hc : c.Consistent)
    (hq : as ≠ [] → q.Succeeds c as d) (hd : q.Rests d) :
    ∃ log, q.Gathers c ⟨if as = [] then [] else [as], d, log⟩ := by
  obtain ⟨-, -, hle⟩ := chain_turn_moves_on hp hb hs hc
  cases hs with
  | nil c => exact hd.gathers
  | cons ht hs =>
    rw [List.length_cons] at hle
    have hturn : q.Turn c _ d := ⟨ht.1, hq (List.cons_ne_nil _ _), by omega⟩
    rw [if_neg (List.cons_ne_nil _ _)]
    exact gathers_of_chain (.cons hturn (.nil d)) hd

/-- The turns of `p` are one turn of its repetition, and the repetition rests behind them. -/
theorem exists_gathers_many (hs : Chain p.Turn c as d) (hd : p.Rests d) (hc : c.Consistent) :
    ∃ turns log, (p.many turns).Gathers c ⟨if as = [] then [] else [as], d, log⟩ := by
  obtain ⟨turns, hmany⟩ := many_succeeds_iff.mpr (gathers_iff_chain.mpr ⟨hs, hd⟩)
  obtain ⟨t, rfl⟩ := exists_succ_of_many_succeeds hmany
  exact ⟨t + 1, gathers_once hp hb hs hc (fun _ => hmany) (hd.many t)⟩

/-- The first of the turns is the one that `many1` asks for. -/
theorem exists_gathers_many1 (hs : Chain p.Turn c as d) (hd : p.Rests d) (hc : c.Consistent) :
    ∃ turns log, (p.many1 turns).Gathers c ⟨if as = [] then [] else [as], d, log⟩ := by
  have hstop := (chain_turn_moves_on hp hb hs hc).1
  cases hs with
  | nil c => exact ⟨1, gathers_once hp hb (.nil c) hc (absurd rfl) (hd.many1 hp hb hc 0)⟩
  | cons ht hs =>
    obtain ⟨turns, hmany⟩ := many_succeeds_iff.mpr (gathers_iff_chain.mpr ⟨hs, hd⟩)
    obtain ⟨t, rfl⟩ := exists_succ_of_many_succeeds hmany
    have hone : (p.many1 (t + 1)).Succeeds c _ d :=
      many1_succeeds_iff.mpr ⟨_, _, _, rfl, ht.2.1, hmany⟩
    exact ⟨t + 1, gathers_once hp hb (.cons ht hs) hc (fun _ => hone) (hd.many1 hp hb hstop t)⟩

end

/-! ## Grammars -/

/-- A node that stays in its text never goes back. -/
theorem neverGoesBack_of_stays {g : Grammar} {node : Node}
    (hl : ∀ k ∈ g.parts node, k.leaps = false) (hn : ∀ k ∈ g.parts node, k.nests = false)
    (limit : Nat) : (g.parser limit node).NeverGoesBack := by
  rintro c a d - ⟨log, hr⟩
  obtain ⟨n, hd⟩ := Grammar.Answers.eq_advance hl hn ⟨limit, hr⟩
  simp only [Outcome.cursor] at hd
  rw [hd, Cursor.text_advance, Cursor.position_advance]
  exact ⟨rfl, Nat.le_add_right _ _⟩

/-! ## The law -/

/-- An optional parser repeated answers as the parser inside does when it is repeated, within the
same turns: it ends at the same places and with the same log, and its values are the same, each
marked as present. Take a parser whose successes stay in the text and never go back. If it answers
wherever in the text it is run, its repetition ends. Wherever that ends, so does a repetition of
the repetition, and one of `many1`. They stay, with no value, if the parser's own repetition
collects nothing, and otherwise they end where it does, and their only value is the list of its
values. -/
theorem a_repetition_of_repetitions_gathers_once (p : Parser α) :
    (∀ turns c, p.optional.many turns c =
      (p.many turns c).map fun r => ⟨r.outcome.mapValue (List.map some), r.log⟩) ∧
    (p.KeepsConsistent → p.NeverGoesBack → ∀ c, c.Consistent →
      ((∀ d, d.Consistent → d.text = c.text → ∃ r, p d = some r) →
        ∃ as d turns, (p.many turns).Succeeds c as d) ∧
      ∀ as d, (∃ turns, (p.many turns).Succeeds c as d) →
        (as = [] → d = c) ∧
        (∀ bs e, (∃ m n, ((p.many m).many n).Succeeds c bs e) ↔
          bs = (if as = [] then [] else [as]) ∧ e = d) ∧
        ∀ bs e, (∃ m n, ((p.many1 m).many n).Succeeds c bs e) ↔
          bs = (if as = [] then [] else [as]) ∧ e = d) := by
  refine ⟨fun turns c => congrFun (many_optional p turns) c, ?_⟩
  intro hp hb c hc
  refine ⟨fun hends => ?_, fun as d hmany => ?_⟩
  · obtain ⟨⟨as, d, log⟩, hh⟩ := exists_gathers_of_neverGoesBack hp hb hc hends
    exact ⟨as, d, many_succeeds_iff.mpr ⟨log, hh⟩⟩
  obtain ⟨hs, hd⟩ := gathers_iff_chain.mp (many_succeeds_iff.mp hmany)
  obtain ⟨m, log, hh⟩ := exists_gathers_many hp hb hs hd hc
  obtain ⟨m1, log1, hh1⟩ := exists_gathers_many1 hp hb hs hd hc
  refine ⟨?_, (grows_many p).many_succeeds_iff hh, (grows_many1 p).many_succeeds_iff hh1⟩
  rintro rfl
  cases hs
  rfl

/-- Letters, and behind them a parser that succeeds and stays: `many1` keeps what it gives there,
and the repetition around it does not. -/
theorem a_repetition_of_letters_and_nothing :
    let p := (⟨[]⟩ : Grammar).parser 3 (.choice [.char 'a', .accept .null 0])
    let c := (Cursor.start "éaab").advance 1
    let d := (Cursor.start "éaab").advance 3
    let v : List Value := [.text "a", .text "a"]
    p.KeepsConsistent ∧ p.NeverGoesBack ∧ c.Consistent ∧ d.Consistent ∧
    (∀ e, ∃ r, p e = some r) ∧ (∃ as e turns, (p.many turns).Succeeds c as e) ∧
    (∃ turns, (p.many turns).Succeeds c v d) ∧ (∃ turns, (p.many turns).Succeeds d [] d) ∧
    (∃ m, (p.many1 m).Succeeds d [.null] d) ∧
    p.optional.many 4 c = some ⟨.success (v.map some) d, []⟩ ∧
    (∃ m n, ((p.many m).many n).Succeeds c [v] d) ∧ (∃ m n, ((p.many m).many n).Succeeds d [] d) ∧
    (∃ m n, ((p.many1 m).many n).Succeeds c [v] d) ∧
    ∃ m n, ((p.many1 m).many n).Succeeds d [] d := by
  intro p c d v
  have hp : p.KeepsConsistent := fun _ _ => Grammar.consistent_of_parser
  have hb : p.NeverGoesBack := neverGoesBack_of_stays (by decide) (by decide) 3
  have hc : c.Consistent := Cursor.consistent_advance (Cursor.consistent_start _) 1
  have hd : d.Consistent := Cursor.consistent_advance (Cursor.consistent_start _) 3
  have hends : ∀ e, ∃ r, p e = some r := by
    intro e
    simp only [p, Grammar.parser, Grammar.step, List.map, choice, List.foldr, orElse, Parser.map,
      settle, char]
    by_cases he : e.peek = some 'a'
    · exact ⟨_, by simp only [he, if_true]; rfl⟩
    · exact ⟨_, by simp only [he, if_false]; rfl⟩
  have hmany : p.many 4 c = some ⟨.success v d, []⟩ := by decide
  have hnone : ∃ turns, (p.many turns).Succeeds d [] d := ⟨1, [], by decide⟩
  have hone : ∃ m, (p.many1 m).Succeeds d [.null] d := ⟨1, [], by decide⟩
  obtain ⟨hoptional, hnested⟩ := a_repetition_of_repetitions_gathers_once p
  obtain ⟨hstops, hc'⟩ := hnested hp hb c hc
  obtain ⟨-, hd'⟩ := hnested hp hb d hd
  obtain ⟨-, hletters, hletters1⟩ := hc' v d ⟨4, [], hmany⟩
  obtain ⟨-, hnothing, hnothing1⟩ := hd' [] d hnone
  have hsome := hoptional 4 c
  rw [hmany] at hsome
  exact ⟨hp, hb, hc, hd, hends, hstops fun e _ _ => hends e, ⟨4, [], hmany⟩, hnone, hone, hsome,
    (hletters _ _).mpr ⟨rfl, rfl⟩, (hnothing _ _).mpr ⟨rfl, rfl⟩,
    (hletters1 _ _).mpr ⟨rfl, rfl⟩, (hnothing1 _ _).mpr ⟨rfl, rfl⟩⟩

end Parser

end TextParsers
