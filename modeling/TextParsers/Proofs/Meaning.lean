-- What a grammar means when steps do not matter. `Grammar.meaning` is the parser that
-- answers whenever enough steps would, and it takes a step to itself: a step from the
-- meanings of the parts of a node answers exactly if the node does. The reason is that
-- an answer looks at finitely many answers of the parts, so some number of steps is
-- enough for all of them.
import TextParsers.Proofs.GrammarRuns
import Mathlib.Order.Filter.AtTopBot.Basic
namespace TextParsers

open Filter

variable {α β : Type}

/-! ## Families of parsers that settle -/

/-- Wherever `q` answers, all parsers of the family from some index on give its answer. -/
def Parser.Approaches (p : Nat → Parser α) (q : Parser α) : Prop :=
  ∀ c r, q c = some r → ∀ᶠ n in atTop, p n c = some r

namespace Parser

theorem approaches_const (p : Parser α) : Approaches (fun _ => p) p :=
  fun _ _ h => Eventually.of_forall fun _ => h

variable {p : Nat → Parser α} {q : Parser α}

theorem Approaches.settle (h : Approaches p q) (f : Cursor → Outcome α → Outcome β) :
    Approaches (fun n => (p n).settle f) (q.settle f) := by
  intro c r hr
  obtain ⟨s, hs, rfl⟩ := Option.map_eq_some_iff.mp hr
  filter_upwards [h c s hs] with n hn
  simp only [Parser.settle, hn, Option.map_some]

theorem Approaches.bind (h : Approaches p q) {f : Nat → α → Parser β} {g : α → Parser β}
    (hf : ∀ a, Approaches (fun n => f n a) (g a)) :
    Approaches (fun n => p n >>= f n) (q >>= g) := by
  intro c r hr
  replace hr : Parser.bind q g c = some r := hr
  show ∀ᶠ n in atTop, Parser.bind (p n) (f n) c = some r
  unfold Parser.bind at hr ⊢
  rcases hq : q c with _ | ⟨⟨a, d⟩ | ⟨e, d⟩, log⟩
  · rw [hq] at hr
    cases hr
  · rw [hq] at hr
    obtain ⟨s, hs, rfl⟩ := Option.map_eq_some_iff.mp hr
    filter_upwards [h c _ hq, hf a d s hs] with n hn hn'
    simp only [hn, hn', Option.map_some]
  · rw [hq] at hr
    filter_upwards [h c _ hq] with n hn
    simp only [hn]
    exact hr

theorem Approaches.orElse (h : Approaches p q) {p' : Nat → Parser α} {q' : Parser α}
    (h' : Approaches p' q') : Approaches (fun n => (p n).orElse (p' n)) (q.orElse q') := by
  intro c r hr
  unfold Parser.orElse at hr ⊢
  rcases hq : q c with _ | ⟨⟨a, d⟩ | ⟨e, d⟩, log⟩
  · rw [hq] at hr
    cases hr
  · rw [hq] at hr
    filter_upwards [h c _ hq] with n hn
    simp only [hn]
    exact hr
  · rw [hq] at hr
    obtain ⟨s, hs, rfl⟩ := Option.map_eq_some_iff.mp hr
    filter_upwards [h c _ hq, h' c s hs] with n hn hn'
    simp only [hn, hn', Option.map_some]

theorem Approaches.nested (h : Approaches p q) : Approaches (fun n => (p n).nested) q.nested := by
  intro c r hr
  obtain ⟨s, hs, rfl⟩ := Option.map_eq_some_iff.mp hr
  filter_upwards [h _ s hs] with n hn
  simp only [Parser.nested, Parser.run, hn, Option.map_some]

theorem Approaches.gather (h : Approaches p q) {turns : Nat} {c : Cursor} {k : Harvest α}
    (hk : q.gather turns c = some k) :
    ∀ᶠ n in atTop, ∀ extra, (p n).gather (extra + turns) c = some k := by
  induction turns generalizing c k with
  | zero => cases hk
  | succ turns ih =>
    unfold Parser.gather at hk
    by_cases hc : c.isEmpty = true
    · rw [if_pos hc] at hk
      refine Eventually.of_forall fun n extra => ?_
      simp only [Parser.gather, hc, if_true, hk]
    rw [if_neg hc] at hk
    rcases hq : q c with _ | ⟨⟨a, d⟩ | ⟨e, d⟩, log⟩
    · rw [hq] at hk
      cases hk
    · simp only [hq] at hk
      by_cases hd : d.position = c.position
      · rw [if_pos hd] at hk
        filter_upwards [h c _ hq] with n hn extra
        simp only [Parser.gather, hc, hn, hd, if_true, if_false, hk, Bool.false_eq_true]
      · rw [if_neg hd] at hk
        obtain ⟨k', hk', rfl⟩ := Option.map_eq_some_iff.mp hk
        filter_upwards [h c _ hq, ih hk'] with n hn hrest extra
        rw [← Nat.add_assoc]
        simp only [Parser.gather, hc, hn, hd, hrest extra, if_false, Option.map_some,
          Bool.false_eq_true]
    · simp only [hq] at hk
      filter_upwards [h c _ hq] with n hn extra
      simp only [Parser.gather, hc, hn, if_false, hk, Bool.false_eq_true]

/-- The turns of the family may be limited by its index, which passes every limit. -/
theorem Approaches.gather_self (h : Approaches p q) {turns : Nat} {c : Cursor} {k : Harvest α}
    (hk : q.gather turns c = some k) : ∀ᶠ n in atTop, (p n).gather n c = some k := by
  filter_upwards [h.gather hk, eventually_ge_atTop turns] with n hn hle
  have hturns := hn (n - turns)
  rwa [Nat.sub_add_cancel hle] at hturns

theorem Approaches.many (h : Approaches p q) (turns : Nat) :
    Approaches (fun n => (p n).many n) (q.many turns) := by
  intro c r hr
  obtain ⟨k, hk, rfl⟩ := Option.map_eq_some_iff.mp hr
  filter_upwards [h.gather_self hk] with n hn
  simp only [Parser.many, hn, Option.map_some]

theorem Approaches.countBetween (h : Approaches p q) (turns min max : Nat) :
    Approaches (fun n => (p n).countBetween n min max) (q.countBetween turns min max) := by
  intro c r hr
  obtain ⟨k, hk, rfl⟩ := Option.map_eq_some_iff.mp hr
  filter_upwards [h.gather_self hk] with n hn
  simp only [Parser.countBetween, hn, Option.map_some]

theorem Approaches.map (h : Approaches p q) (f : α → β) :
    Approaches (fun n => (p n).map f) (q.map f) :=
  h.settle _

theorem Approaches.many1 (h : Approaches p q) (turns : Nat) :
    Approaches (fun n => (p n).many1 n) (q.many1 turns) := by
  simp only [many1_eq_bind]
  exact h.bind fun a => (h.many turns).map _

theorem Approaches.countFrom (h : Approaches p q) (seen left : Nat) :
    Approaches (fun n => (p n).countFrom seen left) (q.countFrom seen left) := by
  induction left generalizing seen with
  | zero => exact approaches_const _
  | succ left ih =>
    simp only [countFrom_succ_eq_bind]
    exact (h.settle _).bind fun a => (ih (seen + 1)).map _

theorem Approaches.surround (h : Approaches p q) (opening closing : Char) :
    Approaches (fun n => (p n).surround opening closing) (q.surround opening closing) :=
  (approaches_const _).bind fun _ => h.bind fun _ => approaches_const _

section

variable {ι : Type} {ps : Nat → ι → Parser α} {qs : ι → Parser α} {is : List ι}

theorem approaches_all (h : ∀ i ∈ is, Approaches (fun n => ps n i) (qs i)) :
    Approaches (fun n => all (is.map (ps n))) (all (is.map qs)) := by
  induction is with
  | nil => exact approaches_const _
  | cons i is ih =>
    obtain ⟨hi, his⟩ := List.forall_mem_cons.mp h
    exact hi.bind fun a => (ih his).bind fun as => approaches_const _

theorem approaches_row (h : ∀ i ∈ is, Approaches (fun n => ps n i) (qs i)) :
    Approaches (fun n => row (is.map (ps n))) (row (is.map qs)) := by
  simp only [row_eq_all]
  exact approaches_all h

theorem approaches_choice (h : ∀ i ∈ is, Approaches (fun n => ps n i) (qs i)) :
    Approaches (fun n => choice (is.map (ps n))) (choice (is.map qs)) := by
  unfold Parser.choice
  simp only [List.length_map]
  generalize is.length = alternatives
  induction is with
  | nil => exact approaches_const _
  | cons i is ih =>
    obtain ⟨hi, his⟩ := List.forall_mem_cons.mp h
    exact hi.orElse (ih his)

end

end Parser

/-! ## The meaning of a grammar -/

open Classical in
/-- The parser of a node, with as many steps as an answer takes. It has an answer wherever
the parse ends. -/
noncomputable def Grammar.meaning (g : Grammar) (node : Node) : Parser Value := fun c =>
  if h : ∃ r, g.Answers node c r then some h.choose else none

section

variable {g : Grammar} {node : Node} {c : Cursor} {r : Reply Value}

theorem Grammar.meaning_eq_some : g.meaning node c = some r ↔ g.Answers node c r := by
  unfold Grammar.meaning
  by_cases h : ∃ r, g.Answers node c r
  · rw [dif_pos h, Option.some.injEq]
    constructor
    · rintro rfl
      exact h.choose_spec
    · exact h.choose_spec.unique
  · rw [dif_neg h]
    constructor
    · intro hr
      cases hr
    · intro hr
      exact absurd ⟨r, hr⟩ h

/-- With more and more steps, the parser of a node comes to answer like its meaning. -/
theorem Grammar.parser_approaches (g : Grammar) (node : Node) :
    Parser.Approaches (fun limit => g.parser limit node) (g.meaning node) := by
  intro c r hr
  obtain ⟨limit, hr⟩ := Grammar.meaning_eq_some.mp hr
  filter_upwards [eventually_ge_atTop limit] with n hn
  exact g.parser_mono hn hr

/-- A step settles if the parsers of the parts do. -/
theorem Grammar.step_approaches (g : Grammar) {p : Nat → Node → Parser Value}
    {q : Node → Parser Value} (h : ∀ node, Parser.Approaches (fun n => p n node) (q node))
    (turns : Nat) (node : Node) :
    Parser.Approaches (fun n => g.step n (p n) node) (g.step turns q node) := by
  cases node with
  | all nodes => exact (Parser.approaches_all fun node _ => h node).map _
  | row nodes => exact (Parser.approaches_row fun node _ => h node).map _
  | choice nodes => exact Parser.approaches_choice fun node _ => h node
  | many node => exact ((h node).many turns).map _
  | many1 node => exact ((h node).many1 turns).map _
  | count n node => exact ((h node).countFrom 0 n).map _
  | countBetween min max node => exact ((h node).countBetween turns min max).map _
  | skip node => exact ((h node).settle _).map _
  | not node => exact ((h node).settle _).map _
  | optional shown node => exact ((h node).settle _).map _
  | map f node => exact (h node).map _
  | reword f node => exact (h node).settle _
  | surround opening closing node => exact (h node).surround opening closing
  | rule name =>
    simp only [Grammar.step]
    rcases g.body? name with _ | body
    · exact Parser.approaches_const _
    · exact h body
  | shared node => exact h node
  | nested node => exact (h node).nested
  | _ => exact Parser.approaches_const _

theorem Grammar.parser_simulatedBy_meaning (g : Grammar) (limit : Nat) (node : Node) :
    (g.parser limit node).SimulatedBy (.within fun _ => True) Eq (g.meaning node) :=
  Parser.simulatedBy_within_iff.mpr fun _ _ hr => Grammar.meaning_eq_some.mpr ⟨limit, hr⟩

/-- A node answers exactly if a step from the meanings of its parts does, with enough turns
for a repetition. -/
theorem Grammar.answers_iff_step :
    g.Answers node c r ↔ ∃ turns, g.step turns g.meaning node c = some r := by
  constructor
  · rintro ⟨limit, hr⟩
    cases limit with
    | zero => cases hr
    | succ limit =>
      rw [Grammar.parser_succ] at hr
      have hlike : Node.Like Eq (fun a b => (g.parser limit a).SimulatedBy (.within fun _ => True)
          Eq (g.meaning b)) node node :=
        Node.like_self fun child _ => g.parser_simulatedBy_meaning limit child
      have hsim : (g.step limit (g.parser limit) node).SimulatedBy (.within fun _ => True) Eq
          (g.step limit g.meaning node) :=
        Grammar.step_simulatedBy Likeness.lawful_within_true Value.congruent_eq (Nat.le_refl limit)
          hlike (fun name body _ hb => ⟨body, hb, g.parser_simulatedBy_meaning limit body⟩)
          (Likeness.samePlace_within.crosses Likeness.lawful_within_true hlike)
      exact ⟨limit, Parser.simulatedBy_within_iff.mp hsim c r hr⟩
  · rintro ⟨turns, hr⟩
    obtain ⟨n, hn⟩ := (g.step_approaches g.parser_approaches turns node c r hr).exists
    refine ⟨n + 1, ?_⟩
    rw [Grammar.parser_succ]
    exact hn

/-- The meaning of a node that repeats nothing is a step from the meanings of its parts. -/
theorem Grammar.meaning_eq_step
    (hturns : ∀ m n, g.step m g.meaning node = g.step n g.meaning node) :
    g.meaning node = g.step 0 g.meaning node := by
  funext c
  refine Option.ext fun r => ?_
  rw [Grammar.meaning_eq_some, Grammar.answers_iff_step]
  constructor
  · rintro ⟨turns, hr⟩
    rwa [hturns 0 turns]
  · exact fun hr => ⟨0, hr⟩

theorem Grammar.meaning_of_step {turns : Nat} (hr : g.step turns g.meaning node c = some r) :
    g.meaning node c = some r :=
  Grammar.meaning_eq_some.mpr (Grammar.answers_iff_step.mpr ⟨turns, hr⟩)

end

end TextParsers
