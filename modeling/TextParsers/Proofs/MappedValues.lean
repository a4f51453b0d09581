-- Values changed inside a combinator, or behind it. A parser and the same parser with its
-- values changed act alike in all else, and every combinator keeps this. So it is the same
-- whether values are changed before a combinator collects them or afterwards.
import TextParsers.Proofs.DerivedCombinators
import TextParsers.Proofs.GrammarRuns
namespace TextParsers

variable {α β γ : Type}

/-! ## One change after another -/

theorem Outcome.mapExpected_mapExpected (o : Outcome α) (v w : String → String) :
    (o.mapExpected v).mapExpected w = o.mapExpected fun e => w (v e) := by
  cases o <;> rfl

theorem Outcome.mapExpected_mapValue (o : Outcome α) (f : α → β) (w : String → String) :
    (o.mapValue f).mapExpected w = (o.mapExpected w).mapValue f := by
  cases o <;> rfl

namespace Parser

theorem reword_reword (p : Parser α) (v w : String → String) :
    (p.reword v).reword w = p.reword fun e => w (v e) := by
  unfold reword
  rw [settle_settle]
  simp only [Outcome.mapExpected_mapExpected]

theorem reword_map (p : Parser α) (f : α → β) (w : String → String) :
    (p.map f).reword w = (p.reword w).map f := by
  unfold reword Parser.map
  rw [settle_settle, settle_settle]
  simp only [Outcome.mapExpected_mapValue]

/-! ## Parsers that differ in their values -/

section

variable {p : Parser α} {q : Parser β} {f : α → β}

/-- If each of two parsers answers where the other does, and alike but for the value, then the
second is the first with its values changed. -/
theorem eq_map_of_simulatedBy {V : α → β → Prop} {W : β → α → Prop}
    (h : p.SimulatedBy (.within fun _ => True) V q)
    (h' : q.SimulatedBy (.within fun _ => True) W p)
    (hV : ∀ a b, V a b → f a = b) (hW : ∀ b a, W b a → b = f a) : q = p.map f := by
  have hto : (p.map f).SimulatedBy (.within fun _ => True) Eq (q.map id) := h.map hV
  have hback : (q.map id).SimulatedBy (.within fun _ => True) Eq (p.map f) := h'.map hW
  rw [map_id, simulatedBy_within_iff] at hto hback
  funext c
  exact Option.ext fun r => ⟨hback c r, hto c r⟩

theorem eq_map_of_forall₂ {p : Parser (List α)} {q : Parser (List β)}
    (h : p.SimulatedBy (.within fun _ => True) (List.Forall₂ fun a b => f a = b) q)
    (h' : q.SimulatedBy (.within fun _ => True) (List.Forall₂ fun b a => b = f a) p) :
    q = p.map (List.map f) := by
  refine eq_map_of_simulatedBy h h' (fun as bs hs => ?_) fun bs as hs => ?_
  · rwa [← List.forall₂_eq_eq_eq, List.forall₂_map_left_iff]
  · rwa [← List.forall₂_eq_eq_eq, List.forall₂_map_right_iff]

end

theorem simulatedBy_self (p : Parser α) : p.SimulatedBy (.within fun _ => True) Eq p :=
  simulatedBy_within_iff.mpr fun _ _ hr => hr

theorem simulatedBy_map (p : Parser α) (f : α → β) :
    p.SimulatedBy (.within fun _ => True) (fun a b => f a = b) (p.map f) := by
  have h : (p.map id).SimulatedBy (.within fun _ => True) (fun a b => f a = b) (p.map f) :=
    p.simulatedBy_self.map fun a b hab => congrArg f hab
  rwa [map_id] at h

theorem map_simulatedBy (p : Parser α) (f : α → β) :
    (p.map f).SimulatedBy (.within fun _ => True) (fun b a => b = f a) p := by
  have h : (p.map f).SimulatedBy (.within fun _ => True) (fun b a => b = f a) (p.map id) :=
    p.simulatedBy_self.map fun a b hab => congrArg f hab
  rwa [map_id] at h

theorem forall₂_simulatedBy_map (ps : List (Parser α)) (f : α → β) :
    List.Forall₂ (SimulatedBy (.within fun _ => True) fun a b => f a = b) ps
      (ps.map (Parser.map f)) := by
  rw [List.forall₂_map_right_iff, List.forall₂_same]
  exact fun p _ => simulatedBy_map p f

theorem forall₂_map_simulatedBy (ps : List (Parser α)) (f : α → β) :
    List.Forall₂ (SimulatedBy (.within fun _ => True) fun b a => b = f a)
      (ps.map (Parser.map f)) ps := by
  rw [List.forall₂_map_left_iff, List.forall₂_same]
  exact fun p _ => map_simulatedBy p f

/-! ## Combinators of parsers with changed values -/

theorem many_map (p : Parser α) (f : α → β) (turns : Nat) :
    (p.map f).many turns = (p.many turns).map (List.map f) :=
  eq_map_of_forall₂ ((simulatedBy_map p f).many Likeness.lawful_within_true (Nat.le_refl turns))
    ((map_simulatedBy p f).many Likeness.lawful_within_true (Nat.le_refl turns))

theorem many1_map (p : Parser α) (f : α → β) (turns : Nat) :
    (p.map f).many1 turns = (p.many1 turns).map (List.map f) :=
  eq_map_of_forall₂ ((simulatedBy_map p f).many1 Likeness.lawful_within_true (Nat.le_refl turns))
    ((map_simulatedBy p f).many1 Likeness.lawful_within_true (Nat.le_refl turns))

theorem count_map (p : Parser α) (f : α → β) (n : Nat) :
    (p.map f).count n = (p.count n).map (List.map f) :=
  eq_map_of_forall₂ ((simulatedBy_map p f).count Likeness.lawful_within_true n)
    ((map_simulatedBy p f).count Likeness.lawful_within_true n)

theorem countBetween_map (p : Parser α) (f : α → β) (turns lo hi : Nat) :
    (p.map f).countBetween turns lo hi = (p.countBetween turns lo hi).map (List.map f) :=
  eq_map_of_forall₂
    ((simulatedBy_map p f).countBetween Likeness.lawful_within_true (Nat.le_refl turns) lo hi)
    ((map_simulatedBy p f).countBetween Likeness.lawful_within_true (Nat.le_refl turns) lo hi)

theorem all_map (ps : List (Parser α)) (f : α → β) :
    all (ps.map (Parser.map f)) = (all ps).map (List.map f) :=
  eq_map_of_forall₂ (simulatedBy_all Likeness.lawful_within_true (forall₂_simulatedBy_map ps f))
    (simulatedBy_all Likeness.lawful_within_true (forall₂_map_simulatedBy ps f))

theorem choice_map (ps : List (Parser α)) (f : α → β) :
    choice (ps.map (Parser.map f)) = (choice ps).map f :=
  eq_map_of_simulatedBy
    (simulatedBy_choice Likeness.lawful_within_true (forall₂_simulatedBy_map ps f))
    (simulatedBy_choice Likeness.lawful_within_true (forall₂_map_simulatedBy ps f))
    (fun _ _ h => h)
    fun _ _ h => h

theorem surround_map (p : Parser α) (f : α → β) (opening closing : Char) :
    (p.map f).surround opening closing = (p.surround opening closing).map f :=
  eq_map_of_simulatedBy ((simulatedBy_map p f).surround Likeness.lawful_within_true opening closing)
    ((map_simulatedBy p f).surround Likeness.lawful_within_true opening closing) (fun _ _ h => h)
    fun _ _ h => h

theorem optional_map (p : Parser α) (f : α → β) :
    (p.map f).optional = p.optional.map (Option.map f) := by
  unfold optional Parser.map
  rw [settle_settle, settle_settle]
  congr 1
  funext c o
  cases o <;> rfl

/-! ## The law -/

/-- Values may be changed before they are collected or afterwards. A repetition of a parser with
changed values is the repetition of the parser, with each of the values it collects changed; and
the same holds for a repetition that must begin, one with an exact count, one between two bounds,
and a sequence. A choice between parsers with changed values, and a content with changed values
between two characters, are the choice and the content with the value changed; an optional parser
changes its value if there is one. Two changes one after the other are one change, of values and
of messages, and changes of values and of messages may be made in either order. All of these are
equal as parsers: at every place both have one outcome and one log, or neither ends. -/
theorem a_change_of_values_passes_through_combinators (p : Parser α) (ps : List (Parser α))
    (f : α → β) :
    (∀ turns, (p.map f).many turns = (p.many turns).map (List.map f)) ∧
    (∀ turns, (p.map f).many1 turns = (p.many1 turns).map (List.map f)) ∧
    (∀ n, (p.map f).count n = (p.count n).map (List.map f)) ∧
    (∀ turns lo hi,
      (p.map f).countBetween turns lo hi = (p.countBetween turns lo hi).map (List.map f)) ∧
    (p.map f).optional = p.optional.map (Option.map f) ∧
    choice (ps.map (Parser.map f)) = (choice ps).map f ∧
    all (ps.map (Parser.map f)) = (all ps).map (List.map f) ∧
    (∀ opening closing,
      (p.map f).surround opening closing = (p.surround opening closing).map f) ∧
    (∀ (γ : Type) (g : β → γ), (p.map f).map g = p.map (g ∘ f)) ∧
    (∀ v w, (p.reword v).reword w = p.reword (w ∘ v)) ∧
    ∀ w, (p.map f).reword w = (p.reword w).map f :=
  ⟨many_map p f, many1_map p f, count_map p f, countBetween_map p f, optional_map p f,
    choice_map ps f, all_map ps f, surround_map p f, fun _ g => map_map p f g, reword_reword p,
    reword_map p f⟩

end Parser

end TextParsers
