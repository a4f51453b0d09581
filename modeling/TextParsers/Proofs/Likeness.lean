-- Two parsers that act alike. A `Likeness` says how the places, failures and logs
-- of two parses compare, and `SimulatedBy` that wherever the one answers the other
-- does, with a like answer. Every combinator keeps this.
import TextParsers.Parser.Choice
import TextParsers.Proofs.MonadLaws
import Mathlib.Data.List.Forall2
namespace TextParsers

/-! ## Like answers -/

/-- How two parses compare. -/
structure Likeness where
  place : Cursor → Cursor → Prop
  /-- A message at a place, and another message at another place. -/
  failed : String → Cursor → String → Cursor → Prop
  log : Log → Log → Prop

/-- A likeness that a parser cannot tell from the same parse made twice: like places move
alike and look alike from within, and what parsers say at them compares. -/
structure Likeness.Lawful (R : Likeness) : Prop where
  advance : ∀ {c d}, R.place c d → ∀ n, R.place (c.advance n) (d.advance n)
  peek : ∀ {c d}, R.place c d → c.peek = d.peek
  isEmpty : ∀ {c d}, R.place c d → c.isEmpty = d.isEmpty
  moved : ∀ {c d c' d'}, R.place c d → R.place c' d' →
    (c'.position = c.position ↔ d'.position = d.position)
  failed : ∀ {c d}, R.place c d → ∀ e, R.failed e c e d
  failed_back : ∀ {e f c d c' d'}, R.failed e c' f d' → R.place c d → R.failed e c f d
  failed_reword : ∀ {e f c d}, R.failed e c f d → ∀ w : String → String, R.failed (w e) c (w f) d
  log_nil : R.log [] []
  log_append : ∀ {l m l' m'}, R.log l m → R.log l' m' → R.log (l ++ l') (m ++ m')
  log_noAlternative : ∀ {c d}, R.place c d → ∀ n,
    R.log [.noAlternative c.position n] [.noAlternative d.position n]
  log_tooFew : ∀ {m n}, m < n → R.log [.tooFew m n] [.tooFew m n]
  log_tooMany : ∀ {m n}, n < m → R.log [.tooMany m n] [.tooMany m n]

/-- The comparison read from the other side. -/
def Likeness.flip (R : Likeness) : Likeness where
  place c d := R.place d c
  failed e c f d := R.failed f d e c
  log l m := R.log m l

theorem Likeness.Lawful.flip {R : Likeness} (hR : R.Lawful) : R.flip.Lawful where
  advance := hR.advance
  peek := fun hc => (hR.peek hc).symm
  isEmpty := fun hc => (hR.isEmpty hc).symm
  moved := fun hc hc' => (hR.moved hc hc').symm
  failed := hR.failed
  failed_back := hR.failed_back
  failed_reword := hR.failed_reword
  log_nil := hR.log_nil
  log_append := hR.log_append
  log_noAlternative := hR.log_noAlternative
  log_tooFew := hR.log_tooFew
  log_tooMany := hR.log_tooMany

/-- There is no first answer, or there are two, and they compare. -/
inductive Answered {ρ σ : Type} (A : ρ → σ → Prop) : Option ρ → Option σ → Prop
  | silent {y : Option σ} : Answered A none y
  | both {r : ρ} {s : σ} (h : A r s) : Answered A (some r) (some s)

theorem Answered.map {ρ σ ρ' σ' : Type} {A : ρ → σ → Prop} {B : ρ' → σ' → Prop} {x : Option ρ}
    {y : Option σ} {f : ρ → ρ'} {g : σ → σ'} (h : Answered A x y)
    (hfg : ∀ r s, A r s → B (f r) (g s)) : Answered B (x.map f) (y.map g) := by
  cases h with
  | silent => exact .silent
  | both h => exact .both (hfg _ _ h)

theorem Answered.exists_of_eq_some {ρ σ : Type} {A : ρ → σ → Prop} {x : Option ρ} {y : Option σ}
    (h : Answered A x y) {r : ρ} (hx : x = some r) : ∃ s, y = some s ∧ A r s := by
  subst hx
  cases h with
  | both h => exact ⟨_, rfl, h⟩

/-- The second may be replaced by anything that answers where it does. -/
theorem Answered.of_le {ρ σ : Type} {A : ρ → σ → Prop} {x : Option ρ} {y y' : Option σ}
    (h : Answered A x y) (hy : ∀ s, y = some s → y' = some s) : Answered A x y' := by
  cases h with
  | silent => exact .silent
  | both h =>
    rw [hy _ rfl]
    exact .both h

/-- Two tests that agree, with answers that compare on either side. -/
theorem Answered.ite {ρ σ : Type} {A : ρ → σ → Prop} {P Q : Prop} [Decidable P] [Decidable Q]
    {x x' : Option ρ} {y y' : Option σ} (hPQ : P ↔ Q) (hyes : Answered A x y)
    (hno : Answered A x' y') :
    Answered A (if P then x else x') (if Q then y else y') := by
  by_cases hQ : Q
  · rw [if_pos (hPQ.mpr hQ), if_pos hQ]
    exact hyes
  · rw [if_neg (fun hP => hQ (hPQ.mp hP)), if_neg hQ]
    exact hno

variable {α β γ δ : Type}

/-- Two outcomes of one kind, with values that `V` compares. -/
inductive Outcome.Alike (R : Likeness) (V : α → β → Prop) : Outcome α → Outcome β → Prop
  | success {a : α} {b : β} {c d : Cursor} (hv : V a b) (hc : R.place c d) :
      Alike R V (.success a c) (.success b d)
  | failure {e f : String} {c d : Cursor} (hf : R.failed e c f d) :
      Alike R V (.failure e c) (.failure f d)

structure Reply.Alike (R : Likeness) (V : α → β → Prop) (r : Reply α) (s : Reply β) : Prop where
  outcome : r.outcome.Alike R V s.outcome
  log : R.log r.log s.log

structure Parser.Harvest.Alike (R : Likeness) (V : α → β → Prop) (h : Harvest α) (k : Harvest β) :
    Prop where
  values : List.Forall₂ V h.values k.values
  stop : R.place h.stop k.stop
  log : R.log h.log k.log

/-- Where `p` answers at a place, `q` answers at every like place, and the answers are
alike. -/
def Parser.SimulatedBy (R : Likeness) (V : α → β → Prop) (p : Parser α) (q : Parser β) : Prop :=
  ∀ c d, R.place c d → Answered (Reply.Alike R V) (p c) (q d)

variable {R : Likeness} {V : α → β → Prop} {W : γ → δ → Prop}

theorem Reply.Alike.after (hR : R.Lawful) {r : Reply α} {s : Reply β} (h : r.Alike R V s)
    {l m : Log} (hl : R.log l m) : (r.after l).Alike R V (s.after m) :=
  ⟨h.outcome, hR.log_append hl h.log⟩

theorem Outcome.Alike.mapValue {o : Outcome α} {o' : Outcome β} (h : o.Alike R V o') {f : α → γ}
    {g : β → δ} (hfg : ∀ a b, V a b → W (f a) (g b)) :
    (o.mapValue f).Alike R W (o'.mapValue g) := by
  cases h with
  | success hv hc => exact .success (hfg _ _ hv) hc
  | failure hf => exact .failure hf

namespace Parser

/-- The ways in which a simulated parser can answer, with the answer of the other. -/
theorem SimulatedBy.cases {p : Parser α} {q : Parser β} (h : p.SimulatedBy R V q) {c d : Cursor}
    (hc : R.place c d) :
    p c = none ∨
    (∃ a b c' d' l m, p c = some ⟨.success a c', l⟩ ∧ q d = some ⟨.success b d', m⟩ ∧
      V a b ∧ R.place c' d' ∧ R.log l m) ∨
    ∃ e f c' d' l m, p c = some ⟨.failure e c', l⟩ ∧ q d = some ⟨.failure f d', m⟩ ∧
      R.failed e c' f d' ∧ R.log l m := by
  rcases hp : p c with _ | ⟨o, l⟩
  · exact .inl rfl
  obtain ⟨⟨o', m⟩, hq, ho, hl⟩ := (h c d hc).exists_of_eq_some hp
  cases ho with
  | success hv hc' => exact .inr (.inl ⟨_, _, _, _, _, _, rfl, hq, hv, hc', hl⟩)
  | failure hf => exact .inr (.inr ⟨_, _, _, _, _, _, rfl, hq, hf, hl⟩)

/-! ## Answers that look at nothing -/

theorem simulatedBy_silent {q : Parser β} : (silent : Parser α).SimulatedBy R V q :=
  fun _ _ _ => .silent

theorem simulatedBy_accept (hR : R.Lawful) {a : α} {b : β} (hv : V a b) (n : Nat) :
    (accept a n).SimulatedBy R V (accept b n) :=
  fun _ _ hc => .both ⟨.success hv (hR.advance hc n), hR.log_nil⟩

theorem simulatedBy_fail (hR : R.Lawful) (e : String) (n : Nat) :
    (fail e n : Parser α).SimulatedBy R V (fail e n) :=
  fun _ _ hc => .both ⟨.failure (hR.failed (hR.advance hc n) e), hR.log_nil⟩

theorem simulatedBy_refuse (hR : R.Lawful) (why : Refusal) :
    (refuse why : Parser α).SimulatedBy R V (refuse why) :=
  fun _ _ hc => .both ⟨.failure (hR.failed hc _), hR.log_nil⟩

/-! ## One character -/

theorem simulatedBy_anyChar (hR : R.Lawful) : anyChar.SimulatedBy R Eq anyChar := by
  intro c d hc
  unfold anyChar
  rw [hR.peek hc]
  cases d.peek with
  | none => exact simulatedBy_refuse hR _ c d hc
  | some a => exact simulatedBy_accept hR rfl 1 c d hc

theorem simulatedBy_satisfy (hR : R.Lawful) (test : Char → Bool) :
    (satisfy test).SimulatedBy R Eq (satisfy test) := by
  intro c d hc
  unfold satisfy
  rw [hR.peek hc]
  cases d.peek with
  | none => exact simulatedBy_refuse hR _ c d hc
  | some a =>
    apply Answered.ite Iff.rfl
    · exact simulatedBy_accept hR rfl 1 c d hc
    · exact simulatedBy_refuse hR _ c d hc

theorem simulatedBy_char (hR : R.Lawful) (wanted : Char) :
    (char wanted).SimulatedBy R Eq (char wanted) := by
  intro c d hc
  unfold char
  rw [hR.peek hc]
  apply Answered.ite Iff.rfl
  · exact simulatedBy_accept hR rfl 1 c d hc
  · exact simulatedBy_refuse hR _ c d hc

theorem simulatedBy_endOfText (hR : R.Lawful) : endOfText.SimulatedBy R Eq endOfText := by
  intro c d hc
  unfold endOfText
  rw [hR.isEmpty hc]
  apply Answered.ite Iff.rfl
  · exact simulatedBy_accept hR rfl 0 c d hc
  · exact simulatedBy_refuse hR _ c d hc

theorem simulatedBy_literalChars (hR : R.Lawful) (xs : List Char) :
    (literalChars xs).SimulatedBy R Eq (literalChars xs) := by
  induction xs with
  | nil => exact simulatedBy_accept hR rfl 0
  | cons x xs ih =>
    intro c d hc
    unfold literalChars
    rw [hR.peek hc]
    apply Answered.ite Iff.rfl
    · apply (ih _ _ (hR.advance hc 1)).map
      intro r s h
      exact ⟨h.outcome.mapValue fun _ _ hv => congrArg _ hv, h.log⟩
    · exact simulatedBy_refuse hR _ c d hc

/-! ## Another outcome -/

theorem SimulatedBy.settle {p : Parser α} {q : Parser β} (h : p.SimulatedBy R V q)
    {f : Cursor → Outcome α → Outcome γ} {g : Cursor → Outcome β → Outcome δ}
    (hfg : ∀ c d o o', R.place c d → o.Alike R V o' → (f c o).Alike R W (g d o')) :
    (p.settle f).SimulatedBy R W (q.settle g) :=
  fun c d hc => (h c d hc).map fun _ _ hr => ⟨hfg c d _ _ hc hr.outcome, hr.log⟩

theorem SimulatedBy.map {p : Parser α} {q : Parser β} (h : p.SimulatedBy R V q) {f : α → γ}
    {g : β → δ} (hfg : ∀ a b, V a b → W (f a) (g b)) :
    (p.map f).SimulatedBy R W (q.map g) :=
  h.settle fun _ _ _ _ _ ho => ho.mapValue hfg

theorem SimulatedBy.reword (hR : R.Lawful) {p : Parser α} {q : Parser β}
    (h : p.SimulatedBy R V q) (w : String → String) :
    (p.reword w).SimulatedBy R V (q.reword w) := by
  refine h.settle fun _ _ _ _ _ ho => ?_
  cases ho with
  | success hv hc' => exact .success hv hc'
  | failure hf => exact .failure (hR.failed_reword hf w)

theorem SimulatedBy.skip (hR : R.Lawful) {p : Parser α} {q : Parser β}
    (h : p.SimulatedBy R V q) : p.skip.SimulatedBy R Eq q.skip := by
  refine h.settle fun _ _ _ _ hc ho => ?_
  cases ho with
  | success _ hc' => exact .success rfl hc'
  | failure hf => exact .failure (hR.failed_back hf hc)

theorem SimulatedBy.not (hR : R.Lawful) {p : Parser α} {q : Parser β}
    (h : p.SimulatedBy R V q) : p.not.SimulatedBy R Eq q.not := by
  refine h.settle fun _ _ _ _ hc ho => ?_
  cases ho with
  | success _ _ => exact .failure (hR.failed hc _)
  | failure _ => exact .success rfl (hR.advance hc 1)

theorem SimulatedBy.optional {p : Parser α} {q : Parser β} (h : p.SimulatedBy R V q) :
    p.optional.SimulatedBy R (Option.Rel V) q.optional := by
  refine h.settle fun _ _ _ _ hc ho => ?_
  cases ho with
  | success hv hc' => exact .success (.some hv) hc'
  | failure _ => exact .success .none hc

/-! ## One after the other -/

theorem SimulatedBy.bind (hR : R.Lawful) {p : Parser α} {q : Parser β} (h : p.SimulatedBy R V q)
    {f : α → Parser γ} {g : β → Parser δ}
    (hfg : ∀ a b, V a b → (f a).SimulatedBy R W (g b)) :
    (p >>= f).SimulatedBy R W (q >>= g) := by
  intro c d hc
  show Answered _ (Parser.bind p f c) (Parser.bind q g d)
  unfold Parser.bind
  rcases h.cases hc with hp | ⟨a, b, c', d', l, m, hp, hq, hv, hc', hl⟩ |
    ⟨e, f, c', d', l, m, hp, hq, hf, hl⟩
  · rw [hp]
    exact .silent
  · rw [hp, hq]
    exact (hfg a b hv c' d' hc').map fun _ _ hr => hr.after hR hl
  · rw [hp, hq]
    exact .both ⟨.failure hf, hl⟩

theorem simulatedBy_all (hR : R.Lawful) {ps : List (Parser α)} {qs : List (Parser β)}
    (h : List.Forall₂ (SimulatedBy R V) ps qs) :
    (all ps).SimulatedBy R (List.Forall₂ V) (all qs) := by
  induction h with
  | nil => exact simulatedBy_accept hR .nil 0
  | cons hpq _ ih =>
    refine hpq.bind hR fun a b hv => ih.bind hR fun as bs hvs => ?_
    exact simulatedBy_accept hR (.cons hv hvs) 0

theorem simulatedBy_row (hR : R.Lawful) {ps : List (Parser α)} {qs : List (Parser β)}
    (h : List.Forall₂ (SimulatedBy R V) ps qs) :
    (row ps).SimulatedBy R (List.Forall₂ V) (row qs) := by
  rw [row_eq_all, row_eq_all]
  exact simulatedBy_all hR h

theorem SimulatedBy.surround (hR : R.Lawful) {p : Parser α} {q : Parser β}
    (h : p.SimulatedBy R V q) (opening closing : Char) :
    (p.surround opening closing).SimulatedBy R V (q.surround opening closing) := by
  refine ((simulatedBy_char hR opening).skip hR).bind hR fun _ _ _ => h.bind hR fun a b hv => ?_
  refine ((simulatedBy_char hR closing).skip hR).bind hR fun _ _ _ => ?_
  exact simulatedBy_accept hR hv 0

/-! ## Alternatives -/

theorem SimulatedBy.orElse (hR : R.Lawful) {p p' : Parser α} {q q' : Parser β}
    (h : p.SimulatedBy R V q) (h' : p'.SimulatedBy R V q') :
    (p.orElse p').SimulatedBy R V (q.orElse q') := by
  intro c d hc
  unfold Parser.orElse
  rcases h.cases hc with hp | ⟨a, b, c', d', l, m, hp, hq, hv, hc', hl⟩ |
    ⟨e, f, c', d', l, m, hp, hq, hf, hl⟩
  · rw [hp]
    exact .silent
  · rw [hp, hq]
    exact .both ⟨.success hv hc', hl⟩
  · rw [hp, hq]
    exact (h' c d hc).map fun _ _ hr => hr.after hR hl

theorem simulatedBy_noAlternative (hR : R.Lawful) (n : Nat) :
    (noAlternative n : Parser α).SimulatedBy R V (noAlternative n) :=
  fun _ _ hc => .both ⟨.failure (hR.failed hc _), hR.log_noAlternative hc n⟩

theorem simulatedBy_foldr_orElse (hR : R.Lawful) {ps : List (Parser α)} {qs : List (Parser β)}
    (h : List.Forall₂ (SimulatedBy R V) ps qs) {p : Parser α} {q : Parser β}
    (hpq : p.SimulatedBy R V q) :
    (ps.foldr Parser.orElse p).SimulatedBy R V (qs.foldr Parser.orElse q) := by
  induction h with
  | nil => exact hpq
  | cons h _ ih => exact h.orElse hR ih

theorem simulatedBy_choice (hR : R.Lawful) {ps : List (Parser α)} {qs : List (Parser β)}
    (h : List.Forall₂ (SimulatedBy R V) ps qs) : (choice ps).SimulatedBy R V (choice qs) := by
  unfold choice
  rw [h.length_eq]
  exact simulatedBy_foldr_orElse hR h (simulatedBy_noAlternative hR _)

/-! ## Repetition -/

/-- The second repetition may take more turns than the first, never fewer. -/
theorem SimulatedBy.gather (hR : R.Lawful) {p : Parser α} {q : Parser β}
    (h : p.SimulatedBy R V q) {m n : Nat} (hmn : m ≤ n) {c d : Cursor} (hc : R.place c d) :
    Answered (Harvest.Alike R V) (p.gather m c) (q.gather n d) := by
  induction m generalizing n c d with
  | zero => exact .silent
  | succ m ih =>
    obtain ⟨n, rfl⟩ : ∃ k, n = k + 1 := ⟨n - 1, by omega⟩
    unfold Parser.gather
    rw [hR.isEmpty hc]
    apply Answered.ite Iff.rfl
    · exact .both ⟨.nil, hc, hR.log_nil⟩
    · rcases h.cases hc with hp | ⟨a, b, c', d', l, k, hp, hq, hv, hc', hl⟩ |
        ⟨e, f, c', d', l, k, hp, hq, -, hl⟩
      · rw [hp]
        exact .silent
      · rw [hp, hq]
        apply Answered.ite (hR.moved hc hc')
        · exact .both ⟨.nil, hc, hl⟩
        · apply (ih (by omega) hc').map
          intro _ _ hk
          exact ⟨.cons hv hk.values, hk.stop, hR.log_append hl hk.log⟩
      · rw [hp, hq]
        exact .both ⟨.nil, hc, hl⟩

theorem SimulatedBy.many (hR : R.Lawful) {p : Parser α} {q : Parser β} (h : p.SimulatedBy R V q)
    {m n : Nat} (hmn : m ≤ n) : (p.many m).SimulatedBy R (List.Forall₂ V) (q.many n) :=
  fun _ _ hc => (h.gather hR hmn hc).map fun _ _ hk => ⟨.success hk.values hk.stop, hk.log⟩

theorem SimulatedBy.many1 (hR : R.Lawful) {p : Parser α} {q : Parser β} (h : p.SimulatedBy R V q)
    {m n : Nat} (hmn : m ≤ n) : (p.many1 m).SimulatedBy R (List.Forall₂ V) (q.many1 n) := by
  rw [many1_eq_bind, many1_eq_bind]
  exact h.bind hR fun a b hv => (h.many hR hmn).map fun as bs hvs => .cons hv hvs

theorem SimulatedBy.countBetween (hR : R.Lawful) {p : Parser α} {q : Parser β}
    (h : p.SimulatedBy R V q) {m n : Nat} (hmn : m ≤ n) (min max : Nat) :
    (p.countBetween m min max).SimulatedBy R (List.Forall₂ V) (q.countBetween n min max) := by
  intro c d hc
  refine (h.gather hR hmn hc).map fun x y hk => ?_
  have hlen : x.values.length = y.values.length := hk.values.length_eq
  rcases y.judged_cases min max with hlt | ⟨hmin, hgt⟩ | ⟨hmin, hmax⟩
  · rw [Harvest.judged_of_lt hlt, Harvest.judged_of_lt (hlen ▸ hlt), hlen]
    exact ⟨.failure (hR.failed hk.stop _), hR.log_append hk.log (hR.log_tooFew hlt)⟩
  · rw [Harvest.judged_of_gt hmin hgt, Harvest.judged_of_gt (hlen ▸ hmin) (hlen ▸ hgt), hlen]
    exact ⟨.failure (hR.failed hk.stop _), hR.log_append hk.log (hR.log_tooMany hgt)⟩
  · rw [Harvest.judged_of_between hmin hmax,
      Harvest.judged_of_between (hlen ▸ hmin) (hlen ▸ hmax)]
    exact ⟨.success hk.values hk.stop, hk.log⟩

theorem SimulatedBy.countFrom (hR : R.Lawful) {p : Parser α} {q : Parser β}
    (h : p.SimulatedBy R V q) (seen left : Nat) :
    (p.countFrom seen left).SimulatedBy R (List.Forall₂ V) (q.countFrom seen left) := by
  induction left generalizing seen with
  | zero => exact simulatedBy_accept hR .nil 0
  | succ left ih =>
    rw [countFrom_succ_eq_bind, countFrom_succ_eq_bind]
    have hfirst : (p.settle (counted (seen + left + 1) seen)).SimulatedBy R V
        (q.settle (counted (seen + left + 1) seen)) := by
      refine h.settle fun _ _ _ _ hc ho => ?_
      cases ho with
      | success hv hc' => exact .success hv hc'
      | failure _ => exact .failure (hR.failed hc _)
    exact hfirst.bind hR fun a b hv => (ih (seen + 1)).map fun as bs hvs => .cons hv hvs

theorem SimulatedBy.count (hR : R.Lawful) {p : Parser α} {q : Parser β}
    (h : p.SimulatedBy R V q) (n : Nat) :
    (p.count n).SimulatedBy R (List.Forall₂ V) (q.count n) :=
  h.countFrom hR 0 n

end Parser

end TextParsers
