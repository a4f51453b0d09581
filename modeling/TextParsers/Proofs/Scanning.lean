-- Scanning for a parser. A negation steps over one character where the parser fails, so the
-- repetition of it walks the text character by character, up to the first place where the
-- parser succeeds, or to the end. With a literal for the parser that place is where the
-- literal first occurs.
import TextParsers.Proofs.LiteralPrefixes
import TextParsers.Proofs.MaximalChains
import Mathlib.Order.Nat
namespace TextParsers

variable {α : Type} {c d : Cursor} {a : α} {us : List Unit}

namespace Parser

variable {p : Parser α}

/-! ## Turns of a negation -/

theorem not_succeeds_iff {u : Unit} : p.not.Succeeds c u d ↔ p.Fails c ∧ d = c.advance 1 := by
  unfold Succeeds Fails not settle
  rcases hp : p c with _ | ⟨⟨a, x⟩ | ⟨e, x⟩, l⟩
  · simp
  · simp
  · simp [eq_comm]

theorem not_fails_iff : p.not.Fails c ↔ ∃ a d, p.Succeeds c a d := by
  unfold Succeeds Fails not settle
  rcases hp : p c with _ | ⟨⟨a, x⟩ | ⟨e, x⟩, l⟩
  · simp
  · simp
  · simp

/-- A scan for `p` ends at a place: `p` succeeds there, or nothing is left. -/
def EndsScan (p : Parser α) (c : Cursor) : Prop := (∃ a d, p.Succeeds c a d) ∨ c.rest = []

theorem turn_not_iff (hc : c.Consistent) {u : Unit} :
    p.not.Turn c u d ↔ p.Fails c ∧ c.rest ≠ [] ∧ d = c.advance 1 := by
  rw [turn_iff_moves hc, Moves, not_succeeds_iff]
  constructor
  · rintro ⟨hleft, ⟨hp, rfl⟩, -⟩
    exact ⟨hp, hleft, rfl⟩
  · rintro ⟨hp, hleft, rfl⟩
    have hpos := List.length_pos_iff.mpr hleft
    refine ⟨hleft, ⟨hp, rfl⟩, ?_⟩
    rw [Cursor.position_advance]
    omega

theorem rests_not_iff (hc : c.Consistent) : p.not.Rests c ↔ p.EndsScan c := by
  rw [Rests, not_fails_iff, hc.isEmpty_iff]
  constructor
  · rintro (hnil | hp | ⟨u, d, hs, hd⟩)
    · exact .inr hnil
    · exact .inl hp
    · -- A step that does not change the position was one at the end of the text.
      obtain ⟨-, rfl⟩ := not_succeeds_iff.mp hs
      rw [Cursor.position_advance] at hd
      exact .inr (List.length_eq_zero_iff.mp (by omega))
  · rintro (hp | hnil)
    · exact .inr (.inl hp)
    · exact .inl hnil

/-- Turns of a negation are steps over one character each, from places where `p` fails. -/
theorem chain_not_iff (hc : c.Consistent) :
    Chain p.not.Turn c us d ↔
      ∃ j, (∀ i < j, p.Fails (c.advance i) ∧ (c.advance i).rest ≠ []) ∧
        us = List.replicate j () ∧ d = c.advance j := by
  constructor
  · intro hs
    induction hs with
    | nil c => exact ⟨0, by simp, rfl, (Cursor.advance_zero c).symm⟩
    | @cons c d e u us ht _ ih =>
      obtain ⟨hp, hleft, rfl⟩ := (turn_not_iff hc).mp ht
      obtain ⟨j, hbefore, rfl, rfl⟩ := ih (Cursor.consistent_advance hc 1)
      refine ⟨j + 1, fun i hi => ?_, rfl, by rw [Cursor.advance_advance, Nat.add_comm]⟩
      cases i with
      | zero => rw [Cursor.advance_zero]; exact ⟨hp, hleft⟩
      | succ i =>
        have hi := hbefore i (by omega)
        rwa [Cursor.advance_advance, Nat.add_comm] at hi
  · rintro ⟨j, hbefore, rfl, rfl⟩
    induction j generalizing c with
    | zero => rw [Cursor.advance_zero]; exact .nil c
    | succ j ih =>
      have hfirst := hbefore 0 (Nat.succ_pos j)
      rw [Cursor.advance_zero] at hfirst
      have hrest := ih (Cursor.consistent_advance hc 1) fun i hi => by
        have hi := hbefore (i + 1) (by omega)
        rwa [Cursor.advance_advance, Nat.add_comm]
      rw [Cursor.advance_advance, Nat.add_comm] at hrest
      exact .cons ((turn_not_iff hc).mpr ⟨hfirst.1, hfirst.2, rfl⟩) hrest

/-! ## Where a scan ends -/

/-- There is a first place where a scan ends, as nothing is left at the end of the text. -/
theorem exists_least_endsScan (p : Parser α) (c : Cursor) :
    ∃ j, IsLeast {i | p.EndsScan (c.advance i)} j ∧ j ≤ c.rest.length := by
  classical
  have hend : p.EndsScan (c.advance c.rest.length) := .inr (by simp)
  have hsome : ∃ i, p.EndsScan (c.advance i) := ⟨_, hend⟩
  exact ⟨Nat.find hsome, Nat.isLeast_find hsome, Nat.find_min' hsome hend⟩

theorem gathers_not_iff (hc : c.Consistent) :
    (∃ log, p.not.Gathers c ⟨us, d, log⟩) ↔
      ∃ j, IsLeast {i | p.EndsScan (c.advance i)} j ∧ (∀ i < j, p.Fails (c.advance i)) ∧
        us = List.replicate j () ∧ d = c.advance j := by
  rw [gathers_iff_chain, chain_not_iff hc]
  constructor
  · rintro ⟨⟨j, hbefore, rfl, rfl⟩, hrests⟩
    have hends := (rests_not_iff (Cursor.consistent_advance hc j)).mp hrests
    refine ⟨j, ⟨hends, fun i hi => ?_⟩, fun i hi => (hbefore i hi).1, rfl, rfl⟩
    by_contra hlt
    obtain ⟨hfails, hleft⟩ := hbefore i (by omega)
    rcases hi with ⟨a, d, hs⟩ | hnil
    · exact hfails.not_succeeds hs
    · exact hleft hnil
  · rintro ⟨j, ⟨hends, hleast⟩, hfails, rfl, rfl⟩
    refine ⟨⟨j, fun i hi => ⟨hfails i hi, fun hnil => ?_⟩, rfl, rfl⟩,
      (rests_not_iff (Cursor.consistent_advance hc j)).mpr hends⟩
    have hle := hleast (show p.EndsScan (c.advance i) from .inr hnil)
    omega

/-- Before the end of a scan `p` cannot succeed, so it fails if it answers. -/
theorem fails_of_lt_least {j i : Nat} (hj : IsLeast {i | p.EndsScan (c.advance i)} j) (hi : i < j)
    (hends : ∃ r, p (c.advance i) = some r) : p.Fails (c.advance i) := by
  obtain ⟨⟨⟨a, d⟩ | ⟨e, d⟩, l⟩, hr⟩ := hends
  · have hle := hj.2 (show p.EndsScan (c.advance i) from .inl ⟨a, d, l, hr⟩)
    omega
  · exact ⟨e, d, l, hr⟩

theorem not_gathers_of_silence (hc : c.Consistent) {j i : Nat}
    (hj : IsLeast {i | p.EndsScan (c.advance i)} j) (hi : i < j) (hp : p (c.advance i) = none)
    (h : Harvest Unit) : ¬ p.not.Gathers c h := by
  intro hh
  obtain ⟨k, hk, hfails, -, -⟩ := (gathers_not_iff hc).mp ⟨h.log, hh⟩
  obtain ⟨e, x, l, hr⟩ := hfails i (by rwa [hk.unique hj])
  rw [hp] at hr
  cases hr

/-! ## What a scan logs -/

/-- A repetition of a parser that logs nothing logs nothing. -/
theorem log_of_gather (hq : ∀ c r, p c = some r → r.log = []) {turns : Nat} {h : Harvest α}
    (hh : p.gather turns c = some h) : h.log = [] := by
  induction turns generalizing c h with
  | zero => cases hh
  | succ turns ih =>
    unfold gather at hh
    split at hh
    · cases hh
      rfl
    · rcases hp : p c with _ | ⟨⟨a, d⟩ | ⟨e, d⟩, log⟩
      · simp [hp] at hh
      · obtain rfl : log = [] := hq _ _ hp
        simp only [hp] at hh
        split at hh
        · cases hh
          rfl
        · obtain ⟨k, hk, rfl⟩ := Option.map_eq_some_iff.mp hh
          simp only [ih hk, List.append_nil]
      · obtain rfl : log = [] := hq _ _ hp
        simp only [hp] at hh
        cases hh
        rfl

/-! ## Scanning for a literal -/

variable {s : String}

theorem literal_answers (s : String) (c : Cursor) :
    (∃ as d, (literal s).Succeeds c as d) ∧ s.toList <+: c.rest ∨
      (literal s).Fails c ∧ ¬ s.toList <+: c.rest := by
  by_cases h : s.toList <+: c.rest
  · exact .inl ⟨⟨_, _, [], literal_of_fits h⟩, h⟩
  · obtain ⟨b, -, hr⟩ := literal_of_misfit h
    exact .inr ⟨⟨_, _, _, hr⟩, h⟩

theorem endsScan_literal_iff :
    (literal s).EndsScan c ↔ s.toList <+: c.rest ∨ c.rest = [] := by
  unfold EndsScan
  rcases literal_answers s c with ⟨hs, hfits⟩ | ⟨hfails, hmisfit⟩
  · simp only [hs, hfits, true_or]
  · have hs : ¬ ∃ as d, (literal s).Succeeds c as d := fun ⟨as, d, hs⟩ => hfails.not_succeeds hs
    simp only [hs, hmisfit, false_or]

theorem log_of_not_literal {r : Reply Unit} (hr : (literal s).not c = some r) : r.log = [] := by
  by_cases h : s.toList <+: c.rest
  · simp only [not, settle, literal_of_fits h, Option.map_some] at hr
    cases hr
    rfl
  · obtain ⟨b, -, hliteral⟩ := literal_of_misfit h
    simp only [not, settle, hliteral, Option.map_some] at hr
    cases hr
    rfl

theorem gathers_not_literal (hc : c.Consistent) {j : Nat}
    (hj : IsLeast {i | (literal s).EndsScan (c.advance i)} j) :
    (literal s).not.Gathers c ⟨List.replicate j (), c.advance j, []⟩ := by
  have hfails : ∀ i < j, (literal s).Fails (c.advance i) := by
    intro i hi
    rcases literal_answers s (c.advance i) with ⟨hs, -⟩ | ⟨hfails, -⟩
    · have hle := hj.2 (show (literal s).EndsScan (c.advance i) from .inl hs)
      omega
    · exact hfails
  obtain ⟨log, turns, hh⟩ := (gathers_not_iff hc).mpr ⟨j, hj, hfails, rfl, rfl⟩
  obtain rfl : log = [] := log_of_gather (fun _ _ => log_of_not_literal) hh
  exact ⟨turns, hh⟩

/-! ### Where a literal occurs -/

/-- The literal stands so many characters further on, and not before. -/
def FirstOccurs (s : String) (c : Cursor) (j : Nat) : Prop :=
  IsLeast {i | s.toList <+: (c.advance i).rest} j

theorem exists_firstOccurs_iff : (∃ j, FirstOccurs s c j) ↔ s.toList <:+: c.rest := by
  classical
  constructor
  · rintro ⟨j, hj, -⟩
    exact List.IsInfix.trans hj.isInfix (List.drop_suffix j c.rest).isInfix
  · rintro ⟨before, after, hrest⟩
    have hoccurs : ∃ i, s.toList <+: (c.advance i).rest := by
      refine ⟨before.length, after, ?_⟩
      rw [Cursor.rest_advance, ← hrest, List.append_assoc, List.drop_left]
    exact ⟨_, Nat.isLeast_find hoccurs⟩

/-- The first occurrence is where the scan ends: the text is not at its end before it. -/
theorem FirstOccurs.isLeast {j : Nat} (hj : FirstOccurs s c j) :
    IsLeast {i | (literal s).EndsScan (c.advance i)} j := by
  refine ⟨endsScan_literal_iff.mpr (.inl hj.1), fun i hi => ?_⟩
  rcases endsScan_literal_iff.mp hi with hfits | hnil
  · exact hj.2 hfits
  · by_contra hlt
    -- Nothing is left at the occurrence either, so the literal is empty, and occurs at once.
    have hlast : (c.advance j).rest = [] := by
      rw [Cursor.rest_advance, List.drop_eq_nil_iff] at hnil ⊢
      omega
    have hempty : s.toList = [] := List.prefix_nil.mp (hlast ▸ hj.1)
    have hle := hj.2 (show s.toList <+: (c.advance 0).rest by simp [hempty])
    omega

/-- Without an occurrence the scan ends at the end of the text. -/
theorem isLeast_endsScan_of_missing (h : ¬ s.toList <:+: c.rest) :
    IsLeast {i | (literal s).EndsScan (c.advance i)} c.rest.length := by
  refine ⟨endsScan_literal_iff.mpr (.inr (by simp)), fun i hi => ?_⟩
  rcases endsScan_literal_iff.mp hi with hfits | hnil
  · exact absurd (hfits.isInfix.trans (List.drop_suffix i c.rest).isInfix) h
  · exact List.drop_eq_nil_iff.mp hnil

/-- At the end of the text a literal misses its first character. -/
theorem literal_of_nothing_left (hc : c.rest = []) {b : Char} {after : List Char}
    (hs : s.toList = b :: after) :
    literal s c = some ⟨.failure (" is not " ++ String.singleton b) c, []⟩ := by
  have hpeek : c.peek = none := (Cursor.peek_eq_none_iff c).mpr hc
  rw [literal, hs]
  show (if c.peek = some b then _ else refuse (.otherChar c.peek b) c) = _
  rw [hpeek, if_neg (by simp)]
  rfl

/-! ## The law -/

/-- Scanning for a parser, by repeating its negation, ends at the first place behind zero or more
characters where the parser succeeds or nothing is left. There always is one, and if the parser
answers at the places before it then the repetition succeeds there, with a value for each character
and in no other way; if it does not answer at one of them, the repetition does not end. Scanning for
a literal ends where the literal first occurs, and with the literal behind it, ends behind that
occurrence. If the literal does not occur the scan ends at the end of the text, and there the
literal fails, as it misses its first character. -/
theorem a_scan_ends_at_the_first_success (p : Parser α) (s : String) (c : Cursor)
    (hc : c.Consistent) :
    (∃ j, IsLeast {i | p.EndsScan (c.advance i)} j ∧ j ≤ c.rest.length ∧
      ((∀ i < j, ∃ r, p (c.advance i) = some r) → ∃ log, ∀ r,
        (∃ turns, p.not.many turns c = some r) ↔
          r = ⟨.success (List.replicate j ()) (c.advance j), log⟩) ∧
      ∀ i < j, p (c.advance i) = none → ∀ turns, p.not.many turns c = none) ∧
    ((∃ j, FirstOccurs s c j) ↔ s.toList <:+: c.rest) ∧
    (∀ j, FirstOccurs s c j →
      (∀ r, (∃ turns, (literal s).not.many turns c = some r) ↔
        r = ⟨.success (List.replicate j ()) (c.advance j), []⟩) ∧
      ∀ r, (∃ turns, ((literal s).not.many turns).pair (literal s) c = some r) ↔
        r = ⟨.success (List.replicate j (), s.toList) (c.advance (j + s.length)), []⟩) ∧
    (¬ s.toList <:+: c.rest →
      (c.advance c.rest.length).position = c.text.length ∧
      (∀ r, (∃ turns, (literal s).not.many turns c = some r) ↔
        r = ⟨.success (List.replicate c.rest.length ()) (c.advance c.rest.length), []⟩) ∧
      ∃ b after, s.toList = b :: after ∧
        ∀ r, (∃ turns, ((literal s).not.many turns).pair (literal s) c = some r) ↔
          r = ⟨.failure (" is not " ++ String.singleton b) (c.advance c.rest.length), []⟩) := by
  refine ⟨?_, exists_firstOccurs_iff, fun j hj => ?_, fun hnone => ?_⟩
  · obtain ⟨j, hj, hle⟩ := exists_least_endsScan p c
    refine ⟨j, hj, hle, fun hends => ?_, fun i hi hp turns => ?_⟩
    · obtain ⟨log, hh⟩ := (gathers_not_iff hc).mpr
        ⟨j, hj, fun i hi => fails_of_lt_least hj hi (hends i hi), rfl, rfl⟩
      exact ⟨log, many_eq_some_iff_of_gathers hh⟩
    · rcases hk : p.not.gather turns c with _ | k
      · simp only [many, hk, Option.map_none]
      · exact absurd ⟨turns, hk⟩ (not_gathers_of_silence hc hj hi hp k)
  · have hh := gathers_not_literal hc hj.isLeast
    refine ⟨many_eq_some_iff_of_gathers hh, fun r => ?_⟩
    rw [pair_many_eq_some_iff hh, literal_of_fits hj.1, Cursor.advance_advance, eq_comm]
    exact Option.some_inj
  · have hh := gathers_not_literal hc (isLeast_endsScan_of_missing hnone)
    refine ⟨?_, many_eq_some_iff_of_gathers hh, ?_⟩
    · rw [Cursor.position_advance, Nat.min_self, hc.position_add_length]
    · obtain ⟨b, after, hs⟩ : ∃ b after, s.toList = b :: after := by
        rcases hs : s.toList with _ | ⟨b, after⟩
        · rw [hs] at hnone
          exact absurd List.nil_infix hnone
        · exact ⟨b, after, rfl⟩
      refine ⟨b, after, hs, fun r => ?_⟩
      rw [pair_many_eq_some_iff hh, literal_of_nothing_left (by simp) hs, eq_comm]
      exact Option.some_inj

/-- Scans behind a character of two bytes: for a parser that succeeds by a jump back, for a literal
that begins once before it occurs, and for one that does not occur. -/
theorem scans_past_beginnings_of_a_literal :
    let p := (⟨[]⟩ : Grammar).parser 4 (.row [.char 'b', .jump 0])
    let c := (Cursor.start "éaaab!").advance 1
    c.Consistent ∧ (∀ i < 3, ∃ r, p (c.advance i) = some r) ∧
    (∃ log, ∀ r, (∃ turns, p.not.many turns c = some r) ↔
      r = ⟨.success [(), (), ()] (c.advance 3), log⟩) ∧
    FirstOccurs "aab" c 1 ∧
    (∃ turns, ((literal "aab").not.many turns).pair (literal "aab") c =
      some ⟨.success ([()], ['a', 'a', 'b']) (c.advance 4), []⟩) ∧
    ¬ "aaaab".toList <:+: c.rest ∧
    ∃ turns, ((literal "aaaab").not.many turns).pair (literal "aaaab") c =
      some ⟨.failure " is not a" (c.advance 5), []⟩ := by
  intro p c
  have hc : c.Consistent := Cursor.consistent_advance (Cursor.consistent_start _) 1
  have hsome : ∀ i < 3, (p (c.advance i)).isSome = true := by decide
  have hends : ∀ i < 3, ∃ r, p (c.advance i) = some r := fun i hi =>
    Option.isSome_iff_exists.mp (hsome i hi)
  have hback : p.Succeeds (c.advance 3) (.list [.text "b", .null]) (.start "éaaab!") :=
    ⟨[], by decide⟩
  have hmany : p.not.many 4 c = some ⟨.success [(), (), ()] (c.advance 3), []⟩ := by decide
  have hfirst : FirstOccurs "aab" c 1 := by
    refine ⟨by decide, fun i hi => Nat.one_le_iff_ne_zero.mpr ?_⟩
    rintro rfl
    revert hi
    decide
  have hnone : ¬ "aaaab".toList <:+: c.rest := fun hoccurs =>
    absurd (hoccurs.eq_of_length (by decide)) (by decide)
  obtain ⟨⟨j, hj, -, hscan, -⟩, -, hfound, -⟩ := a_scan_ends_at_the_first_success p "aab" c hc
  obtain ⟨-, -, -, hmissing⟩ := a_scan_ends_at_the_first_success p "aaaab" c hc
  have hle : j ≤ 3 := hj.2 (show p.EndsScan (c.advance 3) from .inl ⟨_, _, hback⟩)
  obtain ⟨log, hiff⟩ := hscan fun i hi => hends i (by omega)
  obtain rfl : 3 = j := by
    have heq := (hiff _).mp ⟨4, hmany⟩
    simpa [Outcome.value?] using congrArg (fun r => r.outcome.value?.map List.length) heq
  obtain ⟨-, -, b, after, hb, hpair⟩ := hmissing hnone
  cases hb
  exact ⟨hc, hends, ⟨log, hiff⟩, hfirst, ((hfound 1 hfirst).2 _).mpr rfl, hnone, (hpair _).mpr rfl⟩

end Parser

end TextParsers
