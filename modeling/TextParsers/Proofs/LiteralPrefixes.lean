-- What a literal matches. It succeeds exactly if what is left begins with it, and
-- otherwise it gets as far as the two agree and points at the first difference there.
-- A choice between literals takes the first that what is left begins with, so a literal
-- behind a shorter one that it begins with is never come to.
import TextParsers.Proofs.DerivedCombinators
import Mathlib.Data.List.Infix
namespace TextParsers

/-! ## Where two texts agree -/

/-- The longest text that both begin with. -/
def commonPrefix : List Char → List Char → List Char
  | x :: xs, y :: ys => if x = y then x :: commonPrefix xs ys else []
  | _, _ => []

variable {xs ys zs : List Char}

theorem prefix_commonPrefix_iff : zs <+: commonPrefix xs ys ↔ zs <+: xs ∧ zs <+: ys := by
  induction xs generalizing ys zs with
  | nil => simp +contextual [commonPrefix]
  | cons x xs ih =>
    cases ys with
    | nil => simp +contextual [commonPrefix]
    | cons y ys =>
      cases zs with
      | nil => simp
      | cons z zs =>
        unfold commonPrefix
        by_cases h : x = y
        · subst h
          simp only [if_true, List.cons_prefix_cons, ih]
          exact and_and_left
        · simp only [if_neg h, List.prefix_nil, reduceCtorEq, List.cons_prefix_cons, false_iff]
          rintro ⟨⟨rfl, -⟩, rfl, -⟩
          exact h rfl

theorem commonPrefix_prefix_left (xs ys : List Char) : commonPrefix xs ys <+: xs :=
  (prefix_commonPrefix_iff.mp List.prefix_rfl).1

theorem commonPrefix_prefix_right (xs ys : List Char) : commonPrefix xs ys <+: ys :=
  (prefix_commonPrefix_iff.mp List.prefix_rfl).2

/-- Unless all of the first text is agreed on, a character of it follows that the second does not
have there. -/
theorem exists_difference (h : ¬ xs <+: ys) :
    ∃ x after, xs = commonPrefix xs ys ++ x :: after ∧
      ys[(commonPrefix xs ys).length]? ≠ some x := by
  obtain ⟨zs, hzs⟩ := commonPrefix_prefix_left xs ys
  cases zs with
  | nil =>
    rw [List.append_nil] at hzs
    exact absurd (hzs ▸ commonPrefix_prefix_right xs ys) h
  | cons x after =>
    refine ⟨x, after, hzs.symm, fun hx => ?_⟩
    have hleft : commonPrefix xs ys ++ [x] <+: xs := ⟨after, by simp [hzs]⟩
    have hright : commonPrefix xs ys ++ [x] <+: ys := by
      obtain ⟨hlt, rfl⟩ := List.getElem?_eq_some_iff.mp hx
      exact List.concat_get_prefix (commonPrefix_prefix_right xs ys) hlt
    have hle := (prefix_commonPrefix_iff.mpr ⟨hleft, hright⟩).length_le
    rw [List.length_append, List.length_singleton] at hle
    omega

theorem Cursor.peek_advance (c : Cursor) (n : Nat) : (c.advance n).peek = c.rest[n]? := by
  rw [Cursor.peek, Cursor.rest_advance, List.head?_drop]

namespace Parser

variable {c d : Cursor}

/-! ## One literal -/

theorem literalChars_of_peek {x : Char} (h : c.peek = some x) (ys : List Char) :
    literalChars (x :: ys) c = (literalChars ys).map (x :: ·) (c.advance 1) := by
  show (if c.peek = some x then _ else _) = _
  rw [if_pos h]

/-- Where what is left begins with some characters they are read, and those behind them from
there. -/
theorem literalChars_append (h : xs <+: c.rest) (ys : List Char) :
    literalChars (xs ++ ys) c = (literalChars ys).map (xs ++ ·) (c.advance xs.length) := by
  induction xs generalizing c with
  | nil =>
    rw [List.length_nil, Cursor.advance_zero]
    exact congrFun (map_id (literalChars ys)).symm c
  | cons x xs ih =>
    obtain ⟨after, hrest⟩ := h
    have hpeek : c.peek = some x := by rw [Cursor.peek, ← hrest]; rfl
    have hxs : xs <+: (c.advance 1).rest := ⟨after, by rw [Cursor.rest_advance, ← hrest]; rfl⟩
    rw [List.cons_append, literalChars_of_peek hpeek, map_eq_settled, ih hxs,
      Cursor.advance_advance, ← map_eq_settled, map_map, List.length_cons, Nat.add_comm 1]
    rfl

theorem literal_of_fits {s : String} (h : s.toList <+: c.rest) :
    literal s c = some ⟨.success s.toList (c.advance s.length), []⟩ := by
  have hread := literalChars_append h []
  rw [List.append_nil, String.length_toList] at hread
  rw [literal, hread]
  simp [Parser.map, settle, literalChars, accept, Outcome.mapValue]

/-- What a literal that does not fit says, and where. -/
theorem literal_of_misfit {s : String} (h : ¬ s.toList <+: c.rest) :
    ∃ b, s.toList[(commonPrefix s.toList c.rest).length]? = some b ∧
      literal s c = some ⟨.failure
        (Refusal.otherChar c.rest[(commonPrefix s.toList c.rest).length]? b).wording
        (c.advance (commonPrefix s.toList c.rest).length), []⟩ := by
  obtain ⟨b, after, hs, hdiffers⟩ := exists_difference h
  have hread := literalChars_append (commonPrefix_prefix_right s.toList c.rest) (b :: after)
  rw [← hs] at hread
  generalize hm : (commonPrefix s.toList c.rest).length = m at hread hdiffers ⊢
  refine ⟨b, ?_, ?_⟩
  · rw [hs, ← hm, List.getElem?_append_right (Nat.le_refl _), Nat.sub_self]
    rfl
  · rw [literal, hread, map_eq_settled]
    have hrefused : literalChars (b :: after) (c.advance m) =
        some ⟨.failure (Refusal.otherChar c.rest[m]? b).wording (c.advance m), []⟩ := by
      show (if (c.advance m).peek = some b then _ else _) = _
      rw [Cursor.peek_advance, if_neg hdiffers]
      rfl
    rw [hrefused]
    rfl

/-! ## A choice between literals -/

/-- The first of the texts that what is left begins with. -/
def firstFitting (ss : List String) (c : Cursor) : Option String :=
  ss.find? fun t => decide (t.toList <+: c.rest)

theorem firstFitting_eq_some_iff {ss : List String} {t : String} :
    firstFitting ss c = some t ↔
      ∃ before after, ss = before ++ t :: after ∧ t.toList <+: c.rest ∧
        ∀ u ∈ before, ¬ u.toList <+: c.rest := by
  unfold firstFitting
  rw [List.find?_eq_some_iff_append]
  simp only [decide_eq_true_eq, Bool.not_eq_true', decide_eq_false_iff_not]
  constructor
  · rintro ⟨ht, before, after, hss, hbefore⟩
    exact ⟨before, after, hss, ht, hbefore⟩
  · rintro ⟨before, after, hss, ht, hbefore⟩
    exact ⟨ht, before, after, hss, hbefore⟩

theorem firstFitting_eq_none_iff {ss : List String} :
    firstFitting ss c = none ↔ ∀ t ∈ ss, ¬ t.toList <+: c.rest := by
  unfold firstFitting
  simp only [List.find?_eq_none, decide_eq_true_eq]

theorem foldr_orElse_literals (ss : List String) (q : Parser (List Char)) (c : Cursor) :
    (ss.map literal).foldr orElse q c =
      match firstFitting ss c with
      | some t => some ⟨.success t.toList (c.advance t.length), []⟩
      | none => q c := by
  induction ss with
  | nil => rfl
  | cons s ss ih =>
    unfold firstFitting at ih ⊢
    rw [List.map_cons, List.foldr_cons]
    by_cases hs : s.toList <+: c.rest
    · rw [orElse_of_success (literal_of_fits hs), List.find?_cons_of_pos (by simpa using hs)]
    · obtain ⟨b, -, hliteral⟩ := literal_of_misfit hs
      rw [orElse_of_failure hliteral, List.find?_cons_of_neg (by simpa using hs), ih]
      exact congrFun Option.map_id _

theorem choice_literals (ss : List String) (c : Cursor) :
    choice (ss.map literal) c =
      match firstFitting ss c with
      | some t => some ⟨.success t.toList (c.advance t.length), []⟩
      | none => some ⟨.failure "" c, [.noAlternative c.position ss.length]⟩ := by
  unfold choice
  rw [foldr_orElse_literals, List.length_map]
  rfl

theorem choice_literals_eq_success_iff {ss : List String} {as : List Char} {log : Log} :
    choice (ss.map literal) c = some ⟨.success as d, log⟩ ↔
      ∃ t, firstFitting ss c = some t ∧ as = t.toList ∧ d = c.advance t.length ∧ log = [] := by
  rw [choice_literals]
  rcases firstFitting ss c with _ | t
  · simp
  · simp [eq_comm, and_assoc]

theorem choice_literals_eq_failure_iff {ss : List String} {e : String} {log : Log} :
    choice (ss.map literal) c = some ⟨.failure e d, log⟩ ↔
      firstFitting ss c = none ∧ e = "" ∧ d = c ∧
        log = [.noAlternative c.position ss.length] := by
  rw [choice_literals]
  rcases firstFitting ss c with _ | t
  · simp [eq_comm, and_assoc]
  · simp

/-- A text behind one that it begins with does not fit first: if it fits so does the other. -/
theorem firstFitting_ne_of_behind {before after : List String} {t : String} (ht : t ∉ before)
    (hshorter : ∃ u ∈ before, u.toList <+: t.toList) :
    firstFitting (before ++ t :: after) c ≠ some t := by
  intro hfirst
  obtain ⟨u, hu, hut⟩ := hshorter
  have hfits : t.toList <+: c.rest := by
    obtain ⟨-, -, -, hfits, -⟩ := firstFitting_eq_some_iff.mp hfirst
    exact hfits
  unfold firstFitting at hfirst
  rw [List.find?_append] at hfirst
  rcases hbefore : firstFitting before c with _ | w
  · exact firstFitting_eq_none_iff.mp hbefore u hu (hut.trans hfits)
  · unfold firstFitting at hbefore
    rw [hbefore, Option.some_or, Option.some.injEq] at hfirst
    rw [hfirst] at hbefore
    exact ht (List.mem_of_find?_eq_some hbefore)

/-! ## The law -/

/-- Where what is left begins with a text, the literal of it succeeds with its characters and
moves over them. Elsewhere it fails behind the longest text that both begin with, and says which
character it found there, or none at the end, and which it wanted. A choice between literals
succeeds exactly if what is left begins with one of the texts, and then as the literal of the
first that it begins with; so it never succeeds as one that stands only behind a text that it
begins with itself. Otherwise it fails without a message where it stands. -/
theorem a_literal_points_at_the_first_difference (s : String) (ss : List String) (c : Cursor) :
    let m := (commonPrefix s.toList c.rest).length
    (∀ zs, zs <+: commonPrefix s.toList c.rest ↔ zs <+: s.toList ∧ zs <+: c.rest) ∧
    (s.toList <+: c.rest →
      literal s c = some ⟨.success s.toList (c.advance s.length), []⟩ ∧
      (c.advance s.length).position = c.position + s.length) ∧
    (¬ s.toList <+: c.rest →
      (c.advance m).position = c.position + m ∧
      ∃ b, s.toList[m]? = some b ∧
        literal s c = some ⟨.failure
          (String.ofList c.rest[m]?.toList ++ " is not " ++ String.singleton b)
          (c.advance m), []⟩) ∧
    (∀ as d log, choice (ss.map literal) c = some ⟨.success as d, log⟩ ↔
      ∃ before t after, ss = before ++ t :: after ∧ t.toList <+: c.rest ∧
        (∀ u ∈ before, ¬ u.toList <+: c.rest) ∧
        as = t.toList ∧ d = c.advance t.length ∧ log = []) ∧
    (∀ before t after, ss = before ++ t :: after → t ∉ before →
      (∃ u ∈ before, u.toList <+: t.toList) →
      ∀ d log, choice (ss.map literal) c ≠ some ⟨.success t.toList d, log⟩) ∧
    ∀ e d log, choice (ss.map literal) c = some ⟨.failure e d, log⟩ ↔
      (∀ t ∈ ss, ¬ t.toList <+: c.rest) ∧ e = "" ∧ d = c ∧
        log = [.noAlternative c.position ss.length] := by
  intro m
  refine ⟨fun _ => prefix_commonPrefix_iff, fun h => ⟨literal_of_fits h, ?_⟩,
    fun h => ⟨?_, literal_of_misfit h⟩, ?_, ?_, ?_⟩
  · have hle := h.length_le
    rw [String.length_toList] at hle
    rw [Cursor.position_advance, Nat.min_eq_left hle]
  · have hle := (commonPrefix_prefix_right s.toList c.rest).length_le
    rw [Cursor.position_advance, Nat.min_eq_left hle]
  · intro as d log
    rw [choice_literals_eq_success_iff]
    constructor
    · rintro ⟨t, hfirst, h⟩
      obtain ⟨before, after, hss, hfits, hbefore⟩ := firstFitting_eq_some_iff.mp hfirst
      exact ⟨before, t, after, hss, hfits, hbefore, h⟩
    · rintro ⟨before, t, after, hss, hfits, hbefore, h⟩
      exact ⟨t, firstFitting_eq_some_iff.mpr ⟨before, after, hss, hfits, hbefore⟩, h⟩
  · rintro before t after rfl ht hshorter d log h
    obtain ⟨w, hfirst, hw, -⟩ := choice_literals_eq_success_iff.mp h
    rw [← String.toList_inj.mp hw] at hfirst
    exact firstFitting_ne_of_behind ht hshorter hfirst
  · intro e d log
    rw [choice_literals_eq_failure_iff, firstFitting_eq_none_iff]

/-- Characters of more than one byte: a literal that fits, one that differs in its last, one that
goes on behind the end of the text, and a choice that never comes to the longest. -/
theorem a_literal_that_differs_in_its_last_character :
    let c := (Cursor.start "xéta").advance 1
    let ss := ["été", "é", "ét"]
    literal "ét" c = some ⟨.success ['é', 't'] (c.advance 2), []⟩ ∧
    literal "été" c = some ⟨.failure "a is not é" (c.advance 2), []⟩ ∧
    literal "étab" c = some ⟨.failure " is not b" (c.advance 3), []⟩ ∧
    choice (ss.map literal) c = some ⟨.success ['é'] (c.advance 1), []⟩ ∧
    ∀ d log, choice (ss.map literal) c ≠ some ⟨.success ['é', 't'] d, log⟩ := by
  intro c ss
  obtain ⟨-, hfits, -, hchoice, hbehind, -⟩ := a_literal_points_at_the_first_difference "ét" ss c
  obtain ⟨-, -, hdiffers, -⟩ := a_literal_points_at_the_first_difference "été" ss c
  obtain ⟨-, -, hends, -⟩ := a_literal_points_at_the_first_difference "étab" ss c
  obtain ⟨-, b, hb, hlast⟩ := hdiffers (by decide)
  obtain ⟨-, b', hb', hend⟩ := hends (by decide)
  cases hb
  cases hb'
  refine ⟨(hfits (by decide)).1, hlast.trans ?_, hend.trans ?_, ?_, ?_⟩
  · decide
  · decide
  · exact (hchoice _ _ _).mpr ⟨["été"], "é", ["ét"], rfl, by decide, by decide, rfl, rfl, rfl⟩
  · exact hbehind ["été", "é"] "ét" [] rfl (by decide) ⟨"é", by decide, by decide⟩

end Parser

end TextParsers
