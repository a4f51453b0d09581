-- A grammar that names itself: an x in brackets. It reads an x with as many opening brackets
-- before it as closing ones behind it, however many these are, and counts them. Whatever is
-- wrong, and however deep inside, it fails where it started.
import TextParsers.Proofs.Successes
namespace TextParsers.Brackets

/-! ## The grammar -/

/-- Brackets, one deeper than what they hold. -/
def bracketed : Node := .map .increment (.surround '(' ')' (.rule "nested"))

/-- An x on its own, at depth 0. -/
def bare : Node := .map (.const (.int 0)) (.char 'x')

def nested : Node := .choice [bracketed, bare]

def grammar : Grammar := ⟨[("nested", nested)]⟩

/-! ## The language -/

/-- An x in `n` brackets. -/
def around (n : Nat) : List Char := .replicate n '(' ++ 'x' :: .replicate n ')'

theorem around_succ (n : Nat) : around (n + 1) = '(' :: (around n ++ [')']) := by
  simp [around, List.replicate_succ, ← List.replicate_succ']

theorem length_around (n : Nat) : (around n).length = 2 * n + 1 := by
  simp only [around, List.length_append, List.length_replicate, List.length_cons]
  omega

/-! ## The count -/

/-- The depth is counted as a word. -/
theorem increment_word (n : Nat) :
    Mapper.increment.apply (.int (Value.word n)) = .int (Value.word (n + 1 : Nat)) := by
  simp [Mapper.apply, Value.word]

theorem word_of_lt {n : Nat} (h : n < 0x8000000000000000) : Value.word n = n := by
  unfold Value.word
  apply Int.bmod_eq_of_le_mul_two
  · omega
  · omega

/-! ## What is read -/

variable {c d : Cursor} {v : Value}

/-- Every part reads a character before it comes to the rule, so none recurses on the spot. -/
theorem ends {node : Node} (hnode : node ∈ grammar.parts nested) (c : Cursor) :
    ∃ r, grammar.meaning node c = some r :=
  Grammar.meaning_ends (fun _ => false) (fun _ => 0) (by decide) (by decide) hnode c

theorem rule_meaning : grammar.meaning (.rule "nested") = grammar.meaning nested := by
  rw [Grammar.meaning_eq_step fun _ _ => rfl]
  rfl

theorem nested_meaning :
    grammar.meaning nested = .choice [grammar.meaning bracketed, grammar.meaning bare] :=
  Grammar.meaning_eq_step fun _ _ => rfl

theorem bracketed_succeeds_iff :
    (grammar.meaning bracketed).Succeeds c v d ↔
      ∃ w a b, c.Passes ['('] a ∧ (grammar.meaning nested).Succeeds a w b ∧ b.Passes [')'] d ∧
        v = Mapper.increment.apply w := by
  rw [bracketed, Grammar.map_meaning_succeeds_iff]
  simp only [Grammar.surround_meaning_succeeds_iff, rule_meaning]
  grind

theorem bare_succeeds_iff :
    (grammar.meaning bare).Succeeds c v d ↔ c.Passes ['x'] d ∧ v = .int 0 := by
  rw [bare, Grammar.map_meaning_succeeds_iff]
  simp [Grammar.char_meaning_succeeds_iff, Mapper.apply]

/-- One level of brackets. An x is tried only where no bracket opens. -/
theorem nested_succeeds_iff_level :
    (grammar.meaning nested).Succeeds c v d ↔
      (∃ w a b, c.Passes ['('] a ∧ (grammar.meaning nested).Succeeds a w b ∧ b.Passes [')'] d ∧
        v = Mapper.increment.apply w) ∨
      c.Passes ['x'] d ∧ v = .int 0 := by
  have hends := ends (Grammar.mem_parts_of_mem_children (grammar.mem_parts_self nested)
    (List.Mem.head [bare])) c
  conv_lhs => rw [nested_meaning]
  simp only [Parser.choice_cons_succeeds_iff, Parser.choice_nil_not_succeeds, and_false, or_false,
    Parser.fails_iff_not_succeeds hends, bracketed_succeeds_iff, bare_succeeds_iff]
  apply or_congr_right
  constructor
  · exact And.right
  · intro hbare
    refine ⟨?_, hbare⟩
    intro ⟨_, _, _, _, _, hopen, _⟩
    have hboth := hbare.1.rest_eq
    rw [hopen.rest_eq] at hboth
    cases hboth

theorem succeeds_of_passes {n : Nat} (h : c.Passes (around n) d) :
    (grammar.meaning nested).Succeeds c (.int (Value.word n)) d := by
  induction n generalizing c d with
  | zero =>
    rw [nested_succeeds_iff_level]
    exact .inr ⟨h, rfl⟩
  | succ n ih =>
    rw [around_succ, Cursor.passes_cons_iff] at h
    obtain ⟨a, hopen, h⟩ := h
    obtain ⟨b, hin, hclose⟩ := Cursor.passes_append_iff.mp h
    rw [nested_succeeds_iff_level]
    exact .inl ⟨_, a, b, hopen, ih hin, hclose, (increment_word n).symm⟩

theorem passes_of_succeeds (h : (grammar.meaning nested).Succeeds c v d) :
    ∃ n, c.Passes (around n) d ∧ v = .int (Value.word n) := by
  -- On how much is left: what brackets hold has one character less to read.
  induction hlen : c.rest.length using Nat.strong_induction_on generalizing c v d with
  | _ l ih =>
    obtain ⟨w, a, b, hopen, hin, hclose, hv⟩ | ⟨hx, hv⟩ := nested_succeeds_iff_level.mp h
    · have hless : a.rest.length < l := by
        rw [← hlen, hopen.rest_eq]
        exact Nat.lt_succ_self _
      obtain ⟨n, hn, hw⟩ := ih _ hless hin rfl
      refine ⟨n + 1, ?_, ?_⟩
      · rw [around_succ, Cursor.passes_cons_iff]
        exact ⟨a, hopen, Cursor.passes_append_iff.mpr ⟨b, hn, hclose⟩⟩
      · rw [hv, hw, increment_word]
    · exact ⟨0, hx, hv⟩

/-- It fails with nothing to say, where it started. -/
theorem failure_of_nested {e : String} {log : List Event}
    (h : grammar.meaning nested c = some ⟨.failure e d, log⟩) : e = "" ∧ d = c := by
  rw [nested_meaning] at h
  obtain ⟨_, _, he, hd, _⟩ := Parser.choice_eq_failure_iff.mp h
  exact ⟨he, hd⟩

/-! ## The law -/

/-- Wherever a parse of nested brackets starts, it ends. It succeeds exactly where an x stands behind
opening brackets and before as many closing ones or more. It gives the number of the opening ones,
and has read them, the x and as many closing ones; what follows is left as it was. Anywhere else it
fails with no message and has not moved. -/
theorem a_parse_of_nested_brackets_counts_them (c : Cursor)
    (hdepth : ∀ n, around n <+: c.rest → n < 0x8000000000000000) :
    (∃ r, grammar.Answers nested c r) ∧
    (∀ v d, (∃ log, grammar.Answers nested c ⟨.success v d, log⟩) ↔
      ∃ n : Nat, v = .int n ∧ around n <+: c.rest ∧ d = c.advance (2 * n + 1)) ∧
    (∀ n tail, c.rest = around n ++ tail →
      (c.advance (2 * n + 1)).text = c.text ∧
      (c.advance (2 * n + 1)).position = c.position + (2 * n + 1) ∧
      (c.advance (2 * n + 1)).rest = tail) ∧
    ∀ e d, (∃ log, grammar.Answers nested c ⟨.failure e d, log⟩) ↔
      (∀ n, ¬ around n <+: c.rest) ∧ e = "" ∧ d = c := by
  simp only [← Grammar.meaning_eq_some]
  have hends := ends (grammar.mem_parts_self nested) c
  have hsuccess : ∀ v d, (grammar.meaning nested).Succeeds c v d ↔
      ∃ n : Nat, v = .int n ∧ around n <+: c.rest ∧ d = c.advance (2 * n + 1) := by
    intro v d
    constructor
    · intro h
      obtain ⟨n, hn, hv⟩ := passes_of_succeeds h
      rw [word_of_lt (hdepth n hn.1)] at hv
      exact ⟨n, hv, hn.1, by rw [hn.2, length_around]⟩
    · intro ⟨n, hv, hn, hd⟩
      rw [hv, ← word_of_lt (hdepth n hn)]
      exact succeeds_of_passes ⟨hn, by rw [hd, length_around]⟩
  refine ⟨hends, hsuccess, fun n tail h => ⟨rfl, ?_, ?_⟩, fun e d => ⟨?_, ?_⟩⟩
  · rw [Cursor.position_advance, h, List.length_append, length_around]
    omega
  · rw [Cursor.rest_advance, h, ← length_around, List.drop_left]
  · intro ⟨log, h⟩
    refine ⟨fun n hn => ?_, failure_of_nested h⟩
    exact Parser.Fails.not_succeeds ⟨e, d, log, h⟩ ((hsuccess _ _).mpr ⟨n, rfl, hn, rfl⟩)
  · intro ⟨hnone, he, hd⟩
    have hfails : (grammar.meaning nested).Fails c := by
      rw [Parser.fails_iff_not_succeeds hends]
      intro ⟨v, b, hs⟩
      obtain ⟨n, -, hn, -⟩ := (hsuccess v b).mp hs
      exact hnone n hn
    obtain ⟨e', d', log, h⟩ := hfails
    obtain ⟨he', hd'⟩ := failure_of_nested h
    rw [he', hd'] at h
    rw [he, hd]
    exact ⟨log, h⟩

/-- Two brackets and one too many that closes, behind a character of three bytes; and two brackets
of which one is never closed. -/
theorem two_brackets_and_one_left_open :
    let c := (Cursor.start "日((x)))!").advance 1
    let d := Cursor.start "((x)"
    c.rest = around 2 ++ [')', '!'] ∧
    (∀ n, around n <+: c.rest → n < 0x8000000000000000) ∧
    (∃ log, grammar.Answers nested c ⟨.success (.int 2) (c.advance 5), log⟩) ∧
    (c.advance 5).position = 6 ∧ (c.advance 5).rest = [')', '!'] ∧
    (∀ n, ¬ around n <+: d.rest) ∧
    ∃ log, grammar.Answers nested d ⟨.failure "" d, log⟩ := by
  intro c d
  have hc : c.rest = around 2 ++ [')', '!'] := by decide
  have hdepth : ∀ n, around n <+: c.rest → n < 0x8000000000000000 := by
    intro n h
    have hlen : (around n).length ≤ 7 := h.length_le
    rw [length_around] at hlen
    omega
  have hd : ∀ n, ¬ around n <+: d.rest := by
    intro n h
    have hlen : (around n).length ≤ 4 := h.length_le
    rw [length_around] at hlen
    match n with
    | 0 => exact absurd h (by decide)
    | 1 => exact absurd h (by decide)
    | n + 2 => omega
  obtain ⟨-, hsuccess, hplace, -⟩ := a_parse_of_nested_brackets_counts_them c hdepth
  obtain ⟨-, hposition, hrest⟩ := hplace 2 _ hc
  obtain ⟨-, -, -, hfailure⟩ :=
    a_parse_of_nested_brackets_counts_them d fun n h => absurd h (hd n)
  exact ⟨hc, hdepth, (hsuccess _ _).mpr ⟨2, rfl, ⟨_, hc.symm⟩, rfl⟩, hposition, hrest, hd,
    (hfailure _ _).mpr ⟨hd, rfl, rfl⟩⟩

end TextParsers.Brackets
