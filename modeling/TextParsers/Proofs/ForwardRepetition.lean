-- When a repetition goes forward. The documented rule keeps a success only if it
-- ends further on, but the test is only whether the position has changed. The two
-- agree exactly as long as no success further back is come to.
import TextParsers.Proofs.ForwardFlow
namespace TextParsers

/-! ## Turns -/

/-- Turns one after another, each from where the one before it ended, with their values. -/
inductive Chain {α : Type} (turn : Cursor → α → Cursor → Prop) : Cursor → List α → Cursor → Prop
  | nil (c : Cursor) : Chain turn c [] c
  | cons {c d e : Cursor} {a : α} {as : List α} (h : turn c a d) (hs : Chain turn d as e) :
      Chain turn c (a :: as) e

theorem Chain.mono {α : Type} {turn turn' : Cursor → α → Cursor → Prop}
    (h : ∀ c a d, turn c a d → turn' c a d) {c d : Cursor} {as : List α}
    (hs : Chain turn c as d) : Chain turn' c as d := by
  induction hs with
  | nil c => exact .nil c
  | cons ht _ ih => exact .cons (h _ _ _ ht) ih

namespace Parser

variable {α : Type}

/-- A turn that a repetition of `p` keeps: text is left, and `p` succeeds at another position. -/
def Turn (p : Parser α) (c : Cursor) (a : α) (d : Cursor) : Prop :=
  c.isEmpty = false ∧ (∃ log, p c = some ⟨.success a d, log⟩) ∧ d.position ≠ c.position

/-- A turn that ends further on than it started. -/
def ForwardTurn (p : Parser α) (c : Cursor) (a : α) (d : Cursor) : Prop :=
  p.Turn c a d ∧ c.position < d.position

/-- No turn that a repetition of `p` from `c` on comes to goes back. -/
def GoesForward (p : Parser α) (c : Cursor) : Prop :=
  ∀ as d a e, Chain p.Turn c as d → p.Turn d a e → d.position < e.position

/-- The repetition by the documented rule: a success that does not advance the position ends
it, and is not kept. -/
def gatherForward (p : Parser α) : (limit : Nat) → Cursor → Option (Harvest α)
  | 0, _ => none
  | limit + 1, c =>
    if c.isEmpty then some ⟨[], c, []⟩
    else match p c with
      | none => none
      | some ⟨.failure .., log⟩ => some ⟨[], c, log⟩
      | some ⟨.success a d, log⟩ =>
        if d.position ≤ c.position then some ⟨[], c, log⟩
        else (gatherForward p limit d).map fun h => ⟨a :: h.values, h.stop, log ++ h.log⟩

variable {p : Parser α} {c d : Cursor} {a : α} {as : List α} {log : Log}

theorem gather_turn (hc : c.isEmpty = false) (hp : p c = some ⟨.success a d, log⟩)
    (hd : d.position ≠ c.position) (limit : Nat) :
    p.gather (limit + 1) c =
      (p.gather limit d).map fun h => ⟨a :: h.values, h.stop, log ++ h.log⟩ := by
  simp only [gather, hc, hp, hd, if_false, Bool.false_eq_true]

theorem gatherForward_turn (hc : c.isEmpty = false) (hp : p c = some ⟨.success a d, log⟩)
    (hd : c.position < d.position) (limit : Nat) :
    p.gatherForward (limit + 1) c =
      (p.gatherForward limit d).map fun h => ⟨a :: h.values, h.stop, log ++ h.log⟩ := by
  have hd : ¬ d.position ≤ c.position := by omega
  simp only [gatherForward, hc, hp, hd, if_false, Bool.false_eq_true]

/-- A success that does not go forward is where the documented rule stops. -/
theorem gatherForward_stop (hc : c.isEmpty = false) (hp : p c = some ⟨.success a d, log⟩)
    (hd : d.position ≤ c.position) (limit : Nat) :
    p.gatherForward (limit + 1) c = some ⟨[], c, log⟩ := by
  simp only [gatherForward, hc, hp, hd, if_true, if_false, Bool.false_eq_true]

/-! ## The documented rule -/

theorem chain_of_gatherForward {limit : Nat} {h : Harvest α}
    (hh : p.gatherForward limit c = some h) : Chain p.ForwardTurn c h.values h.stop := by
  induction limit generalizing c h with
  | zero => cases hh
  | succ limit ih =>
    by_cases hc : c.isEmpty = true
    · simp only [gatherForward, hc, if_true, Option.some.injEq] at hh
      subst hh
      exact .nil c
    · rw [Bool.not_eq_true] at hc
      rcases hp : p c with _ | ⟨⟨a, d⟩ | ⟨e, d⟩, log⟩
      · simp [gatherForward, hc, hp] at hh
      · by_cases hd : d.position ≤ c.position
        · rw [gatherForward_stop hc hp hd, Option.some.injEq] at hh
          subst hh
          exact .nil c
        · rw [gatherForward_turn hc hp (by omega)] at hh
          obtain ⟨k, hk, rfl⟩ := Option.map_eq_some_iff.mp hh
          exact .cons ⟨⟨hc, ⟨log, hp⟩, by omega⟩, by omega⟩ (ih hk)
      · simp only [gatherForward, hc, hp, if_false, Bool.false_eq_true, Option.some.injEq] at hh
        subst hh
        exact .nil c

/-- The documented rule ends every repetition whose runs of `p` end, since positions grow and
have a bound. -/
theorem gatherForward_ends (bound : Nat)
    (hp : ∀ as d, Chain p.ForwardTurn c as d → d.position ≤ bound ∧ ∃ r, p d = some r) :
    ∃ limit h, p.gatherForward limit c = some h := by
  induction hn : bound - c.position using Nat.strongRecOn generalizing c with
  | ind n ih =>
    obtain ⟨hle, ⟨o, log⟩, hr⟩ := hp [] c (.nil c)
    by_cases hc : c.isEmpty = true
    · exact ⟨1, ⟨[], c, []⟩, by simp only [gatherForward, hc, if_true]⟩
    rw [Bool.not_eq_true] at hc
    cases o with
    | failure e d =>
      exact ⟨1, ⟨[], c, log⟩, by simp only [gatherForward, hc, hr, if_false, Bool.false_eq_true]⟩
    | success a d =>
      by_cases hd : d.position ≤ c.position
      · exact ⟨1, _, gatherForward_stop hc hr hd 0⟩
      · have hturn : p.ForwardTurn c a d := ⟨⟨hc, ⟨log, hr⟩, by omega⟩, by omega⟩
        have hle' := (hp [a] d (.cons hturn (.nil d))).1
        obtain ⟨limit, h, hh⟩ := ih (bound - d.position) (by omega)
          (fun as e hs => hp (a :: as) e (.cons hturn hs)) rfl
        exact ⟨limit + 1, _, by rw [gatherForward_turn hc hr (by omega), hh]; rfl⟩

/-! ## Where the two rules agree -/

theorem GoesForward.of_turn (h : p.GoesForward c) (ht : p.Turn c a d) : p.GoesForward d :=
  fun as e b f hs => h (a :: as) e b f (.cons ht hs)

theorem gather_eq_gatherForward (h : p.GoesForward c) (limit : Nat) :
    p.gather limit c = p.gatherForward limit c := by
  induction limit generalizing c with
  | zero => rfl
  | succ limit ih =>
    by_cases hc : c.isEmpty = true
    · simp only [gather, gatherForward, hc, if_true]
    · rw [Bool.not_eq_true] at hc
      rcases hp : p c with _ | ⟨⟨a, d⟩ | ⟨e, d⟩, log⟩
      · simp only [gather, gatherForward, hc, hp, if_false, Bool.false_eq_true]
      · by_cases hd : d.position = c.position
        · rw [gatherForward_stop hc hp (by omega)]
          simp only [gather, hc, hp, hd, if_true, if_false, Bool.false_eq_true]
        · have ht : p.Turn c a d := ⟨hc, ⟨log, hp⟩, hd⟩
          rw [gather_turn hc hp hd, gatherForward_turn hc hp (h [] c a d (.nil c) ht),
            ih (h.of_turn ht)]
      · simp only [gather, gatherForward, hc, hp, if_false, Bool.false_eq_true]

/-- Where the two rules agree, the first turn goes forward, and they agree behind it. -/
theorem agree_of_turn (h : ∀ limit, p.gather limit c = p.gatherForward limit c)
    (ht : p.Turn c a d) :
    c.position < d.position ∧ ∀ limit, p.gather limit d = p.gatherForward limit d := by
  obtain ⟨hc, ⟨log, hp⟩, hd⟩ := ht
  have hlt : c.position < d.position := by
    by_contra hle
    have h1 := h 1
    rw [gather_turn hc hp hd, gatherForward_stop hc hp (by omega)] at h1
    cases h1
  refine ⟨hlt, fun limit => ?_⟩
  have hnext := h (limit + 1)
  rw [gather_turn hc hp hd, gatherForward_turn hc hp hlt] at hnext
  refine Option.map_injective ?_ hnext
  rintro ⟨vs, e, l⟩ ⟨vs', e', l'⟩ heq
  simpa using heq

theorem goesForward_of_agree (h : ∀ limit, p.gather limit c = p.gatherForward limit c) :
    p.GoesForward c := by
  intro as d a e hs ht
  induction hs with
  | nil c => exact (agree_of_turn h ht).1
  | cons hturn _ ih => exact ih (agree_of_turn h hturn).2 ht

/-- A parse that stays in its text never goes back, so repeating it follows the documented
rule. -/
theorem goesForward_of_stays {g : Grammar} {node : Node}
    (hl : ∀ k ∈ g.parts node, k.leaps = false) (hn : ∀ k ∈ g.parts node, k.nests = false)
    (limit : Nat) (c : Cursor) : (g.parser limit node).GoesForward c := by
  rintro as d a e - ⟨-, ⟨log, hp⟩, hmoved⟩
  obtain ⟨n, he⟩ := Grammar.Answers.eq_advance hl hn ⟨limit, hp⟩
  simp only [Outcome.cursor] at he
  rw [he, Cursor.position_advance] at hmoved ⊢
  omega

/-! ## Turns that come back -/

/-- The turns of a chain take one step each from the limit. -/
theorem gather_behind_chain (hs : Chain p.Turn c as d) {limit : Nat} {h : Harvest α}
    (hh : p.gather limit c = some h) :
    ∃ left k, limit = left + as.length ∧ p.gather left d = some k := by
  induction hs generalizing limit h with
  | nil c => exact ⟨limit, h, rfl, hh⟩
  | cons ht _ ih =>
    obtain ⟨hc, ⟨log, hp⟩, hd⟩ := ht
    cases limit with
    | zero => cases hh
    | succ limit =>
      rw [gather_turn hc hp hd] at hh
      obtain ⟨k, hk, -⟩ := Option.map_eq_some_iff.mp hh
      obtain ⟨left, k', hleft, hk'⟩ := ih hk
      exact ⟨left, k', by rw [hleft, List.length_cons]; omega, hk'⟩

/-- A repetition that comes back to a place it has been at never ends. -/
theorem a_repetition_that_comes_back_never_ends (hs : Chain p.Turn c as c) (hne : as ≠ [])
    (limit : Nat) : p.gather limit c = none := by
  induction limit using Nat.strongRecOn with
  | ind limit ih =>
    rcases hh : p.gather limit c with _ | h
    · rfl
    · obtain ⟨left, k, hleft, hk⟩ := gather_behind_chain hs hh
      have hpos : 0 < as.length := List.length_pos_iff.mpr hne
      rw [ih left (by omega)] at hk
      cases hk

/-! ## The law -/

/-- A repetition follows the documented rule, with any number of turns, exactly if no turn that
it comes to goes back. Then each value that it keeps is that of a turn that ends further on, a
success that does not advance ends it and is not kept, and it ends if the runs of `p` that it
comes to end: positions are words of a machine, so they have a bound. -/
theorem a_repetition_goes_forward_iff_no_turn_goes_back (p : Parser α) (c : Cursor) :
    ((∀ limit, p.gather limit c = p.gatherForward limit c) ↔ p.GoesForward c) ∧
    (p.GoesForward c →
      (∀ limit h, p.gather limit c = some h → Chain p.ForwardTurn c h.values h.stop) ∧
      (∀ as d a e log, Chain p.Turn c as d → d.isEmpty = false →
        p d = some ⟨.success a e, log⟩ → e.position ≤ d.position →
        ∀ limit, p.gather (limit + 1) d = some ⟨[], d, log⟩) ∧
      ∀ bound, (∀ as d, Chain p.Turn c as d → d.position ≤ bound ∧ ∃ r, p d = some r) →
        ∃ limit h, p.gather limit c = some h) := by
  refine ⟨⟨goesForward_of_agree, gather_eq_gatherForward⟩, fun h => ⟨?_, ?_, ?_⟩⟩
  · intro limit k hk
    rw [gather_eq_gatherForward h] at hk
    exact chain_of_gatherForward hk
  · intro as d a e log hs hd hp hle limit
    have heq : e.position = d.position := by
      by_contra hne
      have := h as d a e hs ⟨hd, ⟨log, hp⟩, hne⟩
      omega
    simp only [gather, hd, hp, heq, if_true, if_false, Bool.false_eq_true]
  · intro bound hp
    obtain ⟨limit, k, hk⟩ := gatherForward_ends bound fun as d hs =>
      hp as d (hs.mono fun _ _ _ ht => ht.1)
    exact ⟨limit, k, by rw [gather_eq_gatherForward h, hk]⟩

/-- A jump back is kept as a turn, though the documented rule stops before it. A choice between
a letter and a jump back to it answers everywhere, and repeating it never ends. -/
theorem a_jump_back_is_kept_and_may_never_end :
    ((⟨[]⟩ : Grammar).parse (.jump 0)).gather 3 ((Cursor.start "ab").advance 1) =
      some ⟨[.null], .start "ab", []⟩ ∧
    ((⟨[]⟩ : Grammar).parse (.jump 0)).gatherForward 3 ((Cursor.start "ab").advance 1) =
      some ⟨[], (Cursor.start "ab").advance 1, []⟩ ∧
    (∀ c, ∃ r, (⟨[]⟩ : Grammar).parse (.choice [.char 'a', .jump 0]) c = some r) ∧
    ∀ limit, ((⟨[]⟩ : Grammar).parse (.choice [.char 'a', .jump 0])).gather limit
      (.start "ab") = none := by
  refine ⟨by decide, by decide, ?_, ?_⟩
  · intro c
    have hends : ∃ r, (⟨[]⟩ : Grammar).parser 2 (.choice [.char 'a', .jump 0]) c = some r := by
      by_cases hc : c.peek = some 'a'
      · refine ⟨⟨.success (.text "a") (c.advance 1), []⟩, ?_⟩
        simp only [Grammar.parser, Grammar.step, List.map, choice, List.foldr, orElse, Parser.map,
          settle, char, hc, if_true, accept]
        rfl
      · refine ⟨⟨.success .null ((Cursor.start c.text).advance 0), []⟩, ?_⟩
        simp only [Grammar.parser, Grammar.step, List.map, choice, List.foldr, orElse, Parser.map,
          settle, char, hc, if_false, refuse]
        rfl
    obtain ⟨r, hr⟩ := hends
    exact ⟨r, Grammar.parser_mono _ (by decide) hr⟩
  · have h1 : ((⟨[]⟩ : Grammar).parse (.choice [.char 'a', .jump 0])).Turn (.start "ab")
        (.text "a") ((Cursor.start "ab").advance 1) := ⟨by decide, ⟨[], by decide⟩, by decide⟩
    have h2 : ((⟨[]⟩ : Grammar).parse (.choice [.char 'a', .jump 0])).Turn
        ((Cursor.start "ab").advance 1) .null (.start "ab") :=
      ⟨by decide, ⟨[], by decide⟩, by decide⟩
    exact a_repetition_that_comes_back_never_ends (.cons h1 (.cons h2 (.nil _))) (by simp)

end Parser

end TextParsers
