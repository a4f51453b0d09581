-- What a choice answers. Its alternatives are all tried at one place, so those that fail
-- before the first success leave nothing but their logs, and the outcome is that of the
-- first success. So alternatives that fail may be left out, the order matters only where
-- two of them succeed, and a choice inside a choice may be written out.
import TextParsers.Proofs.DerivedCombinators
import TextParsers.Proofs.MaximalChains
namespace TextParsers

variable {α : Type} {c d : Cursor} {log : Log}

namespace Parser

variable {p q : Parser α} {ps qs : List (Parser α)}

/-! ## Alternatives that fail -/

/-- All of the parsers fail at a place. Their logs follow one another. -/
inductive AllFail : List (Parser α) → Cursor → Log → Prop
  | nil (c : Cursor) : AllFail [] c []
  | cons {p : Parser α} {ps : List (Parser α)} {c x : Cursor} {e : String} {l m : Log}
      (h : p c = some ⟨.failure e x, l⟩) (hs : AllFail ps c m) : AllFail (p :: ps) c (l ++ m)

/-- Behind alternatives that fail, the others are tried where those were. -/
theorem foldr_orElse_of_allFail (hs : AllFail ps c log) (q : Parser α) :
    ps.foldr orElse q c = (q c).map (·.after log) := by
  induction hs with
  | nil c => exact (congrFun Option.map_id (q c)).symm
  | cons h _ ih =>
    rw [List.foldr_cons, orElse_of_failure h, ih, Option.map_map]
    simp only [Function.comp_def, Reply.after, List.append_assoc]

/-! ## What a choice answers -/

theorem choice_of_allFail (hs : AllFail ps c log) :
    choice ps c = some ⟨.failure "" c, log ++ [.noAlternative c.position ps.length]⟩ :=
  foldr_orElse_of_allFail hs _

theorem choice_append_of_allFail (hs : AllFail ps c log) (p : Parser α) (after : List (Parser α)) :
    choice (ps ++ p :: after) c =
      (p.orElse (after.foldr orElse (noAlternative (ps ++ p :: after).length)) c).map
        (·.after log) := by
  unfold choice
  rw [List.foldr_append, foldr_orElse_of_allFail hs, List.foldr_cons]

/-- How alternatives end: behind some that fail there is the first that succeeds, or the first that
does not end, or all of them fail. -/
inductive Settled (ps : List (Parser α)) (c : Cursor) : Option (Reply α) → Prop
  | success {before after : List (Parser α)} {p : Parser α} {a : α} {d : Cursor} {l m : Log}
      (hps : ps = before ++ p :: after) (hs : AllFail before c l)
      (hp : p c = some ⟨.success a d, m⟩) : Settled ps c (some ⟨.success a d, l ++ m⟩)
  | failure {l : Log} (hs : AllFail ps c l) :
      Settled ps c (some ⟨.failure "" c, l ++ [.noAlternative c.position ps.length]⟩)
  | silence {before after : List (Parser α)} {p : Parser α} {l : Log}
      (hps : ps = before ++ p :: after) (hs : AllFail before c l) (hp : p c = none) :
      Settled ps c none

theorem exists_settled (ps : List (Parser α)) (c : Cursor) : ∃ y, Settled ps c y := by
  induction ps with
  | nil => exact ⟨_, .failure (.nil c)⟩
  | cons p ps ih =>
    rcases hp : p c with _ | ⟨⟨a, d⟩ | ⟨e, x⟩, l⟩
    · exact ⟨_, .silence (List.nil_append _).symm (.nil c) hp⟩
    · exact ⟨_, .success (List.nil_append _).symm (.nil c) hp⟩
    · obtain ⟨y, hy⟩ := ih
      cases hy with
      | success hps hs hq => exact ⟨_, .success (congrArg (p :: ·) hps) (.cons hp hs) hq⟩
      | failure hs => exact ⟨_, .failure (.cons hp hs)⟩
      | silence hps hs hq => exact ⟨_, .silence (congrArg (p :: ·) hps) (.cons hp hs) hq⟩

theorem Settled.choice_eq {y : Option (Reply α)} (h : Settled ps c y) : choice ps c = y := by
  cases h with
  | success hps hs hp =>
    rw [hps, choice_append_of_allFail hs, orElse_of_success hp]
    rfl
  | failure hs => exact choice_of_allFail hs
  | silence hps hs hp =>
    rw [hps, choice_append_of_allFail hs, orElse_of_silence hp]
    rfl

theorem settled_choice (ps : List (Parser α)) (c : Cursor) : Settled ps c (choice ps c) := by
  obtain ⟨y, hy⟩ := exists_settled ps c
  rwa [hy.choice_eq]

theorem choice_eq_success_iff {a : α} :
    choice ps c = some ⟨.success a d, log⟩ ↔
      ∃ before p after l m, ps = before ++ p :: after ∧ AllFail before c l ∧
        p c = some ⟨.success a d, m⟩ ∧ log = l ++ m := by
  constructor
  · intro h
    have hsettled := settled_choice ps c
    rw [h] at hsettled
    cases hsettled with
    | success hps hs hp => exact ⟨_, _, _, _, _, hps, hs, hp, rfl⟩
  · rintro ⟨before, p, after, l, m, hps, hs, hp, rfl⟩
    exact (Settled.success hps hs hp).choice_eq

theorem choice_eq_failure_iff {e : String} :
    choice ps c = some ⟨.failure e d, log⟩ ↔
      ∃ l, AllFail ps c l ∧ e = "" ∧ d = c ∧
        log = l ++ [.noAlternative c.position ps.length] := by
  constructor
  · intro h
    have hsettled := settled_choice ps c
    rw [h] at hsettled
    cases hsettled with
    | failure hs => exact ⟨_, hs, rfl, rfl, rfl⟩
  · rintro ⟨l, hs, rfl, rfl, rfl⟩
    exact choice_of_allFail hs

theorem choice_eq_none_iff :
    choice ps c = none ↔
      ∃ before p after l, ps = before ++ p :: after ∧ AllFail before c l ∧ p c = none := by
  constructor
  · intro h
    have hsettled := settled_choice ps c
    rw [h] at hsettled
    cases hsettled with
    | silence hps hs hp => exact ⟨_, _, _, _, hps, hs, hp⟩
  · rintro ⟨before, p, after, l, hps, hs, hp⟩
    exact (Settled.silence hps hs hp).choice_eq

/-! ## The outcome of a choice -/

/-- How the parser ends at a place, whatever it logs there. -/
def outcome? (p : Parser α) (c : Cursor) : Option (Outcome α) := (p c).map (·.outcome)

theorem outcome?_orElse (p q : Parser α) (c : Cursor) :
    (p.orElse q).outcome? c =
      (p.outcome? c).bind fun o => if o.isSuccess then some o else q.outcome? c := by
  unfold outcome? orElse
  rcases p c with _ | ⟨⟨a, d⟩ | ⟨e, x⟩, l⟩
  · rfl
  · rfl
  · simp only [Option.map_map, Option.map_some, Option.bind_some]
    rfl

/-- What comes behind alternatives matters only by its outcome. -/
theorem outcome?_foldr_orElse_congr (ps : List (Parser α)) (h : p.outcome? c = q.outcome? c) :
    (ps.foldr orElse p).outcome? c = (ps.foldr orElse q).outcome? c := by
  induction ps with
  | nil => exact h
  | cons k ps ih =>
    rw [List.foldr_cons, List.foldr_cons, outcome?_orElse, outcome?_orElse, ih]

/-- The first alternative decides, unless it fails. -/
theorem outcome?_choice_cons (p : Parser α) (ps : List (Parser α)) (c : Cursor) :
    (choice (p :: ps)).outcome? c =
      (p.outcome? c).bind fun o => if o.isSuccess then some o else (choice ps).outcome? c := by
  -- How many alternatives there were is logged, and does not show in the outcome.
  have hcount : (ps.foldr orElse (noAlternative (p :: ps).length)).outcome? c =
      (choice ps).outcome? c := outcome?_foldr_orElse_congr ps rfl
  unfold choice at hcount ⊢
  rw [List.foldr_cons, outcome?_orElse, hcount]

theorem outcome?_choice_append_congr (before : List (Parser α))
    (h : (choice ps).outcome? c = (choice qs).outcome? c) :
    (choice (before ++ ps)).outcome? c = (choice (before ++ qs)).outcome? c := by
  induction before with
  | nil => exact h
  | cons p before ih =>
    rw [List.cons_append, List.cons_append, outcome?_choice_cons, outcome?_choice_cons, ih]

/-! ## Other lists of alternatives -/

/-- The second list is the first with some parsers dropped, all of which fail at a place. -/
inductive Pruned (c : Cursor) : List (Parser α) → List (Parser α) → Prop
  | nil : Pruned c [] []
  | keep {ps qs : List (Parser α)} (p : Parser α) (h : Pruned c ps qs) :
      Pruned c (p :: ps) (p :: qs)
  | drop {p : Parser α} {ps qs : List (Parser α)} (hp : p.Fails c) (h : Pruned c ps qs) :
      Pruned c (p :: ps) qs

theorem Fails.outcome?_choice_cons (h : p.Fails c) (ps : List (Parser α)) :
    (choice (p :: ps)).outcome? c = (choice ps).outcome? c := by
  obtain ⟨e, x, l, hp⟩ := h
  have hout : p.outcome? c = some (.failure e x) := by rw [outcome?, hp, Option.map_some]
  rw [Parser.outcome?_choice_cons, hout]
  rfl

theorem Pruned.outcome?_choice_eq (h : Pruned c ps qs) :
    (choice qs).outcome? c = (choice ps).outcome? c := by
  induction h with
  | nil => rfl
  | keep p _ ih => rw [outcome?_choice_cons, outcome?_choice_cons, ih]
  | drop hp _ ih => rw [hp.outcome?_choice_cons, ih]

/-- The parser succeeds at a place. -/
def succeedsAt (c : Cursor) (p : Parser α) : Bool := (p c).any (·.outcome.isSuccess)

theorem fails_of_not_succeedsAt (hends : ∃ r, p c = some r) (h : succeedsAt c p = false) :
    p.Fails c := by
  obtain ⟨⟨⟨a, d⟩ | ⟨e, x⟩, l⟩, hp⟩ := hends
  · simp [succeedsAt, hp, Outcome.isSuccess] at h
  · exact ⟨e, x, l, hp⟩

/-- If at most one alternative succeeds, and all of them end, their order does not matter. -/
theorem outcome?_choice_of_perm (hperm : ps.Perm qs) (hends : ∀ p ∈ ps, ∃ r, p c = some r)
    (hone : ps.countP (succeedsAt c) ≤ 1) : (choice ps).outcome? c = (choice qs).outcome? c := by
  induction hperm with
  | nil => rfl
  | cons p _ ih =>
    have hone' := Nat.le_trans (List.sublist_cons_self p _).countP_le hone
    rw [outcome?_choice_cons, outcome?_choice_cons,
      ih (fun q hq => hends q (List.mem_cons_of_mem _ hq)) hone']
  | swap p q ps =>
    -- One of the two fails, and may as well stand behind the other.
    have hp := hends p (by simp)
    have hq := hends q (by simp)
    have hfails : p.Fails c ∨ q.Fails c := by
      cases hsp : succeedsAt c p with
      | false => exact .inl (fails_of_not_succeedsAt hp hsp)
      | true =>
        refine .inr (fails_of_not_succeedsAt hq ?_)
        by_contra hsq
        rw [Bool.not_eq_false] at hsq
        rw [List.countP_cons_of_pos hsq, List.countP_cons_of_pos hsp] at hone
        omega
    rcases hfails with h | h
    · rw [h.outcome?_choice_cons, outcome?_choice_cons q, outcome?_choice_cons q,
        h.outcome?_choice_cons]
    · rw [h.outcome?_choice_cons, outcome?_choice_cons p, outcome?_choice_cons p,
        h.outcome?_choice_cons]
  | trans hfirst _ ih ih' =>
    rw [ih hends hone]
    refine ih' (fun q hq => hends q (hfirst.mem_iff.mpr hq)) ?_
    rwa [← hfirst.countP_eq]

/-- A choice at the head of another may be replaced by its alternatives. -/
theorem outcome?_choice_choice (qs after : List (Parser α)) (c : Cursor) :
    (choice (choice qs :: after)).outcome? c = (choice (qs ++ after)).outcome? c := by
  induction qs with
  | nil => exact Fails.outcome?_choice_cons ⟨_, _, _, rfl⟩ after
  | cons q qs ih =>
    rw [List.cons_append, outcome?_choice_cons q, ← ih, outcome?_choice_cons, outcome?_choice_cons,
      outcome?_choice_cons]
    rcases q.outcome? c with _ | ⟨a, d⟩ | ⟨e, x⟩
    · rfl
    · rfl
    · rfl

/-! ## The law -/

/-- A choice succeeds exactly if one of its alternatives does and all before it fail, and then as
that one does: its value and its place, with the logs of those before it. It fails exactly if all
of them fail, without a message and where it stands. It does not end exactly if an alternative
does not and all before it fail. Its outcome stays if alternatives are dropped that fail, if
alternatives that end, and of which at most one succeeds, are put in another order, and if an
alternative that is itself a choice is replaced by its own alternatives. -/
theorem a_choice_takes_its_first_success (ps : List (Parser α)) (c : Cursor) :
    (∀ a d log, choice ps c = some ⟨.success a d, log⟩ ↔
      ∃ before p after l m, ps = before ++ p :: after ∧ AllFail before c l ∧
        p c = some ⟨.success a d, m⟩ ∧ log = l ++ m) ∧
    (∀ e d log, choice ps c = some ⟨.failure e d, log⟩ ↔
      ∃ l, AllFail ps c l ∧ e = "" ∧ d = c ∧
        log = l ++ [.noAlternative c.position ps.length]) ∧
    (choice ps c = none ↔
      ∃ before p after l, ps = before ++ p :: after ∧ AllFail before c l ∧ p c = none) ∧
    (∀ qs, Pruned c ps qs → (choice qs).outcome? c = (choice ps).outcome? c) ∧
    ((∀ p ∈ ps, ∃ r, p c = some r) → ps.countP (succeedsAt c) ≤ 1 →
      ∀ qs, ps.Perm qs → (choice qs).outcome? c = (choice ps).outcome? c) ∧
    ∀ before qs after, ps = before ++ choice qs :: after →
      (choice (before ++ qs ++ after)).outcome? c = (choice ps).outcome? c := by
  refine ⟨fun _ _ _ => choice_eq_success_iff, fun _ _ _ => choice_eq_failure_iff,
    choice_eq_none_iff, fun _ h => h.outcome?_choice_eq, ?_, ?_⟩
  · intro hends hone qs hperm
    exact (outcome?_choice_of_perm hperm hends hone).symm
  · rintro before qs after rfl
    rw [List.append_assoc]
    exact (outcome?_choice_append_congr before (outcome?_choice_choice qs after c)).symm

/-- Alternatives that fail behind characters they have read, and one that jumps back. -/
theorem a_choice_behind_two_that_fail_inside :
    let p := (⟨[]⟩ : Grammar).parser 4 (.all [.char 'é', .char 'a', .char 'z'])
    let q := (⟨[]⟩ : Grammar).parser 4 (.choice [.literal "éb", .row [.char 'x', .jump 0]])
    let r := (⟨[]⟩ : Grammar).parser 4 (.row [.char 'é', .jump 0])
    let c := (Cursor.start "xéa").advance 1
    let v : Value := .list [.text "é", .null]
    AllFail [p, q] c [.noAlternative 1 2] ∧
    choice [p, q, r] c = some ⟨.success v (.start "xéa"), [.noAlternative 1 2]⟩ ∧
    choice [p, q] c = some ⟨.failure "" c, [.noAlternative 1 2, .noAlternative 1 2]⟩ ∧
    Pruned c [p, q, r] [q, r] ∧ (choice [q, r]).outcome? c = some (.success v (.start "xéa")) ∧
    (choice [r, q, p]).outcome? c = some (.success v (.start "xéa")) ∧
    (choice [p, choice [q, r]]).outcome? c = some (.success v (.start "xéa")) := by
  intro p q r c v
  have hp : p c = some ⟨.failure " is not z" ((Cursor.start "xéa").advance 3), []⟩ := by decide
  have hq : q c = some ⟨.failure "" c, [.noAlternative 1 2]⟩ := by decide
  have hr : r c = some ⟨.success v (.start "xéa"), []⟩ := by decide
  have hfail : AllFail [p, q] c [.noAlternative 1 2] :=
    .cons (l := []) hp (.cons (m := []) hq (.nil c))
  have hpruned : Pruned c [p, q, r] [q, r] := .drop ⟨_, _, _, hp⟩ (.keep q (.keep r .nil))
  have hends : ∀ k ∈ [p, q, r], ∃ s, k c = some s := by simp [hp, hq, hr]
  have hone : [p, q, r].countP (succeedsAt c) ≤ 1 := by decide
  have hperm : [p, q, r].Perm [r, q, p] := (List.reverse_perm [p, q, r]).symm
  obtain ⟨hsuccess, -, -, hdropped, hordered, -⟩ := a_choice_takes_its_first_success [p, q, r] c
  obtain ⟨-, hfailure, -⟩ := a_choice_takes_its_first_success [p, q] c
  obtain ⟨-, -, -, -, -, hnested⟩ := a_choice_takes_its_first_success [p, choice [q, r]] c
  have hchoice := (hsuccess v (.start "xéa") _).mpr
    ⟨[p, q], r, [], _, _, rfl, hfail, hr, (List.append_nil _).symm⟩
  have hout : (choice [p, q, r]).outcome? c = some (.success v (.start "xéa")) := by
    rw [outcome?, hchoice, Option.map_some]
  exact ⟨hfail, hchoice, (hfailure _ _ _).mpr ⟨_, hfail, rfl, rfl, rfl⟩, hpruned,
    (hdropped _ hpruned).trans hout, (hordered hends hone _ hperm).trans hout,
    (hnested [p] [q, r] [] rfl).symm.trans hout⟩

end Parser

end TextParsers
