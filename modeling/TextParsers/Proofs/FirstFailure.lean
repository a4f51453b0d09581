-- Parsers one after another. A sequence is a relay: each member starts where the one
-- before it ended. If every member succeeds so does the sequence, with their values in
-- order, and the first that does not decides what the sequence answers. So a sequence
-- may be cut anywhere, and a row of pairs reads what the sequence reads.
import TextParsers.Proofs.CountedSequences
namespace TextParsers

variable {α : Type} {c d : Cursor} {as : List α}

namespace Parser

/-! ## Relays -/

/-- Parsers that succeed one after another, each at the place where the one before it ended, with
their values and their logs in order. -/
inductive Relay : List (Parser α) → Cursor → List α → Cursor → Log → Prop
  | nil (c : Cursor) : Relay [] c [] c []
  | cons {p : Parser α} {ps : List (Parser α)} {c d e : Cursor} {a : α} {as : List α}
      {l m : Log} (h : p c = some ⟨.success a d, l⟩) (hs : Relay ps d as e m) :
      Relay (p :: ps) c (a :: as) e (l ++ m)

variable {ps : List (Parser α)} {log : Log}

/-- Behind the members that have succeeded a sequence goes on with those that are left. -/
theorem all_append_of_relay (hs : Relay ps c as d log) (qs : List (Parser α)) :
    all (ps ++ qs) c = (all qs d).map (.behind as log) := by
  induction hs with
  | nil c => simp only [List.nil_append, Reply.behind_nil, Option.map_id_fun, id_eq]
  | cons h _ ih =>
    rw [List.cons_append, all_of_success h, ih, Option.map_map, Reply.behind_comp_behind,
      List.singleton_append]

theorem all_of_relay (hs : Relay ps c as d log) : all ps c = some ⟨.success as d, log⟩ := by
  have h := all_append_of_relay hs []
  rw [List.append_nil] at h
  simp [h, all, pure, accept, Reply.behind, Outcome.mapValue]

/-! ## What a sequence answers -/

/-- How parsers one after another end: all of them succeed, or behind some that do there is the
first that fails, or the first that does not end. -/
inductive Ends (ps : List (Parser α)) (c : Cursor) : Option (Reply (List α)) → Prop
  | success {as : List α} {d : Cursor} {log : Log} (hs : Relay ps c as d log) :
      Ends ps c (some ⟨.success as d, log⟩)
  | failure {before after : List (Parser α)} {p : Parser α} {as : List α} {d x : Cursor}
      {e : String} {l m : Log} (hps : ps = before ++ p :: after) (hs : Relay before c as d l)
      (hp : p d = some ⟨.failure e x, m⟩) : Ends ps c (some ⟨.failure e x, l ++ m⟩)
  | silence {before after : List (Parser α)} {p : Parser α} {as : List α} {d : Cursor} {l : Log}
      (hps : ps = before ++ p :: after) (hs : Relay before c as d l) (hp : p d = none) :
      Ends ps c none

theorem exists_ends (ps : List (Parser α)) (c : Cursor) : ∃ y, Ends ps c y := by
  induction ps generalizing c with
  | nil => exact ⟨_, .success (.nil c)⟩
  | cons p ps ih =>
    rcases hp : p c with _ | ⟨⟨a, d⟩ | ⟨e, x⟩, l⟩
    · exact ⟨_, .silence (List.nil_append _).symm (.nil c) hp⟩
    · obtain ⟨y, hy⟩ := ih d
      cases hy with
      | success hs => exact ⟨_, .success (.cons hp hs)⟩
      | failure hps hs hq => exact ⟨_, .failure (congrArg (p :: ·) hps) (.cons hp hs) hq⟩
      | silence hps hs hq => exact ⟨_, .silence (congrArg (p :: ·) hps) (.cons hp hs) hq⟩
    · exact ⟨_, .failure (List.nil_append _).symm (.nil c) hp⟩

/-- The sequence ends as its members do, whatever members come behind those that it ran. -/
theorem Ends.all_append {y : Option (Reply (List α))} (h : Ends ps c y)
    (hy : ∀ r, y = some r → r.outcome.isFailure = true) (qs : List (Parser α)) :
    all (ps ++ qs) c = y := by
  cases h with
  | success hs => cases hy _ rfl
  | failure hps hs hp =>
    rw [hps, List.append_assoc, all_append_of_relay hs, List.cons_append, all_of_failure hp]
    rfl
  | silence hps hs hp =>
    rw [hps, List.append_assoc, all_append_of_relay hs, List.cons_append, all_of_silence hp]
    rfl

theorem Ends.all_eq {y : Option (Reply (List α))} (h : Ends ps c y) : all ps c = y := by
  have hstop := h.all_append
  cases h with
  | success hs => exact all_of_relay hs
  | failure hps hs hp =>
    have h := hstop (by rintro r ⟨⟩; rfl) []
    rwa [List.append_nil] at h
  | silence hps hs hp =>
    have h := hstop (by rintro r ⟨⟩) []
    rwa [List.append_nil] at h

theorem ends_all (ps : List (Parser α)) (c : Cursor) : Ends ps c (all ps c) := by
  obtain ⟨y, hy⟩ := exists_ends ps c
  rwa [hy.all_eq]

theorem all_eq_success_iff : all ps c = some ⟨.success as d, log⟩ ↔ Relay ps c as d log := by
  refine ⟨fun h => ?_, all_of_relay⟩
  have hends := ends_all ps c
  rw [h] at hends
  cases hends with
  | success hs => exact hs

theorem all_eq_failure_iff {e : String} {x : Cursor} :
    all ps c = some ⟨.failure e x, log⟩ ↔
      ∃ before p after as d l m, ps = before ++ p :: after ∧ Relay before c as d l ∧
        p d = some ⟨.failure e x, m⟩ ∧ log = l ++ m := by
  constructor
  · intro h
    have hends := ends_all ps c
    rw [h] at hends
    cases hends with
    | failure hps hs hp => exact ⟨_, _, _, _, _, _, _, hps, hs, hp, rfl⟩
  · rintro ⟨before, p, after, as, d, l, m, hps, hs, hp, rfl⟩
    exact (Ends.failure hps hs hp).all_eq

theorem all_eq_none_iff :
    all ps c = none ↔
      ∃ before p after as d l, ps = before ++ p :: after ∧ Relay before c as d l ∧ p d = none := by
  constructor
  · intro h
    have hends := ends_all ps c
    rw [h] at hends
    cases hends with
    | silence hps hs hp => exact ⟨_, _, _, _, _, _, hps, hs, hp⟩
  · rintro ⟨before, p, after, as, d, l, hps, hs, hp⟩
    exact (Ends.silence hps hs hp).all_eq

/-! ## Sequences in two parts -/

theorem all_append_of_success (h : all ps c = some ⟨.success as d, log⟩) (qs : List (Parser α)) :
    all (ps ++ qs) c = (all qs d).map (.behind as log) :=
  all_append_of_relay (all_eq_success_iff.mp h) qs

theorem all_append_of_failure {e : String} {x : Cursor}
    (h : all ps c = some ⟨.failure e x, log⟩) (qs : List (Parser α)) :
    all (ps ++ qs) c = some ⟨.failure e x, log⟩ := by
  have hends := ends_all ps c
  rw [h] at hends
  exact hends.all_append (by rintro r ⟨⟩; rfl) qs

theorem all_append_of_silence (h : all ps c = none) (qs : List (Parser α)) :
    all (ps ++ qs) c = none := by
  have hends := ends_all ps c
  rw [h] at hends
  exact hends.all_append (by rintro r ⟨⟩) qs

/-- A sequence of two sequences reads what their members read in one, in two lists. -/
theorem all_pair_flatten (ps qs : List (Parser α)) :
    (all [all ps, all qs]).map List.flatten = all (ps ++ qs) := by
  funext c
  unfold Parser.map Parser.settle
  rcases h : all ps c with _ | ⟨⟨as, d⟩ | ⟨e, x⟩, l⟩
  · rw [all_of_silence h, all_append_of_silence h]
    rfl
  · rw [all_of_success h, all_append_of_success h, all_singleton]
    simp only [Parser.map, Parser.settle, Option.map_map]
    congr 1
    funext r
    simp [Reply.behind, Outcome.mapValue_mapValue]
  · rw [all_of_failure h, all_append_of_failure h]
    rfl

theorem map_toList_tuple {n : Nat} (ps : Tuple (Parser α) n) :
    (tuple ps).map Tuple.toList = all ps.toList := by
  induction n with
  | zero => exact (all_singleton _).symm
  | succ n ih =>
    obtain ⟨p, ps⟩ := ps
    simp only [Tuple.toList, tuple]
    rw [all_cons, ← ih, pair_eq_bind]
    refine (map_bind _ p _).trans (bind_congr fun a => ?_)
    have hpair := map_map (tuple ps) (a, ·) fun x => x.1 :: x.2.toList
    exact hpair.trans (map_map (tuple ps) Tuple.toList (a :: ·)).symm

/-! ## The law -/

/-- A sequence succeeds exactly if its members do one after another, each where the one before it
ended: with their values in order, at the last place, and with their logs in order. It fails
exactly if one member fails behind others that succeed, and then as that member does, with its
message and at its place. It does not end exactly if one member does not behind others that
succeed. A sequence of two lists of members is the sequence of the first and, if that succeeds,
the sequence of the second from where it ended, with the values of both; so is a sequence of the
two sequences, with its two lists of values run together. A row reads what the sequence of its
members does, and so does a tuple of parsers, its values read as a list. -/
theorem a_sequence_ends_at_its_first_failure (ps qs : List (Parser α)) (c : Cursor) :
    (∀ as d log, all ps c = some ⟨.success as d, log⟩ ↔ Relay ps c as d log) ∧
    (∀ e x log, all ps c = some ⟨.failure e x, log⟩ ↔
      ∃ before p after as d l m, ps = before ++ p :: after ∧ Relay before c as d l ∧
        p d = some ⟨.failure e x, m⟩ ∧ log = l ++ m) ∧
    (all ps c = none ↔
      ∃ before p after as d l, ps = before ++ p :: after ∧ Relay before c as d l ∧ p d = none) ∧
    (all (ps ++ qs) c =
      match all ps c with
      | none => none
      | some ⟨.failure e x, l⟩ => some ⟨.failure e x, l⟩
      | some ⟨.success as d, l⟩ =>
        (all qs d).map fun r => ⟨r.outcome.mapValue (as ++ ·), l ++ r.log⟩) ∧
    (all [all ps, all qs]).map List.flatten c = all (ps ++ qs) c ∧
    row ps c = all ps c ∧
    ∀ n (t : Tuple (Parser α) n), (tuple t).map Tuple.toList c = all t.toList c := by
  refine ⟨fun _ _ _ => all_eq_success_iff, fun _ _ _ => all_eq_failure_iff, all_eq_none_iff, ?_,
    congrFun (all_pair_flatten ps qs) c, congrFun (row_eq_all ps) c,
    fun n t => congrFun (map_toList_tuple t) c⟩
  rcases h : all ps c with _ | ⟨⟨as, d⟩ | ⟨e, x⟩, l⟩
  · exact all_append_of_silence h qs
  · exact all_append_of_success h qs
  · exact all_append_of_failure h qs

/-- A sequence that jumps back over a character of two bytes, and then fails inside a member that
has read it again. -/
theorem a_sequence_that_goes_back_and_fails_inside :
    let p := (⟨[]⟩ : Grammar).parser 3 (.char 'é')
    let q := (⟨[]⟩ : Grammar).parser 3 (.jump 0)
    let r := (⟨[]⟩ : Grammar).parser 3 (.all [.char 'é', .char 'b'])
    let c := Cursor.start "éa"
    Relay [p, q] c [.text "é", .null] c [] ∧
    all [p, q, r, p] c = some ⟨.failure "a is not b" (c.advance 1), []⟩ ∧
    all ([p, q] ++ [p, q]) c = some ⟨.success [.text "é", .null, .text "é", .null] c, []⟩ ∧
    row [p, q] c = some ⟨.success [.text "é", .null] c, []⟩ := by
  intro p q r c
  have hrelay : Relay [p, q] c [.text "é", .null] c [] :=
    .cons (l := []) (d := c.advance 1) (by decide) (.cons (l := []) (by decide) (.nil c))
  have hfails : r c = some ⟨.failure "a is not b" (c.advance 1), []⟩ := by decide
  obtain ⟨-, hfailure, -⟩ := a_sequence_ends_at_its_first_failure [p, q, r, p] [] c
  obtain ⟨hsuccess, -, -, htwice, -, hrow, -⟩ :=
    a_sequence_ends_at_its_first_failure [p, q] [p, q] c
  have hboth := (hsuccess _ _ _).mpr hrelay
  rw [hboth] at htwice hrow
  refine ⟨hrelay, ?_, htwice.trans ?_, hrow⟩
  · exact (hfailure _ _ _).mpr ⟨[p, q], r, [p], _, c, [], [], rfl, hrelay, hfails, rfl⟩
  · simp only [hboth]
    rfl

end Parser

end TextParsers
