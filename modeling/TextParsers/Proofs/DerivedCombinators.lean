-- Combinators that smaller ones would do for. A content between two characters, a
-- literal, a repetition that must begin and an optional parser are each written out in
-- full, and each is the same parser as the sequence or the choice that specifies it,
-- with the same values, messages, places and logs.
import TextParsers.Parser.Choice
import TextParsers.Proofs.MonadLaws
namespace TextParsers.Parser

variable {α β γ : Type} {p : Parser α} {c d : Cursor}

/-! ## Values changed on the way -/

theorem bind_of_map (p : Parser α) (f : α → β) (next : β → Parser γ) :
    p.map f >>= next = p >>= fun a => next (f a) :=
  bind_map_left f p next

theorem map_of_bind (p : Parser α) (next : α → Parser β) (f : β → γ) :
    (p >>= next).map f = p >>= fun a => (next a).map f :=
  map_bind f p next

theorem many1_eq_pair (turns : Nat) (p : Parser α) :
    p.many1 turns = (p.pair (p.many turns)).map fun (a, as) => a :: as := by
  rw [many1_eq_bind, pair_eq_bind, map_of_bind]
  refine bind_congr fun a => ?_
  rw [map_map]

/-! ## Between two characters -/

theorem surround_eq_bind (opening closing : Char) (p : Parser α) :
    p.surround opening closing = skip (char opening) >>= fun _ => p >>= fun a =>
      (skip (char closing)).map fun _ => a :=
  bind_congr fun _ => bind_congr fun a => bind_accept (skip (char closing)) fun _ => a

theorem surround_eq_pair (opening closing : Char) (p : Parser α) :
    p.surround opening closing =
      ((skip (char opening)).pair (p.pair (skip (char closing)))).map fun (_, a, _) => a := by
  rw [surround_eq_bind, pair_eq_bind, pair_eq_bind, map_of_bind]
  refine bind_congr fun _ => ?_
  rw [map_of_bind, map_of_bind]
  refine bind_congr fun a => ?_
  rw [map_map, map_map]

/-- The members of a sequence have values of one type, so the content's are put into it by `f`,
and the delimiters have a value there that is not looked at. -/
theorem surround_eq_all (opening closing : Char) (p : Parser α) (f : α → β) (blank : β) :
    (p.surround opening closing).map f =
      (all [(skip (char opening)).map fun _ => blank, p.map f,
        (skip (char closing)).map fun _ => blank]).map fun bs => bs.getD 1 blank := by
  rw [surround_eq_bind, map_of_bind, all_cons, bind_of_map, map_of_bind (skip (char opening))]
  refine bind_congr fun _ => ?_
  rw [map_of_bind, all_cons, bind_of_map, map_of_bind p, map_of_bind p]
  refine bind_congr fun a => ?_
  rw [all_singleton]
  simp only [map_map]
  rfl

/-! ## Characters in a row -/

theorem literalChars_cons (x : Char) (xs : List Char) :
    literalChars (x :: xs) = char x >>= fun a => (literalChars xs).map (a :: ·) := by
  funext c
  show (if c.peek = some x then (literalChars xs).map (x :: ·) (c.advance 1)
    else refuse (.otherChar c.peek x) c) = Parser.bind (char x) _ c
  unfold Parser.bind char
  by_cases h : c.peek = some x
  · simp [h, accept, Reply.after]
  · simp [h, refuse]

theorem literalChars_eq_all (xs : List Char) : literalChars xs = all (xs.map char) := by
  induction xs with
  | nil => rfl
  | cons x xs ih => rw [literalChars_cons, List.map_cons, all_cons, ih]

/-! ## A first success -/

theorem orElse_of_success {a : α} {log : Log} (hp : p c = some ⟨.success a d, log⟩)
    (q : Parser α) : p.orElse q c = some ⟨.success a d, log⟩ := by
  simp only [orElse, hp]

theorem orElse_of_failure {e : String} {log : Log} (hp : p c = some ⟨.failure e d, log⟩)
    (q : Parser α) : p.orElse q c = (q c).map (·.after log) := by
  simp only [orElse, hp]

theorem orElse_of_silence (hp : p c = none) (q : Parser α) : p.orElse q c = none := by
  simp only [orElse, hp]

theorem map_eq_settled (p : Parser α) (f : α → β) (c : Cursor) :
    p.map f c = (p c).map fun r => ⟨r.outcome.mapValue f, r.log⟩ := rfl

theorem optional_eq_choice (p : Parser α) :
    p.optional = choice [p.map some, accept none 0] := by
  funext c
  show p.optional c = (p.map some).orElse ((accept none 0).orElse (noAlternative 2)) c
  have hnone : (accept (none : Option α) 0).orElse (noAlternative 2) c =
      some ⟨.success none c, []⟩ := by
    rw [orElse_of_success rfl, Cursor.advance_zero]
  unfold optional settle
  rcases hp : p c with _ | ⟨⟨a, d⟩ | ⟨e, d⟩, log⟩
  · rw [orElse_of_silence (by rw [map_eq_settled, hp]; rfl)]
    rfl
  · rw [orElse_of_success (by rw [map_eq_settled, hp]; rfl)]
    rfl
  · rw [orElse_of_failure (by rw [map_eq_settled, hp]; rfl), hnone]
    simp [Reply.after]

/-! ## The law -/

/-- A content between two characters is the middle value of the sequence that skips the first,
reads the content and skips the second: of the three in a row, and of the three in a list, when
the values are put into one type. A literal is the sequence of its characters. A repetition that
must begin is the parser and then its repetition, the first value before the others. An optional
parser is the choice between the parser, its value marked as present, and a success without a
value and without a move. All of these are equal as parsers: at every place they have one
outcome and one log, or neither ends. -/
theorem combinators_equal_their_derivations (p : Parser α) (opening closing : Char) (s : String) :
    p.surround opening closing =
      ((skip (char opening)).pair (p.pair (skip (char closing)))).map (fun (_, a, _) => a) ∧
    (∀ (β : Type) (f : α → β) (blank : β), (p.surround opening closing).map f =
      (all [(skip (char opening)).map fun _ => blank, p.map f,
        (skip (char closing)).map fun _ => blank]).map fun bs => bs.getD 1 blank) ∧
    literal s = all (s.toList.map char) ∧
    (∀ turns, p.many1 turns = (p.pair (p.many turns)).map fun (a, as) => a :: as) ∧
    p.optional = choice [p.map some, accept none 0] :=
  ⟨surround_eq_pair opening closing p, fun _ f blank => surround_eq_all opening closing p f blank,
    literalChars_eq_all s.toList, fun turns => many1_eq_pair turns p, optional_eq_choice p⟩

end TextParsers.Parser
