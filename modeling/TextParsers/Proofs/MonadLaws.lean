-- Parsers one after the other obey the laws of a monad, logs included. The longer
-- combinators are written with these, so that a fact about one parser after another
-- carries over to each of them.
import TextParsers.Parser.Repetition
import TextParsers.Parser.Sequence
namespace TextParsers

variable {α β γ : Type}

/-! ## The laws -/

theorem Outcome.mapValue_id (o : Outcome α) : o.mapValue id = o := by
  cases o <;> rfl

theorem Outcome.mapValue_mapValue (o : Outcome α) (f : α → β) (g : β → γ) :
    (o.mapValue f).mapValue g = o.mapValue fun a => g (f a) := by
  cases o <;> rfl

namespace Parser

theorem map_id (p : Parser α) : p.map id = p := by
  funext c
  simp [Parser.map, Parser.settle, Outcome.mapValue_id]

theorem settle_settle (p : Parser α) (f : Cursor → Outcome α → Outcome β)
    (g : Cursor → Outcome β → Outcome γ) :
    (p.settle f).settle g = p.settle fun c o => g c (f c o) := by
  funext c
  simp only [settle, Option.map_map]
  rfl

theorem map_map (p : Parser α) (f : α → β) (g : β → γ) :
    (p.map f).map g = p.map fun a => g (f a) := by
  unfold Parser.map
  rw [settle_settle]
  simp only [Outcome.mapValue_mapValue]

theorem accept_bind (a : α) (f : α → Parser β) : (accept a 0).bind f = f a := by
  funext c
  simp [Parser.bind, accept, Reply.after]

theorem bind_accept (p : Parser α) (f : α → β) :
    (p.bind fun a => accept (f a) 0) = p.map f := by
  funext c
  unfold Parser.bind Parser.map Parser.settle accept
  rcases p c with _ | ⟨⟨a, d⟩ | ⟨e, d⟩, log⟩
  · rfl
  · simp [Reply.after, Outcome.mapValue]
  · rfl

theorem bind_bind (p : Parser α) (f : α → Parser β) (g : β → Parser γ) :
    (p.bind f).bind g = p.bind fun a => (f a).bind g := by
  funext c
  unfold Parser.bind
  rcases hp : p c with _ | ⟨⟨a, d⟩ | ⟨e, d⟩, log⟩
  · simp only
  · rcases hf : f a d with _ | ⟨⟨b, d'⟩ | ⟨e, d'⟩, log'⟩
    · simp [hf]
    · simp [hf, Reply.after, Function.comp_def]
    · simp [hf, Reply.after]
  · simp only

instance : LawfulMonad Parser :=
  LawfulMonad.mk' Parser map_id accept_bind bind_bind (fun _ _ => rfl) (fun _ _ => rfl)
    (fun _ _ => rfl) (fun f p => bind_accept p f) (fun _ _ => rfl)

/-- Two parsers succeed one after the other if the first does, and the second from there. -/
theorem bind_eq_success_iff {p : Parser α} {f : α → Parser β} {c e : Cursor} {b : β} {log : Log} :
    (p >>= f) c = some ⟨.success b e, log⟩ ↔
      ∃ a d l m, p c = some ⟨.success a d, l⟩ ∧ f a d = some ⟨.success b e, m⟩ ∧
        log = l ++ m := by
  show Parser.bind p f c = _ ↔ _
  unfold Parser.bind
  constructor
  · intro h
    rcases hp : p c with _ | ⟨⟨a, d⟩ | ⟨e', d⟩, l⟩
    · simp [hp] at h
    · simp only [hp, Option.map_eq_some_iff] at h
      obtain ⟨⟨o, m⟩, hf, hlog⟩ := h
      cases hlog
      exact ⟨a, d, l, m, rfl, hf, rfl⟩
    · simp [hp] at h
  · rintro ⟨a, d, l, m, hp, hf, rfl⟩
    simp [hp, hf, Reply.after]

/-! ## Combinators as parsers one after the other -/

theorem all_cons (p : Parser α) (ps : List (Parser α)) :
    all (p :: ps) = p >>= fun a => (all ps).map (a :: ·) :=
  bind_congr fun _ => bind_accept _ _

theorem pair_eq_bind (p : Parser α) (q : Parser β) :
    p.pair q = p >>= fun a => q.map (a, ·) := by
  funext c
  show p.pair q c = Parser.bind p _ c
  unfold Parser.pair Parser.bind
  rcases p c with _ | ⟨⟨a, d⟩ | ⟨e, d⟩, log⟩
  · rfl
  · simp only [Parser.map, Parser.settle, Option.map_map]
    rfl
  · rfl

/-- A row reads what its members read one after another. -/
theorem row_eq_all (ps : List (Parser α)) : row ps = all ps := by
  induction ps with
  | nil => rfl
  | cons p ps ih =>
    rw [all_cons]
    cases ps with
    | nil => exact (bind_accept p _).symm
    | cons q qs =>
      unfold row
      rw [ih, pair_eq_bind]
      refine (map_bind _ p _).trans (bind_congr fun a => ?_)
      exact map_map (all (q :: qs)) (a, ·) fun x => x.1 :: x.2

theorem all_singleton (p : Parser α) : all [p] = p.map ([·]) := (row_eq_all [p]).symm

theorem many1_eq_bind (turns : Nat) (p : Parser α) :
    p.many1 turns = p >>= fun a => (p.many turns).map (a :: ·) := by
  funext c
  show p.many1 turns c = Parser.bind p _ c
  unfold Parser.many1 Parser.bind
  rcases p c with _ | ⟨⟨a, d⟩ | ⟨e, d⟩, log⟩
  · rfl
  · simp only [Parser.map, Parser.settle, Parser.many, Option.map_map]
    rfl
  · rfl

/-- The outcome of a run that a count has come to, after `seen` of `n` successes. -/
def counted (n seen : Nat) (c : Cursor) : Outcome α → Outcome α
  | .success a d => .success a d
  | .failure .. => .failure (Refusal.shortCount n seen).wording c

theorem countFrom_succ_eq_bind (p : Parser α) (seen left : Nat) :
    p.countFrom seen (left + 1) =
      p.settle (counted (seen + left + 1) seen) >>= fun a =>
        (p.countFrom (seen + 1) left).map (a :: ·) := by
  funext c
  show p.countFrom seen (left + 1) c = Parser.bind _ _ c
  conv => lhs; unfold Parser.countFrom
  unfold Parser.bind Parser.settle
  rcases p c with _ | ⟨⟨a, d⟩ | ⟨e, d⟩, log⟩
  · rfl
  · simp only [Option.map_some, counted, Parser.map, Parser.settle, Option.map_map]
    rfl
  · rfl

end Parser

end TextParsers
