-- The law of the places that parsing comes to. Whatever is done, forwards or
-- back, in one text or in several, the counts of a place fit its text, so its
-- position says all there is to say about it.
import TextParsers.Proofs.ConsistentCursors
import TextParsers.Proofs.GrammarRuns
namespace TextParsers

/-- The places that one can come to: the starts of texts, moves from there, and the ends of
successes and failures, of parses and runs of any grammar, and of repetitions. -/
inductive Cursor.Reached : Cursor → Prop
  | start (text : String) : Reached (.start text)
  | advance {c : Cursor} (h : Reached c) (n : Nat) : Reached (c.advance n)
  | accept {α : Type} {c : Cursor} (h : Reached c) {a : α} {n : Nat} {r : Reply α}
      (hr : Parser.accept a n c = some r) : Reached r.outcome.cursor
  | fail {α : Type} {c : Cursor} (h : Reached c) {e : String} {n : Nat} {r : Reply α}
      (hr : Parser.fail e n c = some r) : Reached r.outcome.cursor
  | parse {c : Cursor} (h : Reached c) {g : Grammar} {node : Node} {r : Reply Value}
      (hr : g.Answers node c r) : Reached r.outcome.cursor
  | run {g : Grammar} {node : Node} {text : String} {r : Reply Value}
      (hr : g.Runs node text r) : Reached r.outcome.cursor
  | gather {c : Cursor} (h : Reached c) {g : Grammar} {node : Node} {limit turns : Nat}
      {k : Parser.Harvest Value} (hk : (g.parser limit node).gather turns c = some k) :
      Reached k.stop

/-! ## The invariant at every place -/

/-- A leap starts a text afresh, so it keeps the invariant wherever it goes. -/
theorem bears_consistent (k : Node) : (Likeness.within Cursor.Consistent).Bears k := by
  cases k with
  | jump n =>
    apply Likeness.bears_within_jump
    intro c _
    exact Cursor.consistent_advance (Cursor.consistent_start c.text) n
  | enter text n =>
    apply Likeness.bears_within_enter
    exact Cursor.consistent_advance (Cursor.consistent_start text) n
  | nested node =>
    apply Likeness.bears_within_nested
    intro c _
    exact Cursor.consistent_start c.remainder
  | _ => trivial

theorem Grammar.consistent_of_parser {g : Grammar} {node : Node} {limit : Nat} {c : Cursor}
    {r : Reply Value} (hc : c.Consistent) (h : g.parser limit node c = some r) :
    r.outcome.cursor.Consistent :=
  Grammar.parser_keeps (fun _ n h => Cursor.consistent_advance h n)
    (fun k _ => bears_consistent k) hc h

theorem Cursor.Reached.consistent {c : Cursor} (h : c.Reached) : c.Consistent := by
  induction h with
  | start text => exact consistent_start text
  | advance _ n ih => exact consistent_advance ih n
  | accept _ hr ih =>
    cases hr
    exact consistent_advance ih _
  | fail _ hr ih =>
    cases hr
    exact consistent_advance ih _
  | parse _ hr ih =>
    obtain ⟨limit, hr⟩ := hr
    exact Grammar.consistent_of_parser ih hr
  | run hr =>
    obtain ⟨s, ⟨limit, hs⟩, rfl⟩ := Grammar.runs_iff.mp hr
    show s.outcome.cursor.Consistent
    exact Grammar.consistent_of_parser (consistent_start _) hs
  | gather _ hk ih =>
    exact Grammar.gather_keeps (fun _ n h => consistent_advance h n)
      (fun k _ => bears_consistent k) ih hk

/-! ## The law -/

/-- A place that is come to lies within its text. Its byte offset is that of its position,
so the text can be cut there, and what is left is what the cut leaves. Nothing is left exactly
at the end of the text. The place is the start of its text moved on by its position, so two
places in one text are the same if their positions are, and if what is left of them is. -/
theorem a_place_is_its_text_moved_on_by_its_position (c : Cursor) (h : c.Reached) :
    c.position ≤ c.text.length ∧
    c.offset = (String.ofList (c.text.toList.take c.position)).utf8ByteSize ∧
    (∃ hv : (⟨c.offset⟩ : String.Pos.Raw).IsValid c.text,
      (c.text.sliceFrom ⟨⟨c.offset⟩, hv⟩).copy = c.remainder) ∧
    c.remainder.toList = c.text.toList.drop c.position ∧
    c.position + c.remainder.length = c.text.length ∧
    (c.isEmpty = true ↔ c.peek = none) ∧
    (c.peek = none ↔ c.position = c.text.length) ∧
    c = (Cursor.start c.text).advance c.position ∧
    ∀ d : Cursor, d.Reached → d.text = c.text →
      (c = d ↔ c.position = d.position) ∧ (c.position = d.position ↔ c.remainder = d.remainder) := by
  have hc := h.consistent
  have hleft : c.remainder.toList = c.rest := String.toList_ofList
  refine ⟨hc.position_le, hc.offset_eq, hc.slice_eq, ?_, ?_, ?_, ?_, hc.eq_advance, ?_⟩
  · rw [hleft, hc.rest_eq]
  · rw [← String.length_toList, hleft, hc.position_add_length]
  · rw [hc.isEmpty_iff, Cursor.peek_eq_none_iff]
  · rw [Cursor.peek_eq_none_iff, hc.rest_eq_nil_iff]
  · intro d hd htext
    have hd := hd.consistent
    have hsame : c.position = d.position → c = d := hc.eq_of_position_eq hd htext.symm
    refine ⟨⟨congrArg _, hsame⟩, fun hp => congrArg _ (hsame hp), fun hr => ?_⟩
    have hlen := hc.position_add_length
    have hlen' := hd.position_add_length
    have hrest : c.rest = d.rest := String.ofList_inj.mp hr
    rw [htext, ← hrest] at hlen'
    omega

/-- A failure after a jump back, in a text whose characters take two and three bytes. -/
theorem the_place_of_a_failure_after_a_jump :
    (⟨"é日", ['日'], 2, 1⟩ : Cursor).Reached ∧
    (⟨"é日", ['日'], 2, 1⟩ : Cursor) = (Cursor.start "é日").advance 1 := by
  have hr : (⟨[]⟩ : Grammar).Answers (.all [.jump 1, .char 'z']) ((Cursor.start "é日").advance 2)
      ⟨.failure "日 is not z" ⟨"é日", ['日'], 2, 1⟩, []⟩ := ⟨3, by decide⟩
  have h : (⟨"é日", ['日'], 2, 1⟩ : Cursor).Reached := .parse (.advance (.start _) 2) hr
  obtain ⟨-, -, -, -, -, -, -, heq, -⟩ := a_place_is_its_text_moved_on_by_its_position _ h
  exact ⟨h, heq⟩

end TextParsers
