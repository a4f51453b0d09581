-- What a diagnostic keeps of a failure. It has the message, the position and what was left,
-- so of two failures in one text it tells all there is to tell, and its display does too: the
-- digits of the position end where the message begins, whatever the message is.
import TextParsers.Diagnostic
import TextParsers.Proofs.CharacterRuns
import TextParsers.Proofs.ReachedCursors
namespace TextParsers

/-! ## What is displayed -/

/-- What a display has behind the position. -/
def Diagnostic.ending (expected : String) : List Char :=
  if expected = "" then [] else ':' :: ' ' :: expected.toList

theorem Diagnostic.toList_display (x : Diagnostic) :
    x.display.toList =
      "parse error at offset ".toList ++ (Nat.toDigits 10 x.position ++ ending x.expected) := by
  unfold Diagnostic.display Diagnostic.ending
  by_cases he : x.expected = ""
  · simp [he, Nat.toList_repr]
  · simp [he, Nat.toList_repr]

theorem Diagnostic.ending_inj {e e' : String} : ending e = ending e' ↔ e = e' := by
  unfold Diagnostic.ending
  by_cases he : e = ""
  · by_cases he' : e' = ""
    · simp [he, he']
    · simp [he, he', Ne.symm he']
  · by_cases he' : e' = ""
    · simp [he, he']
    · simp [he, he', String.toList_inj]

/-- The digits of the position end where the ending begins. -/
theorem Diagnostic.stops_ending (e : String) : Stops Char.isDigit (ending e) := by
  unfold Diagnostic.ending
  by_cases he : e = ""
  · simp [he]
  · simp [he]

theorem Diagnostic.display_inj {x y : Diagnostic} :
    x.display = y.display ↔ x.position = y.position ∧ x.expected = y.expected := by
  constructor
  · intro h
    have hlist := congrArg String.toList h
    rw [toList_display, toList_display, List.append_cancel_left_eq] at hlist
    have hposition : x.position = y.position := by
      have hdigits := congrArg (List.takeWhile Char.isDigit) hlist
      rw [takeWhile_append_of_stops (isDigit_toDigits _) (stops_ending _),
        takeWhile_append_of_stops (isDigit_toDigits _) (stops_ending _)] at hdigits
      have hread := congrArg (Nat.ofDigitChars 10 · 0) hdigits
      simpa only [Nat.ofDigitChars_ten_toDigits] using hread
    rw [hposition, List.append_cancel_left_eq] at hlist
    exact ⟨hposition, ending_inj.mp hlist⟩
  · intro ⟨hposition, hexpected⟩
    simp only [display, hposition, hexpected]

/-! ## What is kept -/

section

variable {e e' : String} {c d : Cursor}

theorem Diagnostic.ofCursor_inj :
    Diagnostic.ofCursor e c = .ofCursor e' d ↔
      e = e' ∧ c.position = d.position ∧ c.rest = d.rest := by
  simp [Diagnostic.ofCursor, Cursor.remainder, String.ofList_inj]

variable (hc : c.Consistent) (hd : d.Consistent)
include hc hd

/-- What is left at a position is the text from there on, so that and the position show how long
the text is. -/
theorem Cursor.Consistent.same_rest_iff (hposition : c.position = d.position) :
    c.rest = d.rest ↔ c.text.length = d.text.length ∧
      c.text.toList.drop c.position = d.text.toList.drop d.position := by
  rw [← hc.rest_eq, ← hd.rest_eq]
  constructor
  · intro h
    rw [← hc.position_add_length, ← hd.position_add_length, hposition, h]
    exact ⟨rfl, rfl⟩
  · exact And.right

theorem Cursor.Consistent.eq_iff_position_eq (htext : c.text = d.text) :
    c = d ↔ c.position = d.position := by
  constructor
  · intro h
    rw [h]
  · exact hc.eq_of_position_eq hd htext

end

/-! ## The law -/

/-- A failure turns into a diagnostic that keeps its message, its position and what was left. Two
failures in one text are the same exactly if their diagnostics are, and exactly if these display the
same. In any two texts the diagnostics are the same exactly if the messages are, the texts are of
one length, and they agree from the one position on; and they display the same exactly if positions
and messages are the same. -/
theorem a_diagnostic_loses_only_what_was_consumed {α : Type} (e e' : String) (c d : Cursor)
    (hc : c.Reached) (hd : d.Reached) :
    ∃ x y : Diagnostic,
      (Outcome.failure e c : Outcome α).toExcept = .error x ∧
      (Outcome.failure e' d : Outcome α).toExcept = .error y ∧
      (c.text = d.text →
        ((Outcome.failure e c : Outcome α) = .failure e' d ↔ x = y) ∧
        (x = y ↔ x.display = y.display)) ∧
      (x = y ↔ e = e' ∧ c.text.length = d.text.length ∧ c.position = d.position ∧
        c.text.toList.drop c.position = d.text.toList.drop d.position) ∧
      (x.display = y.display ↔ c.position = d.position ∧ e = e') := by
  have hc := hc.consistent
  have hd := hd.consistent
  have hdisplay : (Diagnostic.ofCursor e c).display = (Diagnostic.ofCursor e' d).display ↔
      c.position = d.position ∧ e = e' := Diagnostic.display_inj
  refine ⟨.ofCursor e c, .ofCursor e' d, rfl, rfl, fun htext => ?_, ?_, hdisplay⟩
  · have hsame := hc.eq_iff_position_eq hd htext
    have hkept : Diagnostic.ofCursor e c = .ofCursor e' d ↔ c.position = d.position ∧ e = e' := by
      rw [Diagnostic.ofCursor_inj]
      constructor
      · intro ⟨he, hposition, _⟩
        exact ⟨hposition, he⟩
      · intro ⟨hposition, he⟩
        exact ⟨he, hposition, by rw [hsame.mpr hposition]⟩
    rw [hkept, hdisplay, Outcome.failure.injEq, hsame]
    exact ⟨and_comm, Iff.rfl⟩
  · rw [Diagnostic.ofCursor_inj]
    constructor
    · intro ⟨he, hposition, hrest⟩
      obtain ⟨hlength, hagree⟩ := (hc.same_rest_iff hd hposition).mp hrest
      exact ⟨he, hlength, hposition, hagree⟩
    · intro ⟨he, hlength, hposition, hagree⟩
      exact ⟨he, hposition, (hc.same_rest_iff hd hposition).mpr ⟨hlength, hagree⟩⟩

/-- A message that reads like a position: the diagnostic is the same behind two first characters of
different lengths, and is displayed as neither the same message at the start of the text nor its
position alone. -/
theorem a_message_of_digits_behind_two_texts :
    let c := (Cursor.start "éb").advance 1
    let d := (Cursor.start "ab").advance 1
    c.Reached ∧ d.Reached ∧ (Cursor.start "éb").Reached ∧
    Diagnostic.ofCursor "0: 1" c = .ofCursor "0: 1" d ∧
    (Diagnostic.ofCursor "0: 1" c).display ≠
      (Diagnostic.ofCursor "0: 1" (.start "éb")).display ∧
    (Diagnostic.ofCursor "0: 1" c).display ≠ (Diagnostic.ofCursor "" c).display := by
  intro c d
  have hc : c.Reached := .advance (.start _) 1
  have hd : d.Reached := .advance (.start _) 1
  have hs : (Cursor.start "éb").Reached := .start _
  refine ⟨hc, hd, hs, ?_, ?_, ?_⟩
  · obtain ⟨x, y, hx, hy, -, hsame, -⟩ :=
      @a_diagnostic_loses_only_what_was_consumed Unit "0: 1" "0: 1" c d hc hd
    cases hx
    cases hy
    exact hsame.mpr (by decide)
  · obtain ⟨x, y, hx, hy, htext, -⟩ :=
      @a_diagnostic_loses_only_what_was_consumed Unit "0: 1" "0: 1" c (.start "éb") hc hs
    cases hx
    cases hy
    obtain ⟨hsame, hshown⟩ := htext rfl
    rw [ne_eq, ← hshown, ← hsame]
    decide
  · obtain ⟨x, y, hx, hy, -, -, hshown⟩ :=
      @a_diagnostic_loses_only_what_was_consumed Unit "0: 1" "" c c hc hc
    cases hx
    cases hy
    rw [ne_eq, hshown]
    decide

end TextParsers
