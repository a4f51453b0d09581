-- The invariant of one place. A cursor counts what lies behind it twice, in
-- characters and in bytes, and `Consistent` says that both counts fit its text.
-- A consistent cursor is the start of its text moved on by its position.
import TextParsers.Cursor
namespace TextParsers.Cursor

/-! ## The invariant -/

/-- The counts of a cursor, and the characters it keeps, fit its text. -/
structure Consistent (c : Cursor) : Prop where
  position_le : c.position ≤ c.text.length
  rest_eq : c.rest = c.text.toList.drop c.position
  offset_eq : c.offset = (String.ofList (c.text.toList.take c.position)).utf8ByteSize

theorem consistent_start (text : String) : (start text).Consistent where
  position_le := Nat.zero_le _
  rest_eq := rfl
  offset_eq := rfl

/-- A move keeps the invariant, however far it was meant to go. -/
theorem consistent_advance {c : Cursor} (h : c.Consistent) (n : Nat) :
    (c.advance n).Consistent := by
  obtain ⟨hle, hrest, hoff⟩ := h
  have hlen : c.rest.length = c.text.toList.length - c.position := by
    rw [hrest, List.length_drop]
  have hall : c.text.toList.length = c.text.length := String.length_toList
  refine ⟨?_, ?_, ?_⟩
  · rw [position_advance, text_advance]
    omega
  · rw [rest_advance, text_advance, position_advance]
    by_cases hn : n ≤ c.rest.length
    · rw [Nat.min_eq_left hn, hrest, List.drop_drop]
    · rw [List.drop_eq_nil_of_le (by omega), List.drop_eq_nil_of_le (by omega)]
  · have hpassed : c.text.toList.take (c.advance n).position =
        c.text.toList.take c.position ++ c.rest.take n := by
      rw [position_advance, List.take_add, ← hrest]
      congr 1
      by_cases hn : n ≤ c.rest.length
      · rw [Nat.min_eq_left hn]
      · rw [List.take_of_length_le (by omega), List.take_of_length_le (by omega)]
    rw [text_advance, hpassed, String.ofList_append, String.utf8ByteSize_append, ← hoff]
    rfl

/-! ## What the invariant gives -/

theorem peek_eq_none_iff (c : Cursor) : c.peek = none ↔ c.rest = [] := by
  unfold peek
  exact List.head?_eq_none_iff

namespace Consistent

variable {c d : Cursor}

theorem take_append_rest (h : c.Consistent) :
    c.text.toList.take c.position ++ c.rest = c.text.toList := by
  rw [h.rest_eq, List.take_append_drop]

theorem position_add_length (h : c.Consistent) : c.position + c.rest.length = c.text.length := by
  have := h.position_le
  rw [h.rest_eq, List.length_drop, String.length_toList]
  omega

theorem offset_add_utf8ByteSize (h : c.Consistent) :
    c.offset + c.remainder.utf8ByteSize = c.text.utf8ByteSize := by
  rw [h.offset_eq, ← String.utf8ByteSize_append, remainder, ← String.ofList_append,
    h.take_append_rest, String.ofList_toList]

/-- All bytes lie behind exactly if no character is left. -/
theorem isEmpty_iff (h : c.Consistent) : c.isEmpty = true ↔ c.rest = [] := by
  have hall := h.offset_add_utf8ByteSize
  have hleft : c.remainder.utf8ByteSize = 0 ↔ c.rest = [] := by
    rw [String.utf8ByteSize_eq_zero_iff, remainder, String.ofList_eq_empty_iff]
  rw [← hleft]
  simp only [isEmpty, beq_iff_eq]
  omega

theorem rest_eq_nil_iff (h : c.Consistent) : c.rest = [] ↔ c.position = c.text.length := by
  have := h.position_add_length
  rw [← List.length_eq_zero_iff]
  omega

/-- The text and the position determine everything else. -/
theorem eq_of_position_eq (hc : c.Consistent) (hd : d.Consistent) (htext : c.text = d.text)
    (hpos : c.position = d.position) : c = d := by
  obtain ⟨-, hcr, hco⟩ := hc
  obtain ⟨-, hdr, hdo⟩ := hd
  cases c
  cases d
  simp_all

/-- The text and the two counts say all there is to say. -/
theorem eq_iff (hc : c.Consistent) (hd : d.Consistent) :
    c = d ↔ c.text = d.text ∧ c.offset = d.offset ∧ c.position = d.position := by
  constructor
  · intro h
    rw [h]
    exact ⟨rfl, rfl, rfl⟩
  · intro ⟨htext, _, hposition⟩
    exact hc.eq_of_position_eq hd htext hposition

theorem eq_advance (h : c.Consistent) : c = (start c.text).advance c.position := by
  have hle := h.position_le
  apply h.eq_of_position_eq (consistent_advance (consistent_start _) _) rfl
  have : (start c.text).rest.length = c.text.length := String.length_toList
  rw [position_advance, this]
  simp only [start]
  omega

/-- The bytes of the text before and after the offset are two texts, and the second is what
is left. -/
theorem slice_eq (h : c.Consistent) :
    ∃ hv : (⟨c.offset⟩ : String.Pos.Raw).IsValid c.text,
      (c.text.sliceFrom ⟨⟨c.offset⟩, hv⟩).copy = c.remainder := by
  have hsplit : c.text = String.ofList (c.text.toList.take c.position) ++ c.remainder := by
    rw [remainder, ← String.ofList_append, h.take_append_rest, String.ofList_toList]
  have hend : (⟨c.offset⟩ : String.Pos.Raw) =
      (String.ofList (c.text.toList.take c.position)).rawEndPos := by
    rw [h.offset_eq]
    rfl
  have hv : (⟨c.offset⟩ : String.Pos.Raw).IsValid c.text :=
    String.Pos.Raw.isValid_iff_exists_append.mpr ⟨_, _, hsplit, hend⟩
  have hs : (⟨⟨c.offset⟩, hv⟩ : c.text.Pos).Splits
      (String.ofList (c.text.toList.take c.position)) c.remainder := ⟨hsplit, hend⟩
  exact ⟨hv, (String.Pos.splits _).eq_right hs⟩

end Consistent

end TextParsers.Cursor
