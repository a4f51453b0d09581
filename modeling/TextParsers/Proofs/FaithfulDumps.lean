-- What a debug text tells. It has all that is shown: of two places that are come to, of two
-- diagnostics, outcomes or reworded parsers, the texts are the same only if they are, on one line
-- and over several. Over several lines every line break belongs to the layout.
import TextParsers.Proofs.DumpOutlines
import TextParsers.Proofs.ReachedCursors
import Std.Data.String.ToInt
namespace TextParsers

/-! ## Trees that can be read -/

theorem Dump.mem_repr {n : Int} {x : Char} (hx : x ∈ (Int.repr n).toList) :
    x.isDigit = true ∨ x = '-' := by
  cases n with
  | ofNat m =>
    simp only [Int.repr, Nat.toList_repr] at hx
    exact .inl (isDigit_toDigits m x hx)
  | negSucc m =>
    simp only [Int.repr, String.toList_append, List.mem_append, Nat.toList_repr] at hx
    rcases hx with hx | hx
    · exact .inr (by simpa using hx)
    · exact .inl (isDigit_toDigits _ x hx)

theorem Dump.madeOf_intRepr (n : Int) : MadeOf isWordChar (Int.repr n) := by
  refine ⟨?_, ?_⟩
  · cases n with
    | ofNat m => simp [Int.repr, Nat.toList_repr, Nat.toDigits_ne_nil]
    | negSucc m => simp [Int.repr]
  · intro x hx
    rcases mem_repr hx with h | h
    · simp [isWordChar, h]
    · simp [isWordChar, h]

theorem Dump.madeOf_natRepr (n : Nat) : MadeOf isWordChar (Nat.repr n) := madeOf_intRepr n

theorem Cursor.sound_dump (c : Cursor) : c.dump.Sound := by
  simp only [dump, Dump.Sound, Dump.SoundMore, true_and, and_true]
  exact ⟨by decide, by decide, by decide, Dump.madeOf_natRepr _, by decide,
    Dump.madeOf_natRepr _⟩

theorem Diagnostic.sound_dump (x : Diagnostic) : x.dump.Sound := by
  simp only [dump, Dump.Sound, Dump.SoundMore, true_and, and_true]
  exact ⟨by decide, by decide, by decide, Dump.madeOf_natRepr _, by decide⟩

theorem Scalar.sound_dump (v : Scalar) : v.dump.Sound := by
  cases v with
  | unit =>
    have hunit : Dump.MadeOf Dump.isWordChar "()" := by decide
    exact hunit
  | int n => exact Dump.madeOf_intRepr n
  | text s => trivial

theorem Outcome.sound_dump (o : Outcome Scalar) : o.dump.Sound := by
  cases o with
  | success v c =>
    simp only [dump, Dump.Sound, Dump.SoundMore, and_true]
    exact ⟨by decide, by decide, v.sound_dump, by decide, c.sound_dump⟩
  | failure e c =>
    simp only [dump, Dump.Sound, Dump.SoundMore, true_and, and_true]
    exact ⟨by decide, by decide, by decide, c.sound_dump⟩

theorem Reworded.sound_dump (p : Reworded) : p.dump.Sound := by
  induction p with
  | core n => exact Dump.madeOf_intRepr n
  | layer inner ih =>
    simp only [dump, Dump.Sound, Dump.SoundMore, and_true]
    exact ⟨by decide, by decide, ih, by decide⟩

/-! ## What a tree tells -/

theorem Cursor.dump_inj {c d : Cursor} (hc : c.Consistent) (hd : d.Consistent) :
    c.dump = d.dump ↔ c = d := by
  rw [hc.eq_iff hd]
  simp [dump, Nat.repr_inj]

theorem Diagnostic.dump_inj {x y : Diagnostic} : x.dump = y.dump ↔ x = y := by
  obtain ⟨e, n, s⟩ := x
  obtain ⟨e', n', s'⟩ := y
  simp [dump, Nat.repr_inj]

theorem Scalar.dump_inj {v w : Scalar} : v.dump = w.dump ↔ v = w := by
  have hunit : ∀ n : Int, Int.repr n ≠ "()" := by
    intro n h
    have hmem : '(' ∈ (Int.repr n).toList := by simp [h]
    rcases Dump.mem_repr hmem with hx | hx <;> cases hx
  cases v with
  | unit => cases w <;> simp [dump, (hunit _).symm]
  | int n => cases w <;> simp [dump, hunit, Int.repr_inj]
  | text s => cases w <;> simp [dump]

theorem Outcome.dump_inj {a b : Outcome Scalar} (ha : a.cursor.Consistent)
    (hb : b.cursor.Consistent) : a.dump = b.dump ↔ a = b := by
  cases a with
  | success v c =>
    cases b with
    | success w d =>
      have hplace : c.dump = d.dump ↔ c = d := Cursor.dump_inj ha hb
      simp [dump, Scalar.dump_inj, hplace]
    | failure e d => simp [dump]
  | failure e c =>
    cases b with
    | success w d => simp [dump]
    | failure e' d =>
      have hplace : c.dump = d.dump ↔ c = d := Cursor.dump_inj ha hb
      simp [dump, hplace]

theorem Reworded.dump_inj {p q : Reworded} : p.dump = q.dump ↔ p = q := by
  induction p generalizing q with
  | core n => cases q <;> simp [dump, Int.repr_inj]
  | layer inner ih => cases q <;> simp [dump, ih]

/-! ## The law -/

/-- What debug texts are made of. -/
inductive Shown where
  | place (c : Cursor)
  | diagnostic (x : Diagnostic)
  | outcome (o : Outcome Scalar)
  | parser (p : Reworded)
  deriving DecidableEq, Repr

namespace Shown

def dump : Shown → Dump
  | .place c => c.dump
  | .diagnostic x => x.dump
  | .outcome o => o.dump
  | .parser p => p.dump

/-- A place that is shown, alone or in an outcome, is come to. -/
def Reached : Shown → Prop
  | .place c => c.Reached
  | .diagnostic _ => True
  | .outcome o => o.cursor.Reached
  | .parser _ => True

theorem sound_dump (x : Shown) : x.dump.Sound := by
  cases x with
  | place c => exact c.sound_dump
  | diagnostic x => exact x.sound_dump
  | outcome o => exact o.sound_dump
  | parser p => exact p.sound_dump

/-- The consistency of a place that is shown. -/
def Consistent : Shown → Prop
  | .place c => c.Consistent
  | .diagnostic _ => True
  | .outcome o => o.cursor.Consistent
  | .parser _ => True

theorem Reached.consistent {x : Shown} (h : x.Reached) : x.Consistent := by
  cases x with
  | place c => exact Cursor.Reached.consistent h
  | diagnostic x => trivial
  | outcome o => exact Cursor.Reached.consistent h
  | parser p => trivial

/-- Trees of different kinds differ in the names of their records. -/
theorem dump_inj {x y : Shown} (hx : x.Consistent) (hy : y.Consistent) :
    x.dump = y.dump ↔ x = y := by
  cases x with
  | place c =>
    cases y with
    | place d => simp [dump, Cursor.dump_inj hx hy]
    | diagnostic y => simp [dump, Cursor.dump, Diagnostic.dump]
    | outcome b => cases b <;> simp [dump, Cursor.dump, Outcome.dump]
    | parser q => cases q <;> simp [dump, Cursor.dump, Reworded.dump]
  | diagnostic x =>
    cases y with
    | place d => simp [dump, Cursor.dump, Diagnostic.dump]
    | diagnostic y => simp [dump, Diagnostic.dump_inj]
    | outcome b => cases b <;> simp [dump, Diagnostic.dump, Outcome.dump]
    | parser q => cases q <;> simp [dump, Diagnostic.dump, Reworded.dump]
  | outcome a =>
    cases y with
    | place d => cases a <;> simp [dump, Cursor.dump, Outcome.dump]
    | diagnostic y => cases a <;> simp [dump, Diagnostic.dump, Outcome.dump]
    | outcome b => simp [dump, Outcome.dump_inj hx hy]
    | parser q => cases a <;> cases q <;> simp [dump, Outcome.dump, Reworded.dump]
  | parser p =>
    cases y with
    | place d => cases p <;> simp [dump, Cursor.dump, Reworded.dump]
    | diagnostic y => cases p <;> simp [dump, Diagnostic.dump, Reworded.dump]
    | outcome b => cases p <;> cases b <;> simp [dump, Outcome.dump, Reworded.dump]
    | parser q => simp [dump, Reworded.dump_inj]

end Shown

/-- Of what is shown, be it a place, a diagnostic, an outcome or a reworded parser, no two have the
same debug text on one line, and no two have the same over several. Cut at its line breaks, the text
over several lines has one line for all that is shown, one for each field, and one for the end of
each record, every one as many blanks from the margin as four times the records that it stands
in. -/
theorem a_debug_text_tells_all_that_is_shown (x y : Shown) (hx : x.Reached) (hy : y.Reached) :
    (x.dump.compact = y.dump.compact ↔ x = y) ∧
    (x.dump.pretty = y.dump.pretty ↔ x = y) ∧
    (x.dump.pretty.split '\n').toList.map (fun s => Dump.Line.read s.copy) = x.dump.outline := by
  have hsame : x.dump = y.dump ↔ x = y := Shown.dump_inj hx.consistent hy.consistent
  refine ⟨?_, ?_, Dump.map_read_split_pretty x.sound_dump⟩
  · rw [Dump.compact_inj x.sound_dump y.sound_dump, hsame]
  · rw [Dump.pretty_inj x.sound_dump y.sound_dump, hsame]

/-- A message that reads like the end of its text and another field, at a place behind a quote and
before a line break. -/
theorem a_message_that_reads_like_a_field :
    let c := (Cursor.start "\"\nx").advance 1
    let x : Shown := .outcome (.failure "\", position: 1 \x7d\n" c)
    let y : Shown := .outcome (.failure "" c)
    x.Reached ∧ y.Reached ∧ x.dump.compact ≠ y.dump.compact ∧ x.dump.pretty ≠ y.dump.pretty ∧
    ((x.dump.pretty.split '\n').toList.map fun s => Dump.Line.read s.copy) =
      [⟨0, .opening⟩, ⟨4, .field "expected" false⟩, ⟨4, .field "context" true⟩,
        ⟨8, .field "text" false⟩, ⟨8, .field "offset" false⟩, ⟨8, .field "position" false⟩,
        ⟨4, .closing⟩, ⟨0, .closing⟩] := by
  intro c x y
  have hc : c.Reached := .advance (.start _) 1
  obtain ⟨hcompact, hpretty, hlines⟩ := a_debug_text_tells_all_that_is_shown x y hc hc
  have hne : x ≠ y := by decide
  exact ⟨hc, hc, mt hcompact.mp hne, mt hpretty.mp hne, hlines⟩

end TextParsers
