-- Runs of characters that pass a test. A repetition of the test reads the longest run that
-- what is left begins with: it stops before the first character that fails it, or at the end.
-- So whatever the characters of the run are made into is found behind it and nowhere else.
import TextParsers.Proofs.MappedValues
import TextParsers.Proofs.RepetitionsAgree
import TextParsers.Proofs.Successes
import Mathlib.Data.List.TakeWhile
namespace TextParsers

variable {test : Char → Bool} {run cs : List Char} {c d : Cursor}

/-! ## Where a run stops -/

/-- The characters do not begin with one that passes the test. -/
def Stops (test : Char → Bool) (cs : List Char) : Prop := ∀ x ∈ cs.head?, test x = false

@[simp] theorem stops_nil : Stops test [] := by
  simp [Stops]

@[simp] theorem stops_cons_iff {x : Char} : Stops test (x :: cs) ↔ test x = false := by
  simp [Stops]

theorem takeWhile_of_stops (h : Stops test cs) : cs.takeWhile test = [] := by
  cases cs with
  | nil => rfl
  | cons x cs => simp [stops_cons_iff.mp h]

theorem stops_dropWhile (test : Char → Bool) (cs : List Char) : Stops test (cs.dropWhile test) := by
  intro x hx
  have hnot := List.head?_dropWhile_not test cs
  rw [Option.mem_def.mp hx] at hnot
  simpa using hnot

/-- Where a run stops says what the run is. -/
theorem takeWhile_append_of_stops (hrun : ∀ x ∈ run, test x = true) (hstop : Stops test cs) :
    (run ++ cs).takeWhile test = run := by
  rw [List.takeWhile_append_of_pos hrun, takeWhile_of_stops hstop, List.append_nil]

theorem dropWhile_append_of_stops (hrun : ∀ x ∈ run, test x = true) (hstop : Stops test cs) :
    (run ++ cs).dropWhile test = cs := by
  rw [List.dropWhile_append_of_pos hrun]
  cases cs with
  | nil => rfl
  | cons x cs => simp [stops_cons_iff.mp hstop]

/-! ### Digits -/

theorem isDigit_toDigits (n : Nat) : ∀ x ∈ Nat.toDigits 10 n, x.isDigit = true :=
  fun _ hx => Nat.isDigit_of_mem_toDigits (by omega) (by omega) hx

namespace Parser

/-! ## One character of a run -/

theorem satisfy_fails (h : Stops test c.rest) : (satisfy test).Fails c := by
  unfold Fails satisfy Cursor.peek
  cases hx : c.rest.head? with
  | none => exact ⟨_, _, _, rfl⟩
  | some y =>
    simp only [h y hx, Bool.false_eq_true, if_false]
    exact ⟨_, _, _, rfl⟩

theorem satisfy_movesOn (test : Char → Bool) : (satisfy test).MovesOn := by
  intro c x d hc hs
  obtain ⟨hx, -⟩ := satisfy_succeeds_iff.mp hs
  rw [hx.2]
  simp [hx.rest_eq]

theorem satisfy_keepsConsistent (test : Char → Bool) : (satisfy test).KeepsConsistent := by
  intro c r hc hr
  unfold satisfy at hr
  split at hr
  · split at hr
    · cases hr
      exact Cursor.consistent_advance hc 1
    · cases hr
      exact hc
  · cases hr
    exact hc

/-! ## A whole run -/

/-- The characters of a run are read one by one. -/
theorem chain_satisfy (hrun : ∀ x ∈ run, test x = true) (h : c.Passes run d) :
    Chain (satisfy test).Succeeds c run d := by
  induction run generalizing c with
  | nil =>
    rw [Cursor.passes_nil_iff.mp h]
    exact .nil c
  | cons x run ih =>
    obtain ⟨b, hx, hmore⟩ := Cursor.passes_cons_iff.mp h
    exact .cons (satisfy_succeeds_iff.mpr ⟨hx, hrun x (.head _)⟩)
      (ih (fun y hy => hrun y (.tail _ hy)) hmore)

theorem gathers_satisfy (hc : c.Consistent) (h : c.Passes run d)
    (hrun : ∀ x ∈ run, test x = true) (hstop : Stops test d.rest) :
    ∃ log, (satisfy test).Gathers c ⟨run, d, log⟩ := by
  rw [gathers_iff_successes (satisfy_keepsConsistent test) (satisfy_movesOn test) hc]
  exact ⟨chain_satisfy hrun h, .inr (.inl (satisfy_fails hstop))⟩

/-- A repetition of a test gathers a run that what is left begins with, up to where it stops. -/
theorem gathers_satisfy_iff (hc : c.Consistent) :
    (∃ log, (satisfy test).Gathers c ⟨run, d, log⟩) ↔
      c.Passes run d ∧ (∀ x ∈ run, test x = true) ∧ Stops test d.rest := by
  constructor
  · intro ⟨log, hh⟩
    -- There is a longest run, and it is gathered.
    have hlongest : c.Passes (c.rest.takeWhile test)
        (c.advance (c.rest.takeWhile test).length) := ⟨List.takeWhile_prefix test, rfl⟩
    have hin : ∀ x ∈ c.rest.takeWhile test, test x = true := fun x => List.mem_takeWhile_imp
    have hstop : Stops test (c.advance (c.rest.takeWhile test).length).rest := by
      have hsplit : c.rest.takeWhile test ++ c.rest.dropWhile test = c.rest :=
        List.takeWhile_append_dropWhile
      rw [← List.append_cancel_left (hsplit.trans hlongest.rest_eq)]
      exact stops_dropWhile test c.rest
    obtain ⟨log', hgathered⟩ := gathers_satisfy hc hlongest hin hstop
    cases hh.unique hgathered
    exact ⟨hlongest, hin, hstop⟩
  · intro ⟨h, hrun, hstop⟩
    exact gathers_satisfy hc h hrun hstop

end Parser

/-! ## Runs in a grammar -/

theorem Value.leavesOf_map_ofChar (cs : List Char) :
    Value.leavesOf (cs.map Value.ofChar) = cs.map Value.ofChar := by
  induction cs with
  | nil => rfl
  | cons x cs ih =>
    rw [List.map_cons, Value.leavesOf, ih]
    rfl

theorem Value.joined_ofChars (cs : List Char) : (Value.ofChars cs).joined = .ofList cs := by
  rw [← String.toList_inj, String.toList_ofList]
  unfold Value.joined Value.ofChars
  rw [Value.leaves, leavesOf_map_ofChar, String.toList_join]
  induction cs with
  | nil => rfl
  | cons x cs ih =>
    simpa [Value.ofChar] using ih

/-- A node that repeats a class at least once reads a run, up to where it stops. -/
theorem Grammar.run_meaning_succeeds_iff {g : Grammar} {cls : CharClass} {v : Value}
    (hc : c.Consistent) :
    (g.meaning (.many1 (.satisfy cls))).Succeeds c v d ↔
      ∃ run, c.Passes run d ∧ run ≠ [] ∧ (∀ x ∈ run, cls.holds x = true) ∧
        Stops cls.holds d.rest ∧ v = .ofChars run := by
  have hsatisfy : g.meaning (.satisfy cls) = (Parser.satisfy cls.holds).map Value.ofChar :=
    Grammar.meaning_eq_step fun _ _ => rfl
  have hread : ∀ run, (∃ turns, ((Parser.satisfy cls.holds).many1 turns).Succeeds c run d) ↔
      c.Passes run d ∧ run ≠ [] ∧ (∀ x ∈ run, cls.holds x = true) ∧ Stops cls.holds d.rest := by
    intro run
    have hne : 1 ≤ run.length ↔ run ≠ [] := List.length_pos_iff
    rw [Parser.exists_many1_succeeds_iff (Parser.satisfy_keepsConsistent _)
      (Parser.satisfy_movesOn _) hc, Parser.gathers_satisfy_iff hc, hne]
    grind
  rw [Grammar.meaning_succeeds_iff_step]
  simp only [Grammar.step, hsatisfy, Parser.many1_map, Parser.map_succeeds_iff]
  constructor
  · rintro ⟨turns, vs, ⟨run, hrun, hvs⟩, hv⟩
    obtain ⟨hpass, hne, hin, hstop⟩ := (hread run).mp ⟨turns, hrun⟩
    exact ⟨run, hpass, hne, hin, hstop, by rw [hv, hvs]; rfl⟩
  · rintro ⟨run, hpass, hne, hin, hstop, hv⟩
    obtain ⟨turns, hrun⟩ := (hread run).mpr ⟨hpass, hne, hin, hstop⟩
    exact ⟨turns, _, ⟨run, hrun, rfl⟩, hv⟩

end TextParsers
