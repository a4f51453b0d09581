-- Repetition. `gather` runs a parser again and again while text is left and the
-- position changes; the open and the bounded repetitions judge what it gathered.
-- An exact count does not look at the position at all.
import TextParsers.Parser.Basic
namespace TextParsers.Parser

variable {α : Type}

/-! ## Gathering -/

/-- What a repetition collected, where it stopped, and what was logged. -/
structure Harvest (α : Type) where
  values : List α
  stop : Cursor
  log : Log
  deriving DecidableEq, Repr

/-- Runs `p` until the text is used up, `p` fails, or `p` succeeds at the position it
started from; a success of this last kind is not kept. A success may go back, or into
another text, so nothing bounds the number of runs but `limit`. -/
def gather (p : Parser α) : (limit : Nat) → Cursor → Option (Harvest α)
  | 0, _ => none
  | limit + 1, c =>
    if c.isEmpty then some ⟨[], c, []⟩
    else match p c with
      | none => none
      | some ⟨.failure .., log⟩ => some ⟨[], c, log⟩
      | some ⟨.success a d, log⟩ =>
        if d.position = c.position then some ⟨[], c, log⟩
        else (gather p limit d).map fun h => ⟨a :: h.values, h.stop, log ++ h.log⟩

/-- Any number of repetitions, none included. It never fails. -/
def many (limit : Nat) (p : Parser α) : Parser (List α) := fun c =>
  (gather p limit c).map fun h => ⟨.success h.values h.stop, h.log⟩

/-- At least one repetition. The first is kept even if it does not move. -/
def many1 (limit : Nat) (p : Parser α) : Parser (List α) := fun c =>
  match p c with
  | none => none
  | some ⟨.failure e d, log⟩ => some ⟨.failure e d, log⟩
  | some ⟨.success a d, log⟩ =>
    (gather p limit d).map fun h => ⟨.success (a :: h.values) h.stop, log ++ h.log⟩

/-! ## Bounds -/

/-- What a repetition answers if its number of values is to lie between two bounds. A number
under the lower bound is reported first. -/
def Harvest.judged (lo hi : Nat) (h : Harvest α) : Reply (List α) :=
  let matched := h.values.length
  if matched < lo then
    ⟨.failure (Refusal.tooFew lo).wording h.stop, h.log ++ [.tooFew matched lo]⟩
  else if hi < matched then
    ⟨.failure (Refusal.tooMany hi).wording h.stop, h.log ++ [.tooMany matched hi]⟩
  else ⟨.success h.values h.stop, h.log⟩

/-- Any number of repetitions, accepted if the number lies between two bounds. -/
def countBetween (limit min max : Nat) (p : Parser α) : Parser (List α) := fun c =>
  (gather p limit c).map (Harvest.judged min max)

namespace Harvest

variable {h : Harvest α} {lo hi : Nat}

theorem judged_of_lt (hlo : h.values.length < lo) :
    h.judged lo hi =
      ⟨.failure (Refusal.tooFew lo).wording h.stop, h.log ++ [.tooFew h.values.length lo]⟩ := by
  simp [judged, hlo]

theorem judged_of_gt (hlo : lo ≤ h.values.length) (hhi : hi < h.values.length) :
    h.judged lo hi =
      ⟨.failure (Refusal.tooMany hi).wording h.stop, h.log ++ [.tooMany h.values.length hi]⟩ := by
  simp [judged, Nat.not_lt.mpr hlo, hhi]

theorem judged_of_between (hlo : lo ≤ h.values.length) (hhi : h.values.length ≤ hi) :
    h.judged lo hi = ⟨.success h.values h.stop, h.log⟩ := by
  simp [judged, Nat.not_lt.mpr hlo, Nat.not_lt.mpr hhi]

/-- The number of values is too small, or too large, or neither. -/
theorem judged_cases (lo hi : Nat) (h : Harvest α) :
    h.values.length < lo ∨ (lo ≤ h.values.length ∧ hi < h.values.length) ∨
      lo ≤ h.values.length ∧ h.values.length ≤ hi := by
  omega

theorem judged_eq_success_iff {as : List α} {d : Cursor} {log : Log} :
    h.judged lo hi = ⟨.success as d, log⟩ ↔
      (lo ≤ h.values.length ∧ h.values.length ≤ hi) ∧ as = h.values ∧ d = h.stop ∧ log = h.log := by
  rcases judged_cases lo hi h with hlt | ⟨hlo, hgt⟩ | ⟨hlo, hhi⟩
  · rw [judged_of_lt hlt]
    simp [Nat.not_le.mpr hlt]
  · rw [judged_of_gt hlo hgt]
    simp [Nat.not_le.mpr hgt]
  · rw [judged_of_between hlo hhi]
    simp [hlo, hhi, eq_comm, and_assoc]

/-- What was logged has no say in the verdict. -/
theorem outcome_judged_eq {k : Harvest α} (hvalues : h.values = k.values)
    (hstop : h.stop = k.stop) : (h.judged lo hi).outcome = (k.judged lo hi).outcome := by
  rcases judged_cases lo hi k with hlt | ⟨hlo, hgt⟩ | ⟨hlo, hhi⟩
  · rw [judged_of_lt hlt, judged_of_lt (hvalues ▸ hlt), hstop]
  · rw [judged_of_gt hlo hgt, judged_of_gt (hvalues ▸ hlo) (hvalues ▸ hgt), hstop]
  · rw [judged_of_between hlo hhi, judged_of_between (hvalues ▸ hlo) (hvalues ▸ hhi), hvalues,
      hstop]

end Harvest

/-! ## Counting -/

/-- Runs `p` another `left` times after `seen` successes. A failure is reported where the
failing run started, with the number of successes before it. -/
def countFrom (p : Parser α) (seen : Nat) : (left : Nat) → Parser (List α)
  | 0 => accept [] 0
  | left + 1 => fun c =>
    match p c with
    | none => none
    | some ⟨.failure .., log⟩ =>
      some ⟨.failure (Refusal.shortCount (seen + left + 1) seen).wording c, log⟩
    | some ⟨.success a d, log⟩ =>
      (countFrom p (seen + 1) left d).map fun r =>
        ⟨r.outcome.mapValue (a :: ·), log ++ r.log⟩

/-- Exactly `n` repetitions, whether they move or not. -/
def count (n : Nat) (p : Parser α) : Parser (List α) := countFrom p 0 n

end TextParsers.Parser
