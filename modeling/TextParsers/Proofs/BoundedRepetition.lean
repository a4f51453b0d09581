-- What two bounds make of a repetition. The repetition is walked to its end whatever
-- the bounds, and only then is the number of its turns compared with them. So the
-- bounds decide the verdict and nothing else, and to meet two pairs of bounds is to
-- meet the narrower of each.
import TextParsers.Proofs.MaximalChains
namespace TextParsers

variable {α : Type}

/-! ## The two messages -/

/-- One message begins with a letter, the other with a digit. -/
theorem Refusal.wording_tooFew_ne_tooMany (lo hi : Nat) :
    (Refusal.tooFew lo).wording ≠ (Refusal.tooMany hi).wording := by
  intro h
  obtain ⟨x, xs, hx⟩ := List.exists_cons_of_ne_nil (Nat.toDigits_ne_nil : Nat.toDigits 10 hi ≠ [])
  have hdigit : x.isDigit = true := by
    apply Nat.isDigit_of_mem_toDigits (b := 10) (n := hi) (by omega) (by omega)
    rw [hx]
    exact List.mem_cons_self
  have hfew : (Refusal.tooFew lo).wording.toList.head? = some 'm' := by
    show ("match count < " ++ Nat.repr lo).toList.head? = _
    rw [String.toList_append]
    rfl
  have hmany : (Refusal.tooMany hi).wording.toList.head? = some x := by
    show (Nat.repr hi ++ " < match count").toList.head? = _
    rw [Nat.repr, String.toList_append, String.toList_ofList, hx]
    rfl
  rw [h, hmany] at hfew
  cases hfew
  exact absurd hdigit (by decide)

namespace Parser

variable {p : Parser α} {c : Cursor} {lo hi : Nat}

/-! ## The verdict -/

theorem countBetween_eq_some_iff {r : Reply (List α)} :
    (∃ turns, p.countBetween turns lo hi c = some r) ↔ ∃ h, p.Gathers c h ∧ r = h.judged lo hi := by
  simp only [countBetween, Option.map_eq_some_iff]
  constructor
  · rintro ⟨turns, h, hh, rfl⟩
    exact ⟨h, ⟨turns, hh⟩, rfl⟩
  · rintro ⟨h, ⟨turns, hh⟩, rfl⟩
    exact ⟨turns, h, hh, rfl⟩

namespace Harvest

variable {h : Harvest α}

theorem cursor_judged (lo hi : Nat) (h : Harvest α) : (h.judged lo hi).outcome.cursor = h.stop := by
  rcases judged_cases lo hi h with hlt | ⟨hlo, hgt⟩ | ⟨hlo, hhi⟩
  · rw [judged_of_lt hlt]
    rfl
  · rw [judged_of_gt hlo hgt]
    rfl
  · rw [judged_of_between hlo hhi]
    rfl

theorem isSuccess_judged_iff (lo hi : Nat) (h : Harvest α) :
    (h.judged lo hi).outcome.isSuccess = true ↔ lo ≤ h.values.length ∧ h.values.length ≤ hi := by
  rcases judged_cases lo hi h with hlt | ⟨hlo, hgt⟩ | ⟨hlo, hhi⟩
  · simp [judged_of_lt hlt, Outcome.isSuccess, Nat.not_le.mpr hlt]
  · simp [judged_of_gt hlo hgt, Outcome.isSuccess, Nat.not_le.mpr hgt]
  · simp [judged_of_between hlo hhi, Outcome.isSuccess, hlo, hhi]

theorem judged_eq_tooFew_iff (lo hi : Nat) (h : Harvest α) :
    (h.judged lo hi).outcome = .failure (Refusal.tooFew lo).wording h.stop ↔
      h.values.length < lo := by
  have hne := Refusal.wording_tooFew_ne_tooMany lo hi
  rcases judged_cases lo hi h with hlt | ⟨hlo, hgt⟩ | ⟨hlo, hhi⟩
  · simp [judged_of_lt hlt, hlt]
  · simp [judged_of_gt hlo hgt, hne.symm, hlo]
  · simp [judged_of_between hlo hhi, hlo]

theorem judged_eq_tooMany_iff (lo hi : Nat) (h : Harvest α) :
    (h.judged lo hi).outcome = .failure (Refusal.tooMany hi).wording h.stop ↔
      lo ≤ h.values.length ∧ hi < h.values.length := by
  have hne := Refusal.wording_tooFew_ne_tooMany lo hi
  rcases judged_cases lo hi h with hlt | ⟨hlo, hgt⟩ | ⟨hlo, hhi⟩
  · simp [judged_of_lt hlt, hne, Nat.not_le.mpr hlt]
  · simp [judged_of_gt hlo hgt, hlo, hgt]
  · simp [judged_of_between hlo hhi, Nat.not_lt.mpr hhi]

end Harvest

/-- A bounded repetition succeeds with what it gathered, if the number lies between the bounds. -/
theorem countBetween_succeeds_iff {as : List α} {d : Cursor} :
    (∃ turns, (p.countBetween turns lo hi).Succeeds c as d) ↔
      (∃ log, p.Gathers c ⟨as, d, log⟩) ∧ lo ≤ as.length ∧ as.length ≤ hi := by
  constructor
  · rintro ⟨turns, log, hr⟩
    obtain ⟨h, hh, heq⟩ := countBetween_eq_some_iff.mp ⟨turns, hr⟩
    obtain ⟨hbounds, rfl, rfl, rfl⟩ := Harvest.judged_eq_success_iff.mp heq.symm
    exact ⟨⟨h.log, hh⟩, hbounds⟩
  · rintro ⟨⟨log, hh⟩, hlo, hhi⟩
    obtain ⟨turns, hr⟩ := countBetween_eq_some_iff.mpr ⟨_, hh, rfl⟩
    rw [Harvest.judged_of_between hlo hhi] at hr
    exact ⟨turns, log, hr⟩

/-! ## The law -/

/-- Where a repetition ends, with `k` values, so does the bounded one, and at the same place
whatever it answers. It succeeds, with these values, exactly if `k` lies between the bounds. It
reports the lower bound exactly if `k` is below it, and the upper one exactly if `k` is above that
and not below the lower. Its log is that of the repetition, and behind it one event with `k` if it
fails. Two bounded repetitions succeed at one place exactly if the one with the larger lower bound
and the smaller upper bound does, and they succeed alike. None succeeds if its bounds are
crossed. -/
theorem bounds_decide_the_verdict_and_nothing_else (p : Parser α) (c : Cursor) :
    (∀ values stop log, (∃ turns, p.many turns c = some ⟨.success values stop, log⟩) →
      ∀ lo hi, ∃ r, (∀ s, (∃ turns, p.countBetween turns lo hi c = some s) ↔ s = r) ∧
        r.outcome.cursor = stop ∧
        (r.outcome.isSuccess = true ↔ lo ≤ values.length ∧ values.length ≤ hi) ∧
        (r.outcome.isSuccess = true → r = ⟨.success values stop, log⟩) ∧
        (r.outcome = .failure ("match count < " ++ Nat.repr lo) stop ↔ values.length < lo) ∧
        (r.outcome = .failure (Nat.repr hi ++ " < match count") stop ↔
          lo ≤ values.length ∧ hi < values.length) ∧
        (values.length < lo → r.log = log ++ [.tooFew values.length lo]) ∧
        (lo ≤ values.length → hi < values.length → r.log = log ++ [.tooMany values.length hi])) ∧
    (∀ lo hi lo' hi' as d,
      (∃ turns, (p.countBetween turns (max lo lo') (min hi hi')).Succeeds c as d) ↔
        (∃ turns, (p.countBetween turns lo hi).Succeeds c as d) ∧
        ∃ bs e, ∃ turns, (p.countBetween turns lo' hi').Succeeds c bs e) ∧
    ∀ lo hi turns as d, hi < lo → ¬ (p.countBetween turns lo hi).Succeeds c as d := by
  refine ⟨?_, ?_, ?_⟩
  · intro values stop log hmany lo hi
    obtain ⟨h, hh, heq⟩ := many_eq_some_iff.mp hmany
    cases heq
    refine ⟨h.judged lo hi, fun s => ?_, h.cursor_judged lo hi, ?_⟩
    · rw [countBetween_eq_some_iff]
      constructor
      · rintro ⟨k, hk, rfl⟩
        rw [hk.unique hh]
      · rintro rfl
        exact ⟨h, hh, rfl⟩
    · refine ⟨h.isSuccess_judged_iff lo hi, ?_, h.judged_eq_tooFew_iff lo hi,
        h.judged_eq_tooMany_iff lo hi, ?_, ?_⟩
      · intro hs
        obtain ⟨hlo, hhi⟩ := (h.isSuccess_judged_iff lo hi).mp hs
        exact Harvest.judged_of_between hlo hhi
      · intro hlt
        rw [Harvest.judged_of_lt hlt]
      · intro hlo hgt
        rw [Harvest.judged_of_gt hlo hgt]
  · intro lo hi lo' hi' as d
    simp only [countBetween_succeeds_iff]
    constructor
    · rintro ⟨hh, hlo, hhi⟩
      exact ⟨⟨hh, by omega, by omega⟩, as, d, hh, by omega, by omega⟩
    · -- Both gathered the same, so all four bounds are bounds of one number.
      rintro ⟨⟨⟨log, hh⟩, hlo, hhi⟩, bs, e, ⟨log', hh'⟩, hlo', hhi'⟩
      cases hh.unique hh'
      exact ⟨⟨log, hh⟩, by omega, by omega⟩
  · rintro lo hi turns as d hlt hs
    obtain ⟨-, hlo, hhi⟩ := countBetween_succeeds_iff.mp ⟨turns, hs⟩
    omega

/-- Two letters and a gap, and bounds that are crossed: both are missed, and the lower one is
reported. -/
theorem a_count_between_crossed_bounds :
    let p := (⟨[]⟩ : Grammar).parser 4 (.choice [.char 'é', .row [.char 'a', .not .endOfText]])
    let c := Cursor.start "éa! "
    let d := c.advance 3
    let v : List Value := [.text "é", .list [.text "a", .null]]
    p.many 3 c = some ⟨.success v d, [.noAlternative 3 2]⟩ ∧
    (∃ turns, p.countBetween turns 3 1 c =
      some ⟨.failure "match count < 3" d, [.noAlternative 3 2, .tooFew 2 3]⟩) ∧
    ∀ turns, ¬ (p.countBetween turns 3 1).Succeeds c v d := by
  intro p c d v
  have hmany : p.many 3 c = some ⟨.success v d, [.noAlternative 3 2]⟩ := by decide
  have hwording : "match count < " ++ Nat.repr 3 = "match count < 3" := by decide
  obtain ⟨hverdict, -, hcrossed⟩ := bounds_decide_the_verdict_and_nothing_else p c
  obtain ⟨⟨o, l⟩, hr, -, -, -, hfew, -, hlog, -⟩ := hverdict v d _ ⟨3, hmany⟩ 3 1
  rw [hwording] at hfew
  have ho : o = .failure "match count < 3" d := hfew.mpr (by decide)
  have hl : l = [.noAlternative 3 2] ++ [.tooFew 2 3] := hlog (by decide)
  subst ho hl
  exact ⟨hmany, (hr _).mpr rfl, fun turns => hcrossed 3 1 turns v d (by decide)⟩

end Parser

end TextParsers
