-- An exact count, and the sequence of as many copies. They take the same steps and
-- succeed alike; only their failures differ, as the sequence passes on what its member
-- says and the count says instead how far it came. So a count may be cut in two, if
-- the second part goes on with the number that the first has seen.
import TextParsers.Proofs.MaximalChains
namespace TextParsers

variable {α : Type} {turn : Cursor → α → Cursor → Prop} {c d : Cursor} {a : α} {as bs : List α}

/-! ## Chains and what comes behind them -/

theorem chain_append_iff :
    Chain turn c (as ++ bs) d ↔ ∃ e, Chain turn c as e ∧ Chain turn e bs d := by
  constructor
  · intro hs
    induction as generalizing c with
    | nil => exact ⟨c, .nil c, hs⟩
    | cons a as ih =>
      obtain ⟨_⟩ | ⟨ht, hs⟩ := hs
      obtain ⟨e, hfirst, hsecond⟩ := ih hs
      exact ⟨e, .cons ht hfirst, hsecond⟩
  · rintro ⟨e, hfirst, hsecond⟩
    induction hfirst with
    | nil c => exact hsecond
    | cons ht _ ih => exact .cons ht (ih hsecond)

/-- The reply with values collected, and entries logged, before it. -/
def Reply.behind (as : List α) (log : Log) (r : Reply (List α)) : Reply (List α) :=
  ⟨r.outcome.mapValue (as ++ ·), log ++ r.log⟩

theorem Reply.behind_nil : Reply.behind ([] : List α) [] = id := by
  funext ⟨o, log⟩
  cases o <;> rfl

theorem Reply.behind_comp_behind (as bs : List α) (l m : Log) :
    Reply.behind as l ∘ Reply.behind bs m = Reply.behind (as ++ bs) (l ++ m) := by
  funext r
  simp [Reply.behind, Outcome.mapValue_mapValue]

namespace Parser

variable {p : Parser α} {log : Log}

/-! ## The steps of a count and of a sequence -/

section

variable {e : String} {x : Cursor}

theorem countFrom_of_success (hp : p c = some ⟨.success a d, log⟩) (seen left : Nat) :
    p.countFrom seen (left + 1) c = (p.countFrom (seen + 1) left d).map (.behind [a] log) := by
  conv => lhs; unfold countFrom
  simp only [hp]
  rfl

theorem countFrom_of_failure (hp : p c = some ⟨.failure e x, log⟩) (seen left : Nat) :
    p.countFrom seen (left + 1) c =
      some ⟨.failure (Refusal.shortCount (seen + (left + 1)) seen).wording c, log⟩ := by
  unfold countFrom
  simp only [hp]
  rfl

theorem countFrom_of_silence (hp : p c = none) (seen left : Nat) :
    p.countFrom seen (left + 1) c = none := by
  unfold countFrom
  simp only [hp]

theorem all_of_success (hp : p c = some ⟨.success a d, log⟩) (ps : List (Parser α)) :
    all (p :: ps) c = (all ps d).map (.behind [a] log) := by
  rw [all_cons]
  show Parser.bind p _ c = _
  unfold Parser.bind Parser.map Parser.settle
  simp only [hp, Option.map_map]
  rfl

theorem all_of_failure (hp : p c = some ⟨.failure e x, log⟩) (ps : List (Parser α)) :
    all (p :: ps) c = some ⟨.failure e x, log⟩ := by
  rw [all_cons]
  show Parser.bind p _ c = _
  unfold Parser.bind
  simp only [hp]

theorem all_of_silence (hp : p c = none) (ps : List (Parser α)) : all (p :: ps) c = none := by
  rw [all_cons]
  show Parser.bind p _ c = _
  unfold Parser.bind
  simp only [hp]

end

/-! ## Copies one after another -/

/-- Behind a chain of successes a count goes on with the number it has seen, and a sequence
with the members that are left. -/
theorem behind_chain (hs : Chain p.Succeeds c as d) :
    ∃ log, (∀ seen left, p.countFrom seen (as.length + left) c =
        (p.countFrom (seen + as.length) left d).map (.behind as log)) ∧
      ∀ ps, all (List.replicate as.length p ++ ps) c = (all ps d).map (.behind as log) := by
  induction hs with
  | nil c => exact ⟨[], by simp [Reply.behind_nil], by simp [Reply.behind_nil]⟩
  | @cons c d e a as hp _ ih =>
    obtain ⟨l, hp⟩ := hp
    obtain ⟨log, hcount, hall⟩ := ih
    refine ⟨l ++ log, fun seen left => ?_, fun ps => ?_⟩
    · -- What is left falls by one with each success, and what was seen grows by one.
      have hleft : (a :: as).length + left = as.length + left + 1 := by simp; omega
      have hseen : seen + (a :: as).length = seen + 1 + as.length := by simp; omega
      rw [hleft, hseen, countFrom_of_success hp, hcount, Option.map_map,
        Reply.behind_comp_behind, List.singleton_append]
    · rw [List.length_cons, List.replicate_succ, List.cons_append, all_of_success hp, hall,
        Option.map_map, Reply.behind_comp_behind, List.singleton_append]

/-- A parser applied up to `n` times succeeds each time, or fails once it has succeeded less
often, or does not end then. -/
theorem exists_chain (p : Parser α) (n : Nat) (c : Cursor) :
    ∃ as d, Chain p.Succeeds c as d ∧
      (as.length = n ∨ as.length < n ∧ (p.Fails d ∨ p d = none)) := by
  induction n generalizing c with
  | zero => exact ⟨[], c, .nil c, .inl rfl⟩
  | succ n ih =>
    rcases hp : p c with _ | ⟨⟨a, d⟩ | ⟨e, d⟩, log⟩
    · exact ⟨[], c, .nil c, .inr ⟨Nat.succ_pos n, .inr hp⟩⟩
    · obtain ⟨as, e, hs, hend⟩ := ih d
      refine ⟨a :: as, e, .cons ⟨log, hp⟩ hs, ?_⟩
      simpa using hend
    · exact ⟨[], c, .nil c, .inr ⟨Nat.succ_pos n, .inl ⟨e, d, log, hp⟩⟩⟩

/-! ## What they answer -/

theorem countFrom_of_chain (hs : Chain p.Succeeds c as d) :
    ∃ log, (∀ seen, p.countFrom seen as.length c = some ⟨.success as d, log⟩) ∧
      all (List.replicate as.length p) c = some ⟨.success as d, log⟩ := by
  obtain ⟨log, hcount, hall⟩ := behind_chain hs
  refine ⟨log, fun seen => ?_, ?_⟩
  · have h := hcount seen 0
    rw [Nat.add_zero] at h
    simp [h, countFrom, accept, Reply.behind, Outcome.mapValue]
  · have h := hall []
    rw [List.append_nil] at h
    simp [h, all, pure, accept, Reply.behind, Outcome.mapValue]

/-- The count reports how often `p` succeeded, and where it was then; the sequence reports what
`p` did. -/
theorem countFrom_of_chain_of_failure (hs : Chain p.Succeeds c as d) {e : String} {x : Cursor}
    (hp : p d = some ⟨.failure e x, log⟩) :
    ∃ log, ∀ n, as.length < n →
      (∀ seen, p.countFrom seen n c =
        some ⟨.failure (Refusal.shortCount (seen + n) (seen + as.length)).wording d, log⟩) ∧
      all (List.replicate n p) c = some ⟨.failure e x, log⟩ := by
  obtain ⟨before, hcount, hall⟩ := behind_chain hs
  refine ⟨before ++ log, fun n hn => ?_⟩
  obtain ⟨left, rfl⟩ : ∃ left, n = as.length + (left + 1) := ⟨n - as.length - 1, by omega⟩
  refine ⟨fun seen => ?_, ?_⟩
  · rw [hcount, countFrom_of_failure hp, ← Nat.add_assoc seen]
    rfl
  · have h := hall (List.replicate (left + 1) p)
    rw [List.replicate_append_replicate] at h
    rw [h, List.replicate_succ, all_of_failure hp]
    rfl

theorem count_of_chain_of_failure (hs : Chain p.Succeeds c as d) {e : String} {x : Cursor}
    (hp : p d = some ⟨.failure e x, log⟩) :
    ∃ log, ∀ n, as.length < n →
      p.count n c = some ⟨.failure (Refusal.shortCount n as.length).wording d, log⟩ ∧
      all (List.replicate n p) c = some ⟨.failure e x, log⟩ := by
  obtain ⟨log, hreply⟩ := countFrom_of_chain_of_failure hs hp
  refine ⟨log, fun n hn => ?_⟩
  obtain ⟨hcount, hall⟩ := hreply n hn
  have hcount := hcount 0
  rw [Nat.zero_add, Nat.zero_add] at hcount
  exact ⟨hcount, hall⟩

theorem countFrom_of_chain_of_silence (hs : Chain p.Succeeds c as d) (hp : p d = none) {n : Nat}
    (hn : as.length < n) :
    (∀ seen, p.countFrom seen n c = none) ∧ all (List.replicate n p) c = none := by
  obtain ⟨left, rfl⟩ : ∃ left, n = as.length + (left + 1) := ⟨n - as.length - 1, by omega⟩
  obtain ⟨before, hcount, hall⟩ := behind_chain hs
  refine ⟨fun seen => ?_, ?_⟩
  · rw [hcount, countFrom_of_silence hp]
    rfl
  · have h := hall (List.replicate (left + 1) p)
    rw [List.replicate_append_replicate] at h
    rw [h, List.replicate_succ, all_of_silence hp]
    rfl

theorem chain_of_count_eq_success {n : Nat} (h : p.count n c = some ⟨.success as d, log⟩) :
    Chain p.Succeeds c as d ∧ as.length = n := by
  unfold count at h
  obtain ⟨bs, e, hs, rfl | ⟨hlt, ⟨f, x, l, hp⟩ | hp⟩⟩ := exists_chain p n c
  · obtain ⟨m, hcount, -⟩ := countFrom_of_chain hs
    rw [hcount] at h
    cases h
    exact ⟨hs, rfl⟩
  · obtain ⟨m, hcount⟩ := countFrom_of_chain_of_failure hs hp
    rw [(hcount n hlt).1] at h
    cases h
  · rw [(countFrom_of_chain_of_silence hs hp hlt).1] at h
    cases h

theorem chain_of_count_eq_failure {n : Nat} {e : String}
    (h : p.count n c = some ⟨.failure e d, log⟩) :
    ∃ as, Chain p.Succeeds c as d ∧ as.length < n ∧ p.Fails d := by
  unfold count at h
  obtain ⟨as, x, hs, rfl | ⟨hlt, ⟨f, y, l, hp⟩ | hp⟩⟩ := exists_chain p n c
  · obtain ⟨m, hcount, -⟩ := countFrom_of_chain hs
    rw [hcount] at h
    cases h
  · obtain ⟨m, hcount⟩ := countFrom_of_chain_of_failure hs hp
    rw [(hcount n hlt).1] at h
    cases h
    exact ⟨as, hs, hlt, f, y, l, hp⟩
  · rw [(countFrom_of_chain_of_silence hs hp hlt).1] at h
    cases h

theorem count_succeeds_iff {n : Nat} :
    (p.count n).Succeeds c as d ↔ Chain p.Succeeds c as d ∧ as.length = n := by
  constructor
  · rintro ⟨log, h⟩
    exact chain_of_count_eq_success h
  · rintro ⟨hs, rfl⟩
    obtain ⟨log, hcount, -⟩ := countFrom_of_chain hs
    exact ⟨log, hcount 0⟩

/-- A count and the sequence of copies succeed alike, and end alike. -/
theorem count_agrees_with_all (p : Parser α) (n : Nat) (c : Cursor) :
    (∀ as d log, p.count n c = some ⟨.success as d, log⟩ ↔
      all (List.replicate n p) c = some ⟨.success as d, log⟩) ∧
    (p.count n c = none ↔ all (List.replicate n p) c = none) := by
  unfold count
  obtain ⟨bs, e, hs, rfl | ⟨hlt, ⟨f, x, l, hp⟩ | hp⟩⟩ := exists_chain p n c
  · obtain ⟨m, hcount, hall⟩ := countFrom_of_chain hs
    simp [hcount, hall]
  · obtain ⟨m, hreply⟩ := countFrom_of_chain_of_failure hs hp
    obtain ⟨hcount, hall⟩ := hreply n hlt
    simp [hcount, hall]
  · obtain ⟨hcount, hall⟩ := countFrom_of_chain_of_silence hs hp hlt
    simp [hcount, hall]

/-! ## A count in two parts -/

/-- Behind a count of `m` the count of `m + n` goes on with the number seen. -/
theorem count_add_of_success {m : Nat} (h : p.count m c = some ⟨.success as d, log⟩) (n : Nat) :
    p.count (m + n) c = (p.countFrom m n d).map (.behind as log) := by
  obtain ⟨hs, rfl⟩ := chain_of_count_eq_success h
  obtain ⟨before, hcount, -⟩ := behind_chain hs
  have hfirst : some (Reply.mk (.success as d) log) = some ⟨.success as d, before⟩ := by
    rw [← h, count, ← Nat.add_zero as.length, hcount]
    simp [countFrom, accept, Reply.behind, Outcome.mapValue]
  cases hfirst
  rw [count, hcount, Nat.zero_add]

theorem count_add_eq_success_iff {m n : Nat} :
    p.count (m + n) c = some ⟨.success as d, log⟩ ↔
      ∃ bs e l cs k, p.count m c = some ⟨.success bs e, l⟩ ∧
        p.count n e = some ⟨.success cs d, k⟩ ∧ as = bs ++ cs ∧ log = l ++ k := by
  have hboth : ∀ {bs e l cs k}, p.count m c = some ⟨.success bs e, l⟩ →
      p.count n e = some ⟨.success cs d, k⟩ →
      p.count (m + n) c = some ⟨.success (bs ++ cs) d, l ++ k⟩ := by
    intro bs e l cs k hfirst hsecond
    obtain ⟨hs, rfl⟩ := chain_of_count_eq_success hsecond
    obtain ⟨log, hcount, -⟩ := countFrom_of_chain hs
    rw [count, hcount] at hsecond
    cases hsecond
    rw [count_add_of_success hfirst, hcount]
    rfl
  constructor
  · intro h
    obtain ⟨hs, hlen⟩ := chain_of_count_eq_success h
    obtain ⟨bs, cs, rfl, rfl, rfl⟩ : ∃ bs cs, as = bs ++ cs ∧ bs.length = m ∧ cs.length = n :=
      ⟨as.take m, as.drop m, by simp, by simp [hlen], by simp [hlen]⟩
    obtain ⟨e, hbs, hcs⟩ := chain_append_iff.mp hs
    obtain ⟨l, hfirst, -⟩ := countFrom_of_chain hbs
    obtain ⟨k, hsecond, -⟩ := countFrom_of_chain hcs
    have hsum := hboth (hfirst 0) (hsecond 0)
    rw [h] at hsum
    cases hsum
    exact ⟨bs, e, l, cs, k, hfirst 0, hsecond 0, rfl, rfl⟩
  · rintro ⟨bs, e, l, cs, k, hfirst, hsecond, rfl, rfl⟩
    exact hboth hfirst hsecond

/-- A failure in the second part is reported with the number seen in both. -/
theorem count_add_of_failure {m n : Nat} {e : Cursor} (h : p.count m c = some ⟨.success as e, log⟩)
    (hs : Chain p.Succeeds e bs d) (hn : bs.length < n) (hp : p.Fails d) :
    ∃ l, p.count n e = some ⟨.failure (Refusal.shortCount n bs.length).wording d, l⟩ ∧
      p.count (m + n) c =
        some ⟨.failure (Refusal.shortCount (m + n) (m + bs.length)).wording d, log ++ l⟩ := by
  obtain ⟨f, x, k, hp⟩ := hp
  obtain ⟨l, hreply⟩ := countFrom_of_chain_of_failure hs hp
  obtain ⟨hcount, -⟩ := hreply n hn
  refine ⟨l, ?_, ?_⟩
  · have hsecond := hcount 0
    rwa [Nat.zero_add, Nat.zero_add] at hsecond
  · rw [count_add_of_success h, hcount]
    rfl

/-! ## The law -/

/-- A count of `n` and the sequence of `n` copies succeed at the same places, with the same `n`
values in order, at the same place and with the same log, and they end at the same places. Where
the run behind `i` successes is the first to fail, the sequence passes its failure on, and the
count reports `i` and the place where that run started, and it fails in no other way. A count of
`m + n` succeeds exactly as a count of `m` and then a count of `n`, with the values of both. It
fails where either does, and reports the number of successes in both. -/
theorem a_count_is_a_sequence_of_copies (p : Parser α) (m n : Nat) (c : Cursor) :
    (∀ as d log, p.count n c = some ⟨.success as d, log⟩ ↔
      all (List.replicate n p) c = some ⟨.success as d, log⟩) ∧
    (p.count n c = none ↔ all (List.replicate n p) c = none) ∧
    (∀ as d log, p.count n c = some ⟨.success as d, log⟩ →
      Chain p.Succeeds c as d ∧ as.length = n) ∧
    (∀ as d e x l, Chain p.Succeeds c as d → as.length < n → p d = some ⟨.failure e x, l⟩ →
      ∃ log,
        p.count n c = some ⟨.failure
          ("expected count " ++ Nat.repr n ++ " actual " ++ Nat.repr as.length) d, log⟩ ∧
        all (List.replicate n p) c = some ⟨.failure e x, log⟩) ∧
    (∀ e d log, p.count n c = some ⟨.failure e d, log⟩ →
      ∃ as, Chain p.Succeeds c as d ∧ as.length < n ∧ p.Fails d) ∧
    (∀ as d log, p.count (m + n) c = some ⟨.success as d, log⟩ ↔
      ∃ bs e l cs k, p.count m c = some ⟨.success bs e, l⟩ ∧
        p.count n e = some ⟨.success cs d, k⟩ ∧ as = bs ++ cs ∧ log = l ++ k) ∧
    (∀ as d, Chain p.Succeeds c as d → as.length < m → p.Fails d →
      ∃ log,
        p.count m c = some ⟨.failure
          ("expected count " ++ Nat.repr m ++ " actual " ++ Nat.repr as.length) d, log⟩ ∧
        p.count (m + n) c = some ⟨.failure
          ("expected count " ++ Nat.repr (m + n) ++ " actual " ++ Nat.repr as.length) d, log⟩) ∧
    ∀ as e log bs d, p.count m c = some ⟨.success as e, log⟩ → Chain p.Succeeds e bs d →
      bs.length < n → p.Fails d →
      ∃ l,
        p.count n e = some ⟨.failure
          ("expected count " ++ Nat.repr n ++ " actual " ++ Nat.repr bs.length) d, l⟩ ∧
        p.count (m + n) c = some ⟨.failure
          ("expected count " ++ Nat.repr (m + n) ++ " actual " ++ Nat.repr (m + bs.length)) d,
          log ++ l⟩ := by
  obtain ⟨hsuccess, hsilence⟩ := count_agrees_with_all p n c
  refine ⟨hsuccess, hsilence, fun _ _ _ => chain_of_count_eq_success, ?_,
    fun _ _ _ => chain_of_count_eq_failure, fun _ _ _ => count_add_eq_success_iff, ?_, ?_⟩
  · intro as d e x l hs hlt hp
    obtain ⟨log, hreply⟩ := count_of_chain_of_failure hs hp
    exact ⟨log, hreply n hlt⟩
  · rintro as d hs hlt ⟨e, x, l, hp⟩
    obtain ⟨log, hreply⟩ := count_of_chain_of_failure hs hp
    exact ⟨log, (hreply m hlt).1, (hreply (m + n) (by omega)).1⟩
  · intro as e log bs d h hs hlt hp
    exact count_add_of_failure h hs hlt hp

/-- A success that goes back, and then a failure behind a letter. -/
theorem a_count_that_goes_back_and_falls_short :
    let p := (⟨[]⟩ : Grammar).parser 5
      (.all [.choice [.row [.char 'a', .jump 0], .anyChar], .not (.char 'a')])
    let v : Value := .list [.list [.text "a", .null], .null]
    let c := (Cursor.start "éba").advance 2
    let d := (Cursor.start "éba").advance 1
    Chain p.Succeeds c [v] d ∧ p d = some ⟨.failure "matched" c, []⟩ ∧
    (∃ log, p.count 3 c = some ⟨.failure "expected count 3 actual 1" d, log⟩ ∧
      all (List.replicate 3 p) c = some ⟨.failure "matched" c, log⟩) ∧
    p.count 1 c = some ⟨.success [v] d, []⟩ ∧
    ∃ l, p.count 2 d = some ⟨.failure "expected count 2 actual 0" d, l⟩ ∧
      p.count (1 + 2) c = some ⟨.failure "expected count 3 actual 1" d, [] ++ l⟩ := by
  intro p v c d
  have hchain : Chain p.Succeeds c [v] d := .cons ⟨[], by decide⟩ (.nil d)
  have hfails : p d = some ⟨.failure "matched" c, []⟩ := by decide
  have hone : p.count 1 c = some ⟨.success [v] d, []⟩ := by decide
  obtain ⟨-, -, -, hfailure, -⟩ := a_count_is_a_sequence_of_copies p 1 3 c
  obtain ⟨-, -, -, -, -, -, -, hsecond⟩ := a_count_is_a_sequence_of_copies p 1 2 c
  have hthree := hfailure [v] d _ c [] hchain (by decide) hfails
  have hparts := hsecond [v] d [] [] d hone (.nil d) (by decide) ⟨_, c, [], hfails⟩
  have hwording : "expected count " ++ Nat.repr 3 ++ " actual " ++ Nat.repr 1 =
      "expected count 3 actual 1" := by decide
  have hwording' : "expected count " ++ Nat.repr 2 ++ " actual " ++ Nat.repr 0 =
      "expected count 2 actual 0" := by decide
  simp only [List.length_cons, List.length_nil, Nat.reduceAdd, hwording, hwording'] at hthree hparts
  exact ⟨hchain, hfails, hthree, hone, hparts⟩

end Parser

end TextParsers
