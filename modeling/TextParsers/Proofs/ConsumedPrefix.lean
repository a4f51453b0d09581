-- The law of the consumed prefix. What lies behind a place does not matter to a
-- parse that stays in its text: it does there what a run on the rest alone does,
-- and only counts its positions from further back.
import TextParsers.Proofs.ReachedCursors
namespace TextParsers

/-! ## Positions counted from further back -/

/-- The entry as it reads where `k` more characters lie behind. -/
def Event.moved (k : Nat) : Event → Event
  | .noAlternative position alternatives => .noAlternative (position + k) alternatives
  | .succeeded position => .succeeded (position + k)
  | .failed position expected => .failed (position + k) expected
  | e => e

/-- The entry is an event of level trace in a run: what a choice or a bound gave up. -/
def Event.isTrace (e : Event) : Bool := !e.opensRun && e.level? == some .trace

/-- The same is left at both places, and `k` more characters lie behind the first. The logs
hold events of level trace only. -/
def Likeness.behind (k : Nat) : Likeness where
  place c d := c.Consistent ∧ d.Consistent ∧ c.rest = d.rest ∧ c.position = d.position + k
  failed e c f d :=
    e = f ∧ c.Consistent ∧ d.Consistent ∧ c.rest = d.rest ∧ c.position = d.position + k
  log l m := l = m.map (Event.moved k) ∧ ∀ e ∈ m, e.isTrace = true

theorem Likeness.lawful_behind (k : Nat) : (behind k).Lawful where
  advance := by
    rintro c d ⟨hc, hd, hrest, hpos⟩ n
    refine ⟨Cursor.consistent_advance hc n, Cursor.consistent_advance hd n, ?_, ?_⟩
    · rw [Cursor.rest_advance, Cursor.rest_advance, hrest]
    · rw [Cursor.position_advance, Cursor.position_advance, hrest, hpos]
      omega
  peek := fun ⟨_, _, hrest, _⟩ => congrArg List.head? hrest
  isEmpty := by
    rintro c d ⟨hc, hd, hrest, -⟩
    rw [Bool.eq_iff_iff, hc.isEmpty_iff, hd.isEmpty_iff, hrest]
  moved := by
    rintro c d c' d' ⟨-, -, -, hpos⟩ ⟨-, -, -, hpos'⟩
    omega
  failed := fun h _ => ⟨rfl, h⟩
  failed_back := fun ⟨he, _⟩ h => ⟨he, h⟩
  failed_reword := fun ⟨he, h⟩ w => ⟨congrArg w he, h⟩
  log_nil := ⟨rfl, by simp⟩
  log_append := by
    rintro l m l' m' ⟨rfl, hm⟩ ⟨rfl, hm'⟩
    refine ⟨List.map_append.symm, fun e he => ?_⟩
    rcases List.mem_append.mp he with he | he
    · exact hm e he
    · exact hm' e he
  log_noAlternative := by
    rintro c d ⟨-, -, -, hpos⟩ n
    exact ⟨by simp [Event.moved, hpos], List.forall_mem_singleton.mpr rfl⟩
  log_tooFew := fun _ => ⟨rfl, List.forall_mem_singleton.mpr rfl⟩
  log_tooMany := fun _ => ⟨rfl, List.forall_mem_singleton.mpr rfl⟩

/-- A place, and the start of what is left there. -/
theorem behind_start {c : Cursor} (hc : c.Consistent) :
    (Likeness.behind c.position).place c (.start c.remainder) := by
  refine ⟨hc, Cursor.consistent_start _, ?_, ?_⟩
  · exact (Cursor.rest_start_remainder c).symm
  · simp [Cursor.start]

/-! ## The law -/

section

variable {g : Grammar} {node : Node} {c : Cursor}

theorem Grammar.run_of_answers (hl : ∀ k ∈ g.parts node, k.leaps = false)
    (hn : ∀ k ∈ g.parts node, k.nests = false) (hc : c.Consistent) {limit : Nat}
    {r : Reply Value} (hr : g.parser limit node c = some r) :
    ∃ s, g.parser limit node (.start c.remainder) = some s ∧
      r.Alike (.behind c.position) Eq s := by
  have hsim := g.parser_simulatedBy (Likeness.lawful_behind c.position) (Nat.le_refl limit)
    fun k hk => Likeness.bears_of_stays (hl k hk) (hn k hk)
  exact (hsim _ _ (behind_start hc)).exists_of_eq_some hr

theorem Grammar.answers_of_run (hl : ∀ k ∈ g.parts node, k.leaps = false)
    (hn : ∀ k ∈ g.parts node, k.nests = false) (hc : c.Consistent) {limit : Nat}
    {s : Reply Value} (hs : g.parser limit node (.start c.remainder) = some s) :
    ∃ r, g.parser limit node c = some r := by
  have hsim := g.parser_simulatedBy (Likeness.lawful_behind c.position).flip (Nat.le_refl limit)
    fun k hk => Likeness.bears_of_stays (hl k hk) (hn k hk)
  obtain ⟨r, hr, -⟩ := (hsim _ _ (behind_start hc)).exists_of_eq_some hs
  exact ⟨r, hr⟩

end

/-- The events of level trace in the log of a run are those that its parse logged. -/
theorem traces_of_block {l : Log} (hl : ∀ e ∈ l, e.isTrace = true) (text : String)
    (o : Outcome Value) : (o.block text l).filter Event.isTrace = l := by
  have hlast : [o.verdict, .exited].filter Event.isTrace = [] := by cases o <;> rfl
  rw [Outcome.block_eq]
  show (l ++ [o.verdict, .exited]).filter Event.isTrace = l
  rw [List.filter_append, hlast, List.append_nil, List.filter_eq_self.mpr hl]

/-- A parse without leaps and nested runs ends at a place exactly if the run on what is left
there does. The two end alike: both succeed, with one value, or both fail, with one message,
and the same is left. The position of the first, and every position in its log, is larger by
the position of the place. -/
theorem a_parse_depends_only_on_what_is_left (g : Grammar) (node : Node) (c : Cursor)
    (hl : ∀ k ∈ g.parts node, k.leaps = false) (hn : ∀ k ∈ g.parts node, k.nests = false)
    (hc : c.Reached) :
    ((∃ r, g.Answers node c r) ↔ ∃ s, g.Runs node c.remainder s) ∧
    ∀ r s, g.Answers node c r → g.Runs node c.remainder s →
      r.outcome.isSuccess = s.outcome.isSuccess ∧
      r.outcome.value? = s.outcome.value? ∧
      r.outcome.expected? = s.outcome.expected? ∧
      r.outcome.cursor.rest = s.outcome.cursor.rest ∧
      r.outcome.cursor.position = s.outcome.cursor.position + c.position ∧
      r.log = (s.log.filter Event.isTrace).map (Event.moved c.position) := by
  have hc := hc.consistent
  refine ⟨⟨?_, ?_⟩, ?_⟩
  · rintro ⟨r, limit, hr⟩
    obtain ⟨s, hs, -⟩ := Grammar.run_of_answers hl hn hc hr
    exact ⟨_, Grammar.runs_iff.mpr ⟨s, ⟨limit, hs⟩, rfl⟩⟩
  · rintro ⟨_, hrun⟩
    obtain ⟨s, ⟨limit, hs⟩, -⟩ := Grammar.runs_iff.mp hrun
    obtain ⟨r, hr⟩ := Grammar.answers_of_run hl hn hc hs
    exact ⟨r, limit, hr⟩
  · rintro r _ ⟨m, hr⟩ hrun
    obtain ⟨s, hs, rfl⟩ := Grammar.runs_iff.mp hrun
    obtain ⟨s', hs', hrs⟩ := Grammar.run_of_answers hl hn hc hr
    obtain rfl : s' = s := Grammar.Answers.unique ⟨m, hs'⟩ hs
    obtain ⟨ho, hlog, htrace⟩ := hrs
    rw [traces_of_block htrace]
    generalize r.outcome = o at ho ⊢
    generalize s'.outcome = o' at ho ⊢
    cases ho with
    | success hv hp => exact ⟨rfl, congrArg some hv, rfl, hp.2.2.1, hp.2.2.2, hlog⟩
    | failure hf => exact ⟨rfl, rfl, congrArg some hf.1, hf.2.2.2.1, hf.2.2.2.2, hlog⟩

/-- A repetition behind two characters that falls short, and the same run alone. -/
theorem a_short_repetition_behind_two_characters :
    let g : Grammar := ⟨[("r", .char 'c')]⟩
    let node : Node := .countBetween 3 9 (.choice [.char 'a', .row [.char 'b', .rule "r"]])
    (∀ k ∈ g.parts node, k.leaps = false) ∧ (∀ k ∈ g.parts node, k.nests = false) ∧
    ((Cursor.start "é日abcx").advance 2).Reached ∧
    g.Answers node ((Cursor.start "é日abcx").advance 2)
      ⟨.failure "match count < 3" ⟨"é日abcx", ['x'], 8, 5⟩, [.noAlternative 5 2, .tooFew 2 3]⟩ ∧
    g.Runs node "abcx" ⟨.failure "match count < 3" ⟨"abcx", ['x'], 3, 3⟩,
      [.opened 4, .entered, .noAlternative 3 2, .tooFew 2 3, .failed 3 "match count < 3", .exited]⟩ ∧
    5 = 3 + 2 := by
  intro g node
  have hl : ∀ k ∈ g.parts node, k.leaps = false := by decide
  have hn : ∀ k ∈ g.parts node, k.nests = false := by decide
  have hc : ((Cursor.start "é日abcx").advance 2).Reached := .advance (.start _) 2
  have hr : g.Answers node ((Cursor.start "é日abcx").advance 2)
      ⟨.failure "match count < 3" ⟨"é日abcx", ['x'], 8, 5⟩, [.noAlternative 5 2, .tooFew 2 3]⟩ :=
    ⟨6, by decide⟩
  have hs : g.Runs node "abcx" ⟨.failure "match count < 3" ⟨"abcx", ['x'], 3, 3⟩,
      [.opened 4, .entered, .noAlternative 3 2, .tooFew 2 3, .failed 3 "match count < 3",
        .exited]⟩ := ⟨6, by decide⟩
  have hlaw := (a_parse_depends_only_on_what_is_left g node _ hl hn hc).2 _ _ hr hs
  exact ⟨hl, hn, hc, hr, hs, hlaw.2.2.2.2.1⟩

end TextParsers
