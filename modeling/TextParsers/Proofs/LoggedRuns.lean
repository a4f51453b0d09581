-- The law of the log. A run logs one block: it is opened and entered, its body
-- follows, one verdict says how it ended, and it is left. `Grammar.Body` says what
-- a body is made of, and every parse inside a run keeps to it.
import TextParsers.Proofs.ConsumedPrefix
namespace TextParsers

/-! ## The bodies of blocks -/

/-- The body of a block whose text has `length` bytes: events of level trace, and the blocks of
nested runs of the grammar, each with a body of its own. Without leaps no nested run reads
a longer text. -/
inductive Grammar.Body (g : Grammar) (node : Node) : (length : Nat) → Log → Prop
  | nil {length : Nat} : Body g node length []
  | event {length : Nat} {e : Event} {log : Log} (he : e.isTrace = true)
      (h : Body g node length log) : Body g node length (e :: log)
  | block {length : Nat} {child : Node} {text : String} {o : Outcome Value} {body log : Log}
      (hk : .nested child ∈ g.parts node) (hr : g.Runs child text ⟨o, o.block text body⟩)
      (hb : Body g node text.utf8ByteSize body)
      (hl : (∀ k ∈ g.parts node, k.leaps = false) → text.utf8ByteSize ≤ length)
      (h : Body g node length log) : Body g node length (o.block text body ++ log)

/-- A number of repetitions that is reported missed the bound it is reported with. -/
def Event.Bounded : Event → Prop
  | .tooFew matched min => matched < min
  | .tooMany matched max => max < matched
  | _ => True

section

variable {g : Grammar} {root : Node} {length : Nat}

theorem Grammar.Body.append {log log' : Log} (h : g.Body root length log)
    (h' : g.Body root length log') : g.Body root length (log ++ log') := by
  induction h with
  | nil => exact h'
  | event he _ ih => exact .event he (ih h')
  | block hk hr hb hl _ _ ih =>
    rw [List.append_assoc]
    exact .block hk hr hb hl (ih h')

theorem Outcome.bounded_of_mem_block {α : Type} {o : Outcome α} {text : String} {body : Log}
    (h : ∀ e ∈ body, e.Bounded) : ∀ e ∈ o.block text body, e.Bounded := by
  intro e he
  rw [Outcome.block_eq] at he
  simp only [List.mem_cons, List.mem_append, List.not_mem_nil, or_false] at he
  rcases he with rfl | rfl | he | rfl | rfl
  · trivial
  · trivial
  · exact h e he
  · cases o <;> trivial
  · trivial

/-! ## Likenesses that look at the log -/

/-- Logs with the property are put together from what parsers log. -/
structure Log.Closed (L : Log → Prop) : Prop where
  nil : L []
  append : ∀ {log log'}, L log → L log' → L (log ++ log')
  event : ∀ {e : Event}, e.isTrace = true → e.Bounded → L [e]

/-- The comparison, and a property of the first log. -/
def Likeness.keeping (R : Likeness) (L : Log → Prop) : Likeness :=
  { R with log := fun l m => R.log l m ∧ L l }

theorem Likeness.Lawful.keeping {R : Likeness} (hR : R.Lawful) {L : Log → Prop}
    (hL : Log.Closed L) : (R.keeping L).Lawful where
  advance := hR.advance
  peek := hR.peek
  isEmpty := hR.isEmpty
  moved := hR.moved
  failed := hR.failed
  failed_back := hR.failed_back
  failed_reword := hR.failed_reword
  log_nil := ⟨hR.log_nil, hL.nil⟩
  log_append := fun h h' => ⟨hR.log_append h.1 h'.1, hL.append h.2 h'.2⟩
  log_noAlternative := fun hc n => ⟨hR.log_noAlternative hc n, hL.event rfl trivial⟩
  log_tooFew := fun h => ⟨hR.log_tooFew h, hL.event rfl h⟩
  log_tooMany := fun h => ⟨hR.log_tooMany h, hL.event rfl h⟩

theorem Outcome.alike_keeping_iff {R : Likeness} {L : Log → Prop} {α β : Type} {V : α → β → Prop}
    {o : Outcome α} {o' : Outcome β} : o.Alike (R.keeping L) V o' ↔ o.Alike R V o' := by
  constructor
  · rintro (⟨hv, hc⟩ | hf)
    · exact .success hv hc
    · exact .failure hf
  · rintro (⟨hv, hc⟩ | hf)
    · exact .success hv hc
    · exact .failure hf

/-- The log is the body of a block, and its counts miss their bounds. -/
def Grammar.Logs (g : Grammar) (root : Node) (length : Nat) (log : Log) : Prop :=
  g.Body root length log ∧ ∀ e ∈ log, e.Bounded

theorem Grammar.closed_logs : Log.Closed (g.Logs root length) where
  nil := ⟨.nil, by simp⟩
  append := by
    rintro log log' ⟨h, hb⟩ ⟨h', hb'⟩
    refine ⟨h.append h', fun e he => ?_⟩
    rcases List.mem_append.mp he with he | he
    · exact hb e he
    · exact hb' e he
  event := fun he hb => ⟨.event he .nil, by simpa using hb⟩

/-! ## What a parse inside a run logs -/

/-- Unless the grammar leaps, so many bytes are left at the place or fewer. -/
def Cursor.Fits (g : Grammar) (root : Node) (length : Nat) (c : Cursor) : Prop :=
  (∀ k ∈ g.parts root, k.leaps = false) → c.remainder.utf8ByteSize ≤ length

theorem Cursor.fits_start (text : String) : (start text).Fits g root text.utf8ByteSize := by
  intro _
  simp [start, remainder]

theorem Cursor.Fits.advance {c : Cursor} (h : c.Fits g root length) (n : Nat) :
    (c.advance n).Fits g root length := by
  intro hl
  have hsplit : c.remainder = String.ofList (c.rest.take n) ++ (c.advance n).remainder := by
    rw [remainder, remainder, rest_advance, ← String.ofList_append, List.take_append_drop]
  have hle : c.remainder.utf8ByteSize ≤ length := h hl
  rw [hsplit, String.utf8ByteSize_append] at hle
  omega

/-- The same place in a run on so many bytes, and the same log, which is the body of its
block. -/
def Likeness.logged (g : Grammar) (root : Node) (length : Nat) : Likeness :=
  (within (Cursor.Fits g root length)).keeping (g.Logs root length)

theorem Likeness.lawful_logged : (logged g root length).Lawful :=
  Lawful.keeping (lawful_within fun _ n hc => hc.advance n) Grammar.closed_logs

theorem Reply.alike_logged_iff {r s : Reply Value} :
    r.Alike (.logged g root length) Eq s ↔
      r = s ∧ r.outcome.cursor.Fits g root length ∧ g.Logs root length r.log := by
  constructor
  · rintro ⟨ho, hl, hlogs⟩
    obtain ⟨heq, hc⟩ := Reply.alike_within_iff.mp ⟨Outcome.alike_keeping_iff.mp ho, hl⟩
    exact ⟨heq, hc, hlogs⟩
  · rintro ⟨rfl, hc, hlogs⟩
    have hwithin := Reply.alike_within_iff.mpr ⟨rfl, hc⟩
    exact ⟨Outcome.alike_keeping_iff.mpr hwithin.outcome, rfl, hlogs⟩

/-- A nested run logs one block, if its parse logs the body of one. -/
theorem Parser.nested_logged {child : Node} {limit : Nat}
    (hk : .nested child ∈ g.parts root)
    (h : ∀ length, (g.parser limit child).SimulatedBy (.logged g root length) Eq
      (g.parser limit child)) :
    (g.parser limit child).nested.SimulatedBy (.logged g root length) Eq
      (g.parser limit child).nested := by
  rintro c _ ⟨rfl, hc⟩
  show Answered _ ((g.parser limit child).run c.remainder) ((g.parser limit child).run c.remainder)
  rcases hrun : (g.parser limit child).run c.remainder with _ | r
  · exact .silent
  obtain ⟨s, hs, rfl⟩ := Parser.run_eq_some_iff.mp hrun
  obtain ⟨_, -, hss⟩ := (h c.remainder.utf8ByteSize _ _
    ⟨rfl, Cursor.fits_start c.remainder⟩).exists_of_eq_some hs
  obtain ⟨-, hfits, hbody, hbounded⟩ := Reply.alike_logged_iff.mp hss
  refine .both (Reply.alike_logged_iff.mpr ⟨rfl, fun hl => ?_, ?_, ?_⟩)
  · exact Nat.le_trans (hfits hl) (hc hl)
  · have hblock := Grammar.Body.block hk ⟨limit, hrun⟩ hbody hc .nil
    rwa [List.append_nil] at hblock
  · exact Outcome.bounded_of_mem_block hbounded

/-- In a run, every part of the grammar logs what belongs into the body of a block. The
induction is on the steps, for blocks of every length, as a nested run starts a new one. -/
theorem Grammar.parser_logged (limit : Nat) {node : Node} (hnode : node ∈ g.parts root)
    (length : Nat) :
    (g.parser limit node).SimulatedBy (.logged g root length) Eq (g.parser limit node) := by
  induction limit generalizing node length with
  | zero => exact Parser.simulatedBy_silent
  | succ limit ih =>
    have hchild : ∀ child ∈ node.children, child ∈ g.parts root :=
      fun _ => Grammar.mem_parts_of_mem_children hnode
    rw [Grammar.parser_succ]
    refine Grammar.step_simulatedBy Likeness.lawful_logged Value.congruent_eq (Nat.le_refl limit)
      (Node.like_self fun child hc => ih (hchild child hc) length) ?_ ?_
    · rintro name body - hb
      exact ⟨body, hb, ih (Grammar.mem_parts_of_body? hb body.mem_parts_self) length⟩
    · cases node with
      | jump n =>
        rintro c _ ⟨rfl, -⟩
        refine .both ⟨.success rfl ⟨rfl, fun hl => ?_⟩, rfl, Grammar.closed_logs.nil⟩
        exact absurd (hl _ hnode) (by simp [Node.leaps])
      | enter text n =>
        rintro c _ ⟨rfl, -⟩
        refine .both ⟨.success rfl ⟨rfl, fun hl => ?_⟩, rfl, Grammar.closed_logs.nil⟩
        exact absurd (hl _ hnode) (by simp [Node.leaps])
      | nested child => exact Parser.nested_logged hnode (ih (hchild child (.head _)))
      | _ => trivial

end

/-! ## The law -/

/-- A run logs one block, opened with the bytes of its text and closed by where it succeeded, or
where it failed and with what message. The body holds events of level trace and the blocks of
nested runs, to any depth, each closed by how it ended itself. A count that is reported as too small
is below its bound, one reported as too large above. Without leaps no block is longer than the one
around it. -/
theorem the_log_of_a_run_is_one_block (g : Grammar) (node : Node) (text : String)
    (r : Reply Value) (h : g.Runs node text r) :
    (∃ body, r.log = r.outcome.block text body ∧ g.Body node text.utf8ByteSize body) ∧
    (∀ matched min, .tooFew matched min ∈ r.log → matched < min) ∧
    ∀ matched max, .tooMany matched max ∈ r.log → max < matched := by
  obtain ⟨s, ⟨limit, hs⟩, rfl⟩ := Grammar.runs_iff.mp h
  have hself : node ∈ g.parts node := List.mem_append_left _ node.mem_parts_self
  have hsim := Grammar.parser_logged limit hself text.utf8ByteSize
  obtain ⟨_, -, hss⟩ := (hsim _ _ ⟨rfl, Cursor.fits_start text⟩).exists_of_eq_some hs
  obtain ⟨-, -, hbody, hbounded⟩ := Reply.alike_logged_iff.mp hss
  have hblock : ∀ e ∈ s.outcome.block text s.log, e.Bounded :=
    Outcome.bounded_of_mem_block hbounded
  exact ⟨⟨s.log, rfl, hbody⟩, fun _ _ he => hblock _ he, fun _ _ he => hblock _ he⟩

/-- A run that gives up one nested run, which has another inside, and takes the next. -/
theorem a_run_that_backtracks_over_nested_runs :
    let g : Grammar := ⟨[("r", .countBetween 1 1 (.char 'b'))]⟩
    let node : Node := .choice
      [.nested (.all [.char 'é', .nested (.rule "r")]), .nested (.choice [.endOfText, .anyChar])]
    let r : Reply Value := ⟨.success (.text "é") ⟨"ébb", ['b', 'b'], 2, 1⟩,
      [.opened 4, .entered,
        .opened 4, .entered,
          .opened 2, .entered, .tooMany 2 1, .failed 2 "1 < match count", .exited,
        .failed 2 "1 < match count", .exited,
        .opened 4, .entered, .succeeded 1, .exited,
      .succeeded 1, .exited]⟩
    g.Runs node "ébb" r ∧
    (∃ body, r.log = r.outcome.block "ébb" body ∧ g.Body node "ébb".utf8ByteSize body) ∧
    1 < 2 := by
  intro g node r
  have hr : g.Runs node "ébb" r := ⟨9, by decide⟩
  obtain ⟨hblock, -, htooMany⟩ := the_log_of_a_run_is_one_block g node "ébb" r hr
  exact ⟨hr, hblock, htooMany 2 1 (by decide)⟩

end TextParsers
