-- Names with numbers, as in "a=1;bb=22". The grammar reads a text exactly if it is a list of
-- assignments with semicolons between them, so it reads back what is printed. A piece behind the
-- list that does not make another assignment is refused where it starts, however far it goes on
-- like one.
import TextParsers.Proofs.CharacterRuns
import TextParsers.Proofs.FirstFailure
namespace TextParsers.KeyValues

/-! ## The grammar -/

def word : Node := .map .join (.many1 (.satisfy .lower))

def number : Node := .map .natural (.many1 (.satisfy .digit))

def assignment : Node := .row [word, .skip (.char '='), number]

def further : Node := .row [.skip (.char ';'), assignment]

/-- Assignments with semicolons between them, and nothing else. -/
def keyValues : Node := .row [assignment, .many further, .endOfText]

def grammar : Grammar := ⟨[]⟩

/-! ## The language -/

/-- A name and digits, as they stand in a text. -/
structure Assignment where
  name : List Char
  digits : List Char
  name_ne_nil : name ≠ []
  lower : ∀ x ∈ name, x.isLower = true
  digits_ne_nil : digits ≠ []
  digit : ∀ x ∈ digits, x.isDigit = true

/-- A name and a number of 32 bits. -/
structure Entry where
  name : String
  number : Nat
  name_ne_empty : name ≠ ""
  lower : ∀ x ∈ name.toList, x.isLower = true
  number_lt : number < 0x100000000

def Assignment.written (a : Assignment) : List Char := a.name ++ '=' :: a.digits

/-- What an assignment says. Digits for a number that is too great say 0. -/
def Assignment.entry (a : Assignment) : Entry where
  name := .ofList a.name
  number :=
    if Nat.ofDigitChars 10 a.digits 0 < 0x100000000 then Nat.ofDigitChars 10 a.digits 0 else 0
  name_ne_empty := by simpa using a.name_ne_nil
  lower := by simpa using a.lower
  number_lt := by split <;> omega

/-- An entry as it is printed, its number in decimals. -/
def Entry.assignment (e : Entry) : Assignment where
  name := e.name.toList
  digits := Nat.toDigits 10 e.number
  name_ne_nil := by simpa using e.name_ne_empty
  lower := e.lower
  digits_ne_nil := Nat.toDigits_ne_nil
  digit := isDigit_toDigits e.number

/-- Assignments with semicolons between them. -/
def written (as : List Assignment) : List Char := [';'].intercalate (as.map Assignment.written)

def printed (es : List Entry) : List Char := written (es.map Entry.assignment)

def Entry.value (e : Entry) : Value := .list [.text e.name, .null, .int e.number]

def Entry.furtherValue (e : Entry) : Value := .list [.null, e.value]

/-- The value of entries: the first, then the others. -/
def listing : List Entry → Value
  | [] => .null
  | e :: es => .list [e.value, .list (es.map Entry.furtherValue), .null]

/-- What stands behind the first assignment. -/
def more (as : List Assignment) : List Char := as.flatMap fun a => ';' :: a.written

theorem written_cons (a : Assignment) (as : List Assignment) :
    written (a :: as) = a.written ++ more as := by
  induction as generalizing a with
  | nil => simp [written, more]
  | cons b as ih =>
    have hb := ih b
    unfold written at hb ⊢
    rw [List.map_cons, List.map_cons, List.intercalate_cons_cons, ← List.map_cons, hb]
    simp [more]

theorem Entry.entry_assignment (e : Entry) : e.assignment.entry = e := by
  have hread : Nat.ofDigitChars 10 (Nat.toDigits 10 e.number) 0 = e.number :=
    Nat.ofDigitChars_ten_toDigits
  unfold Entry.assignment Assignment.entry
  simp [hread, e.number_lt]

theorem map_entry_assignment (es : List Entry) :
    (es.map Entry.assignment).map Assignment.entry = es := by
  rw [List.map_map]
  exact (List.map_congr_left fun e _ => e.entry_assignment).trans es.map_id

/-! ## Where an assignment ends -/

variable {c d : Cursor} {v : Value}

/-- What stands behind an assignment ends its digits. -/
theorem stops_more (as : List Assignment) {tail : List Char} (h : Stops Char.isDigit tail) :
    Stops Char.isDigit (more as ++ tail) := by
  cases as with
  | nil => exact h
  | cons a as => exact stops_cons_iff.mpr rfl

/-- The digits of an assignment may be taken to be all that stand there. -/
theorem exists_passes_stops {a : Assignment} (h : ';' :: a.written <+: c.rest) :
    ∃ (b : Assignment) (d : Cursor), c.Passes (';' :: b.written) d ∧ Stops Char.isDigit d.rest := by
  obtain ⟨tail, htail⟩ := h
  let b : Assignment :=
    { a with
      digits := a.digits ++ tail.takeWhile Char.isDigit
      digits_ne_nil := List.append_ne_nil_of_left_ne_nil a.digits_ne_nil _
      digit := fun x hx => (List.mem_append.mp hx).elim (a.digit x) List.mem_takeWhile_imp }
  have hrest : ';' :: b.written ++ tail.dropWhile Char.isDigit = c.rest := by
    simp [← htail, b, Assignment.written]
  have hpass : c.Passes (';' :: b.written) (c.advance (';' :: b.written).length) :=
    ⟨⟨_, hrest⟩, rfl⟩
  refine ⟨b, _, hpass, ?_⟩
  rw [← List.append_cancel_left (hrest.trans hpass.rest_eq)]
  exact stops_dropWhile Char.isDigit tail

/-! ## What is read -/

/-- A word and a number are read alike: as far as their characters go. -/
theorem mapped_run_succeeds_iff {f : Mapper} {cls : CharClass} (hc : c.Consistent) :
    (grammar.meaning (.map f (.many1 (.satisfy cls)))).Succeeds c v d ↔
      ∃ run, c.Passes run d ∧ run ≠ [] ∧ (∀ x ∈ run, cls.holds x = true) ∧
        Stops cls.holds d.rest ∧ v = f.apply (.ofChars run) := by
  rw [Grammar.map_meaning_succeeds_iff]
  simp only [Grammar.run_meaning_succeeds_iff hc]
  grind

/-- The value of an assignment is read off its name and its digits. -/
theorem Assignment.value_entry (a : Assignment) :
    a.entry.value = .list [Mapper.join.apply (.ofChars a.name), .null,
      Mapper.natural.apply (.ofChars a.digits)] := by
  have hnumber : Value.natural (.ofList a.digits) = a.entry.number := by
    have hdigit : a.digits.all Char.isDigit = true := List.all_eq_true.mpr a.digit
    simp only [Value.natural, String.toList_ofList, hdigit, a.digits_ne_nil, ne_eq,
      not_false_eq_true, true_and]
    rfl
  simp only [Entry.value, Mapper.apply, Value.joined_ofChars, hnumber]
  rfl

theorem assignment_succeeds_iff (hc : c.Consistent) :
    (grammar.meaning assignment).Succeeds c v d ↔
      ∃ a : Assignment, c.Passes a.written d ∧ Stops Char.isDigit d.rest ∧ v = a.entry.value := by
  rw [assignment, Grammar.triple_meaning_succeeds_iff]
  simp only [word, mapped_run_succeeds_iff hc, Grammar.skip_char_meaning_succeeds_iff]
  constructor
  · intro ⟨_, _, _, b, e, ⟨name, hname, hne, hlower, _, hword⟩, ⟨heq, hnull⟩, hnumber, hv⟩
    have he := heq.consistent (hname.consistent hc)
    obtain ⟨digits, hdigits, hne', hdigit, hstop, hnumber⟩ :=
      (mapped_run_succeeds_iff he).mp hnumber
    let a : Assignment := ⟨name, digits, hne, hlower, hne', hdigit⟩
    refine ⟨a, ?_, hstop, ?_⟩
    · exact Cursor.passes_append_iff.mpr ⟨b, hname, Cursor.passes_cons_iff.mpr ⟨e, heq, hdigits⟩⟩
    · rw [hv, hword, hnull, hnumber, a.value_entry]
  · intro ⟨a, ha, hstop, hv⟩
    obtain ⟨b, hname, ha⟩ := Cursor.passes_append_iff.mp ha
    obtain ⟨e, heq, hdigits⟩ := Cursor.passes_cons_iff.mp ha
    have he := heq.consistent (hname.consistent hc)
    have hlower : Stops Char.isLower b.rest := by
      rw [heq.rest_eq]
      exact stops_cons_iff.mpr rfl
    exact ⟨_, _, _, b, e, ⟨a.name, hname, a.name_ne_nil, a.lower, hlower, rfl⟩, ⟨heq, rfl⟩,
      (mapped_run_succeeds_iff he).mpr ⟨a.digits, hdigits, a.digits_ne_nil, a.digit, hstop, rfl⟩,
      hv.trans a.value_entry⟩

theorem further_succeeds_iff (hc : c.Consistent) :
    (grammar.meaning further).Succeeds c v d ↔
      ∃ a : Assignment, c.Passes (';' :: a.written) d ∧ Stops Char.isDigit d.rest ∧
        v = a.entry.furtherValue := by
  rw [further, Grammar.pair_meaning_succeeds_iff]
  simp only [Grammar.skip_char_meaning_succeeds_iff]
  constructor
  · intro ⟨_, _, b, ⟨hsep, hnull⟩, ha, hv⟩
    obtain ⟨a, ha, hstop, hw⟩ := (assignment_succeeds_iff (hsep.consistent hc)).mp ha
    refine ⟨a, Cursor.passes_cons_iff.mpr ⟨b, hsep, ha⟩, hstop, ?_⟩
    rw [hv, hnull, hw]
    rfl
  · intro ⟨a, ha, hstop, hv⟩
    obtain ⟨b, hsep, ha⟩ := Cursor.passes_cons_iff.mp ha
    exact ⟨_, _, b, ⟨hsep, rfl⟩,
      (assignment_succeeds_iff (hsep.consistent hc)).mpr ⟨a, ha, hstop, rfl⟩, hv⟩

/-! ## What is repeated -/

theorem ends {node : Node} (hnode : node ∈ grammar.parts keyValues) (c : Cursor) :
    ∃ r, grammar.meaning node c = some r :=
  Grammar.meaning_ends (fun _ => false) (fun _ => 0) (by decide) (by decide) hnode c

theorem further_movesOn : (grammar.meaning further).MovesOn := by
  intro c v d hc hs
  obtain ⟨a, ha, _⟩ := (further_succeeds_iff hc).mp hs
  rw [ha.2]
  simp [ha.rest_eq]

/-- Assignments are read one by one, each with all of its digits. -/
theorem chain_further_iff {vs : List Value} (hc : c.Consistent)
    (hstop : Stops Char.isDigit c.rest) :
    Chain (grammar.meaning further).Succeeds c vs d ↔
      ∃ as, c.Passes (more as) d ∧ Stops Char.isDigit d.rest ∧
        vs = as.map fun a => a.entry.furtherValue := by
  constructor
  · intro hs
    induction hs with
    | nil c => exact ⟨[], Cursor.passes_nil_iff.mpr rfl, hstop, rfl⟩
    | cons h _ ih =>
      obtain ⟨a, ha, hstop, hv⟩ := (further_succeeds_iff hc).mp h
      obtain ⟨as, has, hstop, hvs⟩ := ih (ha.consistent hc) hstop
      exact ⟨a :: as, Cursor.passes_append_iff.mpr ⟨_, ha, has⟩, hstop, by rw [hv, hvs]; rfl⟩
  · intro ⟨as, has, hstop', hvs⟩
    rw [hvs]
    clear hstop hvs
    induction as generalizing c with
    | nil =>
      rw [Cursor.passes_nil_iff.mp has]
      exact .nil c
    | cons a as ih =>
      -- A semicolon or the tail comes next, so all of its digits are read.
      obtain ⟨b, ha, has⟩ := Cursor.passes_append_iff.mp has
      have hb : Stops Char.isDigit b.rest := by
        rw [has.rest_eq]
        exact stops_more as hstop'
      exact .cons ((further_succeeds_iff hc).mpr ⟨a, ha, hb, rfl⟩) (ih (ha.consistent hc) has)

/-- Nothing more is read where no further assignment begins, whatever begins like one. -/
theorem rests_further_iff (hc : c.Consistent) :
    (grammar.meaning further).Rests c ↔ ∀ a : Assignment, ¬ ';' :: a.written <+: c.rest := by
  have hmany : .many further ∈ grammar.parts keyValues :=
    Grammar.mem_parts_of_mem_children (grammar.mem_parts_self keyValues) (.tail _ (.head _))
  have hends := ends (Grammar.mem_parts_of_mem_children hmany (.head _)) c
  have hfails : (grammar.meaning further).Rests c ↔ (grammar.meaning further).Fails c := by
    constructor
    · exact Parser.fails_of_rests (grammar.meaning_keepsConsistent further) further_movesOn hc
        fun _ => hends
    · exact fun h => .inr (.inl h)
  rw [hfails, Parser.fails_iff_not_succeeds hends]
  constructor
  · intro hnone a ha
    obtain ⟨b, d, hb, hstop⟩ := exists_passes_stops ha
    exact hnone ⟨_, d, (further_succeeds_iff hc).mpr ⟨b, hb, hstop, rfl⟩⟩
  · intro hnone ⟨v, d, hs⟩
    obtain ⟨a, ha, _⟩ := (further_succeeds_iff hc).mp hs
    exact hnone a ha.1

theorem many_further_succeeds_iff (hc : c.Consistent) (hstop : Stops Char.isDigit c.rest) :
    (grammar.meaning (.many further)).Succeeds c v d ↔
      ∃ as, c.Passes (more as) d ∧ Stops Char.isDigit d.rest ∧
        (∀ a : Assignment, ¬ ';' :: a.written <+: d.rest) ∧
        v = .list (as.map fun a => a.entry.furtherValue) := by
  rw [Grammar.many_meaning_succeeds_iff]
  simp only [Parser.gathers_iff_successes (grammar.meaning_keepsConsistent further)
    further_movesOn hc, chain_further_iff hc hstop]
  constructor
  · intro ⟨_, ⟨⟨as, has, hstop', hvs⟩, hrests⟩, hv⟩
    rw [rests_further_iff (has.consistent hc)] at hrests
    exact ⟨as, has, hstop', hrests, by rw [hv, hvs]⟩
  · intro ⟨as, has, hstop', hrests, hv⟩
    rw [← rests_further_iff (has.consistent hc)] at hrests
    exact ⟨_, ⟨⟨as, has, hstop', rfl⟩, hrests⟩, hv⟩

/-! ## Whole lists -/

/-- A written list is read up to where it ends, unless what follows carries on with it. -/
theorem reads_written {a : Assignment} {as : List Assignment} (hc : c.Consistent)
    (h : c.Passes (written (a :: as)) d) (hstop : Stops Char.isDigit d.rest)
    (hnone : ∀ a : Assignment, ¬ ';' :: a.written <+: d.rest) :
    ∃ b, (grammar.meaning assignment).Succeeds c a.entry.value b ∧
      (grammar.meaning (.many further)).Succeeds b
        (.list (as.map fun a => a.entry.furtherValue)) d := by
  rw [written_cons] at h
  obtain ⟨b, ha, has⟩ := Cursor.passes_append_iff.mp h
  have hb : Stops Char.isDigit b.rest := by
    rw [has.rest_eq]
    exact stops_more as hstop
  exact ⟨b, (assignment_succeeds_iff hc).mpr ⟨a, ha, hb, rfl⟩,
    (many_further_succeeds_iff (ha.consistent hc) hb).mpr ⟨as, has, hstop, hnone, rfl⟩⟩

theorem keyValues_succeeds_iff (hc : c.Consistent) :
    (grammar.meaning keyValues).Succeeds c v d ↔
      ∃ as ≠ [], c.rest = written as ∧ v = listing (as.map Assignment.entry) ∧
        d = c.advance c.rest.length := by
  rw [keyValues, Grammar.triple_meaning_succeeds_iff]
  constructor
  · intro ⟨_, _, _, b, e, hfirst, hmany, hend, hv⟩
    obtain ⟨a, ha, hstop, hw⟩ := (assignment_succeeds_iff hc).mp hfirst
    have hb := ha.consistent hc
    obtain ⟨as, has, -, -, hws⟩ := (many_further_succeeds_iff hb hstop).mp hmany
    obtain ⟨hnil, hnull, hd⟩ :=
      (Grammar.endOfText_meaning_succeeds_iff (has.consistent hb)).mp hend
    have hall : c.Passes (written (a :: as)) d := by
      rw [written_cons, hd]
      exact Cursor.passes_append_iff.mpr ⟨b, ha, has⟩
    have hrest : c.rest = written (a :: as) := by
      rw [hall.rest_eq, hd, hnil, List.append_nil]
    refine ⟨a :: as, List.cons_ne_nil _ _, hrest, ?_, ?_⟩
    · rw [hv, hw, hws, hnull]
      simp [listing]
    · rw [hrest, hall.2]
  · intro ⟨as, hne, hrest, hv, hd⟩
    obtain ⟨a, as, rfl⟩ := List.exists_cons_of_ne_nil hne
    have hall : c.Passes (written (a :: as)) d := ⟨by rw [hrest], by rw [hd, hrest]⟩
    have hnil : d.rest = [] := by
      have h := hall.rest_eq
      rw [hrest] at h
      simpa using h
    obtain ⟨b, hfirst, hmany⟩ := reads_written hc hall (by simp [hnil]) (by simp [hnil])
    refine ⟨_, _, _, b, d, hfirst, hmany,
      (Grammar.endOfText_meaning_succeeds_iff (hall.consistent hc)).mpr ⟨hnil, rfl, rfl⟩, ?_⟩
    rw [hv]
    simp [listing]

theorem keyValues_fails_behind {as : List Assignment} (hne : as ≠ []) (hc : c.Consistent)
    (h : c.Passes (written as) d) (hleft : d.rest ≠ []) (hstop : Stops Char.isDigit d.rest)
    (hnone : ∀ a : Assignment, ¬ ';' :: a.written <+: d.rest) :
    ∃ log, grammar.meaning keyValues c = some ⟨.failure "not EOF" d, log⟩ := by
  obtain ⟨a, as, rfl⟩ := List.exists_cons_of_ne_nil hne
  obtain ⟨b, ⟨l, hfirst⟩, m, hmany⟩ := reads_written hc h hstop hnone
  have hend : grammar.meaning .endOfText d = some ⟨.failure "not EOF" d, []⟩ :=
    Grammar.endOfText_meaning_fails (h.consistent hc) hleft
  have hrelay : Parser.Relay [grammar.meaning assignment, grammar.meaning (.many further)]
      c _ d _ := .cons hfirst (.cons hmany (.nil d))
  rw [keyValues, Grammar.meaning_eq_step fun _ _ => rfl]
  simp only [Grammar.step, Parser.row_eq_all, Parser.map_eq_failure_iff]
  exact ⟨_, Parser.all_eq_failure_iff.mpr ⟨_, _, [], _, _, _, _, rfl, hrelay, hend, rfl⟩⟩

/-! ## The law -/

/-- A run of the grammar always ends. It succeeds exactly on the assignments with semicolons between
them, one or more, and then it has read all of them and gives their entries in order. So it reads
back what entries are printed as. Behind such a list, a text that neither carries on with the last
number nor begins with a further assignment is refused where it starts. -/
theorem key_values_are_read_as_they_are_written :
    (∀ text, ∃ r, grammar.Runs keyValues text r) ∧
    (∀ text v d, (∃ log, grammar.Runs keyValues text ⟨.success v d, log⟩) ↔
      ∃ as ≠ [], text.toList = written as ∧ v = listing (as.map Assignment.entry) ∧
        d = (Cursor.start text).advance text.length) ∧
    (∀ es ≠ [], ∃ log, grammar.Runs keyValues (.ofList (printed es))
      ⟨.success (listing es) ((Cursor.start (.ofList (printed es))).advance (printed es).length),
        log⟩) ∧
    ∀ es ≠ [], ∀ u ≠ [], Stops Char.isDigit u → (∀ a : Assignment, ¬ ';' :: a.written <+: u) →
      ∃ d log, grammar.Runs keyValues (.ofList (printed es ++ u)) ⟨.failure "not EOF" d, log⟩ ∧
        d.text = .ofList (printed es ++ u) ∧ d.position = (printed es).length ∧ d.rest = u := by
  have hread : ∀ text v d, (∃ log, grammar.Runs keyValues text ⟨.success v d, log⟩) ↔
      ∃ as ≠ [], text.toList = written as ∧ v = listing (as.map Assignment.entry) ∧
        d = (Cursor.start text).advance text.length := by
    intro text v d
    rw [Grammar.exists_runs_iff, ← String.length_toList]
    exact keyValues_succeeds_iff (Cursor.consistent_start text)
  refine ⟨fun text => ?_, hread, fun es hes => ?_, fun es hes u hu hstop hnone => ?_⟩
  · obtain ⟨⟨o, log⟩, hr⟩ := ends (grammar.mem_parts_self keyValues) (.start text)
    obtain ⟨log, hr⟩ := Grammar.exists_runs_iff.mpr ⟨log, hr⟩
    exact ⟨_, hr⟩
  · refine (hread _ _ _).mpr ⟨es.map Entry.assignment, by simpa using hes, ?_, ?_, ?_⟩
    · exact String.toList_ofList
    · rw [map_entry_assignment]
    · rw [String.length_ofList]
  · have hpass : (Cursor.start (.ofList (printed es ++ u))).Passes (printed es) _ :=
      ⟨⟨u, String.toList_ofList.symm⟩, rfl⟩
    have hrest := List.append_cancel_left (hpass.rest_eq.symm.trans String.toList_ofList)
    rw [← hrest] at hu hstop hnone
    obtain ⟨log, hr⟩ := Grammar.exists_runs_iff.mpr
      (keyValues_fails_behind (by simpa using hes) (Cursor.consistent_start _) hpass hu hstop hnone)
    exact ⟨_, log, hr, rfl, hpass.position_eq.trans (Nat.zero_add _), hrest⟩

/-- Zeros before a number, and a number that does not fit; and behind two entries a third without
its number. -/
theorem a_number_too_great_and_a_name_without_a_number :
    let seven : Assignment := ⟨['a'], "007".toList, by decide, List.all_eq_true.mp (by decide),
      by decide, List.all_eq_true.mp (by decide)⟩
    let great : Assignment := ⟨['b', 'b'], "4294967296".toList, by decide,
      List.all_eq_true.mp (by decide), by decide, List.all_eq_true.mp (by decide)⟩
    let es : List Entry := [⟨"a", 7, by decide, List.all_eq_true.mp (by decide), by decide⟩,
      ⟨"bb", 4294967295, by decide, List.all_eq_true.mp (by decide), by decide⟩]
    let u := [';', 'c', '=']
    (∃ log, grammar.Runs keyValues "a=007;bb=4294967296" ⟨.success
      (.list [.list [.text "a", .null, .int 7],
        .list [.list [.null, .list [.text "bb", .null, .int 0]]], .null])
      ((Cursor.start "a=007;bb=4294967296").advance 19), log⟩) ∧
    "a=007;bb=4294967296".toList = written [seven, great] ∧
    printed es = "a=7;bb=4294967295".toList ∧
    u ≠ [] ∧ Stops Char.isDigit u ∧ (∀ a : Assignment, ¬ ';' :: a.written <+: u) ∧
    ∃ d log, grammar.Runs keyValues (.ofList (printed es ++ u)) ⟨.failure "not EOF" d, log⟩ ∧
      d.position = 17 ∧ d.rest = u := by
  intro seven great es u
  obtain ⟨-, hread, -, hrefused⟩ := key_values_are_read_as_they_are_written
  have hwritten : "a=007;bb=4294967296".toList = written [seven, great] := by decide
  have hprinted : printed es = "a=7;bb=4294967295".toList := by decide
  have hnone : ∀ a : Assignment, ¬ ';' :: a.written <+: u := by
    intro a h
    have hlen : (';' :: a.written).length ≤ 3 := h.length_le
    have hname := List.length_pos_iff.mpr a.name_ne_nil
    have hdigits := List.length_pos_iff.mpr a.digits_ne_nil
    simp only [Assignment.written, List.length_cons, List.length_append] at hlen
    omega
  have hstop : Stops Char.isDigit u := stops_cons_iff.mpr rfl
  obtain ⟨d, log, hrun, -, hposition, hrest⟩ :=
    hrefused es (List.cons_ne_nil _ _) u (by decide) hstop hnone
  refine ⟨(hread _ _ _).mpr ⟨[seven, great], List.cons_ne_nil _ _, hwritten, by decide, by decide⟩,
    hwritten, hprinted, by decide, hstop, hnone, d, log, hrun, ?_, hrest⟩
  rw [hposition, hprinted]
  decide

end TextParsers.KeyValues
