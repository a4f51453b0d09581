-- The lines of a debug text. No text in quotes breaks a line, so the breaks of a text over several
-- lines are its layout: one line opens the record that is shown, one line stands for each field, and
-- one closes each record. Every line is read for itself, and the lines together are the outline of
-- the tree.
import TextParsers.Proofs.UniqueReading
namespace TextParsers.Dump

/-! ## Outlines -/

/-- What a line is for. -/
inductive Role where
  /-- It opens the record that is shown. -/
  | opening
  /-- It has a field, and opens the record that is the value of the field if there is one. -/
  | field (name : String) (opens : Bool)
  /-- It closes a record. -/
  | closing
  /-- It has all that is shown. -/
  | alone
  deriving DecidableEq, Repr

/-- A line: how many blanks it begins with, and what it is for. -/
structure Line where
  indent : Nat
  role : Role
  deriving DecidableEq, Repr

def isRecord : Dump → Bool
  | .plain _ => false
  | .quoted _ => false
  | .record _ _ => true

mutual

/-- The lines behind the first that a tree takes at a level. -/
def outlineBehind (level : Nat) : Dump → List Line
  | .plain _ => []
  | .quoted _ => []
  | .record _ fields => outlineFields (level + 1) fields ++ [⟨4 * level, .closing⟩]

/-- A line for each field at a level, with the lines behind it that the value of the field takes. -/
def outlineFields (level : Nat) : Fields → List Line
  | .nil => []
  | .cons name value more =>
    ⟨4 * level, .field name value.isRecord⟩ ::
      (outlineBehind level value ++ outlineFields level more)

end

/-- One line for the tree, one for each field in it, and one for the end of each record, with four
blanks for each record that the line stands in. -/
def outline (d : Dump) : List Line :=
  ⟨0, if d.isRecord then .opening else .alone⟩ :: outlineBehind 0 d

/-! ### Reading a line -/

/-- What a line is for, from what stands behind its blanks: a brace alone or before a comma, letters
and a colon, or else. -/
def Role.read (cs : List Char) : Role :=
  let opens := cs.getLast? == some '\x7b'
  if cs = ['\x7d'] ∨ cs = ['\x7d', ','] then .closing
  else if (cs.dropWhile Char.isAlpha).take 2 = [':', ' '] then
    .field (String.ofList (cs.takeWhile Char.isAlpha)) opens
  else if opens then .opening
  else .alone

def Line.read (s : String) : Line :=
  ⟨(s.toList.takeWhile (· == ' ')).length, .read (s.toList.dropWhile (· == ' '))⟩

/-! ## Line breaks -/

theorem newline_notMem_line {depth : Nat} {s : String} (h : '\n' ∉ s.toList) :
    '\n' ∉ (line depth s).toList := by
  simp [toList_line, blanks, h]

theorem MadeOf.newline_notMem {test : Char → Bool} {s : String} (h : MadeOf test s)
    (hnot : test '\n' = false) : '\n' ∉ s.toList := by
  intro hmem
  rw [h.2 _ hmem] at hnot
  cases hnot

theorem newline_notMem_quote (s : String) : '\n' ∉ (Text.Quoted.quote s).toList := by
  intro hmem
  cases Text.Quoted.isControl_of_mem_quote hmem

mutual

theorem newline_notMem_lines (d : Dump) (hd : d.Sound) {depth : Nat} {lead tail : String}
    (hlead : '\n' ∉ lead.toList) (htail : '\n' ∉ tail.toList) :
    ∀ s ∈ d.lines depth lead tail, '\n' ∉ s.toList := by
  intro s hs
  cases d with
  | plain word =>
    rw [lines, List.mem_singleton] at hs
    rw [hs]
    apply newline_notMem_line
    simp [hlead, htail, hd.newline_notMem rfl]
  | quoted t =>
    rw [lines, List.mem_singleton] at hs
    rw [hs]
    apply newline_notMem_line
    simp [hlead, htail, newline_notMem_quote]
  | record name fields =>
    cases fields with
    | nil => exact hd.elim
    | cons field value more =>
      obtain ⟨hname, hfield, hvalue, hmore⟩ := hd
      simp only [lines, List.mem_cons, List.mem_append, List.not_mem_nil, or_false] at hs
      rcases hs with rfl | (hs | hs) | rfl
      · apply newline_notMem_line
        simp [hlead, hname.newline_notMem rfl]
      · exact newline_notMem_lines value hvalue (by simp [hfield.newline_notMem rfl])
          (by simp) s hs
      · exact newline_notMem_linesMore more hmore s hs
      · apply newline_notMem_line
        simp [htail]

theorem newline_notMem_linesMore (fields : Fields) (hf : SoundMore fields) {depth : Nat} :
    ∀ s ∈ linesMore depth fields, '\n' ∉ s.toList := by
  intro s hs
  cases fields with
  | nil => cases hs
  | cons field value more =>
    obtain ⟨hfield, hvalue, hmore⟩ := hf
    rw [linesMore, List.mem_append] at hs
    rcases hs with hs | hs
    · exact newline_notMem_lines value hvalue (by simp [hfield.newline_notMem rfl])
        (by simp) s hs
    · exact newline_notMem_linesMore more hmore s hs

end

/-- Cut at its line breaks, the text gives back the lines that it was put together from. -/
theorem split_pretty {d : Dump} (hd : d.Sound) :
    (d.pretty.split '\n').toList.map (·.copy) = d.lines 0 "" "" := by
  have hnot : ∀ s ∈ d.lines 0 "" "", '\n' ∉ s.toList :=
    newline_notMem_lines d hd (by simp) (by simp)
  have hcut := String.toList_split_intercalate hnot
  rwa [if_neg (lines_ne_nil 0 "" "" d)] at hcut

/-! ## Lines one by one -/

theorem Line.read_line {depth : Nat} {s : String} (h : Stops (· == ' ') s.toList) :
    Line.read (line depth s) = ⟨4 * depth, .read s.toList⟩ := by
  have hblank : ∀ x ∈ blanks depth, (x == ' ') = true := by
    intro x hx
    simp [List.eq_of_mem_replicate hx]
  unfold Line.read
  rw [toList_line, takeWhile_append_of_stops hblank h, dropWhile_append_of_stops hblank h]
  simp [blanks]

section

variable {name : String} {r : List Char} (h : MadeOf Char.isAlpha name)
include h

theorem MadeOf.exists_letter : ∃ x xs, name.toList = x :: xs ∧ x.isAlpha = true := by
  obtain ⟨x, xs, hx⟩ := List.exists_cons_of_ne_nil h.1
  exact ⟨x, xs, hx, h.2 x (by simp [hx])⟩

theorem MadeOf.stops_blank : Stops (· == ' ') (name.toList ++ r) := by
  obtain ⟨x, xs, hx, hletter⟩ := h.exists_letter
  rw [hx, List.cons_append, stops_cons_iff, beq_eq_false_iff_ne]
  rintro rfl
  cases hletter

/-- A name does not begin with the brace that closes a record. -/
theorem MadeOf.ne_closing :
    ¬ (name.toList ++ r = ['\x7d'] ∨ name.toList ++ r = ['\x7d', ',']) := by
  obtain ⟨x, xs, hx, hletter⟩ := h.exists_letter
  have hne : x ≠ '\x7d' := by
    rintro rfl
    cases hletter
  simp [hx, hne]

variable {depth : Nat} {s : String}

/-- A line with a field opens a record if what is shown ends in a brace. -/
theorem Line.read_field (hs : s.toList = name.toList ++ ':' :: ' ' :: r) :
    Line.read (line depth s) = ⟨4 * depth, .field name (r.getLast? == some '\x7b')⟩ := by
  have hstop : Stops Char.isAlpha (':' :: ' ' :: r) := by simp
  have hblank : Stops (· == ' ') s.toList := by
    rw [hs]
    exact h.stops_blank
  have hlast : (s.toList.getLast? == some '\x7b') = (r.getLast? == some '\x7b') := by
    rw [hs, List.getLast?_append, List.getLast?_cons, List.getLast?_cons]
    cases r.getLast? <;> simp
  rw [Line.read_line hblank, Role.read, hlast, hs]
  simp only [h.ne_closing, if_false, dropWhile_append_of_stops h.2 hstop,
    takeWhile_append_of_stops h.2 hstop, String.ofList_toList]
  rfl

theorem Line.read_opening (hs : s.toList = name.toList ++ [' ', '\x7b']) :
    Line.read (line depth s) = ⟨4 * depth, .opening⟩ := by
  have hstop : Stops Char.isAlpha [' ', '\x7b'] := by simp
  have hblank : Stops (· == ' ') s.toList := by
    rw [hs]
    exact h.stops_blank
  rw [Line.read_line hblank, hs, Role.read]
  simp [h.ne_closing, dropWhile_append_of_stops h.2 hstop]

end

/-- A line with neither letters nor a mark at its beginning, and with no brace at its end. -/
theorem Line.read_alone {depth : Nat} {s : String} {x : Char} {xs : List Char}
    (hs : s.toList = x :: xs) (hletter : x.isAlpha = false) (hmark : x ∉ [' ', ':', '\x7d'])
    (hlast : (x :: xs).getLast? ≠ some '\x7b') :
    Line.read (line depth s) = ⟨4 * depth, .alone⟩ := by
  simp only [List.mem_cons, List.not_mem_nil, or_false, not_or] at hmark
  have hblank : Stops (· == ' ') s.toList := by simp [hs, hmark]
  rw [Line.read_line hblank, hs, Role.read]
  simp [hletter, hmark, hlast]

theorem Line.read_word {depth : Nat} {s : String} (h : MadeOf isWordChar s) :
    Line.read (line depth s) = ⟨4 * depth, .alone⟩ := by
  obtain ⟨x, xs, hs⟩ := List.exists_cons_of_ne_nil h.1
  have hword : ∀ y ∈ x :: xs, isWordChar y = true := by
    rw [← hs]
    exact h.2
  have hx := hword x (.head _)
  apply Line.read_alone hs (not_isAlpha_of_isWordChar hx)
  · intro hmark
    simp only [List.mem_cons, List.not_mem_nil, or_false] at hmark
    rcases hmark with rfl | rfl | rfl <;> cases hx
  · intro hlast
    cases hword _ (List.mem_of_getLast? hlast)

theorem Line.read_quote {depth : Nat} (s : String) :
    Line.read (line depth (Text.Quoted.quote s)) = ⟨4 * depth, .alone⟩ := by
  have hs : (Text.Quoted.quote s).toList = '"' :: (Text.Quoted.encode s.toList ++ ['"']) := by
    simp [Text.Quoted.quote]
  apply Line.read_alone hs
  · rfl
  · decide
  · simp [List.getLast?_cons]

/-! ## All lines -/

/-- The first line of a tree. -/
def firstLine (depth : Nat) (lead tail : String) (d : Dump) : String :=
  (d.lines depth lead tail).headD ""

/-- The first line of the value of a field has the field, and opens the value if it is a record. -/
theorem read_firstLine_field {d : Dump} (hd : d.Sound) (depth : Nat) {field : String}
    (hfield : MadeOf Char.isAlpha field) :
    Line.read (d.firstLine depth (field ++ ": ") ",") = ⟨4 * depth, .field field d.isRecord⟩ := by
  cases d with
  | plain word =>
    rw [firstLine, lines, List.headD_cons,
      Line.read_field hfield (r := word.toList ++ [',']) (by simp)]
    simp [isRecord]
  | quoted s =>
    rw [firstLine, lines, List.headD_cons,
      Line.read_field hfield (r := (Text.Quoted.quote s).toList ++ [',']) (by simp)]
    simp [isRecord]
  | record name fields =>
    cases fields with
    | nil => exact hd.elim
    | cons first value more =>
      rw [firstLine, lines, List.headD_cons,
        Line.read_field hfield (r := name.toList ++ [' ', '\x7b']) (by simp)]
      simp [isRecord]

theorem read_firstLine {d : Dump} (hd : d.Sound) :
    Line.read (d.firstLine 0 "" "") = ⟨0, if d.isRecord then .opening else .alone⟩ := by
  cases d with
  | plain word =>
    rw [firstLine, lines, List.headD_cons, String.empty_append, String.append_empty]
    exact Line.read_word hd
  | quoted s =>
    rw [firstLine, lines, List.headD_cons, String.empty_append, String.append_empty]
    exact Line.read_quote s
  | record name fields =>
    cases fields with
    | nil => exact hd.elim
    | cons first value more =>
      rw [firstLine, lines, List.headD_cons, Line.read_opening hd.1 (by simp)]
      rfl

mutual

/-- Behind its first line a tree takes the lines that its outline says. -/
theorem map_read_lines (d : Dump) (hd : d.Sound) {depth : Nat} {lead tail : String}
    (htail : tail = "" ∨ tail = ",") :
    (d.lines depth lead tail).map Line.read =
      Line.read (d.firstLine depth lead tail) :: outlineBehind depth d := by
  cases d with
  | plain word => rfl
  | quoted s => rfl
  | record name fields =>
    cases fields with
    | nil => exact hd.elim
    | cons field value more =>
      obtain ⟨-, hfield, hvalue, hmore⟩ := hd
      have hclose : Line.read (line depth ("\x7d" ++ tail)) = ⟨4 * depth, .closing⟩ := by
        rcases htail with rfl | rfl
        · exact Line.read_line (by simp)
        · exact Line.read_line (by simp)
      rw [firstLine, lines, List.map_cons, List.map_append, List.map_append, List.map_singleton,
        hclose, map_read_lines value hvalue (.inr rfl), map_read_linesMore more hmore,
        read_firstLine_field hvalue _ hfield]
      rfl

theorem map_read_linesMore (fields : Fields) (hf : SoundMore fields) {depth : Nat} :
    (linesMore depth fields).map Line.read = outlineFields depth fields := by
  cases fields with
  | nil => rfl
  | cons field value more =>
    obtain ⟨hfield, hvalue, hmore⟩ := hf
    rw [linesMore, List.map_append, map_read_lines value hvalue (.inr rfl),
      map_read_linesMore more hmore, read_firstLine_field hvalue _ hfield]
    rfl

end

/-- Cut at its line breaks and read line by line, the text over several lines gives the outline of
the tree. -/
theorem map_read_split_pretty {d : Dump} (hd : d.Sound) :
    (d.pretty.split '\n').toList.map (fun s => Line.read s.copy) = d.outline := by
  have hcut := congrArg (List.map Line.read) (split_pretty hd)
  rw [List.map_map, map_read_lines d hd (.inl rfl), read_firstLine hd] at hcut
  exact hcut

/-- A parser that is reworded twice. -/
example (n : Int) : (Reworded.layer (.layer (.core n))).dump.outline =
    [⟨0, .opening⟩, ⟨4, .field "parser" true⟩, ⟨8, .field "parser" false⟩,
      ⟨8, .field "mapper" false⟩, ⟨4, .closing⟩, ⟨4, .field "mapper" false⟩, ⟨0, .closing⟩] :=
  rfl

end TextParsers.Dump
