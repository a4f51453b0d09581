-- A debug text is read in one way only. It is written on one line or over several by one rule,
-- with other marks between the parts of a record: a `Layout`. Words end where a mark begins, and
-- the mark before another field is not the mark behind the last, so no text begins with two trees.
import TextParsers.Dump
import TextParsers.Proofs.CharacterRuns
import TextParsers.Proofs.QuotedTexts
namespace TextParsers.Dump

/-! ## Trees that can be read -/

/-- The characters of numbers and of the value that holds nothing. -/
def isWordChar (x : Char) : Bool := x.isDigit || x == '-' || x == '(' || x == ')'

/-- No letter comes before the first capital. -/
theorem le_toNat_of_isAlpha {x : Char} (h : x.isAlpha = true) : 'A'.toNat ≤ x.toNat := by
  rcases Bool.or_eq_true_iff.mp h with hupper | hlower
  · exact UInt32.le_iff_toNat_le.mp (of_decide_eq_true hupper).1
  · have hle : 'a'.toNat ≤ x.toNat :=
      UInt32.le_iff_toNat_le.mp (of_decide_eq_true (Bool.and_eq_true_iff.mp hlower).1)
    exact le_trans (by decide) hle

theorem not_isAlpha_of_isWordChar {x : Char} (h : isWordChar x = true) : x.isAlpha = false := by
  rw [← Bool.not_eq_true]
  intro hx
  have hle := le_toNat_of_isAlpha hx
  simp only [isWordChar, Bool.or_eq_true, beq_iff_eq] at h
  rcases h with ((hdigit | rfl) | rfl) | rfl
  · have hlt : '9'.toNat < 'A'.toNat := by decide
    have hdigit := (Char.isDigit_iff_toNat.mp hdigit).2
    omega
  · cases hx
  · cases hx
  · cases hx

/-- The text is a run of characters that pass a test, and is not empty. -/
def MadeOf (test : Char → Bool) (s : String) : Prop :=
  s.toList ≠ [] ∧ ∀ x ∈ s.toList, test x = true

instance (test : Char → Bool) (s : String) : Decidable (MadeOf test s) :=
  decidable_of_iff ((!s.toList.isEmpty && s.toList.all test) = true) (by simp [MadeOf])

mutual

/-- Names are words of letters, plain words have none, and every record has fields. -/
def Sound : Dump → Prop
  | .plain word => MadeOf isWordChar word
  | .quoted _ => True
  | .record _ .nil => False
  | .record name (.cons field value more) =>
    MadeOf Char.isAlpha name ∧ MadeOf Char.isAlpha field ∧ value.Sound ∧ SoundMore more

def SoundMore : Fields → Prop
  | .nil => True
  | .cons field value more => MadeOf Char.isAlpha field ∧ value.Sound ∧ SoundMore more

end

/-- Two words that begin one text are the same if both of them stop there. -/
theorem MadeOf.append_inj {test : Char → Bool} {s s' : String} {r r' : List Char}
    (hs : MadeOf test s) (hs' : MadeOf test s') (hr : Stops test r) (hr' : Stops test r')
    (h : s.toList ++ r = s'.toList ++ r') : s = s' ∧ r = r' := by
  have hrun := congrArg (List.takeWhile test) h
  rw [takeWhile_append_of_stops hs.2 hr, takeWhile_append_of_stops hs'.2 hr'] at hrun
  rw [hrun, List.append_cancel_left_eq] at h
  exact ⟨String.toList_inj.mp hrun, h⟩

theorem field_append_inj {s s' : String} {r r' : List Char} (hs : MadeOf Char.isAlpha s)
    (hs' : MadeOf Char.isAlpha s')
    (h : s.toList ++ ':' :: ' ' :: r = s'.toList ++ ':' :: ' ' :: r') : s = s' ∧ r = r' := by
  obtain ⟨hname, hrest⟩ := hs.append_inj hs' (by simp) (by simp) h
  simp only [List.cons.injEq, true_and] at hrest
  exact ⟨hname, hrest⟩

/-! ## One rule for all layouts -/

/-- The marks between the parts of a record, by the depth that it is at. -/
structure Layout where
  /-- Between the name and the first field. -/
  opening : Nat → List Char
  /-- Before every other field. -/
  between : Nat → List Char
  /-- Behind the last field. -/
  closing : Nat → List Char

section

variable (l : Layout)

mutual

def write (depth : Nat) : Dump → List Char
  | .plain word => word.toList
  | .quoted s => (Text.Quoted.quote s).toList
  | .record name .nil => name.toList
  | .record name (.cons field value more) =>
    name.toList ++ (l.opening depth ++ (field.toList ++ ':' :: ' ' ::
      (write (depth + 1) value ++ writeMore depth more)))

/-- The further fields of a record at a depth, and its end. -/
def writeMore (depth : Nat) : Fields → List Char
  | .nil => l.closing depth
  | .cons field value more =>
    l.between depth ++ (field.toList ++ ':' :: ' ' ::
      (write (depth + 1) value ++ writeMore depth more))

end

end

/-- Words stop at the marks of a layout, and no text begins with both the mark before a further
field and the mark behind the last. -/
structure Layout.Readable (l : Layout) : Prop where
  opening_stops : ∀ depth r, Stops Char.isAlpha (l.opening depth ++ r)
  between_stops : ∀ depth r, Stops isWordChar (l.between depth ++ r)
  closing_stops : ∀ depth r, Stops isWordChar (l.closing depth ++ r)
  between_ne_closing : ∀ depth r r', l.between depth ++ r ≠ l.closing depth ++ r'

/-! ### What a tree begins with -/

/-- What is written: a word, a text in quotes, or a record. -/
inductive Kind where
  | word
  | quotation
  | fields
  deriving DecidableEq

def kind : Dump → Kind
  | .plain _ => .word
  | .quoted _ => .quotation
  | .record _ _ => .fields

/-- What begins with a character. -/
def kindOf (x : Char) : Kind :=
  if x.isAlpha then .fields else if x = '"' then .quotation else .word

theorem kindOf_of_isWordChar {x : Char} (h : isWordChar x = true) : kindOf x = .word := by
  have hquote : x ≠ '"' := by
    rintro rfl
    cases h
  simp [kindOf, not_isAlpha_of_isWordChar h, hquote]

variable {l : Layout} {depth : Nat} {d d' : Dump} {r r' : List Char}

theorem kindOf_head? (h : d.Sound) : (d.write l depth ++ r).head?.map kindOf = some d.kind := by
  cases d with
  | plain word =>
    obtain ⟨x, xs, hx⟩ := List.exists_cons_of_ne_nil h.1
    have hword := kindOf_of_isWordChar (h.2 x (by simp [hx]))
    simp [write, hx, hword, kind]
  | quoted s => simp [write, Text.Quoted.quote, kindOf, kind]
  | record name fields =>
    cases fields with
    | nil => exact h.elim
    | cons field value more =>
      obtain ⟨x, xs, hx⟩ := List.exists_cons_of_ne_nil h.1.1
      have hletter := h.1.2 x (by simp [hx])
      simp [write, hx, kindOf, hletter, kind]

theorem kind_eq (hd : d.Sound) (hd' : d'.Sound)
    (h : d.write l depth ++ r = d'.write l depth ++ r') : d.kind = d'.kind := by
  have hhead := congrArg (fun cs => cs.head?.map kindOf) h
  simp only [kindOf_head? hd, kindOf_head? hd', Option.some.injEq] at hhead
  exact hhead

theorem Layout.Readable.stops_writeMore (hl : l.Readable) (fields : Fields) :
    Stops isWordChar (writeMore l depth fields ++ r) := by
  cases fields with
  | nil => exact hl.closing_stops depth r
  | cons field value more =>
    rw [writeMore, List.append_assoc]
    exact hl.between_stops depth _

/-! ### Reading -/

mutual

/-- No text begins with two trees. -/
theorem write_append_inj (hl : l.Readable) (d d' : Dump) (hd : d.Sound) (hd' : d'.Sound)
    {depth : Nat} {r r' : List Char} (hr : Stops isWordChar r) (hr' : Stops isWordChar r')
    (h : d.write l depth ++ r = d'.write l depth ++ r') : d = d' ∧ r = r' := by
  have hkind := kind_eq hd hd' h
  cases d with
  | plain word =>
    cases d' with
    | plain word' =>
      obtain ⟨rfl, rfl⟩ := hd.append_inj hd' hr hr' h
      exact ⟨rfl, rfl⟩
    | quoted _ => cases hkind
    | record _ _ => cases hkind
  | quoted s =>
    cases d' with
    | plain _ => cases hkind
    | quoted s' =>
      obtain ⟨rfl, rfl⟩ := Text.Quoted.quote_append_inj h
      exact ⟨rfl, rfl⟩
    | record _ _ => cases hkind
  | record name fields =>
    cases d' with
    | plain _ => cases hkind
    | quoted _ => cases hkind
    | record name' fields' =>
      cases fields with
      | nil => exact hd.elim
      | cons field value more =>
        cases fields' with
        | nil => exact hd'.elim
        | cons field' value' more' =>
          simp only [write, List.append_assoc, List.cons_append] at h
          obtain ⟨rfl, hfirst⟩ :=
            hd.1.append_inj hd'.1 (hl.opening_stops _ _) (hl.opening_stops _ _) h
          rw [List.append_cancel_left_eq] at hfirst
          obtain ⟨rfl, hvalue⟩ := field_append_inj hd.2.1 hd'.2.1 hfirst
          obtain ⟨rfl, hmore⟩ := write_append_inj hl value value' hd.2.2.1 hd'.2.2.1
            (hl.stops_writeMore more) (hl.stops_writeMore more') hvalue
          obtain ⟨rfl, rfl⟩ := writeMore_append_inj hl more more' hd.2.2.2 hd'.2.2.2 hmore
          exact ⟨rfl, rfl⟩

theorem writeMore_append_inj (hl : l.Readable) (fs fs' : Fields) (hf : SoundMore fs)
    (hf' : SoundMore fs') {depth : Nat} {r r' : List Char}
    (h : writeMore l depth fs ++ r = writeMore l depth fs' ++ r') : fs = fs' ∧ r = r' := by
  cases fs with
  | nil =>
    cases fs' with
    | nil => exact ⟨rfl, List.append_cancel_left h⟩
    | cons field' value' more' =>
      simp only [writeMore, List.append_assoc] at h
      exact absurd h.symm (hl.between_ne_closing _ _ _)
  | cons field value more =>
    cases fs' with
    | nil =>
      simp only [writeMore, List.append_assoc] at h
      exact absurd h (hl.between_ne_closing _ _ _)
    | cons field' value' more' =>
      simp only [writeMore, List.append_assoc, List.cons_append,
        List.append_cancel_left_eq] at h
      obtain ⟨rfl, hvalue⟩ := field_append_inj hf.1 hf'.1 h
      obtain ⟨rfl, hmore⟩ := write_append_inj hl value value' hf.2.1 hf'.2.1
        (hl.stops_writeMore more) (hl.stops_writeMore more') hvalue
      obtain ⟨rfl, rfl⟩ := writeMore_append_inj hl more more' hf.2.2 hf'.2.2 hmore
      exact ⟨rfl, rfl⟩

end

/-! ## The two layouts -/

/-- On one line. -/
def Layout.compact : Layout where
  opening _ := [' ', '\x7b', ' ']
  between _ := [',', ' ']
  closing _ := [' ', '\x7d']

mutual

theorem toList_compact (depth : Nat) : (d : Dump) → d.compact.toList = d.write .compact depth
  | .plain _ => rfl
  | .quoted _ => rfl
  | .record _ .nil => rfl
  | .record _ (.cons _ value more) => by
    simp only [compact, write, String.toList_append, List.append_assoc,
      toList_compact (depth + 1) value, ← toList_compactMore depth more]
    rfl

theorem toList_compactMore (depth : Nat) : (fields : Fields) →
    (compactMore fields).toList ++ [' ', '\x7d'] = writeMore .compact depth fields
  | .nil => rfl
  | .cons _ value more => by
    simp only [compactMore, writeMore, String.toList_append, List.append_assoc,
      toList_compact (depth + 1) value, ← toList_compactMore depth more]
    rfl

end

theorem Layout.readable_compact : Layout.compact.Readable where
  opening_stops depth r := by simp [compact]
  between_stops depth r := by simp [compact, isWordChar]
  closing_stops depth r := by simp [compact, isWordChar]
  between_ne_closing depth r r' := by simp [compact]

def blanks (depth : Nat) : List Char := List.replicate (4 * depth) ' '

/-- Over several lines. -/
def Layout.pretty : Layout where
  opening depth := ' ' :: '\x7b' :: '\n' :: blanks (depth + 1)
  between depth := ',' :: '\n' :: blanks (depth + 1)
  closing depth := ',' :: '\n' :: (blanks depth ++ ['\x7d'])

theorem Layout.readable_pretty : Layout.pretty.Readable where
  opening_stops depth r := by simp [pretty]
  between_stops depth r := by simp [pretty, isWordChar]
  closing_stops depth r := by simp [pretty, isWordChar]
  between_ne_closing depth r r' := by
    have hdeeper : blanks (depth + 1) = blanks depth ++ [' ', ' ', ' ', ' '] := by
      simp [blanks, Nat.mul_add, List.replicate_add]
    simp [pretty, hdeeper]

/-- Some lines, each with its end. -/
def joinLines (ls : List String) : List Char := ls.flatMap fun s => s.toList ++ ['\n']

theorem joinLines_append (ls ls' : List String) :
    joinLines (ls ++ ls') = joinLines ls ++ joinLines ls' :=
  List.flatMap_append

theorem joinLines_cons (s : String) (ls : List String) :
    joinLines (s :: ls) = s.toList ++ '\n' :: joinLines ls := by
  simp [joinLines]

theorem toList_line (depth : Nat) (s : String) :
    (line depth s).toList = blanks depth ++ s.toList := by
  simp [line, blanks]

mutual

theorem joinLines_lines (depth : Nat) (lead tail : String) : (d : Dump) →
    joinLines (d.lines depth lead tail) =
      blanks depth ++ (lead.toList ++ (d.write .pretty depth ++ (tail.toList ++ ['\n'])))
  | .plain _ => by simp [lines, joinLines, toList_line, write]
  | .quoted _ => by simp [lines, joinLines, toList_line, write]
  | .record _ .nil => by simp [lines, joinLines, toList_line, write]
  | .record _ (.cons _ value more) => by
    simp only [write, List.append_assoc, List.cons_append, ← joinLines_linesMore depth tail more]
    simp [lines, joinLines_cons, joinLines_append, toList_line,
      joinLines_lines (depth + 1) _ _ value, Layout.pretty]

theorem joinLines_linesMore (depth : Nat) (tail : String) : (fields : Fields) →
    ',' :: '\n' :: joinLines (linesMore (depth + 1) fields ++ [line depth ("\x7d" ++ tail)]) =
      writeMore .pretty depth fields ++ (tail.toList ++ ['\n'])
  | .nil => by simp [linesMore, joinLines, toList_line, writeMore, Layout.pretty]
  | .cons _ value more => by
    simp only [writeMore, List.append_assoc, List.cons_append,
      ← joinLines_linesMore depth tail more]
    simp [linesMore, joinLines_append, joinLines_lines (depth + 1) _ _ value, Layout.pretty]

end

theorem intercalate_eq_joinLines {ls : List String} (h : ls ≠ []) :
    ("\n".intercalate ls).toList ++ ['\n'] = joinLines ls := by
  induction ls with
  | nil => exact absurd rfl h
  | cons s ls ih =>
    cases ls with
    | nil => simp [joinLines]
    | cons s' ls =>
      rw [String.intercalate_cons_cons, joinLines_cons, ← ih (by simp)]
      simp

theorem lines_ne_nil (depth : Nat) (lead tail : String) (d : Dump) :
    d.lines depth lead tail ≠ [] := by
  cases d with
  | plain word => simp [lines]
  | quoted s => simp [lines]
  | record name fields => cases fields <;> simp [lines]

theorem toList_pretty (d : Dump) : d.pretty.toList = d.write .pretty 0 := by
  have hjoin : d.pretty.toList ++ ['\n'] = joinLines (d.lines 0 "" "") :=
    intercalate_eq_joinLines (lines_ne_nil 0 "" "" d)
  rw [joinLines_lines] at hjoin
  simpa [blanks] using hjoin

/-! ## Debug texts -/

theorem compact_inj (hd : d.Sound) (hd' : d'.Sound) : d.compact = d'.compact ↔ d = d' := by
  constructor
  · intro h
    have hlist := congrArg (fun s => s.toList ++ []) h
    simp only [toList_compact 0] at hlist
    exact (write_append_inj Layout.readable_compact d d' hd hd' stops_nil stops_nil hlist).1
  · exact congrArg compact

theorem pretty_inj (hd : d.Sound) (hd' : d'.Sound) : d.pretty = d'.pretty ↔ d = d' := by
  constructor
  · intro h
    have hlist := congrArg (fun s => s.toList ++ []) h
    simp only [toList_pretty] at hlist
    exact (write_append_inj Layout.readable_pretty d d' hd hd' stops_nil stops_nil hlist).1
  · exact congrArg pretty

end TextParsers.Dump
