-- Texts in quotes are read back. One character is read from the way it is written, whatever comes
-- behind it, so a quoted text ends at one place only. No control character is written as it is.
import TextParsers.Text.Quoted
namespace TextParsers.Text.Quoted

/-! ## Control characters by their numbers -/

/-- What a digit of a number counts, the letters being those after nine. -/
def digitValue (x : Char) : Nat :=
  if x.isDigit then x.toNat - '0'.toNat else x.toNat - 'a'.toNat + 10

/-- The number that some digits to the base of sixteen write. -/
def ofHexDigits (xs : List Char) : Nat := xs.foldl (fun n x => 16 * n + digitValue x) 0

theorem toNat_lt_of_isControl {c : Char} (h : isControl c = true) : c.toNat < 0x80 := by
  unfold isControl at h
  simp only [Bool.or_eq_true, decide_eq_true_eq, beq_iff_eq] at h
  omega

/-- The number of a control character is read back, and its digits are neither braces nor control
characters. -/
theorem hex_of_lt {n : Nat} (h : n < 0x80) : ofHexDigits (Nat.toDigits 16 n) = n ∧
    ∀ x ∈ Nat.toDigits 16 n, x ≠ '\x7d' ∧ isControl x = false := by
  have hall : (List.range 0x80).all (fun n => ofHexDigits (Nat.toDigits 16 n) == n &&
      (Nat.toDigits 16 n).all fun x => x != '\x7d' && !isControl x) = true := by
    decide +kernel
  have hn := List.all_eq_true.mp hall n (List.mem_range.mpr h)
  simpa using hn

/-! ## Reading one character -/

/-- The character that a short name after a backslash stands for. Quotes and backslashes stand for
themselves. -/
def named (x : Char) : Char :=
  if x = 'n' then '\n'
  else if x = 'r' then '\r'
  else if x = 't' then '\t'
  else if x = '0' then '\x00'
  else x

/-- Reads the rest of a character that is written with a backslash. -/
def unescapeRest : List Char → Option (Char × List Char)
  | [] => none
  | x :: r =>
    if x = 'u' then
      some (Char.ofNat (ofHexDigits ((r.drop 1).takeWhile (· ≠ '\x7d'))),
        ((r.drop 1).dropWhile (· ≠ '\x7d')).drop 1)
    else some (named x, r)

/-- Reads one character from the way it is written. A quote ends the text. -/
def unescape : List Char → Option (Char × List Char)
  | [] => none
  | x :: r =>
    if x = '"' then none
    else if x = '\\' then unescapeRest r
    else some (x, r)

theorem unescapeRest_number {c : Char} (h : isControl c = true) (s : List Char) :
    unescapeRest ('u' :: '\x7b' :: (Nat.toDigits 16 c.toNat ++ '\x7d' :: s)) = some (c, s) := by
  obtain ⟨hread, hdigits⟩ := hex_of_lt (toNat_lt_of_isControl h)
  have hin : ∀ x ∈ Nat.toDigits 16 c.toNat, decide (x ≠ '\x7d') = true := by
    intro x hx
    simp [(hdigits x hx).1]
  unfold unescapeRest
  simp only [if_true, List.drop_succ_cons, List.drop_zero, List.takeWhile_append_of_pos hin,
    List.dropWhile_append_of_pos hin]
  simp [hread]

/-- A character is written by a short name, by its number, or as it is. -/
theorem escape_cases (c : Char) :
    (∃ x, escape c = ['\\', x] ∧ x ≠ 'u' ∧ isControl x = false ∧ named x = c) ∨
    (isControl c = true ∧
      escape c = ['\\', 'u', '\x7b'] ++ Nat.toDigits 16 c.toNat ++ ['\x7d']) ∨
    (isControl c = false ∧ c ≠ '"' ∧ c ≠ '\\' ∧ escape c = [c]) := by
  by_cases hnamed : c ∈ ['"', '\\', '\n', '\r', '\t', '\x00']
  · left
    simp only [List.mem_cons, List.not_mem_nil, or_false] at hnamed
    rcases hnamed with rfl | rfl | rfl | rfl | rfl | rfl <;>
      exact ⟨_, rfl, by decide, rfl, rfl⟩
  · right
    simp only [List.mem_cons, List.not_mem_nil, or_false, not_or] at hnamed
    obtain ⟨hquote, hslash, hline, hreturn, htab, hnul⟩ := hnamed
    unfold escape
    simp only [hquote, hslash, hline, hreturn, htab, hnul, if_false]
    by_cases hcontrol : isControl c = true
    · simp [hcontrol]
    · simp [hcontrol, hquote, hslash]

/-- A character is read from the way it is written. -/
theorem unescape_escape (c : Char) (s : List Char) : unescape (escape c ++ s) = some (c, s) := by
  rcases escape_cases c with ⟨x, hx, hne, -, hname⟩ | ⟨hcontrol, hx⟩ | ⟨-, hquote, hslash, hx⟩
  · rw [hx]
    show unescapeRest (x :: s) = some (c, s)
    rw [unescapeRest, if_neg hne, hname]
  · rw [hx]
    simp only [List.append_assoc, List.cons_append, List.nil_append]
    exact unescapeRest_number hcontrol s
  · rw [hx]
    simp [unescape, hquote, hslash]

/-! ## Reading a text in quotes -/

/-- Two texts that are written one before a quote are the same if they begin the same characters,
and so is what comes behind them. -/
theorem encode_append_inj {cs ds s t : List Char}
    (h : encode cs ++ '"' :: s = encode ds ++ '"' :: t) : cs = ds ∧ s = t := by
  have hend : ∀ r, unescape ('"' :: r) = none := fun _ => rfl
  induction cs generalizing ds with
  | nil =>
    cases ds with
    | nil =>
      simpa [encode] using h
    | cons d ds =>
      have hread := congrArg unescape h
      simp [encode, hend, unescape_escape] at hread
  | cons c cs ih =>
    cases ds with
    | nil =>
      have hread := congrArg unescape h
      simp [encode, hend, unescape_escape] at hread
    | cons d ds =>
      have hread := congrArg unescape h
      simp only [encode, List.flatMap_cons, List.append_assoc, unescape_escape,
        Option.some.injEq, Prod.mk.injEq] at hread
      obtain ⟨hc, hmore⟩ := hread
      obtain ⟨hcs, hst⟩ := ih hmore
      exact ⟨by rw [hc, hcs], hst⟩

theorem quote_append_inj {s t : String} {r r' : List Char}
    (h : (quote s).toList ++ r = (quote t).toList ++ r') : s = t ∧ r = r' := by
  simp only [quote, String.toList_ofList, List.cons_append, List.cons.injEq, true_and,
    List.append_assoc, List.nil_append] at h
  obtain ⟨hcs, hr⟩ := encode_append_inj h
  exact ⟨String.toList_inj.mp hcs, hr⟩

/-! ## What a quoted text is made of -/

theorem isControl_of_mem_escape {c x : Char} (hx : x ∈ escape c) : isControl x = false := by
  rcases escape_cases c with ⟨y, hy, -, hplain, -⟩ | ⟨hcontrol, hy⟩ | ⟨hplain, -, -, hy⟩
  · rw [hy] at hx
    simp only [List.mem_cons, List.not_mem_nil, or_false] at hx
    rcases hx with rfl | rfl
    · rfl
    · exact hplain
  · rw [hy] at hx
    simp only [List.mem_append, List.mem_cons, List.not_mem_nil, or_false] at hx
    rcases hx with ((rfl | rfl | rfl) | hx) | rfl
    · rfl
    · rfl
    · rfl
    · exact ((hex_of_lt (toNat_lt_of_isControl hcontrol)).2 x hx).2
    · rfl
  · rw [hy, List.mem_singleton] at hx
    rw [hx, hplain]

theorem isControl_of_mem_quote {s : String} {x : Char} (hx : x ∈ (quote s).toList) :
    isControl x = false := by
  simp only [quote, encode, String.toList_ofList, List.mem_append, List.mem_cons,
    List.mem_flatMap, List.not_mem_nil, or_false] at hx
  rcases hx with (rfl | ⟨c, _, hx⟩) | rfl
  · rfl
  · exact isControl_of_mem_escape hx
  · rfl

end TextParsers.Text.Quoted
