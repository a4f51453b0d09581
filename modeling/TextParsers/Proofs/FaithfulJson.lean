-- Outcomes are read back from their JSON. It shows no byte offset, but a place that is come to is
-- known by its text and its position. Every field is looked up by its name, so the order that the
-- fields are written in makes no difference.
import TextParsers.Json.Encoding
import TextParsers.Proofs.ReachedCursors
namespace TextParsers

/-! ## Trees that say the same -/

namespace Json

mutual

/-- Two trees are the same but for the order of the fields in their objects. -/
inductive Alike : Json → Json → Prop
  | null : Alike .null .null
  | bool (b : Bool) : Alike (.bool b) (.bool b)
  | int (n : Int) : Alike (.int n) (.int n)
  | text (s : String) : Alike (.text s) (.text s)
  | list {js ks : List Json} (items : AlikeItems js ks) : Alike (.list js) (.list ks)
  | object {fs gs : List (String × Json)}
      (names : ∀ name, (fs.lookup name).isSome = (gs.lookup name).isSome)
      (fields : ∀ name j k, fs.lookup name = some j → gs.lookup name = some k → Alike j k) :
      Alike (.object fs) (.object gs)

/-- The items of two lists are the same in this way, one by one. -/
inductive AlikeItems : List Json → List Json → Prop
  | nil : AlikeItems [] []
  | cons {j k : Json} {js ks : List Json} (head : Alike j k) (tail : AlikeItems js ks) :
      AlikeItems (j :: js) (k :: ks)

end

theorem alikeItems_of_forall {js : List Json} (h : ∀ j ∈ js, j.Alike j) : AlikeItems js js := by
  induction js with
  | nil => exact .nil
  | cons j js ih => exact .cons (h j (.head _)) (ih fun k hk => h k (.tail _ hk))

theorem sizeOf_lt_of_lookup {fs : List (String × Json)} {name : String} {j : Json}
    (h : fs.lookup name = some j) : sizeOf j < sizeOf fs := by
  obtain ⟨before, after, hsplit, -⟩ := List.lookup_eq_some_iff.mp h
  have hmem : (name, j) ∈ fs := by simp [hsplit]
  have hlt := List.sizeOf_lt_of_mem hmem
  simp only [Prod.mk.sizeOf_spec] at hlt
  omega

theorem Alike.refl : (j : Json) → j.Alike j
  | .null => .null
  | .bool b => .bool b
  | .int n => .int n
  | .text s => .text s
  | .list js => .list (alikeItems_of_forall fun j _ => Alike.refl j)
  | .object fs => .object (fun _ => rfl) fun name j k hj hk => by
    rw [hj] at hk
    cases hk
    have := sizeOf_lt_of_lookup hj
    exact Alike.refl j
termination_by j => sizeOf j
decreasing_by
  · have := List.sizeOf_lt_of_mem ‹_›
    simp only [Json.list.sizeOf_spec]
    omega
  · simp only [Json.object.sizeOf_spec]
    omega

theorem lookup_eq_of_perm {fs gs : List (String × Json)} (h : fs.Perm gs)
    (hnames : (fs.map Prod.fst).Nodup) (name : String) : fs.lookup name = gs.lookup name := by
  induction h with
  | nil => rfl
  | cons f _ ih =>
    rw [List.map_cons, List.nodup_cons] at hnames
    rw [List.lookup_cons, List.lookup_cons, ih hnames.2]
  | swap f g fs =>
    obtain ⟨a, j⟩ := f
    obtain ⟨b, k⟩ := g
    have hne : b ≠ a := by
      intro heq
      simp [heq] at hnames
    by_cases ha : name = a
    · simp [List.lookup_cons, ha, beq_false_of_ne (Ne.symm hne)]
    · simp [List.lookup_cons, beq_false_of_ne ha]
  | trans h _ ih ih' =>
    rw [ih hnames, ih' ((h.map Prod.fst).nodup_iff.mp hnames)]

/-- Fields with different names may stand in any order. -/
theorem alike_of_perm {fs gs : List (String × Json)} (h : fs.Perm gs)
    (hnames : (fs.map Prod.fst).Nodup) : (Json.object fs).Alike (.object gs) := by
  have hsame := lookup_eq_of_perm h hnames
  refine .object (fun name => by rw [hsame]) ?_
  intro name j k hj hk
  rw [hsame, hk] at hj
  cases hj
  exact .refl _

/-! ## Reading -/

variable {α : Type}

/-- Reads the field of an object that has the name. Nothing else has fields. -/
def field (name : String) (read : Json → Option α) : Json → Option α
  | .object fields => (fields.lookup name).bind read
  | _ => none

def asText : Json → Option String
  | .text s => some s
  | _ => none

def asInt : Json → Option Int
  | .int n => some n
  | _ => none

/-- The order of fields makes no difference to what is read. -/
def Fair (read : Json → Option α) : Prop := ∀ {j k : Json}, j.Alike k → read j = read k

theorem fair_asText : Fair asText := by
  intro j k h
  cases h <;> rfl

theorem fair_asInt : Fair asInt := by
  intro j k h
  cases h <;> rfl

theorem Fair.field {read : Json → Option α} (h : Fair read) (name : String) :
    Fair (field name read) := by
  intro j k hjk
  cases hjk with
  | @object fs gs names fields =>
    have hsome := names name
    show (fs.lookup name).bind read = (gs.lookup name).bind read
    rcases hf : fs.lookup name with _ | f
    · rcases hg : gs.lookup name with _ | g
      · rfl
      · rw [hf, hg] at hsome
        cases hsome
    · rcases hg : gs.lookup name with _ | g
      · rw [hf, hg] at hsome
        cases hsome
      · exact h (fields name f g hf hg)
  | _ => rfl

end Json

/-! ### Values -/

mutual

/-- The value that a tree writes. Objects write none. -/
def Value.ofJson? : Json → Option Value
  | .null => some .null
  | .bool b => some (.bool b)
  | .int n => some (.int n)
  | .text s => some (.text s)
  | .list items => (Value.itemsOfJson? items).map .list
  | .object _ => none

def Value.itemsOfJson? : List Json → Option (List Value)
  | [] => some []
  | j :: js => (Value.ofJson? j).bind fun v => (Value.itemsOfJson? js).map (v :: ·)

end

mutual

theorem Value.fair_ofJson? {j k : Json} : j.Alike k → Value.ofJson? j = Value.ofJson? k
  | .null => rfl
  | .bool _ => rfl
  | .int _ => rfl
  | .text _ => rfl
  | .list items => by rw [ofJson?, ofJson?, fair_itemsOfJson? items]
  | .object _ _ => rfl

theorem Value.fair_itemsOfJson? {js ks : List Json} :
    Json.AlikeItems js ks → Value.itemsOfJson? js = Value.itemsOfJson? ks
  | .nil => rfl
  | .cons head tail => by
    rw [itemsOfJson?, itemsOfJson?, fair_ofJson? head, fair_itemsOfJson? tail]

end

mutual

@[simp] theorem Value.ofJson?_toJson : (v : Value) → Value.ofJson? v.toJson = some v
  | .null => rfl
  | .bool _ => rfl
  | .int _ => rfl
  | .text _ => rfl
  | .list items => by rw [toJson, ofJson?, itemsOfJson?_itemsToJson items, Option.map_some]

theorem Value.itemsOfJson?_itemsToJson :
    (vs : List Value) → Value.itemsOfJson? (Value.itemsToJson vs) = some vs
  | [] => rfl
  | v :: vs => by
    rw [itemsToJson, itemsOfJson?, ofJson?_toJson v, itemsOfJson?_itemsToJson vs]
    rfl

end

/-! ### Places -/

/-- The place at the position that a tree writes, in the text that it writes. -/
def Cursor.ofJson? (j : Json) : Option Cursor := do
  let text ← j.field "text" Json.asText
  let position ← j.field "position" Json.asInt
  return (Cursor.start text).advance position.toNat

theorem Cursor.fair_ofJson? : Json.Fair Cursor.ofJson? := by
  intro j k h
  unfold Cursor.ofJson?
  rw [Json.fair_asText.field "text" h, Json.fair_asInt.field "position" h]

theorem Cursor.Consistent.ofJson?_toJson {c : Cursor} (h : c.Consistent) :
    Cursor.ofJson? c.toJson = some c := by
  have hread : Cursor.ofJson? c.toJson = some ((Cursor.start c.text).advance c.position) := rfl
  rw [hread, ← h.eq_advance]

/-! ### Outcomes -/

/-- The outcome of the kind that a tree writes, with the value or the message that goes with it. -/
def Outcome.ofJson? (j : Json) : Option (Outcome Value) := do
  let kind ← j.field "kind" Json.asText
  let c ← j.field "context" Cursor.ofJson?
  if kind = "success" then
    return .success (← j.field "value" Value.ofJson?) c
  else if kind = "error" then
    return .failure (← j.field "expected" Json.asText) c
  else none

theorem Outcome.fair_ofJson? : Json.Fair Outcome.ofJson? := by
  intro j k h
  have hvalue : Json.Fair Value.ofJson? := Value.fair_ofJson?
  unfold Outcome.ofJson?
  rw [Json.fair_asText.field "kind" h, Cursor.fair_ofJson?.field "context" h,
    hvalue.field "value" h, Json.fair_asText.field "expected" h]

theorem Outcome.ofJson?_toJson {o : Outcome Value} (h : o.cursor.Consistent) :
    Outcome.ofJson? o.toJson = some o := by
  cases o with
  | success v c =>
    have hc : Cursor.ofJson? c.toJson = some c := h.ofJson?_toJson
    simp [ofJson?, toJson, Json.field, Json.asText, List.lookup_cons, hc]
  | failure e c =>
    have hc : Cursor.ofJson? c.toJson = some c := h.ofJson?_toJson
    simp [ofJson?, toJson, Json.field, Json.asText, List.lookup_cons, hc]

/-! ## What makes two outcomes the same -/

theorem Outcome.eq_iff {α : Type} {a b : Outcome α} :
    a = b ↔ a.value? = b.value? ∧ a.expected? = b.expected? ∧ a.cursor = b.cursor := by
  cases a <;> cases b <;> simp [value?, expected?, cursor]

/-! ## The law -/

/-- Two outcomes whose places are come to are the same exactly if they agree on the value or the
message and on the text, the byte offset and the position of the place. They are the same exactly
if their JSON is, as it is written or up to the order of fields. An outcome is read back from
its JSON, whatever order the fields are put in. -/
theorem outcomes_are_read_back_from_their_json (a b : Outcome Value)
    (ha : a.cursor.Reached) (hb : b.cursor.Reached) :
    (a = b ↔ a.value? = b.value? ∧ a.expected? = b.expected? ∧ a.cursor.text = b.cursor.text ∧
      a.cursor.offset = b.cursor.offset ∧ a.cursor.position = b.cursor.position) ∧
    (a.toJson = b.toJson ↔ a = b) ∧
    (a.toJson.Alike b.toJson ↔ a = b) ∧
    ∀ j, j.Alike a.toJson → Outcome.ofJson? j = some a := by
  have hread : ∀ j, j.Alike a.toJson → Outcome.ofJson? j = some a := by
    intro j h
    rw [Outcome.fair_ofJson? h]
    exact Outcome.ofJson?_toJson ha.consistent
  have hsame : a.toJson.Alike b.toJson → a = b := by
    intro h
    have hb : Outcome.ofJson? b.toJson = some b := Outcome.ofJson?_toJson hb.consistent
    rw [← Outcome.fair_ofJson? h, hread _ (.refl _)] at hb
    exact Option.some.inj hb
  refine ⟨?_, ⟨?_, congrArg _⟩, ⟨hsame, ?_⟩, hread⟩
  · rw [Outcome.eq_iff, ha.consistent.eq_iff hb.consistent]
  · intro h
    apply hsame
    rw [h]
    exact .refl _
  · intro h
    rw [h]
    exact .refl _

/-- A success and a failure behind a character of two bytes, with the same word for a value and for
a message, and the success with its fields in another order. -/
theorem a_success_and_a_failure_with_one_word :
    let c := (Cursor.start "éb").advance 1
    let a : Outcome Value := .success (.list [.text "b", .list []]) c
    let b : Outcome Value := .failure "b" c
    c.Reached ∧ a.toJson ≠ b.toJson ∧
    Outcome.ofJson? (.object [("context", c.toJson), ("kind", .text "success"),
      ("value", .list [.text "b", .list []])]) = some a := by
  intro c a b
  have hc : c.Reached := .advance (.start _) 1
  obtain ⟨-, hsame, -, hread⟩ := outcomes_are_read_back_from_their_json a b hc hc
  refine ⟨hc, ?_, ?_⟩
  · rw [ne_eq, hsame]
    decide
  · apply hread
    exact Json.alike_of_perm (@List.perm_append_comm _ [("context", c.toJson)] _) (by simp)

end TextParsers
