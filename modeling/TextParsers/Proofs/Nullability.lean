-- Nodes that may succeed where they stand. `Node.nullable` reads this off a node,
-- given which rules may, and errs on one side only: a node that it does not call
-- nullable reads a character wherever it succeeds.
import TextParsers.Proofs.ConsistentCursors
import TextParsers.Proofs.ForwardFlow
namespace TextParsers

/-! ## The analysis -/

mutual

/-- The node may succeed and leave as much as it found, if the marked rules may. -/
def Node.nullable (marked : String → Bool) : Node → Bool
  | .anyChar => false
  | .endOfText => true
  | .char _ => false
  | .satisfy _ => false
  | .literal s => s == ""
  | .all nodes => Node.nullableAll marked nodes
  | .row nodes => Node.nullableAll marked nodes
  | .choice nodes => Node.nullableSome marked nodes
  | .many _ => true
  | .many1 node => node.nullable marked
  | .count n node => n == 0 || node.nullable marked
  | .countBetween min _ node => min == 0 || node.nullable marked
  | .skip node => node.nullable marked
  | .not _ => true
  | .optional _ _ => true
  | .map _ node => node.nullable marked
  | .reword _ node => node.nullable marked
  | .surround _ _ _ => false
  | .rule name => marked name
  | .shared node => node.nullable marked
  | .accept _ _ => true
  | .fail _ _ => false
  | .jump _ => true
  | .enter _ _ => true
  | .nested node => node.nullable marked

def Node.nullableAll (marked : String → Bool) : List Node → Bool
  | [] => true
  | node :: nodes => node.nullable marked && Node.nullableAll marked nodes

def Node.nullableSome (marked : String → Bool) : List Node → Bool
  | [] => false
  | node :: nodes => node.nullable marked || Node.nullableSome marked nodes

end

theorem Node.nullableAll_eq (marked : String → Bool) (nodes : List Node) :
    Node.nullableAll marked nodes = nodes.all (Node.nullable marked) := by
  induction nodes with
  | nil => rfl
  | cons node nodes ih => simp [Node.nullableAll, ih]

theorem Node.nullableSome_eq (marked : String → Bool) (nodes : List Node) :
    Node.nullableSome marked nodes = nodes.any (Node.nullable marked) := by
  induction nodes with
  | nil => rfl
  | cons node nodes ih => simp [Node.nullableSome, ih]

/-! ## Parsers that take characters -/

variable {α β : Type}

/-- Wherever it succeeds, the parser leaves at least `k` characters fewer than it found. -/
def Parser.Takes (k : Nat) (p : Parser α) : Prop :=
  ∀ c a d log, p c = some ⟨.success a d, log⟩ → d.rest.length + k ≤ c.rest.length

namespace Parser

theorem Takes.mono {j k : Nat} {p : Parser α} (h : p.Takes k) (hjk : j ≤ k) : p.Takes j := by
  intro c a d log hp
  have := h c a d log hp
  omega

theorem takes_silent (k : Nat) : (silent : Parser α).Takes k := by
  intro c a d log h
  cases h

theorem takes_fail (k : Nat) (e : String) (n : Nat) : (fail e n : Parser α).Takes k := by
  intro c a d log h
  cases h

theorem takes_accept (a : α) (n : Nat) : (accept a n).Takes 0 := by
  intro c b d log h
  cases h
  simp

/-! ### One character -/

/-- Where there is a next character, a move over it leaves one character fewer. -/
theorem length_advance_one {c : Cursor} {x : Char} (hx : c.peek = some x) :
    (c.advance 1).rest.length + 1 ≤ c.rest.length := by
  have hpos : 0 < c.rest.length := by
    rw [List.length_pos_iff]
    intro hnil
    rw [(Cursor.peek_eq_none_iff c).mpr hnil] at hx
    cases hx
  rw [Cursor.rest_advance, List.length_drop]
  omega

theorem takes_anyChar : anyChar.Takes 1 := by
  intro c a d log h
  unfold anyChar at h
  rcases hx : c.peek with _ | x
  · simp [hx, refuse] at h
  · rw [hx] at h
    cases h
    exact length_advance_one hx

theorem takes_satisfy (test : Char → Bool) : (satisfy test).Takes 1 := by
  intro c a d log h
  unfold satisfy at h
  rcases hx : c.peek with _ | x
  · simp [hx, refuse] at h
  · simp only [hx] at h
    split at h
    · cases h
      exact length_advance_one hx
    · cases h

theorem takes_char (wanted : Char) : (char wanted).Takes 1 := by
  intro c a d log h
  unfold char at h
  split at h
  · rename_i hx
    cases h
    exact length_advance_one hx
  · cases h

/-! ### Other outcomes, and one after the other -/

/-- An outcome in place of another takes as much, if it makes no failure a success and leaves
a success where it ended. -/
theorem Takes.settle {k : Nat} {p : Parser α} (h : p.Takes k) {f : Cursor → Outcome α → Outcome β}
    (hf : ∀ c e d, (f c (.failure e d)).isSuccess = false)
    (hs : ∀ c a d, (f c (.success a d)).cursor = d) : (p.settle f).Takes k := by
  intro c b d log hb
  obtain ⟨⟨o, l⟩, hp, hr⟩ := Option.map_eq_some_iff.mp hb
  have ho : f c o = .success b d := congrArg Reply.outcome hr
  cases o with
  | success a d' =>
    have hd := hs c a d'
    rw [ho] at hd
    obtain rfl : d = d' := hd
    exact h c a d l hp
  | failure e d' =>
    have he := hf c e d'
    rw [ho] at he
    cases he

theorem Takes.map {k : Nat} {p : Parser α} (h : p.Takes k) (f : α → β) : (p.map f).Takes k :=
  h.settle (fun _ _ _ => rfl) fun _ _ _ => rfl

theorem Takes.reword {k : Nat} {p : Parser α} (h : p.Takes k) (w : String → String) :
    (p.reword w).Takes k :=
  h.settle (fun _ _ _ => rfl) fun _ _ _ => rfl

theorem Takes.skip {k : Nat} {p : Parser α} (h : p.Takes k) : p.skip.Takes k :=
  h.settle (fun _ _ _ => rfl) fun _ _ _ => rfl

theorem Takes.counted {k : Nat} {p : Parser α} (h : p.Takes k) (n seen : Nat) :
    (p.settle (counted n seen)).Takes k :=
  h.settle (fun _ _ _ => rfl) fun _ _ _ => rfl

theorem Takes.bind {j k : Nat} {p : Parser α} {f : α → Parser β} (h : p.Takes j)
    (hf : ∀ a, (f a).Takes k) : (p >>= f).Takes (j + k) := by
  intro c b e log hb
  obtain ⟨a, d, l, m, hp, hnext, -⟩ := bind_eq_success_iff.mp hb
  have := h c a d l hp
  have := hf a d b e m hnext
  omega

theorem takes_literalChars (xs : List Char) : (literalChars xs).Takes xs.length := by
  induction xs with
  | nil => exact takes_accept [] 0
  | cons x xs ih =>
    intro c a d log h
    unfold literalChars at h
    split at h
    · rename_i hx
      have := length_advance_one hx
      have := ih.map (x :: ·) _ a d log h
      rw [List.length_cons]
      omega
    · cases h

theorem takes_all {ps : List (Parser α)} (h : ∀ p ∈ ps, p.Takes 0) : (all ps).Takes 0 := by
  induction ps with
  | nil => exact takes_accept [] 0
  | cons p ps ih =>
    obtain ⟨hp, hps⟩ := List.forall_mem_cons.mp h
    rw [all_cons]
    exact hp.bind fun a => (ih hps).map _

theorem takes_all_of_mem {ps : List (Parser α)} (h : ∀ p ∈ ps, p.Takes 0) {p : Parser α}
    (hp : p ∈ ps) {k : Nat} (hk : p.Takes k) : (all ps).Takes k := by
  induction ps with
  | nil => cases hp
  | cons q ps ih =>
    obtain ⟨hq, hps⟩ := List.forall_mem_cons.mp h
    rw [all_cons]
    rcases List.mem_cons.mp hp with rfl | hp
    · exact hk.bind fun a => (takes_all hps).map _
    · have hrest := hq.bind fun a => (ih hps hp).map (a :: ·)
      rwa [Nat.zero_add] at hrest

theorem Takes.surround {k : Nat} {p : Parser α} (h : p.Takes k) (opening closing : Char) :
    (p.surround opening closing).Takes (1 + (k + 1)) :=
  (takes_char opening).skip.bind fun _ => h.bind fun a =>
    (takes_char closing).skip.bind fun _ => takes_accept a 0

theorem Takes.nested {k : Nat} {p : Parser α} (h : p.Takes k) : p.nested.Takes k := by
  intro c a d log hr
  obtain ⟨⟨o, l⟩, hp, hr⟩ := Option.map_eq_some_iff.mp hr
  obtain rfl : o = .success a d := congrArg Reply.outcome hr
  have := h _ a d l hp
  rwa [Cursor.rest_start_remainder] at this

theorem takes_choice {k : Nat} {ps : List (Parser α)} (h : ∀ p ∈ ps, p.Takes k) :
    (choice ps).Takes k := by
  unfold choice
  generalize ps.length = alternatives
  induction ps with
  | nil =>
    intro c a d log hr
    cases hr
  | cons p ps ih =>
    obtain ⟨hp, hps⟩ := List.forall_mem_cons.mp h
    intro c a d log hr
    simp only [List.foldr_cons, orElse] at hr
    rcases hpc : p c with _ | ⟨⟨b, d'⟩ | ⟨e, d'⟩, l⟩
    · simp [hpc] at hr
    · rw [hpc] at hr
      cases hr
      exact hp c _ _ _ hpc
    · simp only [hpc] at hr
      obtain ⟨⟨o, m⟩, hq, hr⟩ := Option.map_eq_some_iff.mp hr
      obtain rfl : o = .success a d := congrArg Reply.outcome hr
      exact ih hps c a d m hq

/-! ### Repetition -/

/-- Every value that is gathered has taken its part. -/
theorem Takes.gather {k : Nat} {p : Parser α} (h : p.Takes k) {turns : Nat} {c : Cursor}
    {found : Harvest α} (hf : p.gather turns c = some found) :
    found.stop.rest.length + k * found.values.length ≤ c.rest.length := by
  induction turns generalizing c found with
  | zero => cases hf
  | succ turns ih =>
    unfold Parser.gather at hf
    split at hf
    · cases hf
      simp
    · rcases hp : p c with _ | ⟨⟨a, d⟩ | ⟨e, d⟩, log⟩
      · simp [hp] at hf
      · simp only [hp] at hf
        split at hf
        · cases hf
          simp
        · obtain ⟨rest, hrest, rfl⟩ := Option.map_eq_some_iff.mp hf
          have := h c a d log hp
          have := ih hrest
          simp only [List.length_cons, Nat.mul_succ]
          omega
      · simp only [hp] at hf
        cases hf
        simp

theorem Takes.many {p : Parser α} (h : p.Takes 0) (turns : Nat) : (p.many turns).Takes 0 := by
  intro c a d log hr
  obtain ⟨found, hf, hr⟩ := Option.map_eq_some_iff.mp hr
  cases hr
  have := h.gather hf
  omega

theorem Takes.many1 {k : Nat} {p : Parser α} (h : p.Takes k) (turns : Nat) :
    (p.many1 turns).Takes k := by
  rw [many1_eq_bind]
  exact h.bind fun a => ((h.mono (Nat.zero_le k)).many turns).map _

theorem Takes.countBetween {k : Nat} {p : Parser α} (h : p.Takes k) (turns min max : Nat) :
    (p.countBetween turns min max).Takes (k * min) := by
  intro c a d log hr
  obtain ⟨found, hf, hr⟩ := Option.map_eq_some_iff.mp hr
  have hsum := h.gather hf
  obtain ⟨⟨hmin, -⟩, rfl, rfl, rfl⟩ := Parser.Harvest.judged_eq_success_iff.mp hr
  have hturns : k * min ≤ k * found.values.length := Nat.mul_le_mul_left k hmin
  omega

theorem Takes.countFrom {k : Nat} {p : Parser α} (h : p.Takes k) (seen left : Nat) :
    (p.countFrom seen left).Takes (k * left) := by
  induction left generalizing seen with
  | zero => exact takes_accept [] 0
  | succ left ih =>
    rw [countFrom_succ_eq_bind, Nat.mul_succ, Nat.add_comm]
    exact (h.counted _ seen).bind fun a => (ih (seen + 1)).map _

end Parser

/-! ## The analysis is right -/

section

variable {g : Grammar} {root : Node} {marked : String → Bool}

/-- Without leaps no node leaves more than it found. -/
theorem Grammar.takes_zero {node : Node} (hl : ∀ k ∈ g.parts node, k.leaps = false) (limit : Nat) :
    (g.parser limit node).Takes 0 := by
  intro c a d log hr
  have hsuffix : d.rest <:+ c.rest := Grammar.Answers.rest_suffix hl ⟨limit, hr⟩
  exact hsuffix.length_le

/-- A sequence in which some member is not nullable takes a character. -/
theorem takes_one_of_all {p : Node → Parser Value} {nodes : List Node}
    (hzero : ∀ node ∈ nodes, (p node).Takes 0)
    (hone : ∀ node ∈ nodes, node.nullable marked = false → (p node).Takes 1)
    (hn : nodes.all (Node.nullable marked) = false) : (Parser.all (nodes.map p)).Takes 1 := by
  obtain ⟨node, hmem, hnode⟩ := List.all_eq_false.mp hn
  have hnode : node.nullable marked = false := Bool.eq_false_iff.mpr hnode
  exact Parser.takes_all_of_mem (List.forall_mem_map.mpr hzero) (List.mem_map_of_mem hmem)
    (hone node hmem hnode)

/-- A node that is not nullable takes a character wherever it succeeds, if the rules with
nullable bodies are marked. The induction is on the steps, as a rule may lead back to the
node. -/
theorem Grammar.takes_one_of_not_nullable (hl : ∀ k ∈ g.parts root, k.leaps = false)
    (hm : ∀ name body, g.body? name = some body → body.nullable marked = true →
      marked name = true)
    (limit : Nat) {node : Node} (hnode : node ∈ g.parts root)
    (hn : node.nullable marked = false) : (g.parser limit node).Takes 1 := by
  induction limit generalizing node with
  | zero => exact Parser.takes_silent 1
  | succ limit ih =>
    have hchild : ∀ child ∈ node.children, child ∈ g.parts root :=
      fun _ => Grammar.mem_parts_of_mem_children hnode
    have hzero : ∀ child ∈ node.children, (g.parser limit child).Takes 0 := fun child hc =>
      Grammar.takes_zero (fun k hk => hl k (Grammar.mem_parts_trans (hchild child hc) hk)) limit
    have hone : ∀ child ∈ node.children, child.nullable marked = false →
        (g.parser limit child).Takes 1 := fun child hc => ih (hchild child hc)
    rw [Grammar.parser_succ]
    cases node with
    | anyChar => exact Parser.takes_anyChar.map _
    | char wanted => exact (Parser.takes_char wanted).map _
    | satisfy cls => exact (Parser.takes_satisfy _).map _
    | literal s =>
      have hlen : 0 < s.toList.length := by
        rw [List.length_pos_iff]
        simpa [Node.nullable] using hn
      exact ((Parser.takes_literalChars s.toList).mono hlen).map _
    | all nodes =>
      rw [Node.nullable, Node.nullableAll_eq] at hn
      exact (takes_one_of_all hzero hone hn).map _
    | row nodes =>
      rw [Node.nullable, Node.nullableAll_eq] at hn
      rw [Grammar.step, Parser.row_eq_all]
      exact (takes_one_of_all hzero hone hn).map _
    | choice nodes =>
      rw [Node.nullable, Node.nullableSome_eq, List.any_eq_false] at hn
      apply Parser.takes_choice
      rw [List.forall_mem_map]
      intro child hc
      exact hone child hc (Bool.eq_false_iff.mpr (hn child hc))
    | many1 child => exact ((hone child (.head _) hn).many1 limit).map _
    | count n child =>
      simp only [Node.nullable, Bool.or_eq_false_iff, beq_eq_false_iff_ne, ne_eq] at hn
      obtain ⟨hpos, hn⟩ := hn
      exact (((hone child (.head _) hn).countFrom 0 n).mono (by omega)).map _
    | countBetween min max child =>
      simp only [Node.nullable, Bool.or_eq_false_iff, beq_eq_false_iff_ne, ne_eq] at hn
      obtain ⟨hpos, hn⟩ := hn
      exact (((hone child (.head _) hn).countBetween limit min max).mono (by omega)).map _
    | skip child => exact ((hone child (.head _) hn).skip).map _
    | map f child => exact (hone child (.head _) hn).map _
    | reword f child => exact (hone child (.head _) hn).reword _
    | surround opening closing child =>
      exact ((hzero child (.head _)).surround opening closing).mono (by omega)
    | rule name =>
      simp only [Grammar.step]
      rcases hb : g.body? name with _ | body
      · exact Parser.takes_silent 1
      · have hbody : body.nullable marked = false := by
          rw [Bool.eq_false_iff]
          intro hnull
          rw [Node.nullable, hm name body hb hnull] at hn
          cases hn
        exact ih (Grammar.mem_parts_of_body? hb body.mem_parts_self) hbody
    | shared child => exact hone child (.head _) hn
    | fail expected n => exact Parser.takes_fail 1 expected n
    | nested child => exact (hone child (.head _) hn).nested
    | _ => cases hn

end

end TextParsers
