-- The law of left recursion. A grammar whose rules can be ranked so that no rule
-- comes to itself, or to one of its rank, before a character is read, ends every
-- parse. The induction is on the characters that are left, then on the rank of the
-- rule, then on the node.
import TextParsers.Proofs.Meaning
import TextParsers.Proofs.Nullability
import Mathlib.Order.WellFoundedSet
namespace TextParsers

/-! ## Rules in left position -/

mutual

/-- The rules that the node may come to before it has read a character: those not behind a
member of a sequence that is not nullable, nor inside two characters. -/
def Node.leftRules (marked : String → Bool) : Node → List String
  | .all nodes => Node.leftRulesOfRow marked nodes
  | .row nodes => Node.leftRulesOfRow marked nodes
  | .choice nodes => Node.leftRulesOfAny marked nodes
  | .many node => node.leftRules marked
  | .many1 node => node.leftRules marked
  | .count _ node => node.leftRules marked
  | .countBetween _ _ node => node.leftRules marked
  | .skip node => node.leftRules marked
  | .not node => node.leftRules marked
  | .optional _ node => node.leftRules marked
  | .map _ node => node.leftRules marked
  | .reword _ node => node.leftRules marked
  | .rule name => [name]
  | .shared node => node.leftRules marked
  | .nested node => node.leftRules marked
  | _ => []

def Node.leftRulesOfRow (marked : String → Bool) : List Node → List String
  | [] => []
  | node :: nodes =>
    node.leftRules marked ++
      if node.nullable marked then Node.leftRulesOfRow marked nodes else []

def Node.leftRulesOfAny (marked : String → Bool) : List Node → List String
  | [] => []
  | node :: nodes => node.leftRules marked ++ Node.leftRulesOfAny marked nodes

end

section

variable {marked : String → Bool}

theorem Node.exists_of_mem_leftRulesOfRow {nodes : List Node} {name : String}
    (h : name ∈ Node.leftRulesOfRow marked nodes) :
    ∃ node ∈ nodes, name ∈ node.leftRules marked := by
  induction nodes with
  | nil => cases h
  | cons node nodes ih =>
    rcases List.mem_append.mp h with h | h
    · exact ⟨node, .head _, h⟩
    · split at h
      · obtain ⟨node', hmem, hname⟩ := ih h
        exact ⟨node', .tail _ hmem, hname⟩
      · cases h

theorem Node.mem_leftRulesOfAny_iff {nodes : List Node} {name : String} :
    name ∈ Node.leftRulesOfAny marked nodes ↔ ∃ node ∈ nodes, name ∈ node.leftRules marked := by
  induction nodes with
  | nil => simp [Node.leftRulesOfAny]
  | cons node nodes ih => simp [Node.leftRulesOfAny, ih]

/-- A rule in left position stands in the node. -/
theorem Node.rule_mem_parts {node : Node} {name : String} (h : name ∈ node.leftRules marked) :
    .rule name ∈ node.parts := by
  induction node using Node.induction_on_children with
  | h node ih =>
    have hlift : ∀ child ∈ node.children, name ∈ child.leftRules marked →
        .rule name ∈ node.parts :=
      fun child hc hname => Node.mem_parts_of_mem_children hc (ih child hc hname)
    cases node with
    | all nodes | row nodes =>
      obtain ⟨child, hc, hname⟩ := Node.exists_of_mem_leftRulesOfRow h
      exact hlift child hc hname
    | choice nodes =>
      obtain ⟨child, hc, hname⟩ := Node.mem_leftRulesOfAny_iff.mp h
      exact hlift child hc hname
    | rule name' =>
      obtain rfl := List.mem_singleton.mp h
      exact Node.mem_parts_self _
    | many child | many1 child | count n child | countBetween min max child | skip child
    | not child | optional shown child | map f child | reword f child | shared child
    | nested child => exact hlift child (.head _) h
    | _ => cases h

end

/-! ## Moves that a repetition cannot make for ever -/

/-- At `d` less is left than at `c`, or as much, and positions are counted as at `c`, or
afresh. -/
def Cursor.Leads (c d : Cursor) : Prop :=
  d.rest.length < c.rest.length ∨
    d.rest.length = c.rest.length ∧ (d.position = c.position ∨ d.position = 0)

/-- A measure that falls at every turn of a repetition that is kept. A nested run may start
the positions afresh once without reading a character. -/
def Cursor.weight (c : Cursor) : Nat := 2 * c.rest.length + if c.position = 0 then 0 else 1

theorem Cursor.weight_lt_of_leads {c d : Cursor} (h : c.Leads d) (hd : d.position ≠ c.position) :
    d.weight < c.weight := by
  unfold Cursor.weight
  rcases h with h | ⟨h, hsame | hzero⟩
  · split <;> split <;> omega
  · exact absurd hsame hd
  · rw [if_pos hzero, if_neg (fun hc => hd (hzero.trans hc.symm)), h]
    omega

theorem Cursor.Leads.advance {c d : Cursor} (h : c.Leads d) (n : Nat) : c.Leads (d.advance n) := by
  unfold Cursor.Leads at *
  rw [Cursor.rest_advance, Cursor.position_advance, List.length_drop]
  omega

theorem Cursor.Leads.restart {c d : Cursor} (h : c.Leads d) : c.Leads (.start d.remainder) := by
  unfold Cursor.Leads at *
  have hzero : (Cursor.start d.remainder).position = 0 := rfl
  rw [Cursor.rest_start_remainder]
  omega

/-- A parse without leaps leads on, also where it reads what is left as a text of its own. -/
theorem Grammar.Answers.leads {g : Grammar} {node : Node} {c : Cursor} {r : Reply Value}
    (hl : ∀ k ∈ g.parts node, k.leaps = false) (hr : g.Answers node c r) :
    c.Leads r.outcome.cursor := by
  obtain ⟨limit, hr⟩ := hr
  refine Grammar.parser_keeps (P := c.Leads) (fun d n hd => hd.advance n) ?_ ?_ hr
  · exact fun k hk => Likeness.bears_within_of_stays (hl k hk) fun d hd => hd.restart
  · exact .inr ⟨rfl, .inl rfl⟩

/-! ## Parsers that end where little is left -/

variable {α β : Type}

/-- The parser has an answer wherever fewer than `n` characters are left. -/
def Parser.EndsBelow (n : Nat) (p : Parser α) : Prop :=
  ∀ c : Cursor, c.rest.length < n → ∃ r, p c = some r

/-- Wherever the parser ends, it has led on. -/
def Parser.LeadsOn (p : Parser α) : Prop :=
  ∀ c r, p c = some r → c.Leads r.outcome.cursor

namespace Parser

variable {n : Nat}

theorem endsBelow_of_total {p : Parser α} (h : ∀ c, ∃ r, p c = some r) : p.EndsBelow n :=
  fun c _ => h c

theorem EndsBelow.settle {p : Parser α} (h : p.EndsBelow n) (f : Cursor → Outcome α → Outcome β) :
    (p.settle f).EndsBelow n := by
  intro c hc
  obtain ⟨r, hr⟩ := h c hc
  exact ⟨_, Option.map_eq_some_iff.mpr ⟨r, hr, rfl⟩⟩

theorem EndsBelow.map {p : Parser α} (h : p.EndsBelow n) (f : α → β) : (p.map f).EndsBelow n :=
  h.settle _

/-- What follows a parser that takes `k` characters need only end where so many fewer are
left. -/
theorem EndsBelow.bind {k : Nat} {p : Parser α} {f : α → Parser β} (h : p.EndsBelow n)
    (ht : p.Takes k) (hf : ∀ a, (f a).EndsBelow (n - k)) : (p >>= f).EndsBelow n := by
  intro c hc
  show ∃ r, Parser.bind p f c = some r
  unfold Parser.bind
  obtain ⟨⟨o, log⟩, hp⟩ := h c hc
  cases o with
  | success a d =>
    have := ht c a d log hp
    obtain ⟨s, hs⟩ := hf a d (by omega)
    simp only [hp, hs]
    exact ⟨_, rfl⟩
  | failure e d =>
    simp only [hp]
    exact ⟨_, rfl⟩

theorem endsBelow_char (wanted : Char) : (char wanted).EndsBelow n := by
  intro c _
  unfold char
  split <;> exact ⟨_, rfl⟩

theorem endsBelow_satisfy (test : Char → Bool) : (satisfy test).EndsBelow n := by
  intro c _
  unfold satisfy
  rcases c.peek with _ | a
  · exact ⟨_, rfl⟩
  · show ∃ r, (if test a then _ else _) = some r
    split <;> exact ⟨_, rfl⟩

theorem endsBelow_anyChar : anyChar.EndsBelow n := by
  intro c _
  unfold anyChar
  rcases c.peek with _ | a <;> exact ⟨_, rfl⟩

theorem endsBelow_endOfText : endOfText.EndsBelow n := by
  intro c _
  unfold endOfText
  split <;> exact ⟨_, rfl⟩

theorem endsBelow_literalChars (xs : List Char) : (literalChars xs).EndsBelow n := by
  apply endsBelow_of_total
  induction xs with
  | nil => exact fun c => ⟨_, rfl⟩
  | cons x xs ih =>
    intro c
    unfold literalChars
    split
    · obtain ⟨r, hr⟩ := ih (c.advance 1)
      exact ⟨_, Option.map_eq_some_iff.mpr ⟨r, hr, rfl⟩⟩
    · exact ⟨_, rfl⟩

theorem endsBelow_all {ps : List (Parser α)} (h : ∀ p ∈ ps, p.EndsBelow n)
    (ht : ∀ p ∈ ps, p.Takes 0) : (all ps).EndsBelow n := by
  induction ps with
  | nil => exact endsBelow_of_total fun c => ⟨_, rfl⟩
  | cons p ps ih =>
    obtain ⟨hp, hps⟩ := List.forall_mem_cons.mp h
    obtain ⟨htp, htps⟩ := List.forall_mem_cons.mp ht
    rw [all_cons]
    exact hp.bind htp fun a => (ih hps htps).map _

/-- The content is read behind a character, so it need not end where there is none. -/
theorem EndsBelow.surround {p : Parser α} (h : p.EndsBelow n) (ht : p.Takes 0)
    (opening closing : Char) : (p.surround opening closing).EndsBelow (n + 1) := by
  have hclosing : (char closing).skip.EndsBelow n := (endsBelow_char closing).settle _
  refine ((endsBelow_char opening).settle _).bind (takes_char opening).skip fun _ => ?_
  refine h.bind ht fun a => ?_
  refine hclosing.bind ((takes_char closing).skip.mono (Nat.zero_le 1)) fun _ => ?_
  exact endsBelow_of_total fun c => ⟨_, rfl⟩

theorem EndsBelow.nested {p : Parser α} (h : p.EndsBelow n) : p.nested.EndsBelow n := by
  intro c hc
  obtain ⟨r, hr⟩ := h (.start c.remainder) (by rwa [Cursor.rest_start_remainder])
  exact ⟨_, Option.map_eq_some_iff.mpr ⟨r, hr, rfl⟩⟩

theorem endsBelow_choice {ps : List (Parser α)} (h : ∀ p ∈ ps, p.EndsBelow n) :
    (choice ps).EndsBelow n := by
  unfold choice
  generalize ps.length = alternatives
  induction ps with
  | nil => exact endsBelow_of_total fun c => ⟨_, rfl⟩
  | cons p ps ih =>
    obtain ⟨hp, hps⟩ := List.forall_mem_cons.mp h
    intro c hc
    obtain ⟨⟨o, log⟩, hpc⟩ := hp c hc
    obtain ⟨s, hs⟩ := ih hps c hc
    simp only [List.foldr_cons, orElse, hpc]
    cases o with
    | success a d => exact ⟨_, rfl⟩
    | failure e d => exact ⟨_, Option.map_eq_some_iff.mpr ⟨s, hs, rfl⟩⟩

theorem EndsBelow.countFrom {p : Parser α} (h : p.EndsBelow n) (ht : p.Takes 0)
    (seen left : Nat) : (p.countFrom seen left).EndsBelow n := by
  induction left generalizing seen with
  | zero => exact endsBelow_of_total fun c => ⟨_, rfl⟩
  | succ left ih =>
    rw [countFrom_succ_eq_bind]
    exact (h.settle _).bind (ht.counted _ seen) fun a => (ih (seen + 1)).map _

/-- A repetition of a parser that leads on ends. Every turn that is kept makes the measure
smaller. -/
theorem EndsBelow.gather {p : Parser α} (h : p.EndsBelow n) (hl : p.LeadsOn) {c : Cursor}
    (hc : c.rest.length < n) : ∃ turns found, p.gather turns c = some found := by
  induction hw : c.weight using Nat.strongRecOn generalizing c with
  | ind w ih =>
    by_cases he : c.isEmpty = true
    · exact ⟨1, _, if_pos he⟩
    obtain ⟨⟨o, log⟩, hp⟩ := h c hc
    cases o with
    | failure e d => exact ⟨1, ⟨[], c, log⟩, by simp [Parser.gather, he, hp]⟩
    | success a d =>
      by_cases hd : d.position = c.position
      · exact ⟨1, ⟨[], c, log⟩, by simp [Parser.gather, he, hp, hd]⟩
      -- The turn is kept: it has read a character, or has left the positions to start afresh.
      have hlead : c.Leads d := hl c _ hp
      have hle : d.rest.length ≤ c.rest.length := by
        unfold Cursor.Leads at hlead
        omega
      have hlt : d.weight < w := hw ▸ Cursor.weight_lt_of_leads hlead hd
      obtain ⟨turns, found, hf⟩ := ih d.weight hlt (by omega) rfl
      refine ⟨turns + 1, ⟨a :: found.values, found.stop, log ++ found.log⟩, ?_⟩
      simp [Parser.gather, he, hp, hd, hf]

theorem EndsBelow.many {p : Parser α} (h : p.EndsBelow n) (hl : p.LeadsOn) {c : Cursor}
    (hc : c.rest.length < n) : ∃ turns r, p.many turns c = some r := by
  obtain ⟨turns, found, hf⟩ := h.gather hl hc
  exact ⟨turns, _, Option.map_eq_some_iff.mpr ⟨found, hf, rfl⟩⟩

theorem EndsBelow.countBetween {p : Parser α} (h : p.EndsBelow n) (hl : p.LeadsOn)
    (min max : Nat) {c : Cursor} (hc : c.rest.length < n) :
    ∃ turns r, p.countBetween turns min max c = some r := by
  obtain ⟨turns, found, hf⟩ := h.gather hl hc
  exact ⟨turns, _, Option.map_eq_some_iff.mpr ⟨found, hf, rfl⟩⟩

theorem EndsBelow.many1 {p : Parser α} (h : p.EndsBelow n) (ht : p.Takes 0) (hl : p.LeadsOn)
    {c : Cursor} (hc : c.rest.length < n) : ∃ turns r, p.many1 turns c = some r := by
  obtain ⟨⟨o, log⟩, hp⟩ := h c hc
  cases o with
  | failure e d => exact ⟨0, ⟨.failure e d, log⟩, by simp [Parser.many1, hp]⟩
  | success a d =>
    have := ht c a d log hp
    obtain ⟨turns, found, hf⟩ := h.gather hl (c := d) (by omega)
    refine ⟨turns, ⟨.success (a :: found.values) found.stop, log ++ found.log⟩, ?_⟩
    simp [Parser.many1, hp, hf]

end Parser

/-! ## Nodes that end where little is left -/

section

variable {g : Grammar} {root : Node} {marked : String → Bool} {n : Nat}

theorem Grammar.takes_meaning {node : Node} {k : Nat}
    (h : ∀ limit, (g.parser limit node).Takes k) : (g.meaning node).Takes k := by
  intro c a d log hr
  obtain ⟨limit, hr⟩ := Grammar.meaning_eq_some.mp hr
  exact h limit c a d log hr

/-- A sequence ends if the members do that are in left position, the others where less is
left. `P` says of the rules in left position what their members need. -/
theorem endsBelow_row_of_leftRules {p : Node → Parser Value} {nodes : List Node}
    {P : String → Prop} (hbelow : ∀ k ∈ nodes, (p k).EndsBelow n)
    (hzero : ∀ k ∈ nodes, (p k).Takes 0)
    (hone : ∀ k ∈ nodes, k.nullable marked = false → (p k).Takes 1)
    (hends : ∀ k ∈ nodes, (∀ name ∈ k.leftRules marked, P name) → (p k).EndsBelow (n + 1))
    (hleft : ∀ name ∈ Node.leftRulesOfRow marked nodes, P name) :
    (Parser.all (nodes.map p)).EndsBelow (n + 1) := by
  induction nodes with
  | nil => exact Parser.endsBelow_of_total fun c => ⟨_, rfl⟩
  | cons node nodes ih =>
    obtain ⟨-, hbelow⟩ := List.forall_mem_cons.mp hbelow
    obtain ⟨hzero', hzero⟩ := List.forall_mem_cons.mp hzero
    obtain ⟨hone', hone⟩ := List.forall_mem_cons.mp hone
    obtain ⟨hends', hends⟩ := List.forall_mem_cons.mp hends
    have hnode : (p node).EndsBelow (n + 1) :=
      hends' fun name hname => hleft name (List.mem_append_left _ hname)
    rw [List.map_cons, Parser.all_cons]
    rcases hnull : node.nullable marked with _ | _
    · refine hnode.bind (hone' hnull) fun a => Parser.EndsBelow.map ?_ _
      exact Parser.endsBelow_all (List.forall_mem_map.mpr hbelow) (List.forall_mem_map.mpr hzero)
    · refine hnode.bind hzero' fun a => Parser.EndsBelow.map ?_ _
      refine ih hbelow hzero hone hends fun name hname => hleft name (List.mem_append_right _ ?_)
      rwa [if_pos hnull]

theorem Grammar.meaning_endsBelow_of_step {node : Node}
    (h : (g.step 0 g.meaning node).EndsBelow n) : (g.meaning node).EndsBelow n := by
  intro c hc
  obtain ⟨r, hr⟩ := h c hc
  exact ⟨r, Grammar.meaning_of_step hr⟩

/-- A repetition ends if in some number of turns it does. -/
theorem Grammar.meaning_endsBelow_of_turns {node : Node} {p : Nat → Parser (List Value)}
    (hstep : ∀ turns, g.step turns g.meaning node = (p turns).map Value.list)
    (h : ∀ c : Cursor, c.rest.length < n → ∃ turns r, p turns c = some r) :
    (g.meaning node).EndsBelow n := by
  intro c hc
  obtain ⟨turns, r, hr⟩ := h c hc
  have hmap : g.step turns g.meaning node c = some ⟨r.outcome.mapValue Value.list, r.log⟩ := by
    rw [hstep]
    exact Option.map_eq_some_iff.mpr ⟨r, hr, rfl⟩
  exact ⟨_, Grammar.meaning_of_step hmap⟩

/-- A node ends where `n` characters are left, if every node does where fewer are, and the rules
in left position do where `n` are. -/
theorem Grammar.meaning_endsBelow_of_leftRules (hl : ∀ k ∈ g.parts root, k.leaps = false)
    (hm : ∀ name body, g.body? name = some body → body.nullable marked = true →
      marked name = true)
    (hbelow : ∀ k ∈ g.parts root, (g.meaning k).EndsBelow n) {node : Node}
    (hnode : node ∈ g.parts root)
    (hleft : ∀ name ∈ node.leftRules marked, (g.meaning (.rule name)).EndsBelow (n + 1)) :
    (g.meaning node).EndsBelow (n + 1) := by
  induction node using Node.induction_on_children with
  | h node ih =>
    have hchild : ∀ child ∈ node.children, child ∈ g.parts root :=
      fun _ => Grammar.mem_parts_of_mem_children hnode
    have hstays : ∀ child ∈ node.children, ∀ k ∈ g.parts child, k.leaps = false :=
      fun child hc k hk => hl k (Grammar.mem_parts_trans (hchild child hc) hk)
    have hzero : ∀ child ∈ node.children, (g.meaning child).Takes 0 :=
      fun child hc => Grammar.takes_meaning (Grammar.takes_zero (hstays child hc))
    have hone : ∀ child ∈ node.children, child.nullable marked = false →
        (g.meaning child).Takes 1 := fun child hc hn =>
      Grammar.takes_meaning fun limit =>
        Grammar.takes_one_of_not_nullable hl hm limit (hchild child hc) hn
    have hlead : ∀ child ∈ node.children, (g.meaning child).LeadsOn :=
      fun child hc c r hr => (Grammar.meaning_eq_some.mp hr).leads (hstays child hc)
    have hless : ∀ child ∈ node.children, (g.meaning child).EndsBelow n :=
      fun child hc => hbelow child (hchild child hc)
    have hends : ∀ child ∈ node.children,
        (∀ name ∈ child.leftRules marked, (g.meaning (.rule name)).EndsBelow (n + 1)) →
        (g.meaning child).EndsBelow (n + 1) := fun child hc => ih child hc (hchild child hc)
    cases node with
    | rule name => exact hleft name (.head _)
    | many child =>
      exact Grammar.meaning_endsBelow_of_turns (fun _ => rfl) fun c hc =>
        (hends child (.head _) hleft).many (hlead child (.head _)) hc
    | many1 child =>
      exact Grammar.meaning_endsBelow_of_turns (fun _ => rfl) fun c hc =>
        (hends child (.head _) hleft).many1 (hzero child (.head _)) (hlead child (.head _)) hc
    | countBetween min max child =>
      exact Grammar.meaning_endsBelow_of_turns (fun _ => rfl) fun c hc =>
        (hends child (.head _) hleft).countBetween (hlead child (.head _)) min max hc
    | all nodes =>
      refine Grammar.meaning_endsBelow_of_step (Parser.EndsBelow.map ?_ _)
      exact endsBelow_row_of_leftRules hless hzero hone hends hleft
    | row nodes =>
      refine Grammar.meaning_endsBelow_of_step (Parser.EndsBelow.map ?_ _)
      rw [Parser.row_eq_all]
      exact endsBelow_row_of_leftRules hless hzero hone hends hleft
    | choice nodes =>
      refine Grammar.meaning_endsBelow_of_step (Parser.endsBelow_choice ?_)
      rw [List.forall_mem_map]
      exact fun child hc => hends child hc fun name hname =>
        hleft name (Node.mem_leftRulesOfAny_iff.mpr ⟨child, hc, hname⟩)
    | surround opening closing child =>
      apply Grammar.meaning_endsBelow_of_step
      exact (hless child (.head _)).surround (hzero child (.head _)) opening closing
    | count m child =>
      refine Grammar.meaning_endsBelow_of_step (Parser.EndsBelow.map ?_ _)
      exact (hends child (.head _) hleft).countFrom (hzero child (.head _)) 0 m
    | skip child | not child | optional shown child =>
      refine Grammar.meaning_endsBelow_of_step (Parser.EndsBelow.map ?_ _)
      exact (hends child (.head _) hleft).settle _
    | map f child | reword f child =>
      apply Grammar.meaning_endsBelow_of_step
      exact (hends child (.head _) hleft).settle _
    | shared child => exact Grammar.meaning_endsBelow_of_step (hends child (.head _) hleft)
    | nested child => exact Grammar.meaning_endsBelow_of_step (hends child (.head _) hleft).nested
    | anyChar => exact Grammar.meaning_endsBelow_of_step (Parser.endsBelow_anyChar.map _)
    | endOfText => exact Grammar.meaning_endsBelow_of_step (Parser.endsBelow_endOfText.map _)
    | char x => exact Grammar.meaning_endsBelow_of_step ((Parser.endsBelow_char x).map _)
    | satisfy cls => exact Grammar.meaning_endsBelow_of_step ((Parser.endsBelow_satisfy _).map _)
    | literal s =>
      exact Grammar.meaning_endsBelow_of_step ((Parser.endsBelow_literalChars s.toList).map _)
    | accept v m | fail e m | jump m | enter text m =>
      exact Grammar.meaning_endsBelow_of_step (Parser.endsBelow_of_total fun c => ⟨_, rfl⟩)

end

/-! ## The law -/

section

variable {ρ : Type*} [Preorder ρ] {g : Grammar} {root : Node} {marked : String → Bool}
  {rank : String → ρ}

/-- No rank falls for ever from rule to rule, as a grammar has finitely many. -/
theorem Grammar.wellFoundedOn_rank (g : Grammar) (rank : String → ρ) :
    {name | ∃ body, g.body? name = some body}.WellFoundedOn fun a b => rank a < rank b := by
  have hfinite : {name | ∃ body, g.body? name = some body}.Finite := by
    refine (List.finite_toSet (g.rules.map Prod.fst)).subset ?_
    rintro name ⟨body, hb⟩
    exact List.mem_map.mpr ⟨_, Grammar.mem_rules_of_body? hb, rfl⟩
  have : IsStrictOrder String fun a b => rank a < rank b :=
    inferInstanceAs (IsStrictOrder String (Order.Preimage rank (· < ·)))
  exact hfinite.wellFoundedOn

/-- Every part of the grammar ends where fewer than `n` characters are left. -/
theorem Grammar.meaning_endsBelow (hl : ∀ k ∈ g.parts root, k.leaps = false)
    (hd : ∀ name, .rule name ∈ g.parts root → ∃ body, g.body? name = some body)
    (hm : ∀ name body, g.body? name = some body → body.nullable marked = true →
      marked name = true)
    (hrank : ∀ name body, g.body? name = some body →
      ∀ name' ∈ body.leftRules marked, rank name' < rank name)
    (n : Nat) {node : Node} (hnode : node ∈ g.parts root) : (g.meaning node).EndsBelow n := by
  have hpart : ∀ {node name}, node ∈ g.parts root → name ∈ node.leftRules marked →
      ∃ body, g.body? name = some body := fun hnode hname =>
    hd _ (Grammar.mem_parts_trans hnode (List.mem_append_left _ (Node.rule_mem_parts hname)))
  induction n generalizing node with
  | zero => exact fun c hc => absurd hc (Nat.not_lt_zero _)
  | succ n ih =>
    have hrule : ∀ name, (∃ body, g.body? name = some body) →
        (g.meaning (.rule name)).EndsBelow (n + 1) := by
      intro name hname
      refine (g.wellFoundedOn_rank rank).induction
        (P := fun name => (g.meaning (.rule name)).EndsBelow (n + 1)) hname ?_
      rintro name ⟨body, hb⟩ hlower
      have hpartBody : body ∈ g.parts root := Grammar.mem_parts_of_body? hb body.mem_parts_self
      have hbody : (g.meaning body).EndsBelow (n + 1) :=
        Grammar.meaning_endsBelow_of_leftRules hl hm (fun _ => ih) hpartBody fun name' hname' =>
          hlower name' (hpart hpartBody hname') (hrank name body hb name' hname')
      apply Grammar.meaning_endsBelow_of_step
      simp only [Grammar.step, hb]
      exact hbody
    exact Grammar.meaning_endsBelow_of_leftRules hl hm (fun _ => ih) hnode
      fun name hname => hrule name (hpart hnode hname)

/-- Take a grammar without leaps in which every rule that is named has a body, a marking of the
rules that marks those with nullable bodies, and a rank of the rules which falls from each to
those in left position in its body. Then every parse ends, wherever it starts. -/
theorem a_grammar_without_left_recursion_ends (g : Grammar) (node : Node)
    (marked : String → Bool) (rank : String → ρ)
    (hl : ∀ k ∈ g.parts node, k.leaps = false)
    (hd : ∀ name, .rule name ∈ g.parts node → ∃ body, g.body? name = some body)
    (hm : ∀ name body, g.body? name = some body → body.nullable marked = true →
      marked name = true)
    (hrank : ∀ name body, g.body? name = some body →
      ∀ name' ∈ body.leftRules marked, rank name' < rank name)
    (c : Cursor) : ∃ r, g.Answers node c r := by
  have hnode : node ∈ g.parts node := List.mem_append_left _ node.mem_parts_self
  obtain ⟨r, hr⟩ := Grammar.meaning_endsBelow hl hd hm hrank (c.rest.length + 1) hnode c
    (Nat.lt_succ_self _)
  exact ⟨r, Grammar.meaning_eq_some.mp hr⟩

end

/-- Lists in brackets, with blanks, names that run up to a delimiter, and items that are runs of
their own. Only the rule of blanks may read nothing. -/
theorem a_grammar_of_nested_lists_ends :
    let g : Grammar := ⟨[
      ("list", .all [.rule "blank", .rule "item", .many (.all [.char ',', .rule "list"])]),
      ("item", .choice [.surround '(' ')' (.rule "list"), .nested (.rule "name")]),
      ("name", .all [.optional false (.rule "blank"),
        .many1 (.all [.char 'a', .not (.satisfy (.oneOf [',', ')']))])]),
      ("blank", .many (.char ' '))]⟩
    let marked : String → Bool := fun name => name == "blank"
    let rank : String → Nat := fun name =>
      if name = "list" then 3 else if name = "item" then 2 else if name = "name" then 1 else 0
    (∀ k ∈ g.parts (.rule "list"), k.leaps = false) ∧
    (∀ rule ∈ g.rules, rule.2.nullable marked = true → marked rule.1 = true) ∧
    (∀ rule ∈ g.rules, ∀ name' ∈ rule.2.leftRules marked, rank name' < rank rule.1) ∧
    ∃ r, g.Answers (.rule "list") ((Cursor.start "x ( aba,a").advance 1) r := by
  intro g marked rank
  have hl : ∀ k ∈ g.parts (.rule "list"), k.leaps = false := by decide
  have hm : ∀ rule ∈ g.rules, rule.2.nullable marked = true → marked rule.1 = true := by decide
  have hrank : ∀ rule ∈ g.rules, ∀ name' ∈ rule.2.leftRules marked, rank name' < rank rule.1 := by
    decide
  have hd : ∀ k ∈ g.parts (.rule "list"),
      (match k with | .rule name => (g.body? name).isSome | _ => true) = true := by decide
  refine ⟨hl, hm, hrank, a_grammar_without_left_recursion_ends g _ marked rank hl ?_ ?_ ?_ _⟩
  · exact fun name hname => Option.isSome_iff_exists.mp (hd _ hname)
  · exact fun name body hb => hm (name, body) (Grammar.mem_rules_of_body? hb)
  · exact fun name body hb => hrank (name, body) (Grammar.mem_rules_of_body? hb)

end TextParsers
