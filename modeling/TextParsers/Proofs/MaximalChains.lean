-- What a repetition gathers. Its turns form a chain of places, each reached from the
-- one before it, and the chain goes on until no turn is left to take. A place allows
-- one turn at most, so there is one such chain, and the repetition ends exactly if it
-- is finite.
import TextParsers.Proofs.Edits
import TextParsers.Proofs.ForwardRepetition
namespace TextParsers

variable {α β : Type} {turn turn' : Cursor → α → Cursor → Prop} {c d : Cursor} {a : α}
  {as bs : List α}

/-! ## The places of a chain -/

/-- Places one after another, with a turn from each to the next. -/
structure Trail (turn : Cursor → α → Cursor → Prop) (cs : List Cursor) (as : List α) : Prop where
  length_eq : cs.length = as.length + 1
  turns : ∀ i d a e, cs[i]? = some d → as[i]? = some a → cs[i + 1]? = some e → turn d a e

theorem trail_nil_iff {cs : List Cursor} : Trail turn cs [] ↔ ∃ c, cs = [c] := by
  constructor
  · intro h
    exact List.length_eq_one_iff.mp h.length_eq
  · rintro ⟨c, rfl⟩
    exact ⟨rfl, by simp⟩

theorem trail_cons_iff {cs : List Cursor} :
    Trail turn cs (a :: as) ↔
      ∃ c d ds, cs = c :: d :: ds ∧ turn c a d ∧ Trail turn (d :: ds) as := by
  constructor
  · rintro ⟨hlen, hturns⟩
    match cs, hlen with
    | c :: d :: ds, hlen =>
      refine ⟨c, d, ds, rfl, hturns 0 c a d rfl rfl rfl, by simpa using hlen, ?_⟩
      intro i e b f he hb hf
      exact hturns (i + 1) e b f he hb hf
  · rintro ⟨c, d, ds, rfl, hturn, hlen, hturns⟩
    refine ⟨by simp [hlen], ?_⟩
    intro i e b f he hb hf
    cases i with
    | zero =>
      cases he
      cases hb
      cases hf
      exact hturn
    | succ i => exact hturns i e b f he hb hf

/-- A chain is a trail that says only where it starts and ends. -/
theorem chain_iff_trail :
    Chain turn c as d ↔
      ∃ cs : List Cursor, cs.head? = some c ∧ cs.getLast? = some d ∧ Trail turn cs as := by
  constructor
  · intro hs
    induction hs with
    | nil c => exact ⟨[c], rfl, rfl, trail_nil_iff.mpr ⟨c, rfl⟩⟩
    | @cons c d e a as ht _ ih =>
      obtain ⟨cs, hhead, hlast, htrail⟩ := ih
      obtain ⟨ds, rfl⟩ := List.head?_eq_some_iff.mp hhead
      refine ⟨c :: d :: ds, rfl, ?_, trail_cons_iff.mpr ⟨c, d, ds, rfl, ht, htrail⟩⟩
      rw [List.getLast?_cons_cons, hlast]
  · rintro ⟨cs, hhead, hlast, htrail⟩
    induction as generalizing c cs with
    | nil =>
      obtain ⟨x, rfl⟩ := trail_nil_iff.mp htrail
      cases hhead
      cases hlast
      exact .nil c
    | cons a as ih =>
      obtain ⟨x, y, ys, rfl, ht, hrest⟩ := trail_cons_iff.mp htrail
      cases hhead
      rw [List.getLast?_cons_cons] at hlast
      exact .cons ht (ih (y :: ys) rfl hlast hrest)

/-- Where a value and a place allow one turn, the values of a trail and its start say where it
goes. -/
theorem Trail.unique (hturn : ∀ c a d e, turn c a d → turn c a e → d = e) {cs ds : List Cursor}
    (hc : Trail turn cs as) (hd : Trail turn ds as) (hhead : cs.head? = ds.head?) : cs = ds := by
  induction as generalizing cs ds with
  | nil =>
    obtain ⟨c, rfl⟩ := trail_nil_iff.mp hc
    obtain ⟨d, rfl⟩ := trail_nil_iff.mp hd
    cases hhead
    rfl
  | cons a as ih =>
    obtain ⟨c, c', cs', rfl, hturnc, hcs⟩ := trail_cons_iff.mp hc
    obtain ⟨d, d', ds', rfl, hturnd, hds⟩ := trail_cons_iff.mp hd
    cases hhead
    obtain rfl := hturn c a c' d' hturnc hturnd
    rw [ih hcs hds rfl]

/-- A chain whose turns keep a property, and are turns of another kind where it holds. -/
theorem Chain.of_invariant (P : Cursor → Prop) (hP : ∀ c a d, P c → turn c a d → P d)
    (h : ∀ c a d, P c → turn c a d → turn' c a d) (hc : P c) (hs : Chain turn c as d) :
    Chain turn' c as d ∧ P d := by
  induction hs with
  | nil c => exact ⟨.nil c, hc⟩
  | cons ht _ ih =>
    obtain ⟨hs, hd⟩ := ih (hP _ _ _ hc ht)
    exact ⟨.cons (h _ _ _ hc ht) hs, hd⟩

namespace Parser

variable {p : Parser α}

/-! ## What a place allows -/

/-- The parser succeeds at a place, with a value, and ends at another place. -/
def Succeeds (p : Parser α) (c : Cursor) (a : α) (d : Cursor) : Prop :=
  ∃ log, p c = some ⟨.success a d, log⟩

def Fails (p : Parser α) (c : Cursor) : Prop :=
  ∃ e d log, p c = some ⟨.failure e d, log⟩

/-- A repetition of `p` stops where it is: all of the text lies behind, or `p` fails, or `p`
succeeds and the position is what it was. -/
def Rests (p : Parser α) (c : Cursor) : Prop :=
  c.isEmpty = true ∨ p.Fails c ∨ ∃ a d, p.Succeeds c a d ∧ d.position = c.position

theorem Succeeds.unique {b : α} {e : Cursor} (h : p.Succeeds c a d) (h' : p.Succeeds c b e) :
    a = b ∧ d = e := by
  obtain ⟨l, h⟩ := h
  obtain ⟨m, h'⟩ := h'
  rw [h] at h'
  cases h'
  exact ⟨rfl, rfl⟩

theorem Fails.not_succeeds (h : p.Fails c) : ¬ p.Succeeds c a d := by
  obtain ⟨e, x, l, h⟩ := h
  rintro ⟨m, h'⟩
  rw [h] at h'
  cases h'

theorem Rests.not_turn (h : p.Rests c) : ¬ p.Turn c a d := by
  rintro ⟨hc, hp, hd⟩
  rcases h with he | hf | ⟨b, e, hb, he⟩
  · rw [he] at hc
    cases hc
  · exact hf.not_succeeds hp
  · obtain ⟨rfl, rfl⟩ := Succeeds.unique hp hb
    exact hd he

/-- A repetition stops at a place, or takes one turn there, or waits for `p` for ever. -/
theorem rests_or_turns (p : Parser α) (c : Cursor) :
    p.Rests c ∨ (∃ a d, p.Turn c a d) ∨ c.isEmpty = false ∧ p c = none := by
  by_cases hc : c.isEmpty = true
  · exact .inl (.inl hc)
  rw [Bool.not_eq_true] at hc
  rcases hp : p c with _ | ⟨⟨a, d⟩ | ⟨e, d⟩, log⟩
  · exact .inr (.inr ⟨hc, rfl⟩)
  · by_cases hd : d.position = c.position
    · exact .inl (.inr (.inr ⟨a, d, ⟨log, hp⟩, hd⟩))
    · exact .inr (.inl ⟨a, d, hc, ⟨log, hp⟩, hd⟩)
  · exact .inl (.inr (.inl ⟨e, d, log, hp⟩))

theorem gather_rest (h : p.Rests c) :
    ∃ log, ∀ limit, p.gather (limit + 1) c = some ⟨[], c, log⟩ := by
  by_cases hc : c.isEmpty = true
  · exact ⟨[], fun limit => by simp [gather, hc]⟩
  rcases h with he | ⟨e, d, log, hp⟩ | ⟨a, d, ⟨log, hp⟩, hd⟩
  · exact absurd he hc
  · exact ⟨log, fun limit => by simp [gather, hc, hp]⟩
  · exact ⟨log, fun limit => by simp [gather, hc, hp, hd]⟩

theorem gather_silent (hc : c.isEmpty = false) (hp : p c = none) (limit : Nat) :
    p.gather limit c = none := by
  cases limit with
  | zero => rfl
  | succ limit => simp [gather, hc, hp]

/-! ## What a repetition gathers -/

/-- With enough turns a repetition of `p` ends, and this is what it gathered. -/
def Gathers (p : Parser α) (c : Cursor) (h : Harvest α) : Prop := ∃ limit, p.gather limit c = some h

theorem gather_mono {m n : Nat} (hmn : m ≤ n) {h : Harvest α} (hh : p.gather m c = some h) :
    p.gather n c = some h := by
  -- A turn takes one from both limits, and at a place of rest neither matters.
  induction m generalizing n c h with
  | zero => cases hh
  | succ m ih =>
    obtain ⟨n, rfl⟩ : ∃ k, n = k + 1 := ⟨n - 1, by omega⟩
    rcases rests_or_turns p c with hr | ⟨a, d, hc, ⟨log, hp⟩, hd⟩ | ⟨hc, hp⟩
    · obtain ⟨log, hlog⟩ := gather_rest hr
      rw [hlog] at hh ⊢
      exact hh
    · rw [gather_turn hc hp hd] at hh ⊢
      obtain ⟨k, hk, rfl⟩ := Option.map_eq_some_iff.mp hh
      rw [ih (by omega) hk]
      rfl
    · rw [gather_silent hc hp] at hh
      cases hh

theorem Gathers.unique {h k : Harvest α} (hh : p.Gathers c h) (hk : p.Gathers c k) : h = k := by
  obtain ⟨m, hm⟩ := hh
  obtain ⟨n, hn⟩ := hk
  have hm' := gather_mono (Nat.le_max_left m n) hm
  have hn' := gather_mono (Nat.le_max_right m n) hn
  rw [hm'] at hn'
  exact Option.some.inj hn'

theorem Rests.gathers (h : p.Rests c) : ∃ log, p.Gathers c ⟨[], c, log⟩ := by
  obtain ⟨log, hlog⟩ := gather_rest h
  exact ⟨log, 1, hlog 0⟩

theorem Gathers.chain {h : Harvest α} (hh : p.Gathers c h) :
    Chain p.Turn c h.values h.stop ∧ p.Rests h.stop := by
  obtain ⟨limit, hh⟩ := hh
  induction limit generalizing c h with
  | zero => cases hh
  | succ limit ih =>
    rcases rests_or_turns p c with hr | ⟨a, d, hc, ⟨log, hp⟩, hd⟩ | ⟨hc, hp⟩
    · obtain ⟨log, hlog⟩ := gather_rest hr
      rw [hlog] at hh
      cases hh
      exact ⟨.nil c, hr⟩
    · rw [gather_turn hc hp hd] at hh
      obtain ⟨k, hk, rfl⟩ := Option.map_eq_some_iff.mp hh
      obtain ⟨hs, hstop⟩ := ih hk
      exact ⟨.cons ⟨hc, ⟨log, hp⟩, hd⟩ hs, hstop⟩
    · rw [gather_silent hc hp] at hh
      cases hh

theorem gathers_of_chain (hs : Chain p.Turn c as d) (hd : p.Rests d) :
    ∃ log, p.Gathers c ⟨as, d, log⟩ := by
  induction hs with
  | nil c => exact hd.gathers
  | cons ht _ ih =>
    obtain ⟨log', limit, hlimit⟩ := ih hd
    obtain ⟨hc, ⟨log, hp⟩, hmoved⟩ := ht
    exact ⟨log ++ log', limit + 1, by rw [gather_turn hc hp hmoved, hlimit]; rfl⟩

/-- What a repetition gathers are the values of its turns, up to a place that allows none. -/
theorem gathers_iff_chain :
    (∃ log, p.Gathers c ⟨as, d, log⟩) ↔ Chain p.Turn c as d ∧ p.Rests d := by
  constructor
  · rintro ⟨log, h⟩
    exact h.chain
  · rintro ⟨hs, hd⟩
    exact gathers_of_chain hs hd

theorem many_eq_some_iff {r : Reply (List α)} :
    (∃ turns, p.many turns c = some r) ↔
      ∃ h, p.Gathers c h ∧ r = ⟨.success h.values h.stop, h.log⟩ := by
  constructor
  · rintro ⟨turns, hr⟩
    obtain ⟨h, hh, rfl⟩ := Option.map_eq_some_iff.mp hr
    exact ⟨h, ⟨turns, hh⟩, rfl⟩
  · rintro ⟨h, ⟨turns, hh⟩, rfl⟩
    exact ⟨turns, Option.map_eq_some_iff.mpr ⟨h, hh, rfl⟩⟩

/-- A repetition succeeds with what it gathers. -/
theorem many_succeeds_iff :
    (∃ turns, (p.many turns).Succeeds c as d) ↔ ∃ log, p.Gathers c ⟨as, d, log⟩ := by
  constructor
  · rintro ⟨turns, log, hr⟩
    obtain ⟨h, hh, heq⟩ := many_eq_some_iff.mp ⟨turns, hr⟩
    cases heq
    exact ⟨h.log, hh⟩
  · rintro ⟨log, hh⟩
    obtain ⟨turns, hr⟩ := many_eq_some_iff.mpr ⟨_, hh, rfl⟩
    exact ⟨turns, log, hr⟩

theorem many_eq_some_iff_of_gathers {h : Harvest α} (hh : p.Gathers c h) (r : Reply (List α)) :
    (∃ turns, p.many turns c = some r) ↔ r = ⟨.success h.values h.stop, h.log⟩ := by
  rw [many_eq_some_iff]
  constructor
  · rintro ⟨k, hk, rfl⟩
    rw [hk.unique hh]
  · rintro rfl
    exact ⟨h, hh, rfl⟩

/-- A parser behind a repetition starts where that stopped. -/
theorem pair_many_eq_some_iff {h : Harvest α} (hh : p.Gathers c h) (q : Parser β)
    (r : Reply (List α × β)) :
    (∃ turns, (p.many turns).pair q c = some r) ↔
      (q h.stop).map (fun s => ⟨s.outcome.mapValue (h.values, ·), h.log ++ s.log⟩) = some r := by
  constructor
  · rintro ⟨turns, hr⟩
    rcases hk : p.gather turns c with _ | k
    · simp [pair, many, hk] at hr
    · obtain rfl := Gathers.unique ⟨turns, hk⟩ hh
      simpa [pair, many, hk] using hr
  · intro hr
    obtain ⟨turns, hk⟩ := hh
    exact ⟨turns, by simpa [pair, many, hk] using hr⟩

/-! ## The law -/

/-- A turn as a reader of the text sees it: something is left, and `p` succeeds there at
another position. -/
def Moves (p : Parser α) (c : Cursor) (a : α) (d : Cursor) : Prop :=
  c.rest ≠ [] ∧ p.Succeeds c a d ∧ d.position ≠ c.position

/-- Places one after another, from `c` to `d`, at each of which but the last `p` moves on to the
next. At the last nothing is left, or `p` fails, or its position stays as it is. -/
structure MaximalChain (p : Parser α) (c : Cursor) (as : List α) (d : Cursor)
    (cs : List Cursor) : Prop where
  head : cs.head? = some c
  last : cs.getLast? = some d
  trail : Trail p.Moves cs as
  rests : d.rest = [] ∨ p.Fails d ∨ ∃ a e, p.Succeeds d a e ∧ e.position = d.position

theorem turn_iff_moves (hc : c.Consistent) : p.Turn c a d ↔ p.Moves c a d := by
  unfold Turn Moves
  rw [← Bool.not_eq_true, hc.isEmpty_iff]
  rfl

theorem KeepsConsistent.of_succeeds (hp : p.KeepsConsistent) (hc : c.Consistent)
    (h : p.Succeeds c a d) : d.Consistent := by
  obtain ⟨log, h⟩ := h
  exact hp c _ hc h

theorem exists_maximalChain_iff (hp : p.KeepsConsistent) (hc : c.Consistent) :
    (∃ cs, p.MaximalChain c as d cs) ↔ Chain p.Turn c as d ∧ p.Rests d := by
  constructor
  · rintro ⟨cs, hhead, hlast, htrail, hrests⟩
    have hs : Chain p.Moves c as d := chain_iff_trail.mpr ⟨cs, hhead, hlast, htrail⟩
    obtain ⟨hs, hd⟩ := hs.of_invariant Cursor.Consistent
      (fun _ _ _ hc h => hp.of_succeeds hc h.2.1) (fun _ _ _ hc => (turn_iff_moves hc).mpr) hc
    refine ⟨hs, ?_⟩
    rwa [Rests, hd.isEmpty_iff]
  · rintro ⟨hs, hrests⟩
    obtain ⟨hs, hd⟩ := hs.of_invariant Cursor.Consistent
      (fun _ _ _ hc h => hp.of_succeeds hc h.2.1) (fun _ _ _ hc => (turn_iff_moves hc).mp) hc
    obtain ⟨cs, hhead, hlast, htrail⟩ := chain_iff_trail.mp hs
    rw [Rests, hd.isEmpty_iff] at hrests
    exact ⟨cs, hhead, hlast, htrail, hrests⟩

theorem MaximalChain.unique {cs ds : List Cursor} (hc : p.MaximalChain c as d cs)
    (hd : p.MaximalChain c as d ds) : cs = ds := by
  refine Trail.unique ?_ hc.trail hd.trail (hc.head.trans hd.head.symm)
  rintro c a d e ⟨-, h, -⟩ ⟨-, h', -⟩
  exact (h.unique h').2

/-- A repetition that ends walked one chain of places: at each but the last something is left
and `p` succeeds at another position, which is the next, with the value that was gathered there;
at the last nothing is left, or `p` fails, or `p` leaves the position as it is. Wherever there is
such a chain the repetition ends, with its values and at its last place, and with nothing else.
`many` succeeds with these, and in no other way. Repeated again at the last place, `p` gives no
values and stays there. -/
theorem a_repetition_gathers_its_maximal_chain (p : Parser α) (hp : p.KeepsConsistent) (c : Cursor)
    (hc : c.Consistent) :
    (∀ h, p.Gathers c h → ∃! cs, p.MaximalChain c h.values h.stop cs) ∧
    (∀ as d cs, p.MaximalChain c as d cs →
      ∃ log, ∀ h, p.Gathers c h ↔ h = ⟨as, d, log⟩) ∧
    (∀ r, (∃ turns, p.many turns c = some r) ↔
      ∃ h, p.Gathers c h ∧ r = ⟨.success h.values h.stop, h.log⟩) ∧
    ∀ h, p.Gathers c h → ∃ log, ∀ k, p.Gathers h.stop k ↔ k = ⟨[], h.stop, log⟩ := by
  have hdecided : ∀ {d k}, p.Gathers d k → ∀ h, p.Gathers d h ↔ h = k := by
    intro d k hk h
    refine ⟨fun hh => hh.unique hk, ?_⟩
    rintro rfl
    exact hk
  refine ⟨?_, ?_, fun r => many_eq_some_iff, ?_⟩
  · intro h hh
    obtain ⟨cs, hcs⟩ := (exists_maximalChain_iff hp hc).mpr hh.chain
    exact ⟨cs, hcs, fun ds hds => hds.unique hcs⟩
  · intro as d cs hcs
    obtain ⟨log, hlog⟩ := gathers_iff_chain.mpr ((exists_maximalChain_iff hp hc).mp ⟨cs, hcs⟩)
    exact ⟨log, hdecided hlog⟩
  · intro h hh
    obtain ⟨log, hlog⟩ := hh.chain.2.gathers
    exact ⟨log, hdecided hlog⟩

/-- A repetition goes back over a character of two bytes and then stays at a position, though in
another text. -/
theorem a_chain_that_goes_back_and_stays :
    let p := (⟨[]⟩ : Grammar).parser 5
      (.choice [.row [.char 'c', .jump 1], .row [.char 'b', .enter "日" 1]])
    let c := (Cursor.start "ébc").advance 2
    let d := (Cursor.start "ébc").advance 1
    let h : Harvest Value := ⟨[.list [.text "c", .null]], d, []⟩
    p.KeepsConsistent ∧ c.Consistent ∧ p.Gathers c h ∧ p.MaximalChain c h.values h.stop [c, d] ∧
    (∃! cs, p.MaximalChain c h.values h.stop cs) ∧
    ∃ log, ∀ k, p.Gathers d k ↔ k = ⟨[], d, log⟩ := by
  intro p c d h
  have hp : p.KeepsConsistent := fun _ _ => Grammar.consistent_of_parser
  have hc : c.Consistent := Cursor.consistent_advance (Cursor.consistent_start _) 2
  have hh : p.Gathers c h := ⟨2, by decide⟩
  have hmoves : p.Moves c (.list [.text "c", .null]) d := ⟨by decide, ⟨[], by decide⟩, by decide⟩
  have hstays : p.Succeeds d (.list [.text "b", .null]) ((Cursor.start "日").advance 1) :=
    ⟨[], by decide⟩
  have hchain : p.MaximalChain c h.values h.stop [c, d] :=
    { head := rfl
      last := rfl
      trail := trail_cons_iff.mpr ⟨c, d, [], rfl, hmoves, trail_nil_iff.mpr ⟨d, rfl⟩⟩
      rests := .inr (.inr ⟨_, _, hstays, by decide⟩) }
  obtain ⟨hwalked, -, -, hagain⟩ := a_repetition_gathers_its_maximal_chain p hp c hc
  exact ⟨hp, hc, hh, hchain, hwalked h hh, hagain h hh⟩

end Parser

end TextParsers
