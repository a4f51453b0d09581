-- Moves add up. The distance of a move is a word of a machine, and so are the counters of
-- a place. In a text of fewer bytes than there are words no counter wraps, and moves one
-- after another are one move over the sum of their distances, cut off at the largest word.
import TextParsers.Proofs.ReachedCursors
import Mathlib.Data.List.Perm.Basic
namespace TextParsers.Cursor

/-- The largest word of a machine. -/
def maxWord : Nat := 0xFFFFFFFFFFFFFFFF

/-! ## Distances -/

/-- No move is longer than what is left. -/
theorem advance_min {c : Cursor} {bound : Nat} (h : c.rest.length ≤ bound) (n : Nat) :
    c.advance (min n bound) = c.advance n := by
  by_cases hn : n ≤ bound
  · rw [Nat.min_eq_left hn]
  · have htake : c.rest.take bound = c.rest.take n := by
      rw [List.take_of_length_le h, List.take_of_length_le (by omega)]
    have hdrop : c.rest.drop bound = c.rest.drop n := by
      rw [List.drop_of_length_le h, List.drop_of_length_le (by omega)]
    rw [Nat.min_eq_right (by omega)]
    simp only [advance, htake, hdrop]

instance : RightCommutative advance where
  right_comm c a b := by rw [advance_advance, advance_advance, Nat.add_comm]

/-- The sum of some distances, as a word that stops at the largest. -/
def saturatingSum (ns : List Nat) : Nat := ns.foldl (fun sum n => min (sum + n) maxWord) 0

theorem foldl_advance {c : Cursor} (h : c.rest.length ≤ maxWord) (ns : List Nat) :
    ns.foldl advance c = c.advance (saturatingSum ns) := by
  -- The sum so far is the distance that has been moved, or both are past the end.
  have key : ∀ sum, ns.foldl advance (c.advance sum) =
      c.advance (ns.foldl (fun sum n => min (sum + n) maxWord) sum) := by
    induction ns with
    | nil => intro sum; rfl
    | cons n ns ih =>
      intro sum
      rw [List.foldl_cons, List.foldl_cons, advance_advance, ← advance_min h, ih]
  have hstart := key 0
  rwa [advance_zero] at hstart

/-! ## Counters -/

/-- What a move counts, in words of a machine: the bytes behind, and the characters passed. -/
structure Counters where
  offset : UInt64
  passed : UInt64
  deriving DecidableEq, Repr

/-- One more character is passed. -/
def Counters.pass (k : Counters) (x : Char) : Counters :=
  ⟨k.offset + x.utf8Size.toUInt64, k.passed + 1⟩

/-- The counters behind a move, counted character by character. -/
def countMove (c : Cursor) (n : Nat) : Counters :=
  (c.rest.take n).foldl Counters.pass ⟨c.offset.toUInt64, 0⟩

theorem utf8ByteSize_ofList_cons (x : Char) (cs : List Char) :
    (String.ofList (x :: cs)).utf8ByteSize = x.utf8Size + (String.ofList cs).utf8ByteSize := by
  rw [String.ofList_cons, String.utf8ByteSize_append, String.utf8ByteSize_singleton]

/-- A character takes a byte or more. -/
theorem length_le_utf8ByteSize (cs : List Char) :
    cs.length ≤ (String.ofList cs).utf8ByteSize := by
  induction cs with
  | nil => simp
  | cons x cs ih =>
    have hx := x.utf8Size_pos
    rw [List.length_cons, utf8ByteSize_ofList_cons]
    omega

/-- Characters are counted without a wrap if their bytes are. -/
theorem foldl_pass {cs : List Char} {k : Counters}
    (hoffset : k.offset.toNat + (String.ofList cs).utf8ByteSize ≤ maxWord)
    (hpassed : k.passed.toNat + cs.length ≤ maxWord) :
    (cs.foldl Counters.pass k).offset.toNat =
      k.offset.toNat + (String.ofList cs).utf8ByteSize ∧
    (cs.foldl Counters.pass k).passed.toNat = k.passed.toNat + cs.length := by
  induction cs generalizing k with
  | nil => simp
  | cons x cs ih =>
    simp only [utf8ByteSize_ofList_cons, List.length_cons, maxWord] at hoffset hpassed
    have hx : (k.pass x).offset.toNat = k.offset.toNat + x.utf8Size := by
      simp only [Counters.pass, UInt64.toNat_add, Nat.toUInt64_eq, UInt64.toNat_ofNat']
      omega
    have hone : (k.pass x).passed.toNat = k.passed.toNat + 1 := by
      simp only [Counters.pass, UInt64.toNat_add, UInt64.toNat_one]
      omega
    have hrest := @ih (k.pass x) (by simp only [maxWord]; omega) (by simp only [maxWord]; omega)
    rw [hx, hone] at hrest
    simp only [List.foldl_cons, utf8ByteSize_ofList_cons, List.length_cons]
    omega

namespace Consistent

variable {c : Cursor}

/-- No byte offset is past the end. -/
theorem offset_le (h : c.Consistent) : c.offset ≤ c.text.utf8ByteSize := by
  have hall := h.offset_add_utf8ByteSize
  omega

theorem length_le_byteSize (h : c.Consistent) :
    c.position + c.rest.length ≤ c.text.utf8ByteSize := by
  have hle := length_le_utf8ByteSize c.text.toList
  rw [String.ofList_toList, String.length_toList] at hle
  have hall := h.position_add_length
  omega

/-- In a text that fits a machine the counters of a move, and their sum with the position, are
what they are as numbers. -/
theorem countMove_eq (h : c.Consistent) (hsize : c.text.utf8ByteSize ≤ maxWord) (n : Nat) :
    (c.countMove n).offset.toNat = (c.advance n).offset ∧
    (c.countMove n).passed.toNat = min n c.rest.length ∧
    (c.position.toUInt64 + (c.countMove n).passed).toNat = (c.advance n).position := by
  have hbytes : c.offset + (String.ofList (c.rest.take n)).utf8ByteSize ≤ c.text.utf8ByteSize :=
    (consistent_advance h n).offset_le
  have hchars := h.length_le_byteSize
  have htake : (c.rest.take n).length = min n c.rest.length := List.length_take
  have hoffset : c.offset.toUInt64.toNat = c.offset := by
    simp only [maxWord] at hsize
    simp only [Nat.toUInt64_eq, UInt64.toNat_ofNat']
    omega
  obtain ⟨hbehind, hpassed⟩ := @foldl_pass (c.rest.take n) ⟨c.offset.toUInt64, 0⟩
    (by simp only [hoffset]; omega) (by simp only [UInt64.toNat_zero]; omega)
  simp only [hoffset, UInt64.toNat_zero, Nat.zero_add, htake] at hbehind hpassed
  refine ⟨hbehind, hpassed, ?_⟩
  simp only [maxWord] at hsize
  simp only [countMove, position_advance, UInt64.toNat_add, Nat.toUInt64_eq, UInt64.toNat_ofNat',
    hpassed]
  omega

end Consistent

/-! ## The law -/

/-- In a text that fits a machine a move goes to the position as far on as it says, or to the end of
the text if that comes first. It leaves the text as it is, drops as many characters of what was
left, and neither its byte offset nor its position wraps while it is counted. A move over nothing
stays. Two moves one after the other are one move over the sum of their distances, or over the
largest word if the sum is greater. So moves may be made in any order, and any number of them is one
move over their saturating sum. -/
theorem moves_add_up_to_the_end_of_the_text (c : Cursor) (h : c.Reached)
    (hsize : c.text.utf8ByteSize < 0x10000000000000000) :
    (∀ n, (c.advance n).position = min (c.position + n) c.text.length ∧
      (c.advance n).rest = c.rest.drop n ∧ (c.advance n).text = c.text ∧
      (c.countMove n).offset.toNat = (c.advance n).offset ∧
      (c.countMove n).passed.toNat = min n c.rest.length ∧
      (c.position.toUInt64 + (c.countMove n).passed).toNat = (c.advance n).position) ∧
    c.advance 0 = c ∧
    (∀ a b, (c.advance a).advance b = c.advance (min (a + b) 0xFFFFFFFFFFFFFFFF)) ∧
    (∀ a b, (c.advance a).advance b = (c.advance b).advance a) ∧
    (∀ ns, ns.foldl advance c = c.advance (saturatingSum ns)) ∧
    ∀ ns ms : List Nat, ns.Perm ms → ns.foldl advance c = ms.foldl advance c := by
  have hc := h.consistent
  have hword : c.text.utf8ByteSize ≤ maxWord := Nat.le_of_lt_succ hsize
  have hleft : c.rest.length ≤ maxWord := by
    have hle := hc.length_le_byteSize
    omega
  refine ⟨fun n => ⟨?_, rfl, rfl, hc.countMove_eq hword n⟩, advance_zero c, fun a b => ?_,
    fun a b => RightCommutative.right_comm c a b, foldl_advance hleft,
    fun ns ms hperm => hperm.foldl_eq c⟩
  · have hlen := hc.position_add_length
    rw [position_advance]
    omega
  · rw [advance_advance]
    exact (advance_min hleft (a + b)).symm

/-- Two of the longest moves from behind a character of two bytes, over one of three. -/
theorem two_of_the_longest_moves :
    let c := (start "é日x").advance 1
    c.Reached ∧ c.text.utf8ByteSize < 0x10000000000000000 ∧
    (c.advance 0xFFFFFFFFFFFFFFFF).advance 0xFFFFFFFFFFFFFFFF = c.advance 0xFFFFFFFFFFFFFFFF ∧
    (c.advance 0xFFFFFFFFFFFFFFFF).position = 3 ∧
    (c.advance 1).advance 0xFFFFFFFFFFFFFFFF = (c.advance 0xFFFFFFFFFFFFFFFF).advance 1 ∧
    (c.countMove 0xFFFFFFFFFFFFFFFF).offset.toNat = (c.advance 0xFFFFFFFFFFFFFFFF).offset := by
  intro c
  have hc : c.Reached := .advance (.start _) 1
  have hsize : c.text.utf8ByteSize < 0x10000000000000000 := by decide
  obtain ⟨hmove, -, hmerge, hcomm, -⟩ := moves_add_up_to_the_end_of_the_text c hc hsize
  obtain ⟨hposition, -, -, hoffset, -⟩ := hmove 0xFFFFFFFFFFFFFFFF
  exact ⟨hc, hsize, hmerge _ _, hposition.trans (by decide), hcomm _ _, hoffset⟩

end TextParsers.Cursor
