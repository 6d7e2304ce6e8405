import Selectors.Pattern.Search

/-!
# Scanning a text

All matches of a pattern in a text, each found from the end of the one before it. An empty match at
the very end of the previous match does not count; one character is then skipped.

* `Segment`: a character skipped, or a match;
* `Pattern.scan`: the text, cut into segments.
-/

namespace Selectors

/-- A stretch of a scanned text. -/
inductive Segment where
  /-- A character outside of all matches. -/
  | skipped (c : Char)
  /-- A match, and the names of the groups that took part in it. -/
  | matched (text : List Char) (names : List String)
  deriving DecidableEq

/-- The text of a segment. -/
def Segment.chars : Segment → List Char
  | skipped c => [c]
  | matched text _ => text

namespace Automaton

/-- The segments of a text of which `rest` is left at a position. `fresh` tells that no match ends right
there. -/
def segments (a : Automaton) (fresh : Bool) (position : Nat) (rest : List Char) : List Segment :=
  match a.find? position rest with
  | none => rest.map .skipped
  | some found =>
    let gap := rest.take (found.start - position)
    let behind := rest.drop (found.start - position)
    let text := behind.take (found.stop - found.start)
    if ht : text ≠ [] then
      gap.map .skipped ++ .matched text found.names ::
        a.segments false (position + gap.length + text.length) (behind.drop text.length)
    else if hg : gap ≠ [] ∨ fresh = true then
      gap.map .skipped ++ .matched [] found.names ::
        a.segments false (position + gap.length) behind
    else
      match rest with
      | [] => []
      | c :: rest => .skipped c :: a.segments true (position + 1) rest
termination_by (rest.length, fresh.toNat)
decreasing_by
  · have hpos := List.length_pos_iff.mpr ht
    have htext : text.length ≤ behind.length := List.length_take_le' _ _
    have hbehind : behind.length ≤ rest.length := List.length_drop ▸ Nat.sub_le _ _
    have hlt : (behind.drop text.length).length < rest.length := by rw [List.length_drop]; omega
    exact Prod.Lex.left _ _ hlt
  · rw [List.length_drop]
    rcases hg with hg | rfl
    · have h := List.length_pos_iff.mpr hg
      simp only [gap, List.length_take] at h
      exact Prod.Lex.left _ _ (by omega)
    · rcases Nat.eq_zero_or_pos (min (found.start - position) rest.length) with h | h
      · rw [show rest.length - (found.start - position) = rest.length by omega]
        exact Prod.Lex.right _ Nat.zero_lt_one
      · exact Prod.Lex.left _ _ (by omega)
  · exact Prod.Lex.left _ _ (Nat.lt_succ_self _)

end Automaton

/-- The segments of a text, in order. -/
def Pattern.scan (p : Pattern) (text : List Char) : List Segment :=
  p.automaton.segments true 0 text

end Selectors
