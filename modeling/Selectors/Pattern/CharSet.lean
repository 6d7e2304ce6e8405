import Selectors.Text.CaseFold

/-!
# Character sets

Sets of characters, as ranges of code points in ascending order. Ranges that meet are joined, so that
sets made of the same ranges are equal. Surrogates are not characters, but they have code points: a
range that ends right before them does not meet one that starts right behind them.

* `CharSet.contains`: membership;
* `CharSet.ofRanges`, `CharSet.complement`, `CharSet.closeCase`: sets from others;
* `CharSet.single?`: the only character of a set;
* `CharClass`: a set as it is written, and `CharClass.toSet`.
-/

namespace Selectors

/-! ## Code points -/

/-- The code point of the last character. -/
def lastCodePoint : Nat := 0x10FFFF

/-- The code point of the character right behind another one. -/
def codePointBehind (n : Nat) : Nat := if n = 0xD7FF then 0xE000 else n + 1

/-- The code point of the character right before another one. -/
def codePointBefore (n : Nat) : Nat := if n = 0xE000 then 0xD7FF else n - 1

/-! ## Sets -/

/-- A set of characters. -/
structure CharSet where
  ranges : List (Nat × Nat)
  deriving DecidableEq

namespace CharSet

/-- The set holds `c`. -/
def contains (s : CharSet) (c : Char) : Bool :=
  s.ranges.any fun r => r.1 ≤ c.toNat && c.toNat ≤ r.2

/-- Add a range to ranges in ascending order; those that it meets are joined with it. -/
def insertRange (low high : Nat) : List (Nat × Nat) → List (Nat × Nat)
  | [] => [(low, high)]
  | r :: rest =>
    if high + 1 < r.1 then (low, high) :: r :: rest
    else if r.2 + 1 < low then r :: insertRange low high rest
    else insertRange (min low r.1) (max high r.2) rest

/-- The union of ranges. -/
def ofRanges (ranges : List (Nat × Nat)) : CharSet :=
  ⟨ranges.foldr (fun r => insertRange r.1 r.2) []⟩

/-- Exactly one character. -/
def single (c : Char) : CharSet := ⟨[(c.toNat, c.toNat)]⟩

/-- The characters of both sets. -/
def union (s t : CharSet) : CharSet := ofRanges (s.ranges ++ t.ranges)

/-- The range from one character to another, in either order. -/
def rangeBetween (m n : Nat) : Nat × Nat := (min m n, max m n)

/-- The ranges that lie between ranges in ascending order, and behind them, where the one before them
ends in `high`. -/
def gapsBehind (high : Nat) : List (Nat × Nat) → List (Nat × Nat)
  | [] => if high < lastCodePoint then [(codePointBehind high, lastCodePoint)] else []
  | r :: rest =>
    rangeBetween (codePointBehind high) (codePointBefore r.1) :: gapsBehind r.2 rest

/-- The characters outside of a set: a range goes from the character behind one range to the character
before the next. If nothing but the surrogates lies between the two, the character behind is that
where the next one starts, and the character before is that where the first one ends, and so the range
has these two characters. -/
def complement (s : CharSet) : CharSet :=
  match s.ranges with
  | [] => ⟨[(0, lastCodePoint)]⟩
  | r :: rest => ⟨(if 0 < r.1 then [(0, codePointBefore r.1)] else []) ++ gapsBehind r.2 rest⟩

/-- The characters of a set and all their case variants. -/
def closeCase (s : CharSet) : CharSet :=
  let holds (codePoint : Nat) : Bool := s.contains (.ofNat codePoint)
  let codePoints (l : List Nat) : CharSet := ofRanges (l.map fun n => (n, n))
  let folded := codePoints (Text.foldPairs.filterMap fun (source, target) =>
    if holds source || holds target then some target else none)
  let sources := codePoints (Text.foldPairs.filterMap fun (source, target) =>
    if folded.contains (.ofNat target) then some source else none)
  (s.union folded).union sources

/-- The only character of a set. -/
def single? (s : CharSet) : Option Char :=
  match s.ranges with
  | [(low, high)] => if low = high then some (.ofNat low) else none
  | _ => none

@[simp] theorem contains_single {c d : Char} : (single c).contains d = true ↔ d = c := by
  simp only [contains, single, List.any_cons, List.any_nil, Bool.or_false, Bool.and_eq_true,
    decide_eq_true_eq]
  exact ⟨fun h => Char.ext (UInt32.toNat_inj.mp (Nat.le_antisymm h.2 h.1)),
    fun h => h ▸ ⟨Nat.le_refl _, Nat.le_refl _⟩⟩

end CharSet

/-! ## Sets as they are written -/

/-- A union of ranges, or the complement of one. -/
structure CharClass where
  ranges : List (Char × Char)
  negated : Bool
  deriving DecidableEq

namespace CharClass

/-- Exactly one character. -/
def single (c : Char) : CharClass := ⟨[(c, c)], false⟩

/-- Every character. -/
def anything : CharClass := ⟨[], true⟩

/-- Every character but the line feed. -/
def notNewline : CharClass := ⟨[('\n', '\n')], true⟩

/-- The set that a class describes. Where case makes no difference, the case variants are taken before
the complement: `[^a]` then holds neither `a` nor `A`. -/
def toSet (caseless : Bool) (k : CharClass) : CharSet :=
  let written := CharSet.ofRanges (k.ranges.map fun r => (r.1.toNat, r.2.toNat))
  let closed := if caseless then written.closeCase else written
  if k.negated then closed.complement else closed

end CharClass

end Selectors
