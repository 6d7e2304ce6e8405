import Selectors.Pattern.CharSet

/-!
# Patterns

A pattern describes texts: fixed texts and sets of characters, joined in sequence, by alternation and
by repetition, and anchored at the ends of the text. Alternatives and repetitions are ordered: of two
ways to match, the earlier alternative is preferred, and a greedy repetition prefers one more round
where a lazy one prefers none. Groups have numbers; a match tells which of the named groups took part
in it.

* `Pattern`;
* `Pattern.parts`, `Pattern.branches`: what a sequence and an alternation are made of;
* `Pattern.minLength?`, `Pattern.isEmptyOnly`: how long the texts of a pattern are.
-/

namespace Selectors

/-- A pattern of texts. -/
inductive Pattern where
  /-- The empty text. -/
  | empty
  /-- A fixed text. -/
  | literal (text : List Char)
  /-- One character of a set. -/
  | one (set : CharSet)
  /-- The start of the whole text. -/
  | textStart
  /-- The end of the whole text. -/
  | textEnd
  | seq (first rest : Pattern)
  | alt (preferred others : Pattern)
  /-- At least `least` rounds of `body`, and at most `most` if there is a bound. -/
  | rep (body : Pattern) (least : Nat) (most : Option Nat) (greedy : Bool)
  | group (number : Nat) (name : Option String) (body : Pattern)
  deriving DecidableEq

namespace Pattern

/-! ## Parts and branches -/

/-- The parts of a sequence; another pattern is its own only part, and the empty text has none. -/
def parts : Pattern → List Pattern
  | empty => []
  | seq p q => p.parts ++ q.parts
  | p => [p]

/-- The branches of an alternation; another pattern is its own only branch. -/
def branches : Pattern → List Pattern
  | alt p q => p.branches ++ q.branches
  | p => [p]

/-- The parts in sequence. -/
def ofParts : List Pattern → Pattern
  | [] => empty
  | [p] => p
  | p :: rest => seq p (ofParts rest)

/-- The branches as alternatives. -/
def ofBranches : List Pattern → Pattern
  | [] => empty
  | [p] => p
  | p :: rest => alt p (ofBranches rest)

/-! ## Lengths -/

/-- A length that no text of the pattern falls short of. A pattern of which some alternative cannot
match at all has none. -/
def minLength? : Pattern → Option Nat
  | empty | textStart | textEnd => some 0
  | literal text => some text.length
  | one set => if set.ranges = [] then none else some 1
  | seq p q => do
    let m ← p.minLength?
    let n ← q.minLength?
    return m + n
  | alt p q => do
    let m ← p.minLength?
    let n ← q.minLength?
    return min m n
  | rep body least _ _ => body.minLength?.map (least * ·)
  | group _ _ body => body.minLength?

/-- Every round of the pattern moves on. -/
def movesOn (p : Pattern) : Bool := p.minLength?.any (0 < ·)

/-- The pattern matches no text but the empty one. -/
def isEmptyOnly : Pattern → Bool
  | empty | textStart | textEnd => true
  | literal text => text.isEmpty
  | one _ => false
  | seq p q | alt p q => p.isEmptyOnly && q.isEmptyOnly
  | rep body _ most _ => most = some 0 || (most.isSome && body.isEmptyOnly)
  | group _ _ body => body.isEmptyOnly

end Pattern

end Selectors
