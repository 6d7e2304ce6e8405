import Selectors.Pattern.Lexeme

/-!
# Nesting

How deep a written pattern nests: each group, each repetition, each set in brackets, and each sequence
and alternation of several parts is one deeper than the deepest of its parts. The parts of a set are
one deeper if there are several of them. All other lexemes have depth `0`, and gaps are no parts.

* `Level`: the depths inside of a group that is being read;
* `Level.step`: what a lexeme does to the levels of the open groups, the innermost first;
* `Level.depth`: the depth of a group's contents.
-/

namespace Selectors

/-- What a group holds that is being read: the depths of the branches that have ended, and those of the
parts of the current branch, both with the latest first. -/
structure Level where
  branches : List Nat
  parts : List Nat
  /-- The last part is a repetition that a question mark would make lazy. -/
  repeated : Bool
  deriving DecidableEq

namespace Level

/-- A group that has just been opened. -/
def opened : Level := ⟨[], [], false⟩

/-- The depth of parts in sequence, or of alternatives. -/
def together : List Nat → Nat
  | [] => 0
  | [depth] => depth
  | depths => 1 + depths.foldr max 0

/-- The depth of the contents. -/
def depth (l : Level) : Nat := together (together l.parts :: l.branches)

/-- Add a part. -/
def push (l : Level) (depth : Nat) : Level :=
  { l with parts := depth :: l.parts, repeated := false }

/-- The current branch has ended. -/
def nextBranch (l : Level) : Level := ⟨together l.parts :: l.branches, [], false⟩

/-- Repeat the last part. -/
def repeatLast (l : Level) : Level :=
  match l.parts with
  | [] => l
  | depth :: earlier => { l with parts := (depth + 1) :: earlier, repeated := true }

/-- The depth of a set in brackets. -/
def ofSet (cls : CharClass) : Nat := if cls.ranges.length = 1 then 1 else 2

/-- Read one lexeme. -/
def step (levels : List Level) (lexeme : Lexeme) : List Level :=
  match levels with
  | [] => []
  | l :: outer =>
    match lexeme with
    | .one _ | .dot | .textStart | .textEnd | .flags _ => l.push 0 :: outer
    | .set cls => l.push (ofSet cls) :: outer
    | .opening _ => opened :: l :: outer
    | .closing =>
      match outer with
      | [] => []
      | g :: outer => g.push (1 + l.depth) :: outer
    | .bar => l.nextBranch :: outer
    | .times _ _ => l.repeatLast :: outer
    | .question => (if l.repeated then { l with repeated := false } else l.repeatLast) :: outer
    | .gap => { l with repeated := false } :: outer

end Level

end Selectors
