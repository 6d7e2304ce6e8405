import Selectors.Pattern.Basic

/-!
# Normal forms of patterns

Patterns are put together by the functions of this module, which keep them in a normal form:

* a sequence (`concat`) holds no sequences and no empty texts, and no two fixed texts side by side;
* an alternation (`alternation`) holds no alternations; its branches are not all of them characters and
  not all of them sets; and if they all are sequences, they do not begin alike: what they have in
  common stands before the alternation;
* a repetition (`repeated`) of nothing but the empty text has one round at most, and a single round is
  no repetition;
* a set (`ofSet`) of a single character is a fixed text.

Where the common beginning of two branches can match in several ways, taking it out changes which
match is preferred: the branches are then tried for each way in turn. So the normal form is part of what
a written pattern means.
-/

namespace Selectors.Pattern

/-! ## Sets and repetitions -/

/-- One character of a set. -/
def ofSet (set : CharSet) : Pattern :=
  match set.single? with
  | some c => literal [c]
  | none => one set

/-- At least `least` rounds of a pattern, and at most `most` if there is a bound. -/
def repeated (p : Pattern) (least : Nat) (most : Option Nat) (greedy : Bool) : Pattern :=
  let least := if p.isEmptyOnly then min least 1 else least
  let most := if p.isEmptyOnly then some (min (most.getD 1) 1) else most
  if most = some 0 then empty
  else if least = 1 ∧ most = some 1 then p
  else rep p least most greedy

/-! ## Sequences -/

/-- Put a part before others; two fixed texts become one. -/
def joinPart : Pattern → List Pattern → List Pattern
  | literal a, literal b :: rest => literal (a ++ b) :: rest
  | p, rest => p :: rest

/-- The patterns in sequence. -/
def concat (ps : List Pattern) : Pattern := ofParts ((ps.flatMap parts).foldr joinPart [])

/-! ## Alternations -/

/-- The character of a fixed text that has just one. -/
def char? : Pattern → Option Char
  | literal [c] => some c
  | _ => none

/-- The set of a pattern that is one. -/
def set? : Pattern → Option CharSet
  | one set => some set
  | _ => none

/-- The sets of the branches, if all of them are characters or all of them are sets. -/
def sets? (bs : List Pattern) : Option (List CharSet) :=
  ((bs.mapM char?).map (·.map CharSet.single)).or (bs.mapM set?)

/-- The branches as alternatives, or as one set if they are characters or sets throughout. -/
def unite (bs : List Pattern) : Pattern :=
  match bs with
  | [b] => b
  | bs =>
    match sets? bs with
    | some sets => ofSet (sets.foldl CharSet.union ⟨[]⟩)
    | none => ofBranches bs

/-- What two lists begin with. -/
def commonPrefix : List Pattern → List Pattern → List Pattern
  | p :: ps, q :: qs => if p = q then p :: commonPrefix ps qs else []
  | _, _ => []

/-- What all branches begin with, provided that they are sequences. -/
def sharedParts : List Pattern → List Pattern
  | [] => []
  | b :: bs =>
    if (b :: bs).all (1 < ·.parts.length) then
      bs.foldl (fun shared b => commonPrefix shared b.parts) b.parts
    else []

/-- The patterns as alternatives, the preferred one first. -/
def alternation (ps : List Pattern) : Pattern :=
  let bs := ps.flatMap branches
  let shared := sharedParts bs
  if bs.length = 1 ∨ shared = [] then unite bs
  else
    let rests := bs.map fun b => concat (b.parts.drop shared.length)
    concat (shared ++ [unite (rests.flatMap branches)])

end Selectors.Pattern
