import Selectors.Pattern.Basic

/-!
# Automata

The automaton of a pattern has states that are joined by arrows. A state reads one character of a set,
or tests the place without reading, or branches without reading, where the order of the arrows tells
which way is preferred.

* `State`, `Automaton`;
* `Pattern.build`: the states of a pattern, added before the states that follow it;
* `Pattern.automaton`: the automaton of a pattern.

A repetition whose body always moves on is one branching state, which the rounds return to. Otherwise
the state at which a round may be repeated comes behind the body, and the state at which all rounds may
be left out before it: in that way the preferred rounds come first even if a round is empty.
-/

namespace Selectors

/-- The number of a state. -/
abbrev StateId := Nat

/-- A state of an automaton. -/
inductive State where
  /-- Read one character of a set. -/
  | one (set : CharSet) (next : StateId)
  /-- Go on in any of some states, the preferred one first. -/
  | branch (nexts : List StateId)
  /-- Go on at the start of the text. -/
  | textStart (next : StateId)
  /-- Go on at the end of the text. -/
  | textEnd (next : StateId)
  /-- Note that a named group takes part. -/
  | note (name : String) (next : StateId)
  /-- A match ends here. -/
  | accept
  deriving DecidableEq

/-- States, and the one to start from. -/
structure Automaton where
  states : Array State
  start : StateId

/-! ## Construction -/

/-- Add states that lead on to the state `next`, and give the state to enter them by. -/
abbrev Build := StateId → Array State → StateId × Array State

namespace Build

/-- Add one state. -/
def push (state : State) (states : Array State) : StateId × Array State :=
  (states.size, states.push state)

/-- The first of two ways is preferred if `greedy`, else the second. -/
def prefer (greedy : Bool) (one other : StateId) : State :=
  .branch (if greedy then [one, other] else [other, one])

/-- Read a fixed text. -/
def literal (text : List Char) : Build := fun next states =>
  text.foldr (fun c (next, states) => push (.one (.single c) next) states) (next, states)

/-- The first of two builds leads on to the second. -/
def andThen (first second : Build) : Build := fun next states =>
  let (middle, states) := second next states
  first middle states

/-- A number of copies, each leading on to the next. -/
def copies (body : Build) : Nat → Build
  | 0 => fun next states => (next, states)
  | n + 1 => fun next states =>
    let (next, states) := body next states
    copies body n next states

/-- At most a number of rounds, all of which leave to the same state. -/
def upTo (body : Build) (greedy : Bool) (leave : StateId) : Nat → Build
  | 0 => fun next states => (next, states)
  | n + 1 => fun next states =>
    let (entry, states) := body next states
    let (next, states) := push (prefer greedy entry leave) states
    upTo body greedy leave n next states

/-- A branching state behind the rounds of a body: from there another round, or on. The result is the
entry of the body and the branching state. -/
def loop (body : Build) (greedy : Bool) (next : StateId) (states : Array State) :
    StateId × StateId × Array State :=
  let (turn, states) := push (.branch []) states
  let (entry, states) := body turn states
  (entry, turn, states.setIfInBounds turn (prefer greedy entry next))

/-- One round or more. -/
def oneOrMore (body : Build) (greedy : Bool) : Build := fun next states =>
  let (entry, _, states) := loop body greedy next states
  (entry, states)

/-- Any number of rounds; `movesOn` tells that no round is empty. -/
def anyNumber (body : Build) (movesOn greedy : Bool) : Build := fun next states =>
  let (entry, turn, states) := loop body greedy next states
  if movesOn then (turn, states) else push (prefer greedy entry next) states

/-- As many rounds as the bounds allow. -/
def rounds (body : Build) (movesOn : Bool) (least : Nat) (most : Option Nat) (greedy : Bool) :
    Build :=
  match least, most with
  | least, some most => (copies body least).andThen fun next => upTo body greedy next (most - least) next
  | 0, none => anyNumber body movesOn greedy
  | least + 1, none => (copies body least).andThen (oneOrMore body greedy)

end Build

namespace Pattern

/-- Add the states of a pattern. -/
def build : Pattern → Build
  | empty => fun next states => (next, states)
  | literal text => .literal text
  | one set => fun next => Build.push (.one set next)
  | textStart => fun next => Build.push (.textStart next)
  | textEnd => fun next => Build.push (.textEnd next)
  | seq p q => p.build.andThen q.build
  | alt p q => fun next states =>
    let (others, states) := q.build next states
    let (entry, states) := p.build next states
    Build.push (.branch [entry, others]) states
  | rep p least most greedy => .rounds p.build p.movesOn least most greedy
  | group _ none p => p.build
  | group _ (some name) p => fun next states =>
    let (entry, states) := p.build next states
    Build.push (.note name entry) states

/-- The automaton of a pattern. -/
def automaton (p : Pattern) : Automaton :=
  let (start, states) := p.build 0 #[.accept]
  ⟨states, start⟩

end Pattern

end Selectors
