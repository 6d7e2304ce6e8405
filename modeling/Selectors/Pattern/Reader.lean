import Selectors.Pattern.Lexer
import Selectors.Pattern.Normal
import Selectors.Pattern.Nesting

/-!
# Reading patterns

The text of a pattern is read from left to right, one code point at a time. The groups that are open
form a stack of frames, the innermost first; the last frame is the pattern itself.

* `PatternReader.step?`: what a lexeme does to the reader;
* `PatternReader.feed?`: what a code point does to the reader;
* `Pattern.read?`: the pattern of a text, if the text is well formed, nests at most
  `Pattern.maxDepth` deep, and uses no name twice.
-/

namespace Selectors

/-! ## Frames -/

/-- What a repetition mark would apply to. -/
inductive Tail where
  | nothing
  /-- The last item. -/
  | item
  /-- The last item, which repeats `body`: a question mark makes the repetition lazy. -/
  | repeated (body : Pattern) (least : Nat) (most : Option Nat)
  deriving DecidableEq

/-- The flags that tell what the lexemes of a group mean. -/
structure Flags where
  caseless : Bool
  dotAll : Bool
  swapGreed : Bool
  deriving DecidableEq

namespace Flags

/-- No flag is set. -/
def unset : Flags := ⟨false, false, false⟩

/-- Give some flags other values. -/
def apply (f : Flags) (changes : FlagChanges) : Flags :=
  ⟨Flag.caseless.after changes f.caseless, Flag.dotAll.after changes f.dotAll,
    Flag.swapGreed.after changes f.swapGreed⟩

/-- What the dot stands for. -/
def dot (f : Flags) : CharSet := (if f.dotAll then CharClass.anything else .notNewline).toSet false

end Flags

/-- A group that is being read: its number and name if it has a number, the branches and the items of
the current branch, both with the latest first, and the flags. -/
structure Frame where
  mark : Option (Nat × Option String)
  branches : List Pattern
  items : List Pattern
  tail : Tail
  flags : Flags
  deriving DecidableEq

namespace Frame

/-- A group that has just been opened. -/
def opened (mark : Option (Nat × Option String)) (flags : Flags) : Frame :=
  ⟨mark, [], [], .nothing, flags⟩

/-- Add an item. -/
def push (f : Frame) (p : Pattern) : Frame := { f with items := p :: f.items, tail := .item }

/-- The branches with the current one, the latest first. -/
def allBranches (f : Frame) : List Pattern := .concat f.items.reverse :: f.branches

/-- The current branch has ended. -/
def nextBranch (f : Frame) : Frame :=
  { f with branches := f.allBranches, items := [], tail := .nothing }

/-- The pattern of the group. -/
def pattern (f : Frame) : Pattern :=
  let body := Pattern.alternation f.allBranches.reverse
  match f.mark with
  | none => body
  | some (number, name) => .group number name body

/-- Repeat the last item. -/
def repeatLast? (f : Frame) (least : Nat) (most : Option Nat) : Option Frame :=
  match f.tail, f.items with
  | .nothing, _ | _, [] => none
  | _, p :: earlier =>
    some { f with
      items := p.repeated least most (!f.flags.swapGreed) :: earlier
      tail := .repeated p least most }

/-- A question mark: the repetition right before it is lazy, or else the last item is optional. -/
def question? (f : Frame) : Option Frame :=
  match f.tail, f.items with
  | .repeated p least most, _ :: earlier =>
    some { f with items := p.repeated least most f.flags.swapGreed :: earlier, tail := .item }
  | _, _ => f.repeatLast? 0 (some 1)

/-- A gap: no question mark behind it changes the last repetition. -/
def divide (f : Frame) : Frame :=
  match f.tail with
  | .repeated _ _ _ => { f with tail := .item }
  | _ => f

/-- Give some flags other values. -/
def changeFlags (f : Frame) (changes : FlagChanges) : Frame :=
  { f with flags := f.flags.apply changes, tail := .nothing }

end Frame

/-! ## Reading -/

/-- How deep a pattern may nest. -/
def Pattern.maxDepth : Nat := 250

/-- A pattern that is being read: the lexer, the open groups and how deep they nest, how many groups
have a number, and the names of groups, the latest first. -/
structure PatternReader where
  lexer : PatternLexer
  frames : List Frame
  levels : List Level
  groups : Nat
  names : List String
  deriving DecidableEq

namespace PatternReader

/-- The reader at the start of a text. -/
def start : PatternReader := ⟨.start, [.opened none .unset], [.opened], 0, []⟩

/-- Open a group. -/
def openGroup (r : PatternReader) (kind : Opening) (flags : Flags) : PatternReader :=
  match kind with
  | .plain changes => { r with frames := .opened none (flags.apply changes) :: r.frames }
  | .numbered name =>
    { r with
      frames := .opened (some (r.groups, name)) flags :: r.frames
      groups := r.groups + 1
      names := name.toList ++ r.names }

/-- Read one lexeme; the levels are left as they are. -/
def step? (r : PatternReader) (lexeme : Lexeme) : Option PatternReader :=
  match r.frames with
  | [] => none
  | f :: outer =>
    let put (f : Frame) : PatternReader := { r with frames := f :: outer }
    match lexeme with
    | .one cls | .set cls => some (put (f.push (.ofSet (cls.toSet f.flags.caseless))))
    | .dot => some (put (f.push (.ofSet f.flags.dot)))
    | .textStart => some (put (f.push .textStart))
    | .textEnd => some (put (f.push .textEnd))
    | .opening kind => some (r.openGroup kind f.flags)
    | .closing =>
      match outer with
      | [] => none
      | g :: outer => some { r with frames := g.push f.pattern :: outer }
    | .bar => some (put f.nextBranch)
    | .flags changes => some (put (f.changeFlags changes))
    | .times least most => (f.repeatLast? least most).map put
    | .question => f.question?.map put
    | .gap => some (put f.divide)

/-- Read one code point. -/
def feed? (r : PatternReader) (c : Char) : Option PatternReader := do
  let (lexer, lexemes) ← r.lexer.feed c
  let next ← lexemes.foldlM step? r
  return { next with lexer, levels := lexemes.foldl Level.step r.levels }

/-- Read a text. -/
def read? (r : PatternReader) (text : List Char) : Option PatternReader := text.foldlM feed? r

/-- The pattern at the end of a text: no lexeme and no group may be open, no name may be used twice, and
nothing may nest too deep. -/
def finish? (r : PatternReader) : Option Pattern :=
  match r.frames, r.levels with
  | [f], [l] =>
    if r.lexer.mayEnd ∧ r.names.Nodup ∧ l.depth ≤ Pattern.maxDepth then some f.pattern else none
  | _, _ => none

end PatternReader

/-- The pattern of a text. -/
def Pattern.read? (text : List Char) : Option Pattern :=
  (PatternReader.start.read? text).bind (·.finish?)

end Selectors
