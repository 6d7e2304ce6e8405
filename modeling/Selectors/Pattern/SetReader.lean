import Selectors.Text.Blank
import Selectors.Text.Hex
import Selectors.Pattern.CharSet

/-!
# Reading character sets

The text of a set, from behind its opening `[` to its closing `]`, read one code point at a time. A
`^` at the start takes the complement. Hyphens that come next stand for themselves, and so does a
`]` if nothing else has come before it. Then follow items, each a code point or an escape, and
ranges of two items with a hyphen between them. A hyphen right before the closing `]` stands for
itself. Sets inside sets and the set operators `&&`, `--` and `~~` are refused.

Where blanks and comments mean nothing, they may stand between all of these. The two characters of an
operator are not divided by them.

* `escaped?`: the escapes, shared with the rest of the pattern syntax;
* `SetReader.feed`: one step of reading;
* `SetReader.skip`: one step through blanks and comments.
-/

namespace Selectors

/-! ## Escapes -/

/-- What a backslash and `c` stand for: a control code, or `c` itself if it is in ASCII and neither
alphanumeric nor an angle bracket. -/
def escaped? (c : Char) : Option Char :=
  match c with
  | 'a' => some '\x07'
  | 'f' => some '\x0c'
  | 'n' => some '\n'
  | 'r' => some '\r'
  | 't' => some '\t'
  | 'v' => some '\x0b'
  | c => if c.toNat < 128 ∧ !c.isAlphanum ∧ c ≠ '<' ∧ c ≠ '>' then some c else none

/-- The code point of two hexadecimal digits. -/
def ofHexDigits (high low : Nat) : Char := .ofNat (16 * high + low)

/-! ## Stages -/

/-- How far the reading of a set has come. -/
inductive SetStage where
  /-- Right behind the opening bracket. -/
  | opened
  /-- Nothing but the `^` and hyphens has come. -/
  | leading
  /-- Between two items. -/
  | items
  /-- Behind an item, which may begin a range; an escape, or one with a gap behind it, stands `apart`:
  it is no part of an operator. -/
  | pending (item : Char) (apart : Bool)
  /-- Behind an item and a hyphen, which stands `apart` if there is a gap behind it. -/
  | hyphen (low : Char) (apart : Bool)
  /-- Behind an item, a hyphen and the start of a comment, of which only blanks have come. -/
  | remark (low : Char)
  /-- Behind an item and a hyphen that makes a range, whatever comes next. -/
  | upper (low : Char)
  /-- Behind a backslash; `low` begins the range that the escape will end. -/
  | escape (low : Option Char)
  /-- Behind `\x` and perhaps one digit. -/
  | hex (low : Option Char) (digit : Option Nat)
  deriving DecidableEq

/-- A set that is being read. -/
structure SetReader where
  negated : Bool
  ranges : List (Char × Char)
  stage : SetStage
  deriving DecidableEq

/-- What one step of reading gives: a reader that needs more text, or the finished set. -/
inductive SetProgress where
  | reading (r : SetReader)
  | finished (cls : CharClass)
  deriving DecidableEq

namespace SetReader

/-- The reader right behind the opening bracket. -/
def start : SetReader := ⟨false, [], .opened⟩

/-- Go on in another stage. -/
def enter (r : SetReader) (stage : SetStage) : SetProgress := .reading { r with stage }

/-- Add a range. -/
def add (r : SetReader) (low high : Char) : SetReader := { r with ranges := (low, high) :: r.ranges }

/-- The set read so far. -/
def finish (r : SetReader) : SetProgress := .finished ⟨r.ranges, r.negated⟩

/-- An item has been read through an escape: it stands alone, or it ends the range from `low`. -/
def item? (r : SetReader) (low : Option Char) (c : Char) : Option SetProgress :=
  match low with
  | none => some (r.enter (.pending c true))
  | some low => if low ≤ c then some ((r.add low c).enter .items) else none

/-- Read one code point between two items. -/
def feedItems (r : SetReader) (c : Char) : Option SetProgress :=
  match c with
  | ']' => some r.finish
  | '[' => none
  | '\\' => some (r.enter (.escape none))
  | c => some (r.enter (.pending c false))

/-- Read one code point where only hyphens have come. -/
def feedLeading (r : SetReader) (c : Char) : Option SetProgress :=
  if c = '-' then some ((r.add '-' '-').enter .leading)
  else if c = ']' ∧ r.ranges = [] then some ((r.add ']' ']').enter .items)
  else r.feedItems c

/-- Read one code point behind an item that may begin a range. -/
def feedPending (r : SetReader) (item : Char) (apart : Bool) (c : Char) : Option SetProgress :=
  if !apart ∧ c = item ∧ (c = '-' ∨ c = '&' ∨ c = '~') then none
  else if c = '-' then some (r.enter (.hyphen item false))
  else (r.add item item).feedItems c

/-- Read the first code point of the item that ends a range. -/
def feedUpper (r : SetReader) (low c : Char) : Option SetProgress :=
  if c = '\\' then some (r.enter (.escape (some low))) else r.item? (some low) c

/-- Before these there is no range: a hyphen behind an item is an item of its own. -/
def endsItems (c : Char) : Bool := c == ']' || c == '-'

/-- Read one code point behind an item and a hyphen. -/
def feedHyphen (r : SetReader) (low c : Char) : Option SetProgress :=
  if endsItems c then (r.add low low).feedPending '-' true c else r.feedUpper low c

/-- Read one code point. -/
def feed (r : SetReader) (c : Char) : Option SetProgress :=
  match r.stage with
  | .opened =>
    if c = '^' then some ({ r with negated := true }.enter .leading) else r.feedLeading c
  | .leading => r.feedLeading c
  | .items => r.feedItems c
  | .pending item apart => r.feedPending item apart c
  | .hyphen low apart => if c = '-' ∧ !apart then none else r.feedHyphen low c
  | .remark low => r.feedHyphen low c
  | .upper low => r.feedUpper low c
  | .escape low =>
    if c = 'x' then some (r.enter (.hex low none)) else (escaped? c).bind (r.item? low)
  | .hex low none => (Text.hexDigit? c).map fun d => r.enter (.hex low (some d))
  | .hex low (some high) => (Text.hexDigit? c).bind fun d => r.item? low (ofHexDigits high d)

/-! ## Gaps -/

/-- Blanks and comments may stand here. -/
def allowsGap (r : SetReader) : Bool :=
  match r.stage with
  | .escape _ => false
  | _ => true

/-- Go through one code point of a gap. Whether a hyphen makes a range is told by what comes behind the
blanks that follow it; but of a comment the first character other than a blank counts. -/
def skip (r : SetReader) (c : Char) : SetReader :=
  match r.stage with
  | .pending item _ => { r with stage := .pending item true }
  | .hyphen low _ => { r with stage := if c = '#' then .remark low else .hyphen low true }
  | .remark low =>
    if Text.isBlank c then r
    else if endsItems c then { r.add low low with stage := .pending '-' true }
    else { r with stage := .upper low }
  | _ => r

end SetReader

end Selectors
