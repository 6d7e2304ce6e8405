import Selectors.Text.Blank
import Selectors.Text.Letter
import Selectors.Pattern.SetReader

/-!
# Lexemes of pattern syntax

The text of a pattern, read one code point at a time and cut into lexemes: characters and sets of
them, anchors, brackets, bars, repetition marks and flags. What is refused, although it is a pattern too,
are classes of Unicode and word boundaries, code points in braces, and the flags that change lines, line
ends or bytes.

* `Flag`, `Flag.after`: what may be switched on and off inside of a pattern;
* `Lexeme`: the units of which patterns are composed;
* `Mode.feed`: one step of reading; a text may end only in mode `text`;
* `readCount?`: the bounds of a counted repetition.
-/

namespace Selectors

/-! ## Flags -/

/-- What may be switched on and off inside of a pattern. -/
inductive Flag where
  /-- Case makes no difference. -/
  | caseless
  /-- The dot stands for line feeds too. -/
  | dotAll
  /-- Repetitions are lazy, and a question mark makes them greedy. -/
  | swapGreed
  /-- Blanks and comments mean nothing. -/
  | verbose
  deriving DecidableEq

/-- The letter of a flag. -/
def Flag.ofChar? : Char → Option Flag
  | 'i' => some caseless
  | 's' => some dotAll
  | 'U' => some swapGreed
  | 'x' => some verbose
  | _ => none

/-- Flags and the values that they are given. -/
abbrev FlagChanges := List (Flag × Bool)

/-- The value of a flag after some changes. -/
def Flag.after (flag : Flag) (changes : FlagChanges) (value : Bool) : Bool :=
  ((changes.find? (·.1 = flag)).map (·.2)).getD value

/-- Flags that are being read, between `(?` and `:` or `)`. -/
structure FlagReader where
  changes : FlagChanges
  /-- No hyphen has come: the flags are switched on. -/
  value : Bool
  deriving DecidableEq

namespace FlagReader

/-- The reader right behind `(?`. -/
def start : FlagReader := ⟨[], true⟩

/-- There is a hyphen, but no flag behind it. -/
def dangling (r : FlagReader) : Bool := !r.value && r.changes.all (·.2)

/-- Read the letter of a flag, which may come once. -/
def flag? (r : FlagReader) (c : Char) : Option FlagReader :=
  (Flag.ofChar? c).bind fun flag =>
    if r.changes.any (·.1 = flag) then none else some { r with changes := (flag, r.value) :: r.changes }

end FlagReader

/-! ## Lexemes -/

/-- What an opening parenthesis opens. -/
inductive Opening where
  /-- A group that only holds its parts together, and may change flags for them. -/
  | plain (changes : FlagChanges)
  /-- A group that has a number, and perhaps a name. -/
  | numbered (name : Option String)
  deriving DecidableEq

/-- A unit of pattern syntax. -/
inductive Lexeme where
  /-- A character that stands for itself. -/
  | one (cls : CharClass)
  | dot
  /-- A set in brackets. -/
  | set (cls : CharClass)
  | textStart
  | textEnd
  /-- The start of a group. -/
  | opening (kind : Opening)
  /-- The end of a group. -/
  | closing
  | bar
  /-- Flags have other values from here to the end of the group. -/
  | flags (changes : FlagChanges)
  /-- A repetition of what stands before it. -/
  | times (least : Nat) (most : Option Nat)
  /-- A question mark: at most once, or behind a repetition: lazily. -/
  | question
  /-- Blanks or a comment, which divide a question mark from the repetition before it. -/
  | gap
  deriving DecidableEq

/-! ## Counts -/

/-- A decimal number below `2 ^ 32` with blanks around it, and what follows. -/
def readNumber? (cs : List Char) : Option (Nat × List Char) :=
  let cs := cs.dropWhile Text.isBlank
  let digits := cs.takeWhile Char.isDigit
  let value := digits.foldl (fun n d => 10 * n + (d.toNat - '0'.toNat)) 0
  if digits = [] ∨ Nat.pow 2 32 ≤ value then none
  else some (value, (cs.dropWhile Char.isDigit).dropWhile Text.isBlank)

/-- The bounds written between braces: `m`, `m,` or `m,n` with `m ≤ n`. -/
def readCount? (cs : List Char) : Option (Nat × Option Nat) := do
  let (least, rest) ← readNumber? cs
  match rest with
  | [] => some (least, some least)
  | [','] => some (least, none)
  | ',' :: rest =>
    let (most, rest) ← readNumber? rest
    if rest = [] ∧ least ≤ most then some (least, some most) else none
  | _ => none

/-! ## Modes -/

/-- How a lexeme has begun. -/
inductive Mode where
  /-- Between two lexemes. -/
  | text
  /-- Behind a backslash. -/
  | escape
  /-- Behind `\x` and perhaps one digit. -/
  | hex (digit : Option Nat)
  /-- Behind an opening parenthesis. -/
  | group
  /-- Behind `(?`. -/
  | query
  /-- Behind `(?P`. -/
  | queryP
  /-- Inside the angle brackets of a group's name, its code points read so far, the latest first. -/
  | groupName (read : List Char)
  /-- Behind `(?` and some flags. -/
  | flags (reader : FlagReader)
  /-- Inside the braces of a count, its code points read so far, the latest first. -/
  | count (read : List Char)
  /-- Inside the brackets of a set. -/
  | set (reader : SetReader)
  deriving DecidableEq

/-- A name of a group holds letters and `_`, and from its second code point on also numbers, `.`, `[`
and `]`. -/
def isGroupNameChar (first : Bool) (c : Char) : Bool :=
  c == '_' || Text.isAlphabetic c ||
    (!first && (Text.isNumeric c || c == '.' || c == '[' || c == ']'))

namespace Mode

/-- Read one code point between two lexemes. -/
def feedText (c : Char) : Mode × List Lexeme :=
  match c with
  | '\\' => (escape, [])
  | '[' => (set .start, [])
  | '(' => (group, [])
  | ')' => (text, [.closing])
  | '|' => (text, [.bar])
  | '*' => (text, [.times 0 none])
  | '+' => (text, [.times 1 none])
  | '?' => (text, [.question])
  | '{' => (count [], [])
  | '.' => (text, [.dot])
  | '^' => (text, [.textStart])
  | '$' => (text, [.textEnd])
  | c => (text, [.one (.single c)])

/-- Read one code point of flags, or what ends them. -/
def feedFlags (r : FlagReader) (c : Char) : Option (Mode × List Lexeme) :=
  match c with
  | ':' => if r.dangling then none else some (text, [.opening (.plain r.changes)])
  | ')' => if r.dangling ∨ r.changes = [] then none else some (text, [.flags r.changes])
  | '-' => if r.value then some (flags { r with value := false }, []) else none
  | c => (r.flag? c).map fun r => (flags r, [])

/-- Read one code point; the lexemes are those that it completes. -/
def feed (m : Mode) (c : Char) : Option (Mode × List Lexeme) :=
  match m with
  | text => some (feedText c)
  | escape =>
    match c with
    | 'x' => some (hex none, [])
    | 'A' => some (text, [.textStart])
    | 'z' => some (text, [.textEnd])
    | c => (escaped? c).map fun d => (text, [.one (.single d)])
  | hex none => (Text.hexDigit? c).map fun d => (hex (some d), [])
  | hex (some high) => (Text.hexDigit? c).map fun d => (text, [.one (.single (ofHexDigits high d))])
  | group =>
    if c = '?' then some (query, [])
    else some ((feedText c).1, .opening (.numbered none) :: (feedText c).2)
  | query =>
    match c with
    | 'P' => some (queryP, [])
    | '<' => some (groupName [], [])
    | c => feedFlags .start c
  | queryP => if c = '<' then some (groupName [], []) else none
  | groupName read =>
    if c = '>' ∧ read ≠ [] then
      some (text, [.opening (.numbered (some (.ofList read.reverse)))])
    else if isGroupNameChar read.isEmpty c then some (groupName (c :: read), [])
    else none
  | flags reader => feedFlags reader c
  | count read =>
    if c = '}' then (readCount? read.reverse).map fun (least, most) => (text, [.times least most])
    else some (count (c :: read), [])
  | set reader =>
    (reader.feed c).map fun
      | .reading reader => (set reader, [])
      | .finished cls => (text, [.set cls])

/-- Blanks and comments may stand here, if they mean nothing. -/
def allowsGap : Mode → Bool
  | text | hex _ | group | count _ => true
  | set reader => reader.allowsGap
  | escape | query | queryP | groupName _ | flags _ => false

/-- Between the braces of a count. -/
def isCount : Mode → Bool
  | count _ => true
  | _ => false

/-- Go through one code point of a gap. -/
def skip (m : Mode) (c : Char) : Mode :=
  match m with
  | set reader => set (reader.skip c)
  | m => m

end Mode

end Selectors
