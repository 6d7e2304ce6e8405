import Selectors.Pattern.Lexeme

/-!
# Lexing patterns

The text of a pattern is cut into lexemes from left to right. Where the flag `verbose` is set, blanks and
comments mean nothing: a comment goes from a `#` to the end of the line, whatever it holds. The flag holds
up to the end of the group that sets it, so the lexer knows which groups are open.

* `PatternLexer`: a text that is being cut;
* `PatternLexer.scope?`: what a lexeme does to the open groups;
* `PatternLexer.feed`: one step.
-/

namespace Selectors

/-- A text that is being cut into lexemes. -/
structure PatternLexer where
  mode : Mode
  /-- Blanks and comments mean nothing in the innermost group. -/
  verbose : Bool
  /-- The same for the groups around it, the innermost first. -/
  outer : List Bool
  /-- The text stands inside of a comment. -/
  comment : Bool
  /-- The text stands in a count, or right behind one: a question mark is part of the count even behind
  a gap. -/
  counted : Bool
  deriving DecidableEq

namespace PatternLexer

/-- The lexer at the start of a text. -/
def start : PatternLexer := ⟨.text, false, [], false, false⟩

/-- What a lexeme does to the open groups. No group may be closed that is not open. -/
def scope? (l : PatternLexer) (lexeme : Lexeme) : Option PatternLexer :=
  match lexeme with
  | .opening (.plain changes) =>
    some { l with verbose := Flag.verbose.after changes l.verbose, outer := l.verbose :: l.outer }
  | .opening (.numbered _) => some { l with outer := l.verbose :: l.outer }
  | .closing =>
    match l.outer with
    | [] => none
    | verbose :: outer => some { l with verbose, outer }
  | .flags changes => some { l with verbose := Flag.verbose.after changes l.verbose }
  | _ => some l

/-- The next code point belongs to a gap. -/
def skips (l : PatternLexer) (c : Char) : Bool :=
  l.comment || (l.verbose && l.mode.allowsGap && (Text.isBlank c || c == '#'))

/-- Go through one code point of a gap. -/
def skip (l : PatternLexer) (c : Char) : PatternLexer × List Lexeme :=
  ({ l with mode := l.mode.skip c, comment := if l.comment then c != '\n' else c == '#' },
    if l.mode = .text ∧ !l.counted then [.gap] else [])

/-- Read one code point; the lexemes are those that it completes. -/
def feed (l : PatternLexer) (c : Char) : Option (PatternLexer × List Lexeme) :=
  if l.skips c then some (l.skip c)
  else do
    let (mode, lexemes) ← l.mode.feed c
    let next ← lexemes.foldlM scope? l
    return ({ next with mode, counted := l.mode.isCount }, lexemes)

/-- A pattern may end here: no lexeme and no group is open. A comment may be. -/
def mayEnd (l : PatternLexer) : Bool := l.mode = .text && l.outer.isEmpty

end PatternLexer

end Selectors
