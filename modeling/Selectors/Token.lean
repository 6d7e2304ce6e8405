import Selectors.Text.Blank
import Selectors.Scanner

/-!
# Tokens

A selector is normalized and cut into tokens, the fragments that a scanner recognises. Blanks between
tokens stand for descent, so the tokens of a selector name a chain of nodes, the outermost first.
Text that no rule recognises is skipped, and kept for reports.

* `Token`: a fragment and its kind;
* `Scanner.run`: the tokens of a selector, and what was skipped.
-/

namespace Selectors

/-- A fragment of a selector. -/
structure Token where
  identity : String
  kind : RuleKind
  deriving DecidableEq

/-- A token in words. -/
def Token.description (t : Token) : String :=
  "identity: " ++ t.identity ++ ", finder: " ++ t.kind.description

/-- What scanning a selector gives. -/
structure Run where
  input : String
  tokens : List Token
  skipped : List String
  deriving DecidableEq

namespace Segment

/-- The token of a match; a match in which no rule took part has none. -/
def token? (s : Scanner) : Segment → Option Token
  | skipped _ => none
  | matched text names => (s.classify names).map fun kind => ⟨.ofList text, kind⟩

/-- The text skipped before the first match, and the texts skipped behind each match. -/
def gaps : List Segment → List Char × List (List Char)
  | [] => ([], [])
  | skipped c :: rest =>
    let (first, others) := gaps rest
    (c :: first, others)
  | matched _ _ :: rest =>
    let (first, others) := gaps rest
    ([], first :: others)

end Segment

/-- The tokens of a selector under a scanner, and the texts between its matches, trimmed, as far as
they are not blank. -/
def Scanner.run (s : Scanner) (selector : String) : Run :=
  let input := normalize selector
  let segments := s.pattern.scan input.toList
  let (first, others) := Segment.gaps segments
  { input
    tokens := segments.filterMap (Segment.token? s)
    skipped := (((first :: others).map Text.trim).filter (· ≠ [])).map .ofList }

end Selectors
