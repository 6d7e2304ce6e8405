import Selectors.Token
import Selectors.Tree.Traversal

/-!
# Tokens and nodes

What a token says about nodes, in two ways: a *finder* looks up the nodes below a root that a token
names, and a *matcher* tells whether one node satisfies it. Both divide the text of a token at its
first `#` or `.`, into a tag and an id or a class. There are a finder and a matcher for every kind
but pseudo classes.

* `RuleKind.finder?`, `RuleKind.matcher?`: the two tables;
* `Token.find`, `Token.accepts`: look up and test, with an error where there is no entry.
-/

namespace Selectors

/-- Why a token cannot be resolved. -/
inductive ResolveError where
  | noFinder (kind : RuleKind)
  | noMatcher (kind : RuleKind)
  deriving DecidableEq

/-- The wording of an error. -/
def ResolveError.message : ResolveError → String
  | noFinder kind => "Invalid finder: " ++ kind.description
  | noMatcher kind => "Invalid matcher: " ++ kind.description

/-! ## Division -/

/-- The text before the first separator, or all of it. -/
def beforeFirst (separator : Char) (text : String) : String :=
  .ofList (text.toList.takeWhile (· ≠ separator))

/-- The text behind the first separator, empty if there is none. -/
def afterFirst (separator : Char) (text : String) : String :=
  .ofList ((text.toList.dropWhile (· ≠ separator)).drop 1)

/-! ## Finders and matchers -/

/-- From a tree, a root and the text of a token to the nodes below the root that it names. -/
abbrev Finder := Tree → NodeId → String → List NodeId

/-- Whether a node of a tree satisfies the text of a token. -/
abbrev NodeMatcher := Tree → NodeId → String → Bool

namespace RuleKind

/-- The nodes that a kind of token names. -/
def finder? : RuleKind → Option Finder
  | id => some fun t root text => (t.elementById? root (afterFirst '#' text)).toList
  | nameAndId => some fun t root text =>
    (t.elementById? root (afterFirst '#' text)).toList.filter (t.hasTag · (beforeFirst '#' text))
  | element => some fun t root text => t.elementsByTag root text
  | className => some fun t root text => t.elementsByClass root (afterFirst '.' text)
  | nameAndClass => some fun t root text =>
    (t.elementsByClass root (afterFirst '.' text)).filter (t.hasTag · (beforeFirst '.' text))
  | pseudoClass => none

/-- The test for a kind of token. -/
def matcher? : RuleKind → Option NodeMatcher
  | id => some fun t n text => t.id? n == some (afterFirst '#' text)
  | nameAndId => some fun t n text =>
    t.id? n == some (afterFirst '#' text) && t.hasTag n (beforeFirst '#' text)
  | element => some fun t n text => t.hasTag n text
  | className => some fun t n text => t.hasClass n (afterFirst '.' text)
  | nameAndClass => some fun t n text =>
    t.hasClass n (afterFirst '.' text) && t.hasTag n (beforeFirst '.' text)
  | pseudoClass => none

end RuleKind

namespace Token

/-- The nodes below `root` that a token names. -/
def find (token : Token) (t : Tree) (root : NodeId) : Except ResolveError (List NodeId) :=
  match token.kind.finder? with
  | none => .error (.noFinder token.kind)
  | some finder => .ok (finder t root token.identity)

/-- Whether a node satisfies a token. -/
def accepts (token : Token) (t : Tree) (n : NodeId) : Except ResolveError Bool :=
  match token.kind.matcher? with
  | none => .error (.noMatcher token.kind)
  | some matcher => .ok (matcher t n token.identity)

end Token

end Selectors
