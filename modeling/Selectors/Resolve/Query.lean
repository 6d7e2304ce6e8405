import Selectors.Resolve.Token
import Selectors.Scanner.Standard

/-!
# Resolving selectors

The last token of a selector is its *key*. It is looked up, and each candidate is kept if the other
tokens can be met by its ancestors, the innermost token first: the walk up the tree takes every node
that satisfies the token at hand, and goes on with the next token at that node's parent.

* `Query`: the tokens of a selector;
* `climb`: the walk up the tree;
* `Query.resolve`, `Query.accepts`: all nodes below a root, and one node;
* `Tree.select`, `Tree.isSelected`, `Tree.closest`: the same for the text of a selector.
-/

namespace Selectors

/-- The tokens of a selector: those for ancestors, the outermost first, and the key. -/
structure Query where
  outer : List Token
  key : Option Token
  deriving DecidableEq

namespace Query

/-- The last token is the key. -/
def ofTokens (tokens : List Token) : Query := ⟨tokens.dropLast, tokens.getLast?⟩

/-- Meet the tokens, the innermost first, by nodes of a chain that goes up. -/
def climb (t : Tree) : (pending : List Token) → (chain : List NodeId) → Except ResolveError Bool
  | [], _ => .ok true
  | _ :: _, [] => .ok false
  | token :: pending, n :: above => do
    if ← token.accepts t n then climb t pending above else climb t (token :: pending) above

/-- Meet the outer tokens at a node and its ancestors. -/
def outerMatchFrom (q : Query) (t : Tree) (n : NodeId) : Except ResolveError Bool :=
  climb t q.outer.reverse (n :: t.ancestors n)

/-- Meet the outer tokens at the strict ancestors of a node. -/
def outerMatchAbove (q : Query) (t : Tree) (n : NodeId) : Except ResolveError Bool :=
  climb t q.outer.reverse (t.ancestors n)

/-- The nodes that pass a test, up to the first failure of the test. -/
def keep (test : NodeId → Except ResolveError Bool) :
    List NodeId → Except ResolveError (List NodeId)
  | [] => .ok []
  | n :: rest => do
    let passed ← test n
    let kept ← keep test rest
    return if passed then n :: kept else kept

/-- The nodes below `root` that the query names. Where there is only a key, the key is tested too;
otherwise looking it up is enough. -/
def resolve (q : Query) (t : Tree) (root : NodeId) : Except ResolveError (List NodeId) := do
  match q.key with
  | none => return []
  | some key =>
    let candidates ← key.find t root
    keep (fun n => if q.outer = [] then key.accepts t n else q.outerMatchAbove t n) candidates

/-- Whether the query names a node. -/
def accepts (q : Query) (t : Tree) (n : NodeId) : Except ResolveError Bool := do
  match q.key with
  | none => return false
  | some key => if ← key.accepts t n then q.outerMatchAbove t n else return false

/-- The first node of a chain that the query names. -/
def firstAccepted (q : Query) (t : Tree) : List NodeId → Except ResolveError (Option NodeId)
  | [] => .ok none
  | n :: above => do if ← q.accepts t n then return some n else firstAccepted q t above

end Query

namespace Tree

/-- The nodes below `root` that a selector names. -/
def select (t : Tree) (root : NodeId) (selector : String) : Except ResolveError (List NodeId) :=
  (Query.ofTokens (tokenize selector)).resolve t root

/-- Whether a selector names a node. -/
def isSelected (t : Tree) (n : NodeId) (selector : String) : Except ResolveError Bool :=
  (Query.ofTokens (tokenize selector)).accepts t n

/-- The nearest of a node and its ancestors that a selector names. -/
def closest (t : Tree) (n : NodeId) (selector : String) : Except ResolveError (Option NodeId) :=
  (Query.ofTokens (tokenize selector)).firstAccepted t (n :: t.ancestors n)

end Tree

end Selectors
