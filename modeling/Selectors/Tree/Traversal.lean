import Selectors.Tree.Basic

/-!
# Walking a tree

Upwards along the parents, and downwards along the children. In a tree no path holds a node twice, so
neither walk needs more levels than there are nodes.

* `ancestors`: from the parent to the top;
* `descendants`: everything below a node, each node right before what lies below it;
* `nextAncestor?`, `nextDescendant?`: the same walks one step at a time;
* lookups below a node by id, tag and class; `textContent`.
-/

namespace Selectors.Tree

/-! ## Upwards -/

/-- The first `levels` nodes of the chain that starts at a node and goes on to its parents. -/
def chain (t : Tree) : (levels : Nat) → Option NodeId → List NodeId
  | 0, _ | _, none => []
  | levels + 1, some n => n :: t.chain levels (t.parent? n)

/-- The strict ancestors of a node, from its parent to the top. -/
def ancestors (t : Tree) (n : NodeId) : List NodeId := t.chain t.size (t.parent? n)

/-- `n` lies below `above`. -/
def isDescendantOf (t : Tree) (n above : NodeId) : Bool := (t.ancestors n).contains above

/-! ## Downwards -/

/-- What lies below a node, as far as `levels` levels down. -/
def below (t : Tree) : (levels : Nat) → NodeId → List NodeId
  | 0, _ => []
  | levels + 1, n => (t.children n).flatMap fun child => child :: t.below levels child

/-- The strict descendants of a node, in document order. -/
def descendants (t : Tree) (n : NodeId) : List NodeId := t.below t.size n

/-! ## Step by step -/

/-- A step upwards, at the node that comes next. -/
def nextAncestor? (t : Tree) (current : Option NodeId) : Option (NodeId × Option NodeId) :=
  current.map fun n => (n, t.parent? n)

/-- A step downwards. The nodes that are still to come stand on a stack, its top at the end of the list:
the children of the node on top take its place, the first of them on top. -/
def nextDescendant? (t : Tree) (stack : List NodeId) : Option (NodeId × List NodeId) :=
  stack.getLast?.map fun n => (n, stack.dropLast ++ (t.children n).reverse)

/-! ## Lookups -/

/-- The first element below `n` with a given id. -/
def elementById? (t : Tree) (n : NodeId) (id : String) : Option NodeId :=
  (t.descendants n).find? fun m => t.id? m == some id

/-- The elements below `n` with a given tag. -/
def elementsByTag (t : Tree) (n : NodeId) (tag : String) : List NodeId :=
  (t.descendants n).filter (t.hasTag · tag)

/-- The elements below `n` with a given class. -/
def elementsByClass (t : Tree) (n : NodeId) (name : String) : List NodeId :=
  (t.descendants n).filter (t.hasClass · name)

/-- The data of a text node; of any other node the data of all text nodes below it, joined. -/
def textContent (t : Tree) (n : NodeId) : String :=
  match t.text? n with
  | some data => data
  | none => String.join ((t.descendants n).filterMap t.text?)

end Selectors.Tree
