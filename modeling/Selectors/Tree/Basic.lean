import Selectors.Tree.Element

/-!
# Trees of nodes

The nodes of a tree are numbered in the order of their allocation; node `0` is the document. Each
node holds links to its parent, its children and its siblings. A node that is linked to no parent
stays allocated. Links are data: the operations keep them consistent only where their callers keep
the tree a tree.

* `Content`, `Node`, `Tree`;
* the links of a node: `parent?`, `children`, `previous?`, `next?`, all empty outside of the tree;
* what a node holds: `element?`, `text?`.
-/

namespace Selectors

/-- The number of a node. -/
abbrev NodeId := Nat

/-- What a node is, and its data. -/
inductive Content where
  | document
  | element (data : Element)
  | text (data : String)
  | comment (data : String)
  deriving DecidableEq

/-- A node and its links. -/
@[ext] structure Node where
  content : Content
  parent : Option NodeId
  children : List NodeId
  previous : Option NodeId
  next : Option NodeId
  deriving DecidableEq

/-- A node without links. -/
def Node.detached (content : Content) : Node := ⟨content, none, [], none, none⟩

/-- Nodes in the order of their allocation. -/
structure Tree where
  nodes : Array Node
  deriving DecidableEq

namespace Tree

/-- The tree with only a document. -/
def new : Tree := ⟨#[.detached .document]⟩

/-- The number of the document. -/
def root : NodeId := 0

/-- How many nodes are allocated. -/
def size (t : Tree) : Nat := t.nodes.size

/-- A node by its number. -/
def node? (t : Tree) (n : NodeId) : Option Node := t.nodes[n]?

/-- Change a node; a number outside of the tree changes nothing. -/
def update (t : Tree) (n : NodeId) (f : Node → Node) : Tree := ⟨t.nodes.modify n f⟩

@[simp] theorem size_update (t : Tree) (n : NodeId) (f : Node → Node) :
    (t.update n f).size = t.size := Array.size_modify

theorem node?_update (t : Tree) (n m : NodeId) (f : Node → Node) :
    (t.update n f).node? m = if n = m then (t.node? m).map f else t.node? m := by
  simp only [node?, update, Array.getElem?_modify]

/-! ## Links -/

/-- The parent of a node. -/
def parent? (t : Tree) (n : NodeId) : Option NodeId := (t.node? n).bind (·.parent)

/-- The children of a node, in order. -/
def children (t : Tree) (n : NodeId) : List NodeId := ((t.node? n).map (·.children)).getD []

/-- The sibling before a node. -/
def previous? (t : Tree) (n : NodeId) : Option NodeId := (t.node? n).bind (·.previous)

/-- The sibling behind a node. -/
def next? (t : Tree) (n : NodeId) : Option NodeId := (t.node? n).bind (·.next)

/-! ## Contents -/

/-- What a node is. -/
def content? (t : Tree) (n : NodeId) : Option Content := (t.node? n).map (·.content)

/-- The data of an element; other nodes have none. -/
def element? (t : Tree) (n : NodeId) : Option Element :=
  match t.content? n with
  | some (.element data) => some data
  | _ => none

/-- The data of a text node; other nodes have none. -/
def text? (t : Tree) (n : NodeId) : Option String :=
  match t.content? n with
  | some (.text data) => some data
  | _ => none

/-- The tag of an element. -/
def tag? (t : Tree) (n : NodeId) : Option String := (t.element? n).map (·.tag)

/-- The id of an element. -/
def id? (t : Tree) (n : NodeId) : Option String := (t.element? n).bind (·.id?)

/-- An element has a class; other nodes have none. -/
def hasClass (t : Tree) (n : NodeId) (name : String) : Bool := (t.element? n).any (·.hasClass name)

/-- An element has a tag, up to the case of ASCII letters. -/
def hasTag (t : Tree) (n : NodeId) (name : String) : Bool := (t.tag? n).any (sameName · name)

/-- Change the data of an element; other nodes stay as they are. -/
def updateElement (t : Tree) (n : NodeId) (f : Element → Element) : Tree :=
  t.update n fun node =>
    match node.content with
    | .element data => { node with content := .element (f data) }
    | _ => node

end Tree

end Selectors
