import Selectors.Resolve.Query
import Selectors.Tree.Mutation

/-!
# Selections

A list of nodes, with the selector that gave them if there was one. Nodes may be repeated, be no
elements, or lie outside of the tree. Attributes are read and written at the first node, all else at
every node in turn.

* `Selection.ofSelector`, `Selection.find`: by resolving a selector;
* `text`, `hasClass`, `attr?`: reading;
* `setText?`, `empty?`, `addClass`, `removeClass`, `setAttr`, `removeAttr`: the tree after a change.
-/

namespace Selectors

/-- Nodes in order, and the selector that gave them. -/
structure Selection where
  selector : Option String
  nodes : List NodeId
  deriving DecidableEq

namespace Selection

/-! ## Selecting -/

/-- The nodes of the document that a selector names. -/
def ofSelector (t : Tree) (selector : String) : Except ResolveError Selection := do
  let nodes ← t.select Tree.root selector
  return ⟨some selector, nodes⟩

/-- Nodes from elsewhere. -/
def ofNodes (nodes : List NodeId) : Selection := ⟨none, nodes⟩

/-- The nodes below the first selected node that a selector names. -/
def find (s : Selection) (t : Tree) (selector : String) : Except ResolveError Selection := do
  match s.nodes with
  | [] => return ⟨some selector, []⟩
  | root :: _ =>
    let nodes ← t.select root selector
    return ⟨some selector, nodes⟩

/-- The first node alone. -/
def first (s : Selection) : Selection := { s with nodes := s.nodes.take 1 }

/-! ## Reading -/

/-- The text of all selected nodes, joined; there is none if nothing is selected. -/
def text (s : Selection) (t : Tree) : Option String :=
  if s.nodes = [] then none else some (String.join (s.nodes.map t.textContent))

/-- Some selected element has a class. -/
def hasClass (s : Selection) (t : Tree) (name : String) : Bool := s.nodes.any (t.hasClass · name)

/-- An attribute of the first selected node. -/
def attr? (s : Selection) (t : Tree) (name : String) : Option String :=
  (s.nodes.head?.bind t.element?).bind (·.attr? name)

/-! ## Changing the tree -/

/-- Put one new text node in the place of all children of each selected node. -/
def setText? (s : Selection) (t : Tree) (text : String) : Option Tree :=
  s.nodes.foldlM (·.setText? · text) t

/-- Remove all children of each selected node. -/
def empty? (s : Selection) (t : Tree) : Option Tree := s.nodes.foldlM Tree.empty? t

/-- Add a class to each selected element. -/
def addClass (s : Selection) (t : Tree) (name : String) : Tree :=
  s.nodes.foldl (·.updateElement · (·.addClass name)) t

/-- Remove a class from each selected element. -/
def removeClass (s : Selection) (t : Tree) (name : String) : Tree :=
  s.nodes.foldl (·.updateElement · (·.removeClass name)) t

/-- Set an attribute of the first selected node. -/
def setAttr (s : Selection) (t : Tree) (name value : String) : Tree :=
  s.first.nodes.foldl (·.updateElement · (·.setAttr name value)) t

/-- Remove an attribute of the first selected node. -/
def removeAttr (s : Selection) (t : Tree) (name : String) : Tree :=
  s.first.nodes.foldl (·.updateElement · (·.removeAttr name)) t

end Selection

end Selectors
