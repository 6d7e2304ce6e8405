import Selectors.Tree.Basic

/-!
# Changing a tree

Nodes are allocated without links, appended as last children and removed again. An operation with an
optional result changes several nodes, and fails if one of them is not allocated.

* `alloc`, `appendChild?`, `removeChild?`;
* `empty?`: remove all children; `setText?`: have one text node for all children;
* `attach`, `detach`: the changes of links that `appendChild?` and `removeChild?` make.
-/

namespace Selectors.Tree

/-- The tree with one more node, and the number of that node. -/
def alloc (t : Tree) (content : Content) : Tree × NodeId :=
  (⟨t.nodes.push (.detached content)⟩, t.size)

/-- All nodes of a list are allocated. -/
def allocated (t : Tree) (l : List NodeId) : Bool := l.all (· < t.size)

/-! ## Changes of links -/

/-- Link two siblings to each other. -/
def linkSiblings (t : Tree) (left right : NodeId) : Tree :=
  (t.update left ({ · with next := some right })).update right ({ · with previous := some left })

/-- Make `child` the last child of `parent`. It is not removed from a parent that it had before. -/
def attach (t : Tree) (parent child : NodeId) : Tree :=
  let last := (t.children parent).getLast?
  let linked := (t.update parent fun n => { n with children := n.children ++ [child] }).update
    child ({ · with parent := some parent })
  match last with
  | none => linked
  | some last => linked.linkSiblings last child

/-- Remove the first occurrence of a child, and link its siblings to each other. -/
def detach (t : Tree) (parent child : NodeId) : Tree :=
  let previous := t.previous? child
  let next := t.next? child
  let t := t.update parent fun n => { n with children := n.children.erase child }
  let t := t.update child ({ · with previous := none, next := none })
  let t := match previous with
    | none => t
    | some left => t.update left ({ · with next })
  let t := match next with
    | none => t
    | some right => t.update right ({ · with previous })
  t.update child ({ · with parent := none })

/-! ## Operations -/

/-- Append a child behind the other children of a node. -/
def appendChild? (t : Tree) (parent child : NodeId) : Option Tree :=
  if t.allocated (parent :: child :: (t.children parent).getLast?.toList) then
    some (t.attach parent child)
  else none

/-- Remove a child of a node. A node that is no child of `parent` is left alone. -/
def removeChild? (t : Tree) (parent child : NodeId) : Option Tree :=
  if child ∈ t.children parent then
    if t.allocated (child :: (t.previous? child).toList ++ (t.next? child).toList) then
      some (t.detach parent child)
    else none
  else if t.allocated [parent] then some t
  else none

/-- Remove all children of a node, from the first to the last. -/
def empty? (t : Tree) (n : NodeId) : Option Tree :=
  (t.children n).foldlM (fun t child => t.removeChild? n child) t

/-- Put one new text node in the place of all children of a node. -/
def setText? (t : Tree) (n : NodeId) (text : String) : Option Tree := do
  let t ← t.empty? n
  let (t, child) := t.alloc (.text text)
  t.appendChild? n child

end Selectors.Tree
