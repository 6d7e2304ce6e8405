import Selectors.Document.Description
import Selectors.Tree.Mutation
import Selectors.Warning

/-!
# Loading documents

The nodes of a description are allocated in document order, each appended to its parent before its
own children. A node with a text is a text node, else one with a comment a comment, else one with a
tag an element; a node without any of them makes loading fail. An id that an earlier element has is
reported, and so it is if loading fails later.

* `LoadError`: why a text is no document;
* `Builder.attach`: add one described node and all below it;
* `load`: the tree of a text, and the warnings.
-/

namespace Selectors

/-! ## Failures -/

/-- Why a text is no document. -/
inductive LoadError where
  /-- It is no JSON. -/
  | malformed
  /-- It is JSON that describes no nodes. -/
  | wrongShape
  /-- The node at the end of a path of child numbers has neither text nor comment nor tag. -/
  | missingTag (path : List Nat)
  deriving DecidableEq

namespace LoadError

/-- The text of a path, each number behind a slash. -/
def pathText (path : List Nat) : String := String.join (path.map fun i => "/" ++ toString i)

/-- Why a value describes no nodes. -/
def shapeMessage : String :=
  "data did not match any variant of untagged enum DocumentDescription"

/-- The wording of an error. -/
def message : LoadError → String
  | malformed => "malformed document"
  | wrongShape => "malformed document: " ++ shapeMessage
  | missingTag path => "node at " ++ pathText path ++ " has no \"tag\", \"text\" or \"comment\""

end LoadError

/-! ## Building -/

/-- A tree that is being built, the ids of its elements, and the ids found a second time, both with
the latest first. -/
structure Builder where
  tree : Tree
  ids : List String
  duplicates : List String

namespace Builder

/-- Nothing but the document. -/
def start : Builder := ⟨.new, [], []⟩

/-- Note an id. -/
def noteId (b : Builder) (id : String) : Builder :=
  if id ∈ b.ids then { b with duplicates := id :: b.duplicates } else { b with ids := id :: b.ids }

/-- Note the id of an element; other nodes have none. -/
def note (b : Builder) : Content → Builder
  | .element data =>
    match data.id? with
    | none => b
    | some id => b.noteId id
  | _ => b

/-- Allocate a node as the last child of `parent`. -/
def add (b : Builder) (parent : NodeId) (content : Content) : Builder × NodeId :=
  let (tree, n) := b.tree.alloc content
  ({ b with tree := (tree.appendChild? parent n).getD tree }, n)

end Builder

/-- What a described node is. -/
def Description.content? (d : Description) : Option Content :=
  match d.text, d.comment, d.tag with
  | some data, _, _ => some (.text data)
  | none, some data, _ => some (.comment data)
  | none, none, some tag => some (.element ⟨tag, d.attributes⟩)
  | none, none, none => none

/-- Loading failed at a path, with the builder that was reached. -/
structure Builder.Failure where
  path : List Nat
  builder : Builder

namespace Builder

mutual

/-- Add a described node, which stands at `path`, and all below it as the last child of `parent`. -/
def attach (b : Builder) (parent : NodeId) (path : List Nat) :
    Description → Except Failure Builder
  | ⟨tag, attributes, children, text, comment⟩ =>
    match Description.content? ⟨tag, attributes, children, text, comment⟩ with
    | none => .error ⟨path, b⟩
    | some content =>
      let (b, n) := (b.note content).add parent content
      b.attachAll n path 0 children

/-- Add described nodes as the last children of `parent`, which stands at `path`; the first of them
has the number `index`. -/
def attachAll (b : Builder) (parent : NodeId) (path : List Nat) (index : Nat) :
    List Description → Except Failure Builder
  | [] => .ok b
  | d :: rest => do
    let b ← b.attach parent (path ++ [index]) d
    b.attachAll parent path (index + 1) rest

end

end Builder

/-! ## Documents -/

/-- The builder of a description. -/
def build (nodes : List Description) : Except Builder.Failure Builder :=
  Builder.start.attachAll Tree.root [] 0 nodes

/-- The description that a text holds. Its value is read first, then its shape is looked at, and
only then is there to be nothing behind it. -/
def readDocument (text : String) : Except LoadError (List Description) :=
  match Json.readValue? text.toList with
  | none => .error .malformed
  | some (value, rest) =>
    match Description.documentOf? value with
    | none => .error .wrongShape
    | some nodes => if Json.skipBlanks rest = [] then .ok nodes else .error .malformed

/-- The warnings about the ids that a builder found a second time. -/
def Builder.warnings (b : Builder) : List Warning := b.duplicates.reverse.map .duplicateId

/-- The tree of a text, and the warnings recorded behind those in `ws`. -/
def load (text : String) (ws : Warnings) : Except LoadError Tree × Warnings :=
  match readDocument text with
  | .error e => (.error e, ws)
  | .ok nodes =>
    match build nodes with
    | .error failure => (.error (.missingTag failure.path), ws.reportAll failure.builder.warnings)
    | .ok b => (.ok b.tree, ws.reportAll b.warnings)

end Selectors
