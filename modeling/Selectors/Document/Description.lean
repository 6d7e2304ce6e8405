import Selectors.NameMap
import Selectors.Document.Json

/-!
# Descriptions of documents

A document is described by a list of nodes. A node has an optional tag, text and comment, attributes,
and children. In JSON it is an object with these members, in any order and none of them twice, or a
list that gives them by position; what is left out at the end is absent.

* `Description`: the description of a node;
* `Description.ofJson?`, `Description.documentOf?`: the node and the document of a JSON value.
-/

namespace Selectors

/-- The description of a node. -/
structure Description where
  tag : Option String
  attributes : NameMap String
  children : List Description
  text : Option String
  comment : Option String

namespace Description

/-! ## Drafts -/

/-- The members read so far. -/
structure Draft where
  tag : Option (Option String)
  attributes : Option (NameMap String)
  children : Option (List Description)
  text : Option (Option String)
  comment : Option (Option String)

namespace Draft

/-- No members. -/
def blank : Draft := ⟨none, none, none, none, none⟩

/-- The names of the members, in the order of their positions. -/
def order : List String := ["tag", "attrs", "children", "text", "comment"]

/-- Add a string, or the mark that there is none. -/
def setText? (d : Draft) (name : String) (value : Option String) : Option Draft :=
  match name with
  | "tag" => if d.tag.isSome then none else some { d with tag := some value }
  | "text" => if d.text.isSome then none else some { d with text := some value }
  | "comment" => if d.comment.isSome then none else some { d with comment := some value }
  | _ => none

/-- Add the attributes; of two with one name the later counts. -/
def setAttributes? (d : Draft) (name : String) (members : List (String × Json)) : Option Draft := do
  if name ≠ "attrs" ∨ d.attributes.isSome then none
  let pairs ← members.mapM fun
    | (name, .string value) => some (name, value)
    | _ => none
  return { d with attributes := some (.ofList pairs) }

/-- Add the children. -/
def setChildren? (d : Draft) (name : String) (children : List Description) : Option Draft :=
  if name ≠ "children" ∨ d.children.isSome then none else some { d with children := some children }

/-- The description with the members read. -/
def finish (d : Draft) : Description :=
  { tag := d.tag.join
    attributes := d.attributes.getD .empty
    children := d.children.getD []
    text := d.text.join
    comment := d.comment.join }

end Draft

/-! ## Reading -/

mutual

/-- The node that a JSON value describes. -/
def ofJson? : Json → Option Description
  | .object members => (readMembers .blank members).map Draft.finish
  | .array items => (readItems .blank Draft.order items).map Draft.finish
  | _ => none

/-- Add a member. -/
def readMember (d : Draft) (name : String) : Json → Option Draft
  | .null => d.setText? name none
  | .string value => d.setText? name (some value)
  | .object members => d.setAttributes? name members
  | .array items => (readNodes items).bind (d.setChildren? name)
  | _ => none

/-- Add the members of an object. -/
def readMembers (d : Draft) : List (String × Json) → Option Draft
  | [] => some d
  | (name, value) :: rest => (readMember d name value).bind (readMembers · rest)

/-- Add members by position. -/
def readItems (d : Draft) : List String → List Json → Option Draft
  | _, [] => some d
  | [], _ :: _ => none
  | name :: names, value :: rest => (readMember d name value).bind (readItems · names rest)

/-- The nodes that a list of JSON values describes. -/
def readNodes : List Json → Option (List Description)
  | [] => some []
  | value :: rest => do
    let node ← ofJson? value
    let nodes ← readNodes rest
    return node :: nodes

end

/-- The nodes of the document that a JSON value describes: those of a list of nodes, or else one
node. -/
def documentOf? (value : Json) : Option (List Description) :=
  match value with
  | .array items => (readNodes items).or ((ofJson? value).map ([·]))
  | _ => (ofJson? value).map ([·])

end Description

end Selectors
