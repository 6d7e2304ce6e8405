import Selectors.NameMap
import Selectors.Macro.Reference

/-!
# Macro tables

A macro is a named pattern fragment; a fragment may refer to other macros. Expansion replaces every
reference by the expansion of the macro's own definition. Only the text of the fragment and of the
definitions is searched for references, never the joined result.

* `MacroError`: a reference to an unknown macro, or to one that is being expanded;
* `MacroTable.expand`: a fragment without its references;
* `MacroTable.ofList?`: the tables in which every macro can be expanded;
* `MacroTable.standard`: the lexical classes of selectors.
-/

namespace Selectors

/-- Why a fragment cannot be expanded. -/
inductive MacroError where
  /-- A reference names no macro. -/
  | undefined (name : String)
  /-- A macro is referenced by its own expansion. -/
  | cyclic (name : String)
  deriving DecidableEq

/-- The wording of an error. -/
def MacroError.message : MacroError → String
  | undefined name => s!"undefined macro '{name}'"
  | cyclic name => s!"macro '{name}' is defined in terms of itself"

/-- The text of a pattern, or of a part of one. -/
abbrev Fragment := List Char

/-- Named pattern fragments. -/
structure MacroTable where
  definitions : NameMap Fragment
  deriving DecidableEq

namespace MacroTable

open Macro

/-- How many macros there are. -/
def size (t : MacroTable) : Nat := t.definitions.size

/-- The definition of a macro. -/
def get? (t : MacroTable) (name : String) : Option Fragment := t.definitions.find? name

/-- The macros and their definitions, in the order of the names. -/
def entries (t : MacroTable) : List (String × Fragment) := t.definitions.entries

/-! ## Expansion -/

/-- The pieces joined, each reference replaced by what `resolve` gives for it. -/
def joinPieces (resolve : String → Except MacroError Fragment) :
    List Piece → Except MacroError Fragment
  | [] => .ok []
  | .text cs :: rest => do
    let tail ← joinPieces resolve rest
    .ok (cs ++ tail)
  | .reference name :: rest => do
    let middle ← resolve name
    let tail ← joinPieces resolve rest
    .ok (middle ++ tail)

/-- The expansion of a reference to `name` inside the expansions of the macros in `active`. Each
level of nesting makes one more macro active, so no more than `depth` levels are needed when at most
`depth` macros are not active; none is left at level `0`. -/
def resolve (t : MacroTable) : (depth : Nat) → (active : List String) → (name : String) →
    Except MacroError Fragment
  | 0, _, name =>
    match t.get? name with
    | none => .error (.undefined name)
    | some _ => .error (.cyclic name)
  | depth + 1, active, name =>
    match t.get? name with
    | none => .error (.undefined name)
    | some definition =>
      if name ∈ active then .error (.cyclic name)
      else joinPieces (t.resolve depth (name :: active)) (pieces definition)

/-- The fragment with every reference replaced by the expansion of its macro. The first failure from
the left is reported. -/
def expand (t : MacroTable) (fragment : Fragment) : Except MacroError Fragment :=
  joinPieces (t.resolve t.size []) (pieces fragment)

/-- The table of the expanded definitions. -/
def expandAll (t : MacroTable) : Except MacroError MacroTable := do
  let expanded ← t.entries.mapM fun entry => do
    let definition ← t.expand entry.2
    return (entry.1, definition)
  return ⟨.ofList expanded⟩

/-! ## Tables that expand -/

/-- Visit the macro `name` and all that it refers to, inside the visits of the macros in `active`, and
leave out what is in `done`, the macros visited before. The result is what has been visited then. As in
`resolve`, no more than `depth` macros are not active. -/
def visit (t : MacroTable) : (depth : Nat) → (active done : List String) → (name : String) →
    Except MacroError (List String)
  | 0, _, done, name =>
    if name ∈ done then .ok done
    else match t.get? name with
      | none => .error (.undefined name)
      | some _ => .error (.cyclic name)
  | depth + 1, active, done, name =>
    if name ∈ done then .ok done
    else match t.get? name with
      | none => .error (.undefined name)
      | some definition =>
        if name ∈ active then .error (.cyclic name)
        else do
          let done ← (references definition).foldlM (t.visit depth (name :: active)) done
          return name :: done

/-- Every macro can be expanded; the first that cannot, in the order of the names, tells why. -/
def check (t : MacroTable) : Except MacroError Unit :=
  discard (t.definitions.names.foldlM (t.visit t.size []) [])

/-- The table of the pairs, of two pairs with one name the later, provided that every macro can be
expanded. -/
def ofList? (pairs : List (String × Fragment)) : Except MacroError MacroTable := do
  let table : MacroTable := ⟨.ofList pairs⟩
  table.check
  return table

/-! ## The standard macros -/

/-- The lexical classes of selectors. Every group is non-capturing, so that a rule made of these
macros has no groups of its own. -/
def standard : MacroTable := ⟨.ofList ([
  ("nl", r"\n|\r\n|\r|\f"),
  ("w", r"[ \t\r\n\f]*"),
  ("nonascii", r"[^\x00-\x7F]"),
  ("num", r"-?(?:[0-9]+|[0-9]*\.[0-9]+)"),
  ("unicode", r"\\[0-9A-Fa-f]{1,6}(?:\r\n|[ \n\r\t\f])?"),
  ("escape", r"#{unicode}|\\[^\n\r\f0-9A-Fa-f]"),
  ("nmchar", r"[_A-Za-z0-9-]|#{nonascii}|#{escape}"),
  ("nmstart", r"[_A-Za-z]|#{nonascii}|#{escape}"),
  ("ident", r"[-@]?(?:#{nmstart})(?:#{nmchar})*"),
  ("name", r"(?:#{nmchar})+"),
  ("string1", "\"(?:[^\\n\\r\\f\"]|\\\\#{nl}|#{nonascii}|#{escape})*\""),
  ("string2", r"'(?:[^\n\r\f']|\\#{nl}|#{nonascii}|#{escape})*'"),
  ("string", r"#{string1}|#{string2}")].map fun (name, definition) => (name, definition.toList))⟩

end MacroTable

end Selectors
