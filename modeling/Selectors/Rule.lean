import Selectors.Macro.Table

/-!
# Rules

The kinds of selector fragments, and the pattern that recognises each. The kinds are listed in
order of priority: a compound kind comes before the simple kind that it begins like, so `div#main` is
one `nameAndId` and not an element followed by an id.

* `RuleKind`, with its order `RuleKind.priority`, its description and its `groupName`;
* `RuleTable`: a pattern for some of the kinds;
* `RuleTable.standard`: the six rules of selectors.
-/

namespace Selectors

/-! ## Kinds -/

/-- The kind of a selector fragment. -/
inductive RuleKind where
  /-- `tag#id` -/
  | nameAndId
  /-- `#id` -/
  | id
  /-- `tag.class` -/
  | nameAndClass
  /-- `.class` -/
  | className
  /-- `tag` -/
  | element
  /-- `:name`, which is recognised and never resolved. -/
  | pseudoClass
  deriving DecidableEq

namespace RuleKind

/-- All kinds, the compound ones before the simple ones. -/
def priority : List RuleKind := [nameAndId, id, nameAndClass, className, element, pseudoClass]

theorem mem_priority (k : RuleKind) : k ∈ priority := by cases k <;> decide

/-- What a kind is called in messages. -/
def description : RuleKind → String
  | nameAndId => "name and id"
  | id => "id"
  | nameAndClass => "name and class"
  | className => "class"
  | element => "element"
  | pseudoClass => "pseudo class"

/-- The name of the group in which a scanner's pattern holds the rule of a kind. -/
def groupName : RuleKind → String
  | nameAndId => "name_and_id"
  | id => "id"
  | nameAndClass => "name_and_class"
  | className => "class"
  | element => "element"
  | pseudoClass => "pseudo_class"

theorem groupName_injective {k l : RuleKind} (h : k.groupName = l.groupName) : k = l := by
  cases k <;> cases l <;> first | rfl | exact absurd h (by decide)

end RuleKind

/-! ## Tables -/

/-- The pattern of each kind that is to be recognised, with references to macros. -/
structure RuleTable where
  pattern? : RuleKind → Option Fragment

namespace RuleTable

/-- The table of the pairs; of two pairs for one kind the later counts. -/
def ofList (pairs : List (RuleKind × Fragment)) : RuleTable :=
  ⟨fun kind => (pairs.reverse.find? (·.1 = kind)).map (·.2)⟩

/-- The kinds that have a rule, and their patterns, in order of priority. -/
def entries (t : RuleTable) : List (RuleKind × Fragment) :=
  RuleKind.priority.filterMap fun kind => (t.pattern? kind).map fun pattern => (kind, pattern)

/-- The rules of selectors. -/
def standard : RuleTable := .ofList ([
  (.nameAndId, "#{ident}##{ident}"),
  (.id, "##{ident}"),
  (.nameAndClass, r"#{ident}\.#{ident}"),
  (.className, r"\.#{ident}"),
  (.element, "#{ident}"),
  (.pseudoClass, ":#{ident}")].map fun (kind, rule) => (kind, rule.toList))

end RuleTable

end Selectors
