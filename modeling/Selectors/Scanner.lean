import Selectors.Rule
import Selectors.Pattern.Reader
import Selectors.Pattern.Scan

/-!
# Scanners

A scanner is one pattern made of all rules of a configuration: each rule, its macros expanded, is a
named group, and the groups are alternatives in order of priority. The kind of a match is read off
the group that took part in it.

* `ScannerError`: why a configuration has no scanner;
* `Scanner.compile`: the scanner of a configuration;
* `Scanner.classify`: the kind of a match.
-/

namespace Selectors

/-- Macros and rules. -/
structure Configuration where
  macros : MacroTable
  rules : RuleTable

/-- The macros and rules of selectors. -/
def Configuration.standard : Configuration := ⟨.standard, .standard⟩

/-- Why a configuration has no scanner. -/
inductive ScannerError where
  /-- A macro or a rule cannot be expanded. -/
  | expansion (cause : MacroError)
  /-- The expanded rule of a kind is no pattern. -/
  | invalidRule (kind : RuleKind)
  /-- The rules are patterns, but not all together: they name a group twice, or as one of the scanner's
  own groups, or one of them nests too deep inside of the scanner, or ends inside of a comment. -/
  | incompatibleRules
  deriving DecidableEq

/-- The pattern of all rules of a configuration. -/
structure Scanner where
  source : Fragment
  pattern : Pattern
  kinds : List RuleKind
  deriving DecidableEq

namespace Scanner

/-- The expanded text of a rule, which has to be a pattern by itself. -/
def expandRule (literal : MacroTable) (kind : RuleKind) (rule : Fragment) :
    Except ScannerError Fragment :=
  match literal.expand rule with
  | .error cause => .error (.expansion cause)
  | .ok text => if (Pattern.read? text).isSome then .ok text else .error (.invalidRule kind)

/-- The text of a rule as a named group. -/
def groupText (kind : RuleKind) (text : Fragment) : Fragment :=
  "(?P<".toList ++ kind.groupName.toList ++ '>' :: text ++ [')']

/-- The scanner of a configuration. The macros are expanded first, then each rule against the
expanded macros. -/
def compile (c : Configuration) : Except ScannerError Scanner := do
  let literal ← c.macros.expandAll.mapError .expansion
  let groups ← c.rules.entries.mapM fun (kind, rule) => do
    let text ← expandRule literal kind rule
    return (kind, groupText kind text)
  let source := ['|'].intercalate (groups.map (·.2))
  match Pattern.read? source with
  | none => .error .incompatibleRules
  | some pattern => .ok ⟨source, pattern, groups.map (·.1)⟩

/-- The kind of a match in which the named groups took part. -/
def classify (s : Scanner) (names : List String) : Option RuleKind :=
  s.kinds.find? (·.groupName ∈ names)

end Scanner

end Selectors
