import Selectors.Main
import Selectors.Proofs.Document.Loaded
import Selectors.Proofs.Resolve.Selects
import Selectors.Proofs.Scanner.Lexed
import Selectors.Proofs.Scanner.RuleByRule
import Selectors.Proofs.Tree.Walks
import Selectors.Proofs.Resolve.Agreement
import Selectors.Proofs.Resolve.Division
import Selectors.Proofs.Scanner.Outcome
import Selectors.Proofs.Macro.Checked
import Selectors.Proofs.Resolve.Ascent
import Selectors.Proofs.Scanner.Coverage
import Selectors.Proofs.Scanner.Faults
import Selectors.Proofs.Resolve.Scope
import Selectors.Proofs.Scanner.Spaces
import Selectors.Proofs.Scanner.Spelling
import Selectors.Proofs.Document.Forest
import Selectors.Proofs.Warning.History
import Selectors.Proofs.Document.Duplicates
import Selectors.Proofs.Tree.AnyEdits
import Selectors.Proofs.Tree.Cycles
import Selectors.Proofs.Macro.Occurrences
import Selectors.Proofs.Macro.Replaced
import Selectors.Proofs.Scanner.Direct
import Selectors.Proofs.Element.Classes
import Selectors.Proofs.Tree.Contents
import Selectors.Proofs.Selection.Classes
import Selectors.Proofs.Selection.Texts
import Selectors.Proofs.Document.Paths
import Selectors.Proofs.Text.Projection
import Selectors.Proofs.Macro.Enclosed
