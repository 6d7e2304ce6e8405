import Selectors.Cli.Arguments
import Selectors.Document.Loader
import Selectors.Selection

/-!
# Reports of the command line

What the program writes, and its exit code. Warnings and errors go to the error stream, all else to
the output stream, with colour codes throughout.

* `Outcome`: what a run leaves behind;
* `Command.run`: the outcome of a command, given a way to read files;
* `runWords`: the outcome of the words of a command line.
-/

namespace Selectors.Cli

/-! ## Text -/

/-- The colours in use, by their codes. -/
inductive Colour where
  | green
  | yellow
  | cyan

/-- The code that switches a colour on. -/
def Colour.code : Colour → String
  | green => "32"
  | yellow => "33"
  | cyan => "36"

/-- A text in a colour. -/
def inColour (colour : Colour) (text : String) : String :=
  "\x1b[" ++ colour.code ++ "m" ++ text ++ "\x1b[39m"

/-- A text filled up with spaces to a width. -/
def padTo (width : Nat) (text : String) : String :=
  .ofList (text.toList ++ List.replicate (width - text.length) ' ')

/-- Lines, each with its line feed. -/
def unlines (lines : List String) : String := String.join (lines.map (· ++ "\n"))

/-- A label in a column of some width, and what it labels. -/
def labelled (width : Nat) (label text : String) : String :=
  "  " ++ inColour .cyan (padTo width label) ++ " " ++ text

/-- The line of a warning on the error stream. -/
def warningLine (w : Warning) : String :=
  inColour .yellow ("[Sieve " ++ w.component ++ "] ⚠ " ++ w.message)

/-! ## Outcomes -/

/-- The exit code of a run, and what it wrote. -/
structure Outcome where
  code : Nat
  output : String
  errors : String
  deriving DecidableEq

namespace Outcome

/-- A run that wrote some lines and warnings. -/
def success (ws : Warnings) (lines : List String) : Outcome :=
  ⟨0, unlines lines, unlines (ws.printed.map warningLine)⟩

/-- A run that failed. A single cause stands below the error; several are numbered. -/
def failure (ws : Warnings) (error : String) (causes : List String) : Outcome :=
  let listed := match causes with
    | [] => []
    | [cause] => ["", "Caused by:", "    " ++ cause]
    | causes => "" :: "Caused by:" :: causes.mapIdx fun i c => "    " ++ toString i ++ ": " ++ c
  ⟨1, "", unlines (ws.printed.map warningLine ++ ("Error: " ++ error) :: listed)⟩

/-- A command line that makes no command; what is written then is not part of the outcome. -/
def usage : Outcome := ⟨2, "", ""⟩

end Outcome

/-! ## Commands -/

/-- The causes of a failed loading, the nearest first. -/
def loadCauses (e : LoadError) : List String :=
  match e with
  | .wrongShape => [e.message, LoadError.shapeMessage]
  | _ => [e.message]

/-- An element in short: its tag, its id and its classes. -/
def summary (e : Element) : String :=
  let id := match e.id? with
    | none => ""
    | some id => "#" ++ id
  e.tag ++ id ++ String.join (e.classes.map ("." ++ ·))

/-- The line of a match. -/
def matchLine (t : Tree) (text : Bool) (n : NodeId) : String :=
  if text then t.textContent n else inColour .green (((t.element? n).map summary).getD "")

/-- The selection that a query asks for. -/
def selectWithin (t : Tree) (selector : String) : Option String → Except String Selection
  | none => (Selection.ofSelector t selector).mapError ResolveError.message
  | some id =>
    match t.elementById? Tree.root id with
    | none => .error ("no element with id '" ++ id ++ "'")
    | some n => ((Selection.ofNodes [n]).find t selector).mapError ResolveError.message

/-- The outcome of a query in the text of a document. -/
def queryText (selector document : String) (within : Option String) (text : Bool) : Outcome :=
  match load document .none with
  | (.error e, ws) => .failure ws "failed to load document" (loadCauses e)
  | (.ok t, ws) =>
    match selectWithin t selector within with
    | .error message => .failure ws message []
    | .ok s =>
      .success ws (s.nodes.map (matchLine t text) ++ ["", toString s.nodes.length ++ " matches"])

/-- The lines on the tokens of a selector. -/
def tokensLines (run : Run) : List String :=
  ("=== Tokens (" ++ run.input ++ ") ===") ::
    run.tokens.map (fun token => labelled 16 token.kind.description token.identity) ++
    ["", toString run.tokens.length ++ " tokens"]

/-- The lines on the rules. -/
def rulesLines : List String :=
  "=== Rules ===" ::
    RuleTable.standard.entries.map fun (kind, rule) =>
      labelled 16 kind.description (.ofList rule)

/-- The lines on the expanded macros. -/
def macrosLines (expanded : MacroTable) : List String :=
  "" :: "=== Macros ===" ::
    expanded.entries.map fun (name, definition) => labelled 10 name (.ofList definition)

/-- The lines on the scanner. -/
def scannerLines : List String := ["", "=== Scanner ===", .ofList Scanner.standard.source]

/-- The outcome of a command. `readFile` gives the text of a file, or says why it has none. -/
def Command.run (readFile : String → Except String String) : Command → Outcome
  | version => .success .none ["sieve 0.1.0"]
  | tokens selector =>
    let run := Scanner.standard.run selector
    .success (Warnings.none.reportAll (run.skipped.map .skippedText)) (tokensLines run)
  | query _ none _ _ => .failure .none "query requires a file path or --json" []
  | query selector (some (.inline document)) within text => queryText selector document within text
  | query selector (some (.file path)) within text =>
    match readFile path with
    | .error reason => .failure .none ("failed to read " ++ path) [reason]
    | .ok document => queryText selector document within text
  | rules false => .success .none (rulesLines ++ scannerLines)
  | rules true =>
    match MacroTable.standard.expandAll with
    | .error e => .failure .none e.message []
    | .ok expanded => .success .none (rulesLines ++ macrosLines expanded ++ scannerLines)

/-- The outcome of the words behind the program's name. -/
def runWords (readFile : String → Except String String) (words : List String) : Outcome :=
  match Command.ofWords? words with
  | none => .usage
  | some command => command.run readFile

end Selectors.Cli
