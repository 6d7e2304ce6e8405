/-!
# Command lines

What the words behind the program's name ask for. A command comes first, then its operands and
options in any order; behind a word `--` every word is an operand. An option with a value takes it
from the same word, behind `=`, or from the next word, which may not look like an option. No option
may be given twice.

* `Source`, `Command`: what can be asked for;
* `Command.ofWords?`: the command of the words, if they make one.
-/

namespace Selectors.Cli

/-- Where a document comes from. -/
inductive Source where
  | file (path : String)
  | inline (text : String)
  deriving DecidableEq

/-- What can be asked for. -/
inductive Command where
  /-- Name the program and its version. -/
  | version
  /-- Show the tokens of a selector. -/
  | tokens (selector : String)
  /-- Resolve a selector in a document, perhaps below the element with some id, and show the matches
  or their texts. -/
  | query (selector : String) (source : Option Source) (within : Option String) (text : Bool)
  /-- Show the rules and the scanner, perhaps with the macros. -/
  | rules (expanded : Bool)
  deriving DecidableEq

/-! ## Words -/

/-- What a word of a command line says. -/
inductive Word where
  | operand (text : String)
  /-- A flag, or an option whose value is in the next word. -/
  | option (name : String)
  /-- An option with its value. -/
  | assignment (name value : String)
  deriving DecidableEq

/-- Words that begin with a hyphen and are longer look like options. -/
def isOption (word : String) : Bool :=
  match word.toList with
  | '-' :: _ :: _ => true
  | _ => false

/-- What a word says that stands before any `--`. The short `-t` is the option `--text`. -/
def Word.ofText (word : String) : Word :=
  if !isOption word then operand word
  else match word.toList with
    | '-' :: '-' :: rest =>
      let name := String.ofList ('-' :: '-' :: rest.takeWhile (· ≠ '='))
      match rest.dropWhile (· ≠ '=') with
      | [] => option name
      | _ :: value => assignment name (.ofList value)
    | _ => option (if word = "-t" then "--text" else word)

/-- Operands and options. -/
structure Arguments where
  operands : List String
  options : List (String × Option String)
  deriving DecidableEq

namespace Arguments

/-- No arguments. -/
def none : Arguments := ⟨[], []⟩

/-- Add an option that has not been given. -/
def addOption? (a : Arguments) (name : String) (value : Option String) : Option Arguments :=
  if a.options.any (·.1 = name) then .none
  else some { a with options := (name, value) :: a.options }

/-- The arguments of the words, where the options in `valued` have a value and those in `flags` have
none. -/
def ofWords? (valued flags : List String) (a : Arguments) : List String → Option Arguments
  | [] => some a
  | word :: rest =>
    if word = "--" then some { a with operands := a.operands ++ rest }
    else match Word.ofText word with
      | .operand text => ofWords? valued flags { a with operands := a.operands ++ [text] } rest
      | .assignment name value =>
        if name ∈ valued then (a.addOption? name (some value)).bind (ofWords? valued flags · rest)
        else .none
      | .option name =>
        if name ∈ flags then (a.addOption? name .none).bind (ofWords? valued flags · rest)
        else if name ∈ valued then
          match rest with
          | value :: rest =>
            if isOption value then .none
            else (a.addOption? name (some value)).bind (ofWords? valued flags · rest)
          | [] => .none
        else .none

/-- The value of an option. -/
def value? (a : Arguments) (name : String) : Option String :=
  ((a.options.find? (·.1 = name)).map (·.2)).join

/-- A flag is given. -/
def has (a : Arguments) (name : String) : Bool := a.options.any (·.1 = name)

end Arguments

/-! ## Commands -/

/-- The command `tokens`: one operand. -/
def Command.ofTokensWords? (words : List String) : Option Command := do
  let a ← Arguments.ofWords? [] [] .none words
  match a.operands with
  | [selector] => some (tokens selector)
  | _ => none

/-- The command `query`: a selector and one source at most. A path is not empty. -/
def Command.ofQueryWords? (words : List String) : Option Command := do
  let a ← Arguments.ofWords? ["--json", "--within"] ["--text"] .none words
  let result := fun selector source =>
    some (query selector source (a.value? "--within") (a.has "--text"))
  match a.operands, a.value? "--json" with
  | [selector], json => result selector (json.map .inline)
  | [selector, path], none => if path = "" then none else result selector (some (.file path))
  | _, _ => none

/-- The command `rules`: no operands. -/
def Command.ofRulesWords? (words : List String) : Option Command := do
  let a ← Arguments.ofWords? [] ["--expanded"] .none words
  if a.operands = [] then some (rules (a.has "--expanded")) else none

/-- The command of the words behind the program's name. -/
def Command.ofWords? : List String → Option Command
  | "tokens" :: words => ofTokensWords? words
  | "query" :: words => ofQueryWords? words
  | "rules" :: words => ofRulesWords? words
  | word :: _ => if word = "--version" ∨ word.startsWith "-V" then some version else none
  | [] => none

end Selectors.Cli
