/-!
# Warnings

Input that is accepted leniently is reported once: a warning whose line has been printed already is
not printed again until the record is cleared.

* `Warning.line`: what a warning is recognised by;
* `Warnings.report`: note a warning; `Warnings.isNew`: whether that prints it.
-/

namespace Selectors

/-- A remark of some component. -/
structure Warning where
  component : String
  message : String
  deriving DecidableEq

namespace Warning

/-- The line by which a warning is recognised. -/
def line (w : Warning) : String := "[" ++ w.component ++ "] " ++ w.message

/-- Text of a selector that no rule recognises. -/
def skippedText (text : String) : Warning :=
  ⟨"Selector", "skipped unsupported text '" ++ text ++ "'"⟩

/-- An id that a second element of a document has. -/
def duplicateId (id : String) : Warning :=
  ⟨"DOM", "duplicate id '" ++ id ++ "'; lookups return the first match"⟩

end Warning

/-- The warnings printed since the record was cleared, in order. -/
structure Warnings where
  printed : List Warning
  deriving DecidableEq

namespace Warnings

/-- A cleared record. -/
def none : Warnings := ⟨[]⟩

/-- No warning with the same line has been printed. -/
def isNew (ws : Warnings) (w : Warning) : Bool := ws.printed.all (·.line ≠ w.line)

/-- Print a warning unless its line has been printed. -/
def report (ws : Warnings) (w : Warning) : Warnings :=
  if ws.isNew w then ⟨ws.printed ++ [w]⟩ else ws

/-- Report several warnings in turn. -/
def reportAll (ws : Warnings) (l : List Warning) : Warnings := l.foldl report ws

end Warnings

end Selectors
