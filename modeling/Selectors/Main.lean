import Selectors.Cli.Report

/-!
# The program

Reads the file that a command asks for, runs the command, and writes what its outcome says.
-/

namespace Selectors.Cli

/-- The number of a failure of the system, which may come with its sign turned, and its text. -/
def failureText (code : UInt32) (details : String) : String :=
  let number := if code.toNat < Nat.pow 2 31 then code.toNat else Nat.pow 2 32 - code.toNat
  let text := match number with
    | 2 => "No such file or directory"
    | 13 => "Permission denied"
    | 20 => "Not a directory"
    | 21 => "Is a directory"
    | 36 => "File name too long"
    | 40 => "Too many levels of symbolic links"
    | _ => details
  text ++ " (os error " ++ toString number ++ ")"

/-- Why a file could not be read. -/
def readFailure : IO.Error → String
  | .noFileOrDirectory _ code details
  | .interrupted _ code details
  | .alreadyExists _ code details
  | .invalidArgument _ code details
  | .permissionDenied _ code details
  | .resourceExhausted _ code details
  | .inappropriateType _ code details
  | .noSuchThing _ code details
  | .otherError code details
  | .resourceBusy code details
  | .resourceVanished code details
  | .unsupportedOperation code details
  | .hardwareFault code details
  | .unsatisfiedConstraints code details
  | .illegalOperation code details
  | .protocolError code details
  | .timeExpired code details => failureText code details
  | .unexpectedEof => "unexpected end of file"
  | .userError details => details

/-- The text of a file, or why it has none. -/
def readText (path : String) : IO (Except String String) := do
  try
    let bytes ← IO.FS.readBinFile path
    return match String.fromUTF8? bytes with
      | some text => .ok text
      | none => .error "stream did not contain valid UTF-8"
  catch e => return .error (readFailure e)

end Selectors.Cli

open Selectors.Cli in
/-- Run the words behind the program's name. -/
def main (words : List String) : IO UInt32 := do
  let file ← match Command.ofWords? words with
    | some (.query _ (some (.file path)) _ _) => readText path
    | _ => pure (.error "")
  let outcome := runWords (fun _ => file) words
  (← IO.getStderr).putStr outcome.errors
  (← IO.getStdout).putStr outcome.output
  return outcome.code.toUInt32
