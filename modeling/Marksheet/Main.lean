import Marksheet.CommandLine

/-!
# Marksheet.Main

The program: reads the file that is asked for, if any, and prints the answer.
-/

namespace Marksheet

/-- The text of a file, none if it cannot be opened. A file that holds no text reads as empty. -/
def readText? (path : String) : IO (Option String) := do
  try
    let bytes ← IO.FS.readBinFile path
    return some ((String.fromUTF8? bytes).getD "")
  catch _ => return none

def answer (arguments : List String) : IO UInt32 := do
  let text? ← match CommandLine.neededFile? arguments with
    | some path => readText? path
    | none => pure none
  let outcome := CommandLine.run (fun _ => text?) arguments
  IO.print outcome.output
  match outcome with
  | .printed _ => pure ()
  | .failed failure => IO.eprint (CommandLine.Outcome.failureLine failure)
  | .misused => IO.eprintln "usage: gradus <compile|average|solve|restore> [OPTIONS] <FORMULA|RECORD>"
  return UInt32.ofNat outcome.exitCode

end Marksheet

def main (arguments : List String) : IO UInt32 :=
  Marksheet.answer arguments
