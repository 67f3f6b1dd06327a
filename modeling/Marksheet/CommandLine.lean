import Marksheet.CommandLine.Arguments
import Marksheet.Report

/-!
# Marksheet.CommandLine

What the program answers to its arguments. The files it may read are given as a function, so an
answer depends on nothing else.

* `Failure.message` : what went wrong, with what was being done in front of it.
* `perform`         : the answer to a request.
* `run`             : the answer to the arguments.
-/

namespace Marksheet.CommandLine

inductive Failure where
  | compiling (formula : String) (fault : Fault)
  | setting (name : String) (fault : Fault)
  | solving (name : String) (fault : Fault)
  | noFile (path : String)
  | noRecord
  | restoring (formula : String) (fault : Fault)
  deriving DecidableEq, Repr

/-- The line without the program's name. Any file that cannot be opened is told as one that is not
there, and of a text that is no record only so much is told: the reason that the system gives for
the one, and where the JSON reader stopped for the other, are not part of a failure. -/
def Failure.message : Failure → String
  | .compiling formula fault => s!"compile formula '{formula}': {fault.message}"
  | .setting name fault => s!"set value of '{name}': {fault.message}"
  | .solving name fault => s!"solve for '{name}': {fault.message}"
  | .noFile path => s!"open record '{path}': No such file or directory (os error 2)"
  | .noRecord => "parse record JSON"
  | .restoring formula fault => s!"restore formula '{formula}': {fault.message}"

def sheetOf (formula : String) (settings : Settings) : Except Failure (Sheet Float) :=
  (Sheet.ofFormula settings.options formula).mapError (.compiling formula)

def enter (sheet : Sheet Float) (marks : List Assignment) : Except Failure (Sheet Float) :=
  marks.foldlM (fun sheet mark => (sheet.set mark.name mark.mark).mapError (.setting mark.name)) sheet

def restored (readFile : String → Option String) (path : String) (settings : Settings) :
    Except Failure (Sheet Float) :=
  match readFile path with
  | none => .error (.noFile path)
  | some text =>
    match Record.parse? text with
    | none => .error .noRecord
    | some record =>
      (Sheet.ofRecord settings.options record).mapError (.restoring record.formula)

def perform (readFile : String → Option String) : Request → Except Failure String
  | .compile formula settings => do
    let sheet ← sheetOf formula settings
    return if settings.json then Report.record sheet else Report.entities sheet
  | .average formula settings marks => do
    let sheet ← enter (← sheetOf formula settings) marks
    return if settings.json then Report.averageJson sheet else Report.average sheet
  | .solve formula settings marks name target => do
    let sheet ← enter (← sheetOf formula settings) marks
    let mark ← (sheet.solveFor name target).mapError (.solving name)
    return if settings.json then Report.neededJson name target mark
      else Report.needed name target mark
  | .restore path settings => do
    let sheet ← restored readFile path settings
    return if settings.json then Report.averageJson sheet else Report.state sheet

inductive Outcome where
  | printed (text : String)
  | failed (failure : Failure)
  | misused
  deriving DecidableEq, Repr

namespace Outcome

def exitCode : Outcome → Nat
  | printed _ => 0
  | failed _ => 1
  | misused => 2

def output : Outcome → String
  | printed text => text
  | failed _ => ""
  | misused => ""

def failureLine (failure : Failure) : String :=
  s!"gradus error: {failure.message}" ++ "\n"

end Outcome

def run (readFile : String → Option String) (arguments : List String) : Outcome :=
  match request? arguments with
  | none => .misused
  | some request =>
    match perform readFile request with
    | .ok text => .printed text
    | .error failure => .failed failure

/-- The file that has to be read for an answer. -/
def neededFile? (arguments : List String) : Option String :=
  match request? arguments with
  | some (.restore path _) => some path
  | _ => none

end Marksheet.CommandLine
