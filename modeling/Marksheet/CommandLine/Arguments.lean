import Marksheet.Assignment
import Marksheet.Decimal
import Marksheet.Scheme

/-!
# Marksheet.CommandLine.Arguments

From the arguments of a command line to a request. Arguments that do not make a request are misuse,
and nothing is told apart among them.

* A command comes first; `-v` and `--verbose`, which change no answer, may stand around it.
* An option is written `--name value` or `--name=value`, anywhere behind the command. A value of its
  own does not start with a dash, unless it is only that.
* Behind `--` every argument counts as it stands.
* `--set` may be repeated, every other option stands once. Exactly one argument is left over.
-/

namespace Marksheet.CommandLine

inductive Command where
  | compile
  | average
  | solve
  | restore
  deriving DecidableEq, Repr

def Command.ofName? (name : String) : Option Command :=
  if name = "compile" then some .compile
  else if name = "average" then some .average
  else if name = "solve" then some .solve
  else if name = "restore" then some .restore
  else none

/-! ## Spelling -/

/-- What an argument looks like. -/
inductive Spelling where
  | separator
  | long (name : String) (value : Option String)
  | short (letters : List Char)
  | plain
  deriving DecidableEq, Repr

def spelling (argument : String) : Spelling :=
  match argument.toList with
  | ['-', '-'] => .separator
  | '-' :: '-' :: rest =>
    match Assignment.split? rest with
    | some (name, value) => .long (String.ofList name) (some (String.ofList value))
    | none => .long (String.ofList rest) none
  | '-' :: first :: others => .short (first :: others)
  | _ => .plain

def isFlag (name : String) : Bool :=
  name ∈ ["json", "verbose"]

/-- The options with a value, which depend on the command. -/
def Command.takesValue (command : Command) (name : String) : Bool :=
  match command with
  | .compile | .restore => name ∈ ["normalization"]
  | .average => name ∈ ["normalization", "set"]
  | .solve => name ∈ ["normalization", "set", "target", "for"]

inductive Part where
  | flag (name : String)
  | option (name value : String)
  | plain (value : String)
  deriving DecidableEq, Repr

/-- The parts of what stands behind a command, none when an option is unknown to it, lacks its
value or has one that it does not take. -/
def parts (command : Command) : List String → Option (List Part)
  | [] => some []
  | argument :: rest =>
    match spelling argument with
    | .separator => some (rest.map .plain)
    | .plain => (parts command rest).map (.plain argument :: ·)
    | .short letters => if letters.all (· == 'v') then parts command rest else none
    | .long name value? =>
      if isFlag name then
        if value?.isNone then (parts command rest).map (.flag name :: ·) else none
      else if command.takesValue name then
        match value?, rest with
        | some value, rest => (parts command rest).map (.option name value :: ·)
        | none, value :: rest =>
          if spelling value = .plain then (parts command rest).map (.option name value :: ·)
          else none
        | none, [] => none
      else none

/-! ## Requests -/

structure Settings where
  normalization : Normalization
  json : Bool

def Settings.options (settings : Settings) : Options :=
  { normalization := settings.normalization }

inductive Request where
  | compile (formula : String) (settings : Settings)
  | average (formula : String) (settings : Settings) (marks : List Assignment)
  | solve (formula : String) (settings : Settings) (marks : List Assignment) (name : String)
      (target : Float)
  | restore (path : String) (settings : Settings)

def only? {α : Type} : List α → Option α
  | [x] => some x
  | _ => none

def valuesOf (name : String) (parts : List Part) : List String :=
  parts.filterMap fun
    | .option other value => if other = name then some value else none
    | _ => none

def plainValues (parts : List Part) : List String :=
  parts.filterMap fun
    | .plain value => some value
    | _ => none

def flag? (name : String) (parts : List Part) : Option Bool :=
  match (parts.filter (· = .flag name)).length with
  | 0 => some false
  | 1 => some true
  | _ => none

def normalizationOf? : List String → Option Normalization
  | [] => some .commonDenominator
  | [name] =>
    if name = "common-denominator" then some .commonDenominator
    else if name = "numerator-only" then some .numeratorOnly
    else none
  | _ => none

def settingsOf? (parts : List Part) : Option Settings := do
  let normalization ← normalizationOf? (valuesOf "normalization" parts)
  let json ← flag? "json" parts
  return { normalization, json }

def marksOf? (parts : List Part) : Option (List Assignment) :=
  (valuesOf "set" parts).mapM fun text => (Assignment.parse text).toOption

def pathOf? (parts : List Part) : Option String := do
  let path ← only? (plainValues parts)
  if path.isEmpty then none else some path

def Command.request? (command : Command) (parts : List Part) : Option Request := do
  let settings ← settingsOf? parts
  match command with
  | .compile => return .compile (← only? (plainValues parts)) settings
  | .average => return .average (← only? (plainValues parts)) settings (← marksOf? parts)
  | .solve =>
    let formula ← only? (plainValues parts)
    let marks ← marksOf? parts
    let name ← only? (valuesOf "for" parts)
    let target ← Decimal.read? (← only? (valuesOf "target" parts))
    return .solve formula settings marks name target
  | .restore => return .restore (← pathOf? parts) settings

def isVerbosity (argument : String) : Bool :=
  match spelling argument with
  | .long name none => name = "verbose"
  | .short letters => letters.all (· == 'v')
  | _ => false

/-- The request that arguments make, none for misuse. -/
def request? : List String → Option Request
  | [] => none
  | argument :: rest =>
    if isVerbosity argument then request? rest
    else do
      let command ← Command.ofName? argument
      command.request? (← parts command rest)

end Marksheet.CommandLine
