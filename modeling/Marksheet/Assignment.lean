import Marksheet.Numeral

/-!
# Marksheet.Assignment

A mark given on the command line as `NAME=VALUE`. The value is a number as in a formula, with or
without an exponent; blanks around both parts count for nothing.
-/

namespace Marksheet

structure Assignment where
  name : String
  mark : Float
  deriving DecidableEq

namespace Assignment

inductive Flaw where
  | noValue (text : String)
  | malformed (fault : Fault)
  | notNumber (value : String)
  | trailing (text : String)
  deriving DecidableEq, Repr

def Flaw.message : Flaw → String
  | .noValue text => s!"expected NAME=VALUE, got '{text}'"
  | .malformed fault => fault.message
  | .notNumber value => s!"'{value}' is not a number"
  | .trailing text => s!"trailing characters after number in '{text}'"

/-- The parts of a text in front of its first equals sign and behind it. -/
def split? (text : List Char) : Option (List Char × List Char) :=
  match text.span (· != '=') with
  | (name, _ :: value) => some (name, value)
  | (_, []) => none

def parse (text : String) : Except Flaw Assignment :=
  match split? text.toList with
  | none => .error (.noValue text)
  | some (name, value) =>
    match Number.scan true (Cursor.start (Text.trimBlanks value)) with
    | .error fault _ => .error (.malformed fault)
    | .ok none _ => .error (.notNumber (String.ofList value))
    | .ok (some mark) behind =>
      if behind.atEnd then .ok { name := String.ofList (Text.trimBlanks name), mark }
      else .error (.trailing text)

end Assignment

end Marksheet
