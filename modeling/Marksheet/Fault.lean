/-!
# Marksheet.Fault

The ways in which reading a formula, computing with its weights or working on a sheet can fail.

* `Fault.message`   : what a user is told.
* `Fault.position?` : where in the text it happened, for the faults of reading.

Positions count characters from 0.
-/

namespace Marksheet

inductive Fault where
  | unexpected (found : Char) (position : Nat)
  | unexpectedEnd (position : Nat)
  | expected (wanted : Char) (position : Nat)
  | numberExpected (position : Nat)
  | secondPoint (position : Nat)
  | leadingExponent (position : Nat)
  | noDigit (position : Nat)
  /-- A quoted text whose closing quote is missing; the position is that of the opening quote. -/
  | unclosedQuote (position : Nat)
  | termExpected (position : Nat)
  /-- A call with `given` arguments, for a function that takes `least` to `most`. -/
  | arity (function : String) (least most given : Nat)
  | unknownFunction (name : String)
  | divisionByZero
  | unknownEntity (name : String)
  | weightNotPositive (name : String)
  | tooDeep (limit : Nat)
  | overflow
  deriving DecidableEq, Repr, Inhabited

namespace Fault

def message : Fault → String
  | .unexpected found position => s!"unexpected character '{found}' at position {position}"
  | .unexpectedEnd position => s!"unexpected end of input at position {position}"
  | .expected wanted position => s!"expected '{wanted}' at position {position}"
  | .numberExpected position => s!"expected a number at position {position}"
  | .secondPoint position => s!"multiple dots in number at position {position}"
  | .leadingExponent position => s!"exponent marker at start of number at position {position}"
  | .noDigit position => s!"invalid number at position {position}"
  | .unclosedQuote position => s!"unfinished string starting at position {position}"
  | .termExpected position => s!"a variable is needed here (position {position})"
  | .arity function least most given =>
    s!"function {function} takes {least} to {most} arguments, got {given}"
  | .unknownFunction name => s!"nonexistent function: {name}"
  | .divisionByZero => "divide by zero"
  | .unknownEntity name => s!"invalid entity: {name}"
  | .weightNotPositive name => s!"weighting of '{name}' is not a positive integer"
  | .tooDeep limit => s!"formula too deeply nested (max depth: {limit})"
  | .overflow => "numeric overflow"

/-- The place in the text, for a fault found while reading it. -/
def position? : Fault → Option Nat
  | .unexpected _ position
  | .unexpectedEnd position
  | .expected _ position
  | .numberExpected position
  | .secondPoint position
  | .leadingExponent position
  | .noDigit position
  | .unclosedQuote position
  | .termExpected position => some position
  | .arity .. | .unknownFunction _ | .divisionByZero | .unknownEntity _ | .weightNotPositive _
  | .tooDeep _ | .overflow => none

end Fault

end Marksheet
