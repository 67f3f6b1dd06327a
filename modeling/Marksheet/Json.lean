import Marksheet.Text

/-!
# Marksheet.Json

JSON values, and writing them. A number is kept as it is written, since how it is rounded depends on
what it is read as. A text is absent when an escape in it names half of a surrogate pair without the
other half, which no text can hold.

A value is written over several lines: every item of an array and every member of an object on a
line of its own, two blanks further in than what holds it; empty ones as they are. Characters
outside ASCII are written raw, control characters escaped.
-/

namespace Marksheet

namespace Json

/-- A number by its digits: those in front of the point, those behind it, and its exponent. -/
structure Number where
  negative : Bool := false
  whole : List Char
  fraction : List Char := []
  exponent : Option Int := none
  deriving DecidableEq, Repr

def Number.ofNat (n : Nat) : Number := { whole := decimalDigits n }

end Json

inductive Json where
  | null
  | bool (value : Bool)
  | number (value : Json.Number)
  | string (text : Option String)
  | array (items : List Json)
  | object (members : List (Option String × Json))
  deriving Inhabited

namespace Json

/-! ## Texts -/

def escape (c : Char) : List Char :=
  if c = '"' then ['\\', '"']
  else if c = '\\' then ['\\', '\\']
  else if c = '\x08' then ['\\', 'b']
  else if c = '\t' then ['\\', 't']
  else if c = '\n' then ['\\', 'n']
  else if c = '\x0c' then ['\\', 'f']
  else if c = '\r' then ['\\', 'r']
  else if c.toNat < 0x20 then
    ['\\', 'u', '0', '0', Nat.digitChar (c.toNat / 16), Nat.digitChar (c.toNat % 16)]
  else [c]

/-- A text in quotes. One that no text can hold is written as half of a surrogate pair. -/
def quoted : Option String → List Char
  | some text => '"' :: text.toList.flatMap escape ++ ['"']
  | none => ['"', '\\', 'u', 'd', '8', '0', '0', '"']

/-! ## Numbers -/

def Number.print (number : Number) : List Char :=
  let sign := if number.negative then ['-'] else []
  let fraction := if number.fraction.isEmpty then [] else '.' :: number.fraction
  let exponent :=
    match number.exponent with
    | some e => 'e' :: (if e < 0 then '-' else '+') :: decimalDigits e.natAbs
    | none => []
  sign ++ number.whole ++ fraction ++ exponent

/-! ## Values -/

def newline (depth : Nat) : List Char :=
  '\n' :: List.replicate (2 * depth) ' '

mutual

def print (depth : Nat) : Json → List Char
  | null => ['n', 'u', 'l', 'l']
  | bool true => ['t', 'r', 'u', 'e']
  | bool false => ['f', 'a', 'l', 's', 'e']
  | number value => value.print
  | string text => quoted text
  | array [] => ['[', ']']
  | array (first :: others) =>
    '[' :: newline (depth + 1) ++ print (depth + 1) first ++ printItems (depth + 1) others
      ++ newline depth ++ [']']
  | object [] => ['{', '}']
  | object ((key, value) :: others) =>
    '{' :: newline (depth + 1) ++ quoted key ++ ':' :: ' ' :: print (depth + 1) value
      ++ printMembers (depth + 1) others ++ newline depth ++ ['}']

def printItems (depth : Nat) : List Json → List Char
  | [] => []
  | item :: others => ',' :: newline depth ++ print depth item ++ printItems depth others

def printMembers (depth : Nat) : List (Option String × Json) → List Char
  | [] => []
  | (key, value) :: others =>
    ',' :: newline depth ++ quoted key ++ ':' :: ' ' :: print depth value
      ++ printMembers depth others

end

def toText (json : Json) : String :=
  String.ofList (print 0 json)

end Json

end Marksheet
