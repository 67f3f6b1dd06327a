import Marksheet.Json

/-!
# Marksheet.Json.Reader

Reading JSON. Blanks are space, tab, line feed and carriage return; a control character may not
stand inside quotes as it is; a number has no leading zero and no lone point; nothing but blanks
may follow the value.

* `units`  : what stands between quotes, unit by unit.
* `value`  : one value, with `fuel` for its nesting and its items.
* `parse?` : the value that a whole text is.
-/

namespace Marksheet.Json

def isSpace (c : Char) : Bool :=
  c = ' ' || c = '\t' || c = '\n' || c = '\r'

def skipSpace (text : List Char) : List Char :=
  text.dropWhile isSpace

/-! ## Texts -/

/-- A character, or half of a surrogate pair, of a text between quotes. -/
inductive TextUnit where
  | char (c : Char)
  | surrogate (code : Nat)
  deriving DecidableEq, Repr

def hexDigit? (c : Char) : Option Nat :=
  if c.isDigit then some (c.toNat - '0'.toNat)
  else if 'a' ≤ c ∧ c ≤ 'f' then some (c.toNat - 'a'.toNat + 10)
  else if 'A' ≤ c ∧ c ≤ 'F' then some (c.toNat - 'A'.toNat + 10)
  else none

def hexUnit? (a b c d : Char) : Option TextUnit := do
  let code := (((← hexDigit? a) * 16 + (← hexDigit? b)) * 16 + (← hexDigit? c)) * 16 + (← hexDigit? d)
  return if 0xD800 ≤ code ∧ code ≤ 0xDFFF then .surrogate code else .char (Char.ofNat code)

def shortEscape? (c : Char) : Option Char :=
  if c = '"' || c = '\\' || c = '/' then some c
  else if c = 'b' then some '\x08'
  else if c = 'f' then some '\x0c'
  else if c = 'n' then some '\n'
  else if c = 'r' then some '\r'
  else if c = 't' then some '\t'
  else none

/-- The units up to the closing quote, and what follows it. -/
def units : List Char → Option (List TextUnit × List Char)
  | [] => none
  | '"' :: rest => some ([], rest)
  | '\\' :: 'u' :: a :: b :: c :: d :: rest => do
    let unit ← hexUnit? a b c d
    let (others, rest) ← units rest
    return (unit :: others, rest)
  | '\\' :: escaped :: rest => do
    let c ← shortEscape? escaped
    let (others, rest) ← units rest
    return (.char c :: others, rest)
  | c :: rest => do
    if c.toNat < 0x20 then none
    else
      let (others, rest) ← units rest
      return (.char c :: others, rest)

/-- The characters that units stand for; each surrogate needs its other half behind or in front of
it. -/
def joinUnits : List TextUnit → Option (List Char)
  | [] => some []
  | .char c :: rest => (joinUnits rest).map (c :: ·)
  | .surrogate high :: .surrogate low :: rest =>
    if high < 0xDC00 ∧ 0xDC00 ≤ low then
      (joinUnits rest).map (Char.ofNat (0x10000 + (high - 0xD800) * 0x400 + (low - 0xDC00)) :: ·)
    else none
  | .surrogate _ :: _ => none

def text? (cs : List Char) : Option (Option String × List Char) := do
  let (read, rest) ← units cs
  return ((joinUnits read).map String.ofList, rest)

/-! ## Numbers -/

def digits? (text : List Char) : Option (List Char × List Char) :=
  let (run, rest) := text.span Char.isDigit
  if run.isEmpty then none else some (run, rest)

/-- Digits without a leading zero, unless it is the only one. -/
def whole? : List Char → Option (List Char × List Char)
  | '0' :: rest => some (['0'], rest)
  | text => digits? text

def fraction? : List Char → Option (List Char × List Char)
  | '.' :: rest => digits? rest
  | text => some ([], text)

def signedDigits? : List Char → Option (Int × List Char)
  | '-' :: rest => (digits? rest).map fun (run, rest) => (-(digitsValue run : Int), rest)
  | '+' :: rest => (digits? rest).map fun (run, rest) => (digitsValue run, rest)
  | text => (digits? text).map fun (run, rest) => (digitsValue run, rest)

def exponent? : List Char → Option (Option Int × List Char)
  | 'e' :: rest => (signedDigits? rest).map fun (e, rest) => (some e, rest)
  | 'E' :: rest => (signedDigits? rest).map fun (e, rest) => (some e, rest)
  | text => some (none, text)

def unsigned? (negative : Bool) (text : List Char) : Option (Number × List Char) := do
  let (whole, rest) ← whole? text
  let (fraction, rest) ← fraction? rest
  let (exponent, rest) ← exponent? rest
  return ({ negative, whole, fraction, exponent }, rest)

def number? : List Char → Option (Number × List Char)
  | '-' :: rest => unsigned? true rest
  | text => unsigned? false text

/-! ## Values -/

mutual

/-- One value, on whose first character the text starts. -/
def value : (fuel : Nat) → List Char → Option (Json × List Char)
  | 0, _ => none
  | fuel + 1, text =>
    match text with
    | 'n' :: 'u' :: 'l' :: 'l' :: rest => some (null, rest)
    | 't' :: 'r' :: 'u' :: 'e' :: rest => some (bool true, rest)
    | 'f' :: 'a' :: 'l' :: 's' :: 'e' :: rest => some (bool false, rest)
    | '"' :: rest => (text? rest).map fun (text, rest) => (string text, rest)
    | '[' :: rest =>
      match skipSpace rest with
      | ']' :: rest => some (array [], rest)
      | rest => do
        let (first, rest) ← value fuel rest
        let (others, rest) ← items fuel (skipSpace rest)
        return (array (first :: others), rest)
    | '{' :: rest =>
      match skipSpace rest with
      | '}' :: rest => some (object [], rest)
      | rest => do
        let (first, rest) ← member fuel rest
        let (others, rest) ← members fuel (skipSpace rest)
        return (object (first :: others), rest)
    | text => (number? text).map fun (read, rest) => (number read, rest)

def items : (fuel : Nat) → List Char → Option (List Json × List Char)
  | 0, _ => none
  | fuel + 1, text =>
    match text with
    | ']' :: rest => some ([], rest)
    | ',' :: rest => do
      let (first, rest) ← value fuel (skipSpace rest)
      let (others, rest) ← items fuel (skipSpace rest)
      return (first :: others, rest)
    | _ => none

def member : (fuel : Nat) → List Char → Option ((Option String × Json) × List Char)
  | 0, _ => none
  | fuel + 1, text =>
    match text with
    | '"' :: rest => do
      let (key, rest) ← text? rest
      match skipSpace rest with
      | ':' :: rest =>
        let (read, rest) ← value fuel (skipSpace rest)
        return ((key, read), rest)
      | _ => none
    | _ => none

def members : (fuel : Nat) → List Char → Option (List (Option String × Json) × List Char)
  | 0, _ => none
  | fuel + 1, text =>
    match text with
    | '}' :: rest => some ([], rest)
    | ',' :: rest => do
      let (first, rest) ← member fuel (skipSpace rest)
      let (others, rest) ← members fuel (skipSpace rest)
      return (first :: others, rest)
    | _ => none

end

/-- The value that a whole text is. Every step on the way to a value passes a character, so the
length is fuel enough. -/
def parse? (text : String) : Option Json := do
  let cs := skipSpace text.toList
  let (read, rest) ← value (cs.length + 1) cs
  if (skipSpace rest).isEmpty then some read else none

end Marksheet.Json
