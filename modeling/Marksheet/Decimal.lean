import Marksheet.Binary64
import Marksheet.Text

/-!
# Marksheet.Decimal

Doubles as decimal texts.

In tables and sentences a mark is rounded to four decimal places, a half going to the even
neighbour, without zeros at the end of the fraction. A whole text is read as one number when it is
an optional sign, and then either digits with at most one point among them and an optional whole
exponent, or one of the words `inf`, `infinity` and `nan` in any mixture of cases. Nothing else may
stand in it, blanks neither.

* `Decimal.fixed`   : a number of units with all its places, the minus sign in front of zero too.
* `Decimal.trimmed` : such a text without the zeros at its end, and without a point left there.
* `Decimal.shown`   : the text of a double.
* `Decimal.read?`   : the number that a whole text writes.
-/

namespace Marksheet.Decimal

/-! ## Showing -/

def shownPlaces : Nat := 4

/-- The size of the value in units of the last place shown. -/
def shownUnits (x : Binary64) : Nat :=
  roundHalfEven (x.magnitude.1 * Nat.pow 10 shownPlaces) x.magnitude.2

def fixed (negative : Bool) (units : Nat) : List Char :=
  let sign := if negative then ['-'] else []
  sign ++ (decimalDigits (units / Nat.pow 10 shownPlaces)
    ++ '.' :: lastDigits shownPlaces (units % Nat.pow 10 shownPlaces))

/-- The text without the zeros and then the points at its end; minus zero is shown as zero. -/
def trimmed (text : List Char) : List Char :=
  let text := Text.dropEndWhile (· == '.') (Text.dropEndWhile (· == '0') text)
  if text = ['-', '0'] then ['0'] else text

def fixedText (x : Float) : List Char :=
  match Binary64.ofFloat? x with
  | some exact => fixed exact.negative (shownUnits exact)
  | none => if x < 0 then "-inf".toList else if 0 < x then "inf".toList else "NaN".toList

def shown (x : Float) : String :=
  String.ofList (trimmed (fixedText x))

/-! ## Reading -/

/-- Takes a sign off; true for a minus. -/
def takeSign : List Char → Bool × List Char
  | '+' :: rest => (false, rest)
  | '-' :: rest => (true, rest)
  | text => (false, text)

/-- The exponent that a marker and a whole number write; zero when nothing is left. -/
def readExponent? : List Char → Option Int
  | [] => some 0
  | marker :: rest =>
    if marker = 'e' || marker = 'E' then
      let (negative, digits) := takeSign rest
      if digits.isEmpty || !digits.all Char.isDigit then none
      else some (if negative then -(digitsValue digits : Int) else digitsValue digits)
    else none

def takeFraction : List Char → List Char × List Char
  | '.' :: rest => rest.span Char.isDigit
  | text => ([], text)

def readUnsigned? (negative : Bool) (text : List Char) : Option Float := do
  let (whole, rest) := text.span Char.isDigit
  let (fraction, rest) := takeFraction rest
  if whole.isEmpty && fraction.isEmpty then none
  else
    let exponent ← readExponent? rest
    return Binary64.nearestDecimal negative (digitsValue (whole ++ fraction))
      (exponent - fraction.length)

def read? (text : String) : Option Float :=
  let (negative, rest) := takeSign text.toList
  let word := rest.map Char.toLower
  if word = ['i', 'n', 'f'] || word = ['i', 'n', 'f', 'i', 'n', 'i', 't', 'y'] then
    some (Binary64.withSign negative Binary64.infinityBits)
  else if word = ['n', 'a', 'n'] then some (0 / 0)
  else readUnsigned? negative rest

end Marksheet.Decimal
