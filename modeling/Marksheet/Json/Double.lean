import Marksheet.Decimal.Shortest
import Marksheet.Json

/-!
# Marksheet.Json.Double

Doubles as JSON numbers.

* `ofDouble`  : the shortest digits that read back, always with a point or an exponent; infinities
  and NaN, which JSON lacks, are null.
* `toDouble?` : the double that a JSON number is read as, none beyond the range of doubles.

Reading is not always to the nearest double. It takes as many digits as fit into 64 bits and then
multiplies or divides by a power of ten, in double arithmetic.
-/

namespace Marksheet.Json

/-! ## Writing -/

/-- Numbers from `10 ^ leastPlain` up to `10 ^ leastScientific` are written without an exponent. -/
def leastPlain : Int := -5

def leastScientific : Int := 16

def Number.ofScaled (negative : Bool) (x : Decimal.Scaled) : Number :=
  let digits := decimalDigits x.digits
  let point := x.exponent + digits.length
  if point - 1 < leastPlain ∨ leastScientific ≤ point - 1 then
    { negative, whole := digits.take 1, fraction := digits.drop 1, exponent := some (point - 1) }
  else if 0 ≤ x.exponent then
    { negative, whole := digits ++ List.replicate x.exponent.toNat '0', fraction := ['0'] }
  else if 0 < point then
    { negative, whole := digits.take point.toNat, fraction := digits.drop point.toNat }
  else { negative, whole := ['0'], fraction := List.replicate (-point).toNat '0' ++ digits }

def ofDouble (x : Float) : Json :=
  match Binary64.ofFloat? x with
  | none => null
  | some exact =>
    if exact.isZero then number { negative := exact.negative, whole := ['0'], fraction := ['0'] }
    else number (.ofScaled exact.negative (Decimal.shortest exact))

/-! ## Reading -/

/-- Digits taken into `significand` for as long as it stays below `2 ^ 64`, and those left over. -/
def takeDigits (significand : Nat) : List Char → Nat × List Char
  | [] => (significand, [])
  | digit :: rest =>
    let next := 10 * significand + digitValue digit
    if next < Nat.pow 2 64 then takeDigits next rest else (significand, digit :: rest)

/-- The digits of a number as far as they fit into 64 bits, and the power of ten they stand for. -/
def Number.significand (number : Number) : Decimal.Scaled :=
  let (whole, wholeLeft) := takeDigits 0 number.whole
  let (digits, fractionLeft) := takeDigits whole number.fraction
  let taken : Int := number.fraction.length - fractionLeft.length
  { digits, exponent := wholeLeft.length - taken + number.exponent.getD 0 }

def largestStep : Nat := 308

def powerOfTen (n : Nat) : Float :=
  Binary64.ofNat (Nat.pow 10 n)

/-- `x * 10 ^ exponent`, none when that is not finite. -/
def timesPowerOfTen (x : Float) (exponent : Int) : Option Float :=
  if exponent.natAbs ≤ largestStep then
    if 0 ≤ exponent then
      let product := x * powerOfTen exponent.toNat
      if (Binary64.ofFloat? product).isNone then none else some product
    else some (x / powerOfTen exponent.natAbs)
  else if x == 0 then some x
  else if 0 ≤ exponent then none
  else timesPowerOfTen (x / powerOfTen largestStep) (exponent + largestStep)
termination_by exponent.natAbs
decreasing_by
  simp only [largestStep] at *
  omega

def Number.toDouble? (number : Number) : Option Float := do
  let scaled := number.significand
  let size ← timesPowerOfTen (Binary64.ofNat scaled.digits) scaled.exponent
  return if number.negative then -size else size

/-- The natural number that digits alone write, if it fits into 64 bits. -/
def Number.toNat? (number : Number) : Option Nat :=
  if number.negative || !number.fraction.isEmpty || number.exponent.isSome then none
  else if digitsValue number.whole < Nat.pow 2 64 then some (digitsValue number.whole)
  else none

end Marksheet.Json
