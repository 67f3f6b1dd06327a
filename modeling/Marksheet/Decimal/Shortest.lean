import Marksheet.Binary64

/-!
# Marksheet.Decimal.Shortest

The shortest decimal that reads back as a given double. Of the decimals with the fewest digits the
one nearest to the double is taken, and of two equally near the one with an even last digit.

A decimal reads back as the double when it lies between the midpoints to the two neighbours of the
double; a midpoint itself does when the mantissa is even. All is measured in quarters of the
double's last binary place, so that midpoints are whole.
-/

namespace Marksheet.Decimal

structure Scaled where
  digits : Nat
  exponent : Int
  deriving DecidableEq, Repr

structure Interval where
  low : Nat
  value : Nat
  high : Nat
  closed : Bool
  num : Nat
  den : Nat
  deriving Repr

/-- The numbers that read back as `mantissa * 2 ^ exponent`. Below a power of two the neighbour is
only half as far away, unless the exponent is the least one. -/
def readingBack (x : Binary64) : Interval :=
  let powerOfTwo := x.mantissa == Nat.pow 2 52 && -1074 < x.exponent
  let exponent := x.exponent - 2
  { low := 4 * x.mantissa - (if powerOfTwo then 1 else 2)
    value := 4 * x.mantissa
    high := 4 * x.mantissa + 2
    closed := x.mantissa % 2 == 0
    num := Nat.pow 2 exponent.toNat
    den := Nat.pow 2 (-exponent).toNat }

namespace Interval

def timesPower (interval : Interval) (exponent : Int) : Interval :=
  { interval with
    num := interval.num * Nat.pow 10 exponent.toNat
    den := interval.den * Nat.pow 10 (-exponent).toNat }

def contains (interval : Interval) (n : Nat) : Bool :=
  let scaled := n * interval.den
  if interval.closed then interval.low * interval.num ≤ scaled && scaled ≤ interval.high * interval.num
  else interval.low * interval.num < scaled && scaled < interval.high * interval.num

/-- The whole number in it that is nearest to its value, if there is one: one of the two around the
value. -/
def nearestWhole? (interval : Interval) : Option Nat :=
  let below := interval.value * interval.num / interval.den
  let above := below + 1
  match interval.contains below, interval.contains above with
  | true, true =>
    let twice := 2 * (interval.value * interval.num % interval.den)
    if twice < interval.den then some below
    else if interval.den < twice then some above
    else if below % 2 = 0 then some below
    else some above
  | true, false => some below
  | false, true => some above
  | false, false => none

end Interval

/-- Looks for a decimal on the grids `10 ^ exponent`, each ten times as fine as the one before, and
takes the first that has one. -/
def onFirstGrid (interval : Interval) : (grids : Nat) → (exponent : Int) → Scaled
  | 0, exponent => { digits := 0, exponent }
  | grids + 1, exponent =>
    match (interval.timesPower (-exponent)).nearestWhole? with
    | some digits => { digits, exponent }
    | none => onFirstGrid interval grids (exponent - 1)

/-- An exponent whose power of ten is not below `mantissa * 2 ^ exponent`: 30103 / 100000 is a
little more than the logarithm of two. -/
def coarsest (x : Binary64) : Int :=
  let bits : Int := x.mantissa.log2 + 1 + x.exponent
  bits * 30103 / 100000 + 1

/-- The shortest decimal of a number that is not zero. Seventeen digits always suffice, and the
coarsest grid is at most a few steps too coarse. -/
def shortest (x : Binary64) : Scaled :=
  onFirstGrid (readingBack x) 24 (coarsest x)

end Marksheet.Decimal
