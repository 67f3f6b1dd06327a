/-!
# Marksheet.Binary64

Finite double-precision numbers as exact values, and the double nearest to an exact value.

* `roundHalfEven` : a quotient of natural numbers as a whole number, a half to the even neighbour.
* `Binary64.ofFloat?` : the exact value of a double, none for infinities and NaN.
* `Binary64.nearest`  : the double nearest to a quotient of natural numbers, ties to even.
* `Binary64.nearestDecimal` : the same for digits and a power of ten.
-/

namespace Marksheet

def roundHalfEven (num den : Nat) : Nat :=
  let quotient := num / den
  let twice := 2 * (num % den)
  if twice < den then quotient
  else if den < twice then quotient + 1
  else if quotient % 2 = 0 then quotient
  else quotient + 1

theorem roundHalfEven_of_dvd {num den : Nat} (hd : 0 < den) (h : den ∣ num) :
    roundHalfEven num den = num / den := by
  unfold roundHalfEven
  simp [Nat.mod_eq_zero_of_dvd h, hd]

/-- The value `mantissa * 2 ^ exponent` with a sign; zero has a sign as well. -/
structure Binary64 where
  negative : Bool
  mantissa : Nat
  exponent : Int
  deriving DecidableEq, Repr

namespace Binary64

def infinityBits : Nat := 2047 * Nat.pow 2 52

/-- The exact value of a finite double. -/
def ofFloat? (x : Float) : Option Binary64 :=
  let bits := x.toBits.toNat
  let negative := decide (Nat.pow 2 63 ≤ bits)
  let field : Nat := bits / Nat.pow 2 52 % Nat.pow 2 11
  let low := bits % Nat.pow 2 52
  if field = 2047 then none
  else if field = 0 then some { negative, mantissa := low, exponent := -1074 }
  else some { negative, mantissa := Nat.pow 2 52 + low, exponent := (field : Int) - 1075 }

def magnitude (x : Binary64) : Nat × Nat :=
  if 0 ≤ x.exponent then (x.mantissa * Nat.pow 2 x.exponent.toNat, 1)
  else (x.mantissa, Nat.pow 2 (-x.exponent).toNat)

def isZero (x : Binary64) : Bool := x.mantissa == 0

def isIntegral (x : Binary64) : Bool := x.magnitude.1 % x.magnitude.2 == 0

def truncate (x : Binary64) : Int :=
  let whole : Int := (x.magnitude.1 / x.magnitude.2 : Nat)
  if x.negative then -whole else whole

def withSign (negative : Bool) (bits : Nat) : Float :=
  Float.ofBits (UInt64.ofNat (if negative then Nat.pow 2 63 + bits else bits))

/-- The binary exponent with which a positive quotient takes 53 digits, or the least exponent if
that is larger. -/
def exponentOf (num den : Nat) : Int :=
  let estimate : Int := (num.log2 : Int) - den.log2 - 52
  let scaled :=
    if 0 ≤ estimate then num / (den * Nat.pow 2 estimate.toNat)
    else num * Nat.pow 2 (-estimate).toNat / den
  let exact := if scaled < Nat.pow 2 52 then estimate - 1 else estimate
  max exact (-1074)

/-- The bits, without the sign, of the double nearest to `num / den`. -/
def nearestBits (num den : Nat) : Nat :=
  if num = 0 then 0 else
    let exponent := exponentOf num den
    let mantissa :=
      if 0 ≤ exponent then roundHalfEven num (den * Nat.pow 2 exponent.toNat)
      else roundHalfEven (num * Nat.pow 2 (-exponent).toNat) den
    -- the leading one of a 53-digit mantissa carries into the exponent field, which is what
    -- the encoding of normal numbers asks for
    min ((exponent + 1074).toNat * Nat.pow 2 52 + mantissa) infinityBits

/-- The double nearest to `num / den`, infinite from half a step beyond the largest finite one. -/
def nearest (negative : Bool) (num den : Nat) : Float :=
  withSign negative (nearestBits num den)

/-- The double nearest to `digits * 10 ^ exponent`. Far beyond the range of doubles the power is not
formed: the result is then infinite or zero whatever the digits are. -/
def nearestDecimal (negative : Bool) (digits : Nat) (exponent : Int) : Float :=
  if digits = 0 || exponent < -400 - (digits.log2 : Int) then withSign negative 0
  else if 400 < exponent then withSign negative infinityBits
  else if 0 ≤ exponent then nearest negative (digits * Nat.pow 10 exponent.toNat) 1
  else nearest negative digits (Nat.pow 10 (-exponent).toNat)

def ofNat (n : Nat) : Float := nearest false n 1

def ofInt (n : Int) : Float := nearest (n < 0) n.natAbs 1

end Binary64

end Marksheet
