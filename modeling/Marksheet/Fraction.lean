import Marksheet.Fault

/-!
# Marksheet.Fraction

Exact weights: fractions whose numerator and denominator are signed 64-bit whole numbers. A result
is always in lowest terms with a positive denominator. A number outside the range is a fault and
never wraps, and that holds of the products and sums met on the way to a result too, in the order
in which they are formed here.

* `Fraction.lowest` : a quotient in lowest terms, as a matter of arithmetic alone.
* `Fraction.ofPair` : the same, refused when it does not fit.
* `multiply`, `divide`, `add`, `sum` : the arithmetic of weights.
* `numeratorOver`, `commonDenominator` : bringing fractions to one denominator.
-/

namespace Marksheet

structure Fraction where
  num : Int
  den : Int
  deriving DecidableEq, Repr

def InRange (n : Int) : Prop := -9223372036854775808 ≤ n ∧ n ≤ 9223372036854775807

instance (n : Int) : Decidable (InRange n) := inferInstanceAs (Decidable (_ ∧ _))

/-- The number itself, refused outside the 64-bit range. -/
def inRange? (n : Int) : Except Fault Int :=
  if InRange n then .ok n else .error .overflow

theorem inRange?_ok {n : Int} (h : InRange n) : inRange? n = .ok n := if_pos h

theorem inRange?_err {n : Int} (h : ¬ InRange n) : inRange? n = .error .overflow := if_neg h

namespace Fraction

def zero : Fraction := { num := 0, den := 1 }

def one : Fraction := { num := 1, den := 1 }

instance : Inhabited Fraction := ⟨one⟩

def ofInt (n : Int) : Fraction := { num := n, den := 1 }

def gcd (a b : Int) : Int := (a.gcd b : Nat)

/-- `num / den` in lowest terms with a positive denominator; `den` is not zero. -/
def lowest (num den : Int) : Fraction :=
  { num := den.sign * num / gcd num den, den := den.sign * den / gcd num den }

def ofPair (num den : Int) : Except Fault Fraction :=
  if den = 0 then .error .divisionByZero
  else do
    let n ← inRange? (lowest num den).num
    let d ← inRange? (lowest num den).den
    return { num := n, den := d }

def reduced (x : Fraction) : Fraction := lowest x.num x.den

def isZero (x : Fraction) : Bool := x.num == 0

def compare (x y : Fraction) : Ordering :=
  Ord.compare (x.num * y.den) (y.num * x.den)

/-- Factors common to a numerator and the other denominator are taken out before the products. -/
def multiply (x y : Fraction) : Except Fault Fraction := do
  let g := gcd x.num y.den
  let h := gcd x.den y.num
  let num ← inRange? (x.num / g * (y.num / h))
  let den ← inRange? (x.den / h * (y.den / g))
  ofPair num den

/-- Equal denominators, or else equal numerators, cancel as they stand; otherwise factors common to
both numerators or both denominators are taken out before the products. -/
def divide (x y : Fraction) : Except Fault Fraction :=
  if y.isZero then .error .divisionByZero
  else if x.den = y.den then ofPair x.num y.num
  else if x.num = y.num then ofPair y.den x.den
  else do
    let g := gcd x.num y.num
    let h := gcd x.den y.den
    let num ← inRange? (x.num / g * (y.den / h))
    let den ← inRange? (x.den / h * (y.num / g))
    ofPair num den

def add (x y : Fraction) : Except Fault Fraction := do
  let multiple ← inRange? (x.den / gcd x.den y.den * y.den)
  let left ← inRange? (multiple / x.den * x.num)
  let right ← inRange? (multiple / y.den * y.num)
  let num ← inRange? (left + right)
  ofPair num multiple

/-- The sum of all of `xs`, formed from left to right. -/
def sum : List Fraction → Except Fault Fraction
  | [] => .ok zero
  | x :: xs => xs.foldlM add x

/-! ## One denominator -/

/-- The numerator of the same number over the denominator `den`, which has to be a multiple of its
own. -/
def numeratorOver (x : Fraction) (den : Int) : Except Fault Int :=
  if den % x.reduced.den = 0 then inRange? (x.reduced.num * (den / x.reduced.den))
  else .error .overflow

/-- The least common multiple of `multiple` and the denominators, formed from left to right. -/
def commonMultiple (multiple : Int) : List Fraction → Except Fault Int
  | [] => .ok multiple
  | x :: xs => do
    let next ← inRange? (multiple / gcd multiple x.reduced.den * x.reduced.den)
    commonMultiple next xs

def commonDenominator (xs : List Fraction) : Except Fault Int :=
  commonMultiple 1 xs

/-! ## Text -/

instance : ToString Fraction := ⟨fun x => s!"{x.num}/{x.den}"⟩

end Fraction

end Marksheet
