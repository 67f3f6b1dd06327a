import Marksheet.Fraction
import Marksheet.Binary64

/-!
# Marksheet.Fraction.Approximation

The fraction that a written factor stands for. A whole double is taken as it is; any other is
expanded into a continued fraction, in double arithmetic, until a convergent comes back to it. A
short decimal such as `2.5` or `0.1` comes out as the fraction that was meant.
-/

namespace Marksheet.Fraction

def largest : Int := 9223372036854775807

def tolerance : Float := Binary64.nearest false 1 (Nat.pow 10 19)

/-- A remainder below this is taken for none. -/
def negligible : Float := Binary64.nearest false 1 (Nat.pow 2 63)

/-- The whole part of a double, if it is finite and fits. -/
def wholePart? (x : Float) : Option Int :=
  match Binary64.ofFloat? x with
  | some exact => if InRange exact.truncate then some exact.truncate else none
  | none => none

/-- The convergent after `last` and `current`, with `a` as the next partial quotient, if all its
parts fit. -/
def nextConvergent? (a : Int) (last current : Fraction) : Option Fraction :=
  if a ≠ 0 ∧ (current.num > largest / a ∨ current.den > largest / a
      ∨ a * current.num > largest - last.num ∨ a * current.den > largest - last.den) then none
  else some { num := a * current.num + last.num, den := a * current.den + last.den }

/-- Convergents of `target`, at most `steps` of them. `rest` is what is still to be expanded, `last`
and `current` are the two convergents before; the last one reached is the answer. -/
def expand (target : Float) : (steps : Nat) → (rest : Float) → (last current : Fraction) → Fraction
  | 0, _, _, current => current
  | steps + 1, rest, last, current =>
    match wholePart? rest with
    | none => current
    | some a =>
      match nextConvergent? a last current with
      | none => current
      | some next =>
        let remainder := rest - Binary64.ofInt a
        let error := (Binary64.ofInt next.num / Binary64.ofInt next.den - target).abs
        if error < tolerance || remainder < negligible then next
        else expand target steps (1 / remainder) current next

def longestExpansion : Nat := 30

def approximate (target : Float) : Except Fault Fraction :=
  let found := expand target longestExpansion target { num := 0, den := 1 } { num := 1, den := 0 }
  ofPair found.num found.den

def ofFloat (x : Float) : Except Fault Fraction :=
  match Binary64.ofFloat? x with
  | none => .error .overflow
  | some exact =>
    if exact.isIntegral then do
      let whole ← inRange? exact.truncate
      return ofInt whole
    else do
      let found ← approximate x.abs
      return if exact.negative then { found with num := -found.num } else found

end Marksheet.Fraction
