import Marksheet.Scan
import Marksheet.Binary64
import Marksheet.Text

/-!
# Marksheet.Numeral

Numbers as they are written: an optional sign, digits with at most one point among them, and, where
exponents are allowed, a marker and a second numeral of the same form.

* `Numeral.scan` : the longest numeral, which may be empty.
* `Numeral.value?` : its value, none without a digit.
* `Number.scan`  : a whole number with its exponent; none, with nothing passed, where no number
  starts.
-/

namespace Marksheet

inductive Sign where
  | plus
  | minus
  deriving DecidableEq, Repr

structure Numeral where
  sign : Option Sign
  whole : List Char
  /-- The digits behind the point, none without a point. -/
  fraction : Option (List Char)
  deriving DecidableEq, Repr

namespace Numeral

variable {σ : Type} [Feed σ]

def isEmpty (numeral : Numeral) : Bool :=
  numeral.sign.isNone && numeral.whole.isEmpty && numeral.fraction.isNone

def digits (numeral : Numeral) : List Char :=
  numeral.whole ++ numeral.fraction.getD []

/-- The double nearest to the number written, none without a digit. -/
def value? (numeral : Numeral) : Option Float :=
  if numeral.digits.isEmpty then none
  else some (Binary64.nearest (numeral.sign = some .minus) (digitsValue numeral.digits)
    (Nat.pow 10 (numeral.fraction.getD []).length))

def scanSign : Scan σ (Option Sign) := do
  match ← Scan.current with
  | some '+' => Scan.advance; return some .plus
  | some '-' => Scan.advance; return some .minus
  | _ => return none

/-- The digits behind a point, if there is one; a second point is refused. -/
def scanFraction : Scan σ (Option (List Char)) := do
  if (← Scan.current) = some '.' then
    Scan.advance
    let digits ← Scan.takeWhile Char.isDigit
    if (← Scan.current) = some '.' then throw (.secondPoint (← Scan.position))
    return some digits
  else return none

/-- The longest numeral, possibly an empty one. -/
def scan : Scan σ Numeral := do
  let sign ← scanSign
  let whole ← Scan.takeWhile Char.isDigit
  let fraction ← scanFraction
  return { sign, whole, fraction }

theorem forward_scanSign : Scan.Forward (scanSign : Scan σ (Option Sign)) := by
  refine Scan.Forward.bind Scan.forward_current fun current => ?_
  split
  · exact Scan.Forward.bind Scan.forward_advance fun _ => Scan.forward_pure _
  · exact Scan.Forward.bind Scan.forward_advance fun _ => Scan.forward_pure _
  · exact Scan.forward_pure _

theorem forward_scanFraction : Scan.Forward (scanFraction : Scan σ (Option (List Char))) := by
  refine Scan.Forward.bind Scan.forward_current fun current => ?_
  split
  · refine Scan.Forward.bind Scan.forward_advance fun _ => ?_
    refine Scan.Forward.bind (Scan.forward_takeWhile _) fun _ => ?_
    refine Scan.Forward.bind Scan.forward_current fun _ => ?_
    split
    · exact Scan.Forward.bind Scan.forward_position fun _ =>
        Scan.Forward.bind (Scan.forward_throw _) fun _ => Scan.forward_pure _
    · exact Scan.forward_pure _
  · exact Scan.forward_pure _

theorem forward_scan : Scan.Forward (scan : Scan σ Numeral) :=
  Scan.Forward.bind forward_scanSign fun _ =>
    Scan.Forward.bind (Scan.forward_takeWhile _) fun _ =>
      Scan.Forward.bind forward_scanFraction fun _ => Scan.forward_pure _

theorem scanSign_lt {cursor behind : Cursor σ} {sign : Sign}
    (h : scanSign cursor = .ok (some sign) behind) : behind.size < cursor.size := by
  obtain ⟨current, between, h₁, h₂⟩ := Scan.bind_ok h
  obtain ⟨hc, rfl⟩ := Scan.current_ok h₁
  split at h₂
  · cases h₂; exact Cursor.size_advance_lt hc
  · cases h₂; exact Cursor.size_advance_lt hc
  · cases h₂

theorem scanFraction_lt {cursor behind : Cursor σ} {digits : List Char}
    (h : scanFraction cursor = .ok (some digits) behind) : behind.size < cursor.size := by
  obtain ⟨current, between, h₁, h₂⟩ := Scan.bind_ok h
  cases h₁
  split at h₂
  · rename_i hc
    obtain ⟨_, next, h₃, h₄⟩ := Scan.bind_ok h₂
    cases h₃
    refine Nat.lt_of_le_of_lt ?_ (Cursor.size_advance_lt hc)
    refine (Scan.Forward.bind (Scan.forward_takeWhile _) fun _ => ?_) _ _ _ h₄
    refine Scan.Forward.bind Scan.forward_current fun _ => ?_
    split
    · exact Scan.Forward.bind Scan.forward_position fun _ =>
        Scan.Forward.bind (Scan.forward_throw _) fun _ => Scan.forward_pure _
    · exact Scan.forward_pure _
  · cases h₂

theorem scan_lt {cursor behind : Cursor σ} {numeral : Numeral}
    (h : scan cursor = .ok numeral behind) (hn : numeral.isEmpty = false) :
    behind.size < cursor.size := by
  obtain ⟨sign, afterSign, h₁, h⟩ := Scan.bind_ok h
  obtain ⟨whole, afterWhole, h₂, h⟩ := Scan.bind_ok h
  obtain ⟨fraction, afterFraction, h₃, h⟩ := Scan.bind_ok h
  cases h
  have hw := Scan.forward_takeWhile _ _ _ _ h₂
  have hf := forward_scanFraction _ _ _ h₃
  cases sign with
  | some sign => exact Nat.lt_of_le_of_lt (Nat.le_trans hf hw) (scanSign_lt h₁)
  | none =>
    have hs := forward_scanSign _ _ _ h₁
    cases fraction with
    | some digits => exact Nat.lt_of_lt_of_le (scanFraction_lt h₃) (Nat.le_trans hw hs)
    | none =>
      have hne : whole ≠ [] := by
        intro e
        subst e
        simp [isEmpty] at hn
      exact Nat.lt_of_le_of_lt hf (Nat.lt_of_lt_of_le (Scan.takeWhile_lt h₂ hne) hs)

def valueAt (numeral : Numeral) (position : Nat) : Except Fault Float :=
  match numeral.value? with
  | some value => .ok value
  | none => .error (.noDigit position)

end Numeral

/-! ## Exponents -/

namespace Number

variable {σ : Type} [Feed σ]

/-- The product of the `square`s picked by the binary digits of `n`, in double arithmetic: each
step halves `n` and squares `square`, so the roundings are those of repeated squaring. -/
def squarings (n : Nat) (square product : Float) : Float :=
  let product := if n % 2 = 1 then product * square else product
  if n < 2 then product else squarings (n / 2) (square * square) product
termination_by n
decreasing_by omega

def powerOfTen (n : Nat) : Float :=
  squarings n 10 1

def largestSquared : Nat := Nat.pow 2 31 - 1

/-- A mantissa with its exponent. A whole exponent divides or multiplies by a power of ten, so that
`25e-1` is exactly `2.5`; any other goes through the real power. -/
def scale (mantissa exponent : Float) : Float :=
  match Binary64.ofFloat? exponent with
  | some e =>
    if e.isIntegral && e.truncate.natAbs ≤ largestSquared then
      let power := powerOfTen e.truncate.natAbs
      if exponent < 0 then mantissa / power else mantissa * power
    else mantissa * Float.pow 10 exponent
  | none => mantissa * Float.pow 10 exponent

def isMarker (current : Option Char) : Bool :=
  current = some 'e' || current = some 'E'

def scanExponent (start : Nat) (mantissa : Numeral) : Scan σ Float := do
  Scan.advance
  let value ← mantissa.valueAt start
  let position ← Scan.position
  let exponent ← (← Numeral.scan).valueAt position
  return scale value exponent

/-- A number, none where none starts. With `exponents` a marker belongs to the number, and what
follows it has to be a numeral; without, a number ends in front of it. -/
def scan (exponents : Bool) : Scan σ (Option Float) := do
  let start ← Scan.position
  let mantissa ← Numeral.scan
  if exponents && isMarker (← Scan.current) then
    if mantissa.isEmpty then throw (.leadingExponent start)
    else return some (← scanExponent start mantissa)
  else if mantissa.isEmpty then return none
  else return some (← mantissa.valueAt start)

theorem forward_scanExponent (start : Nat) (mantissa : Numeral) :
    Scan.Forward (scanExponent start mantissa : Scan σ Float) := by
  refine Scan.Forward.bind Scan.forward_advance fun _ => ?_
  refine Scan.Forward.bind (Scan.forward_lift _) fun _ => ?_
  refine Scan.Forward.bind Scan.forward_position fun _ => ?_
  refine Scan.Forward.bind Numeral.forward_scan fun _ => ?_
  exact Scan.Forward.bind (Scan.forward_lift _) fun _ => Scan.forward_pure _

theorem forward_scan (exponents : Bool) : Scan.Forward (scan exponents : Scan σ (Option Float)) := by
  refine Scan.Forward.bind Scan.forward_position fun _ => ?_
  refine Scan.Forward.bind Numeral.forward_scan fun _ => ?_
  refine Scan.Forward.bind Scan.forward_current fun _ => ?_
  split
  · split
    · exact Scan.forward_throw _
    · exact Scan.Forward.bind (forward_scanExponent _ _) fun _ => Scan.forward_pure _
  · split
    · exact Scan.forward_pure _
    · exact Scan.Forward.bind (Scan.forward_lift _) fun _ => Scan.forward_pure _

theorem scan_lt {cursor behind : Cursor σ} {value : Float}
    (h : scan false cursor = .ok (some value) behind) : behind.size < cursor.size := by
  obtain ⟨start, _, h₁, h⟩ := Scan.bind_ok h
  cases h₁
  obtain ⟨mantissa, afterMantissa, h₂, h⟩ := Scan.bind_ok h
  obtain ⟨current, _, h₃, h⟩ := Scan.bind_ok h
  cases h₃
  simp only [Bool.false_and, Bool.false_eq_true, if_false] at h
  split at h
  · cases h
  · rename_i hm
    refine Nat.lt_of_le_of_lt ?_ (Numeral.scan_lt h₂ (by simpa using hm))
    exact (Scan.Forward.bind (Scan.forward_lift _) fun _ => Scan.forward_pure _) _ _ _ h

end Number

end Marksheet
