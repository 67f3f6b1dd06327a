/-!
# Marksheet.Text

Texts as lists of characters: the blanks that may stand between the parts of a formula, and runs of
decimal digits with the numbers they write.

* `Text.trimBlanks` : a text without the blanks at its two ends.
* `digitsValue` : the number that a run of digits writes.
* `decimalDigits` : the digits of a number, without leading zeros.
-/

namespace Marksheet

namespace Text

/-- The Unicode property White_Space. -/
def isBlank (c : Char) : Bool :=
  let code := c.toNat
  (9 ≤ code && code ≤ 13) || code == 0x20 || code == 0x85 || code == 0xA0 || code == 0x1680
    || (0x2000 ≤ code && code ≤ 0x200A) || code == 0x2028 || code == 0x2029 || code == 0x202F
    || code == 0x205F || code == 0x3000

def dropEndWhile (p : Char → Bool) (cs : List Char) : List Char :=
  (cs.reverse.dropWhile p).reverse

def trimBlanks (cs : List Char) : List Char :=
  dropEndWhile isBlank (cs.dropWhile isBlank)

end Text

/-! ## Digits -/

def digitValue (digit : Char) : Nat :=
  digit.toNat - '0'.toNat

def digitsValue (digits : List Char) : Nat :=
  digits.foldl (fun value digit => 10 * value + digitValue digit) 0

/-- The decimal digits of a number; zero has one. -/
def decimalDigits (n : Nat) : List Char :=
  Nat.toDigits 10 n

/-- The last `places` decimal digits of a number, leading zeros included. -/
def lastDigits : (places : Nat) → Nat → List Char
  | 0, _ => []
  | places + 1, n => lastDigits places (n / 10) ++ [Nat.digitChar (n % 10)]

theorem length_lastDigits (places n : Nat) : (lastDigits places n).length = places := by
  induction places generalizing n with
  | zero => rfl
  | succ places ih => simp [lastDigits, ih]

end Marksheet
