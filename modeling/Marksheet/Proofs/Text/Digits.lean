import Marksheet.Proofs.Text.Runs
import Mathlib

/-!
# Marksheet.Proofs.Text.Digits

The numbers that runs of digits write.

* `digitsValue_append` : digits behind others move these up.
* `digitsValue_lt`, `le_digitsValue` : how large a number of so many digits is.
* `digitsValue_lastDigits` : the last digits of a number write its remainder.
-/

namespace Marksheet

theorem digitsValue_concat (digits : List Char) (c : Char) :
    digitsValue (digits ++ [c]) = 10 * digitsValue digits + digitValue c := by
  simp [digitsValue]

theorem digitsValue_append (front back : List Char) :
    digitsValue (front ++ back) = digitsValue front * 10 ^ back.length + digitsValue back := by
  induction back using List.reverseRecOn with
  | nil => simp [digitsValue]
  | append_singleton back c ih =>
    rw [← List.append_assoc, digitsValue_concat, digitsValue_concat, ih, List.length_append,
      List.length_singleton, Nat.pow_succ]
    ring

theorem digitValue_lt {c : Char} (h : c.isDigit = true) : digitValue c < 10 := by
  have hle : c.toNat ≤ 57 := by
    simp only [Char.isDigit, Bool.and_eq_true, decide_eq_true_eq] at h
    exact h.2
  have hzero : '0'.toNat = 48 := rfl
  rw [digitValue, hzero]
  omega

theorem digitsValue_lt {digits : List Char} (h : ∀ c ∈ digits, c.isDigit = true) :
    digitsValue digits < 10 ^ digits.length := by
  induction digits using List.reverseRecOn with
  | nil => simp [digitsValue]
  | append_singleton digits c ih =>
    have hfront := ih fun d hd => h d (List.mem_append_left _ hd)
    have hlast := digitValue_lt (h c (by simp))
    rw [digitsValue_concat, List.length_append, List.length_singleton, Nat.pow_succ]
    omega

theorem digitValue_pos {c : Char} (h : c.isDigit = true) (hc : c ≠ '0') : 0 < digitValue c := by
  have hle : 48 ≤ c.toNat := by
    simp only [Char.isDigit, Bool.and_eq_true, decide_eq_true_eq] at h
    exact h.1
  have hne : c.toNat ≠ 48 := fun he => hc (Char.toNat_inj.mp he)
  have hzero : '0'.toNat = 48 := rfl
  rw [digitValue, hzero]
  omega

/-- Digits with another one than zero in front write a number that has as many digits. -/
theorem le_digitsValue {c : Char} {digits : List Char} (h : c.isDigit = true) (hc : c ≠ '0') :
    10 ^ digits.length ≤ digitsValue (c :: digits) := by
  have happend := digitsValue_append [c] digits
  have hfirst : digitsValue [c] = digitValue c := by simp [digitsValue]
  rw [List.singleton_append, hfirst] at happend
  rw [happend]
  exact Nat.le_add_right_of_le (Nat.le_mul_of_pos_left _ (digitValue_pos h hc))

theorem isDigit_digitChar : ∀ n < 10, n.digitChar.isDigit = true := by
  decide

theorem isDigit_lastDigits (places n : Nat) : ∀ c ∈ lastDigits places n, c.isDigit = true := by
  induction places generalizing n with
  | zero => simp [lastDigits]
  | succ places ih =>
    intro c hc
    rcases List.mem_append.mp hc with hc | hc
    · exact ih (n / 10) c hc
    · rw [List.mem_singleton.mp hc]
      exact isDigit_digitChar (n % 10) (Nat.mod_lt n (by decide))

theorem digitsValue_lastDigits (places n : Nat) :
    digitsValue (lastDigits places n) = n % 10 ^ places := by
  induction places generalizing n with
  | zero => simp [lastDigits, digitsValue, Nat.mod_one]
  | succ places ih =>
    rw [lastDigits, digitsValue_concat, ih, digitValue_digitChar _ (Nat.mod_lt _ (by omega)),
      Nat.pow_succ, Nat.mul_comm (10 ^ places), Nat.mod_mul]
    omega

end Marksheet
