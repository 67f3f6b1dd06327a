import Marksheet.Fraction.Approximation
import Marksheet.Proofs.Outcome
import Mathlib.Algebra.BigOperators.Group.List.Basic
import Mathlib.Algebra.Order.Field.Rat
import Mathlib.Data.Rat.Lemmas
import Mathlib.Tactic.FieldSimp
import Mathlib.Tactic.Ring

/-!
# Marksheet.Proofs.Fraction.Exact

The arithmetic of weights is exact. A fraction stands for a rational number (`toRat`), and every
rational number has one fraction in lowest terms (`ofRat`). An operation that answers at all, on
fractions in lowest terms, answers with the fraction in lowest terms of the mathematical result:

* `multiply_ofRat`, `divide_ofRat`, `add_ofRat`, `sum_ofRat` : the arithmetic of weights.
* `numeratorOver_ofRat`, `commonDenominator_ofRat` : bringing fractions to one denominator.
* `ofFloat_lowest` : a written factor comes out in lowest terms.
-/

namespace Marksheet

theorem inRange?_eq_ok {n m : Int} (h : inRange? n = .ok m) : m = n := by
  unfold inRange? at h
  split at h
  · cases h; rfl
  · cases h

namespace Fraction

/-- The number that a fraction stands for. -/
def toRat (x : Fraction) : ℚ := x.num / x.den

/-- The fraction in lowest terms that stands for a number. -/
def ofRat (q : ℚ) : Fraction := { num := q.num, den := q.den }

/-- In lowest terms, with a positive denominator. -/
def Lowest (x : Fraction) : Prop := 0 < x.den ∧ x.num.gcd x.den = 1

instance (x : Fraction) : Decidable x.Lowest := inferInstanceAs (Decidable (_ ∧ _))

@[simp] theorem toRat_ofRat (q : ℚ) : (ofRat q).toRat = q := by
  simp [toRat, ofRat, Rat.num_div_den]

theorem lowest_ofRat (q : ℚ) : (ofRat q).Lowest := by
  refine ⟨?_, ?_⟩
  · exact Int.natCast_pos.mpr q.den_pos
  · exact q.reduced

theorem ofRat_one : ofRat 1 = one := rfl

theorem ofInt_eq_ofRat (n : Int) : ofInt n = ofRat n := by
  simp [ofInt, ofRat]

theorem lowest_eq_ofRat {num den : Int} (h : den ≠ 0) :
    lowest num den = ofRat (num / den) := by
  have hn := Rat.num_divInt num den
  have hd := Rat.den_divInt num den
  rw [if_neg h] at hd
  have hg : den.gcd num ∣ den.natAbs := Int.natAbs_dvd_natAbs.mpr (Int.gcd_dvd_left ..)
  rw [← Rat.divInt_eq_div]
  simp only [lowest, ofRat, gcd, Fraction.mk.injEq]
  constructor
  · rw [hn, Int.gcd_comm]
  · rw [hd, Int.natCast_div, Int.gcd_comm, Int.sign_mul_self_eq_natAbs]

/-- A fraction in lowest terms is the one of the number it stands for. -/
theorem Lowest.eq_ofRat {x : Fraction} (h : x.Lowest) : x = ofRat x.toRat := by
  obtain ⟨hpos, hcop⟩ := h
  have hl : lowest x.num x.den = x := by
    simp [lowest, gcd, hcop, Int.sign_eq_one_of_pos hpos]
  rw [toRat, ← lowest_eq_ofRat hpos.ne', hl]

theorem map_ofRat_toRat {xs : List Fraction} (h : ∀ x ∈ xs, x.Lowest) :
    (xs.map toRat).map ofRat = xs := by
  rw [List.map_map]
  exact (List.map_congr_left fun x hx => (h x hx).eq_ofRat.symm).trans (List.map_id xs)

@[simp] theorem reduced_ofRat (q : ℚ) : (ofRat q).reduced = ofRat q := by
  have h : ((ofRat q).den : Int) ≠ 0 := (lowest_ofRat q).1.ne'
  rw [reduced, lowest_eq_ofRat h]
  exact congrArg ofRat (toRat_ofRat q)

/-! ## One operation -/

theorem ofPair_eq_ok {num den : Int} {z : Fraction} (h : ofPair num den = .ok z) :
    den ≠ 0 ∧ z = ofRat (num / den) := by
  unfold ofPair at h
  split at h
  · cases h
  · rename_i hd
    refine ⟨hd, ?_⟩
    rw [← lowest_eq_ofRat hd]
    obtain ⟨n, hn, h⟩ := ok_of_bind h
    obtain ⟨d, hm, h⟩ := ok_of_bind h
    cases h
    rw [inRange?_eq_ok hn, inRange?_eq_ok hm]

/-- Factors that are taken out crosswise leave the product of two quotients as it is. -/
theorem cross_cancel {a b c d g h : Int} (hg : g ≠ 0) (hh : h ≠ 0) (ga : g ∣ a) (gd : g ∣ d)
    (hb : h ∣ b) (hc : h ∣ c) :
    ((a / g * (c / h) : Int) : ℚ) / ((b / h * (d / g) : Int) : ℚ) = a / b * (c / d) := by
  obtain ⟨a, rfl⟩ := ga
  obtain ⟨d, rfl⟩ := gd
  obtain ⟨b, rfl⟩ := hb
  obtain ⟨c, rfl⟩ := hc
  have hg' : (g : ℚ) ≠ 0 := by exact_mod_cast hg
  have hh' : (h : ℚ) ≠ 0 := by exact_mod_cast hh
  rw [Int.mul_ediv_cancel_left _ hg, Int.mul_ediv_cancel_left _ hg,
    Int.mul_ediv_cancel_left _ hh, Int.mul_ediv_cancel_left _ hh]
  push_cast
  calc (a * c : ℚ) / (b * d)
      = (g * h) * (a * c) / ((g * h) * (b * d)) := by
        rw [mul_div_mul_left _ _ (mul_ne_zero hg' hh')]
    _ = g * a / (h * b) * (h * c / (g * d)) := by rw [div_mul_div_comm]; ring

theorem gcd_ne_zero_left {a : Int} (b : Int) (h : a ≠ 0) : gcd a b ≠ 0 := by
  simp [gcd, Int.gcd_eq_zero_iff, h]

theorem gcd_ne_zero_right (a : Int) {b : Int} (h : b ≠ 0) : gcd a b ≠ 0 := by
  simp [gcd, Int.gcd_eq_zero_iff, h]

theorem gcd_dvd_left (a b : Int) : gcd a b ∣ a := Int.gcd_dvd_left ..

theorem gcd_dvd_right (a b : Int) : gcd a b ∣ b := Int.gcd_dvd_right ..

/-! ## The arithmetic of weights -/

section Arithmetic

variable {x y z : Fraction}

theorem multiply_exact (hx : x.den ≠ 0) (hy : y.den ≠ 0) (h : x.multiply y = .ok z) :
    z = ofRat (x.toRat * y.toRat) := by
  obtain ⟨num, hn, h⟩ := ok_of_bind h
  obtain ⟨den, hd, h⟩ := ok_of_bind h
  obtain ⟨_, rfl⟩ := ofPair_eq_ok h
  rw [inRange?_eq_ok hn, inRange?_eq_ok hd,
    cross_cancel (gcd_ne_zero_right _ hy) (gcd_ne_zero_left _ hx)
      (gcd_dvd_left ..) (gcd_dvd_right ..) (gcd_dvd_left ..) (gcd_dvd_right ..)]
  rfl

/-- A quotient is answered only where the divisor is not zero. -/
theorem divide_exact (hx : x.den ≠ 0) (hy : y.den ≠ 0) (h : x.divide y = .ok z) :
    y.toRat ≠ 0 ∧ z = ofRat (x.toRat / y.toRat) := by
  unfold divide at h
  split at h
  · cases h
  rename_i hz
  have hn : y.num ≠ 0 := by simpa [isZero] using hz
  have hxq : (x.den : ℚ) ≠ 0 := by exact_mod_cast hx
  have hyq : (y.den : ℚ) ≠ 0 := by exact_mod_cast hy
  have hnq : (y.num : ℚ) ≠ 0 := by exact_mod_cast hn
  refine ⟨div_ne_zero hnq hyq, ?_⟩
  split at h
  · rename_i hden
    obtain ⟨_, rfl⟩ := ofPair_eq_ok h
    rw [toRat, toRat, hden, div_div_div_cancel_right₀ hyq]
  split at h
  · rename_i hnum
    obtain ⟨_, rfl⟩ := ofPair_eq_ok h
    rw [toRat, toRat, hnum, div_div_div_cancel_left' _ _ hnq]
  · obtain ⟨num, hn', h⟩ := ok_of_bind h
    obtain ⟨den, hd', h⟩ := ok_of_bind h
    obtain ⟨_, rfl⟩ := ofPair_eq_ok h
    rw [inRange?_eq_ok hn', inRange?_eq_ok hd',
      cross_cancel (gcd_ne_zero_right _ hn) (gcd_ne_zero_left _ hx)
        (gcd_dvd_left ..) (gcd_dvd_right ..) (gcd_dvd_left ..) (gcd_dvd_right ..)]
    rw [toRat, toRat, div_eq_mul_inv (x.num / x.den : ℚ), inv_div]

theorem add_exact (hx : x.den ≠ 0) (hy : y.den ≠ 0) (h : x.add y = .ok z) :
    z = ofRat (x.toRat + y.toRat) := by
  obtain ⟨multiple, hm, h⟩ := ok_of_bind h
  obtain ⟨left, hl, h⟩ := ok_of_bind h
  obtain ⟨right, hr, h⟩ := ok_of_bind h
  obtain ⟨num, hn, h⟩ := ok_of_bind h
  obtain ⟨hmz, rfl⟩ := ofPair_eq_ok h
  cases inRange?_eq_ok hl
  cases inRange?_eq_ok hr
  cases inRange?_eq_ok hn
  obtain ⟨k, hk⟩ : x.den ∣ multiple := by
    obtain ⟨d, hd⟩ := gcd_dvd_right x.den y.den
    obtain ⟨e, he⟩ := gcd_dvd_left x.den y.den
    have hg := gcd_ne_zero_left y.den hx
    refine ⟨d, ?_⟩
    rw [inRange?_eq_ok hm]
    generalize gcd x.den y.den = g at *
    rw [he, hd, Int.mul_ediv_cancel_left _ hg]
    ring
  obtain ⟨l, hl⟩ : y.den ∣ multiple := by
    rw [inRange?_eq_ok hm]
    exact Dvd.intro_left _ rfl
  have hxq : (x.den : ℚ) ≠ 0 := by exact_mod_cast hx
  have hyq : (y.den : ℚ) ≠ 0 := by exact_mod_cast hy
  have hkx : multiple / x.den = k := by rw [hk, Int.mul_ediv_cancel_left _ hx]
  have hly : multiple / y.den = l := by rw [hl, Int.mul_ediv_cancel_left _ hy]
  have hmq : (multiple : ℚ) ≠ 0 := by exact_mod_cast hmz
  rw [hkx, hly]
  congr 1
  push_cast
  have hk' : (multiple : ℚ) = x.den * k := by exact_mod_cast hk
  have hl' : (multiple : ℚ) = y.den * l := by exact_mod_cast hl
  rw [add_div, toRat, toRat]
  congr 1
  · rw [div_eq_div_iff hmq hxq, hk']; ring
  · rw [div_eq_div_iff hmq hyq, hl']; ring

end Arithmetic

theorem den_ofRat_ne_zero (q : ℚ) : (ofRat q).den ≠ 0 := (lowest_ofRat q).1.ne'

section LowestTerms

variable {a b : ℚ} {z : Fraction}

theorem multiply_ofRat (h : (ofRat a).multiply (ofRat b) = .ok z) : z = ofRat (a * b) := by
  simpa using multiply_exact (den_ofRat_ne_zero a) (den_ofRat_ne_zero b) h

theorem divide_ofRat (h : (ofRat a).divide (ofRat b) = .ok z) : b ≠ 0 ∧ z = ofRat (a / b) := by
  simpa using divide_exact (den_ofRat_ne_zero a) (den_ofRat_ne_zero b) h

theorem add_ofRat (h : (ofRat a).add (ofRat b) = .ok z) : z = ofRat (a + b) := by
  simpa using add_exact (den_ofRat_ne_zero a) (den_ofRat_ne_zero b) h

theorem foldlM_add_ofRat {qs : List ℚ} (h : (qs.map ofRat).foldlM add (ofRat a) = .ok z) :
    z = ofRat (a + qs.sum) := by
  induction qs generalizing a with
  | nil => cases h; simp
  | cons q qs ih =>
    rw [List.map_cons, List.foldlM_cons] at h
    obtain ⟨next, hn, h⟩ := ok_of_bind h
    rw [add_ofRat hn] at h
    rw [ih h, List.sum_cons, add_assoc]

theorem sum_ofRat {qs : List ℚ} (h : sum (qs.map ofRat) = .ok z) : z = ofRat qs.sum := by
  cases qs with
  | nil => cases h; rfl
  | cons q qs => exact foldlM_add_ofRat h

end LowestTerms

/-! ## One denominator -/

/-- The least common multiple of the denominators of numbers in lowest terms. -/
def leastDenominator (qs : List ℚ) : Nat := (qs.map Rat.den).foldr Nat.lcm 1

theorem leastDenominator_pos (qs : List ℚ) : 0 < leastDenominator qs := by
  induction qs with
  | nil => exact Nat.one_pos
  | cons q qs ih => exact Nat.lcm_pos q.den_pos ih

theorem den_dvd_leastDenominator {q : ℚ} {qs : List ℚ} (h : q ∈ qs) :
    q.den ∣ leastDenominator qs := by
  induction qs with
  | nil => cases h
  | cons first others ih =>
    rcases List.mem_cons.mp h with rfl | h
    · exact Nat.dvd_lcm_left ..
    · exact (ih h).trans (Nat.dvd_lcm_right ..)

theorem numeratorOver_ofRat {q : ℚ} {den k : Int} (h : (ofRat q).numeratorOver den = .ok k) :
    (k : ℚ) = den * q := by
  unfold numeratorOver at h
  rw [reduced_ofRat] at h
  split at h
  · rename_i hr
    obtain ⟨m, rfl⟩ := Int.dvd_of_emod_eq_zero hr
    have hd := den_ofRat_ne_zero q
    have hdq : ((ofRat q).den : ℚ) ≠ 0 := by exact_mod_cast hd
    rw [inRange?_eq_ok h, Int.mul_ediv_cancel_left _ hd]
    have hq : (ofRat q).den * q = ((ofRat q).num : ℚ) :=
      calc (ofRat q).den * q = (ofRat q).den * (ofRat q).toRat := by rw [toRat_ofRat]
        _ = (ofRat q).num := mul_div_cancel₀ _ hdq
    push_cast
    rw [← hq]
    ring
  · cases h

theorem ediv_gcd_mul_den (m : Nat) (q : ℚ) :
    (m : Int) / gcd m (ofRat q).den * (ofRat q).den = (m.lcm q.den : Nat) := by
  simp only [gcd, ofRat, Int.gcd_natCast_natCast]
  rw [Nat.lcm_eq_mul_div, ← Nat.div_mul_right_comm (Nat.gcd_dvd_left ..)]
  push_cast
  rfl

theorem commonMultiple_ofRat {m : Nat} {qs : List ℚ} {den : Int}
    (h : commonMultiple m (qs.map ofRat) = .ok den) : den = m.lcm (leastDenominator qs) := by
  induction qs generalizing m with
  | nil => cases h; simp [leastDenominator]
  | cons q qs ih =>
    rw [List.map_cons, commonMultiple] at h
    obtain ⟨next, hn, h⟩ := ok_of_bind h
    have hnext : next = (m.lcm q.den : Nat) := by
      rw [inRange?_eq_ok hn, reduced_ofRat, ediv_gcd_mul_den]
    rw [hnext] at h
    rw [ih h, Nat.lcm_assoc]
    rfl

theorem commonDenominator_ofRat {qs : List ℚ} {den : Int}
    (h : commonDenominator (qs.map ofRat) = .ok den) : den = leastDenominator qs := by
  have := commonMultiple_ofRat (m := 1) h
  rwa [Nat.lcm_one_left] at this

/-! ## Written factors -/

theorem ofFloat_lowest {x : Float} {z : Fraction} (h : ofFloat x = .ok z) : z.Lowest := by
  unfold ofFloat at h
  split at h
  · cases h
  split at h
  · obtain ⟨whole, hw, h⟩ := ok_of_bind h
    cases h
    exact ⟨Int.one_pos, by simp [ofInt]⟩
  · obtain ⟨found, hf, h⟩ := ok_of_bind h
    obtain ⟨_, rfl⟩ := ofPair_eq_ok hf
    cases h
    split
    · obtain ⟨hpos, hcop⟩ := lowest_ofRat (_ : ℚ)
      exact ⟨hpos, by rwa [Int.neg_gcd]⟩
    · exact lowest_ofRat _

end Fraction

end Marksheet
