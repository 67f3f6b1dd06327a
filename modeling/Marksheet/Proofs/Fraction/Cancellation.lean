import Marksheet.Proofs.Fraction.Range
import Mathlib.RingTheory.Coprime.Lemmas

/-!
# Marksheet.Proofs.Fraction.Cancellation

Where a result fits it is answered. Products and quotients take common factors out crosswise before
they multiply, so what they multiply is in lowest terms already, and no number on the way is larger
than the parts of the result.

* `isCoprime_cross` : nothing is left to cancel.
* `multiply_eq_fitting` : a product is answered just where it fits.
* `divide_eq_fitting` : so is a quotient, but for one number when the divisor is negative.
* `fits_mul_den` : where a number is brought to a common denominator within the range, it can be
  multiplied by any one of the denominators.
-/

namespace Marksheet

theorem inRange_of_mul {n k : Int} (hk : 1 ≤ k) (h : InRange (n * k)) : InRange n := by
  obtain ⟨hlow, hhigh⟩ := h
  rcases Int.le_total 0 n with hn | hn
  · have hle : n ≤ n * k := le_mul_of_one_le_right hn hk
    constructor <;> omega
  · have hle : n * k ≤ n := mul_le_of_one_le_right hn hk
    constructor <;> omega

namespace Fraction

variable {a b q : ℚ}

/-! ## Lowest terms -/

theorem isCoprime_div_gcd {m n : Int} (h : gcd m n ≠ 0) :
    IsCoprime (m / gcd m n) (n / gcd m n) := by
  have hpos : 0 < m.gcd n := by
    have hne : m.gcd n ≠ 0 := fun hz => h (by rw [gcd, hz]; rfl)
    omega
  exact Int.isCoprime_iff_gcd_eq_one.mpr (Int.gcd_ediv_gcd_ediv_gcd hpos)

/-- Once common factors are taken out crosswise, the products have none. -/
theorem isCoprime_cross {a b c d : Int} (hab : IsCoprime a b) (hcd : IsCoprime c d) (hb : b ≠ 0)
    (hd : d ≠ 0) :
    IsCoprime (a / gcd a d * (c / gcd b c)) (b / gcd b c * (d / gcd a d)) := by
  have ha : a / gcd a d ∣ a := Int.ediv_dvd_of_dvd (gcd_dvd_left ..)
  have hb' : b / gcd b c ∣ b := Int.ediv_dvd_of_dvd (gcd_dvd_left ..)
  have hc : c / gcd b c ∣ c := Int.ediv_dvd_of_dvd (gcd_dvd_right ..)
  have hd' : d / gcd a d ∣ d := Int.ediv_dvd_of_dvd (gcd_dvd_right ..)
  have had := isCoprime_div_gcd (gcd_ne_zero_right a hd)
  have hbc := isCoprime_div_gcd (gcd_ne_zero_left c hb)
  refine IsCoprime.mul_left ?_ ?_
  · exact ((hab.of_isCoprime_of_dvd_left ha).of_isCoprime_of_dvd_right hb').mul_right had
  · exact hbc.symm.mul_right ((hcd.of_isCoprime_of_dvd_left hc).of_isCoprime_of_dvd_right hd')

theorem isCoprime_parts (q : ℚ) : IsCoprime q.num q.den :=
  Int.isCoprime_iff_gcd_eq_one.mpr q.reduced

/-- A positive denominator without common factors makes the fraction of a number. -/
theorem eq_ofRat_of_isCoprime {num den : Int} (hd : 0 < den) (h : IsCoprime num den)
    (hq : (num : ℚ) / den = q) : num = q.num ∧ den = q.den := by
  have hl : Lowest { num, den } := ⟨hd, Int.isCoprime_iff_gcd_eq_one.mp h⟩
  have he := hl.eq_ofRat
  rw [toRat, hq] at he
  exact ⟨congrArg Fraction.num he, congrArg Fraction.den he⟩

/-! ## Results that fit -/

def least : Int := -9223372036854775808

/-- The fraction of a number, refused where it does not fit. -/
def fitting (q : ℚ) : Except Fault Fraction :=
  if (ofRat q).Fits then .ok (ofRat q) else .error .overflow

theorem fitting_of_fits (h : (ofRat q).Fits) : fitting q = .ok (ofRat q) := if_pos h

theorem fitting_of_not_fits (h : ¬ (ofRat q).Fits) : fitting q = .error .overflow := if_neg h

theorem ofPair_eq_fitting {num den : Int} (hd : den ≠ 0) (hq : (num : ℚ) / den = q) :
    ofPair num den = fitting q := by
  have hl : lowest num den = ofRat q := by rw [lowest_eq_ofRat hd, hq]
  rw [ofPair, if_neg hd, hl]
  by_cases hnum : InRange (ofRat q).num
  · rw [inRange?_ok hnum, ok_bind]
    by_cases hden : InRange (ofRat q).den
    · rw [inRange?_ok hden, fitting_of_fits ⟨hnum, hden⟩]
      rfl
    · rw [inRange?_err hden, fitting_of_not_fits fun h => hden h.den]
      rfl
  · rw [inRange?_err hnum, fitting_of_not_fits fun h => hnum h.num]
    rfl

/-- Two products that are checked before they are divided. Where they are in range as soon as the
result is, no check is in vain. -/
theorem products_eq_fitting {num den : Int} (hd : den ≠ 0) (hq : (num : ℚ) / den = q)
    (h : (ofRat q).Fits → InRange num ∧ InRange den) :
    (do let n ← inRange? num; let d ← inRange? den; ofPair n d) = fitting q := by
  by_cases hnum : InRange num
  · rw [inRange?_ok hnum, ok_bind]
    by_cases hden : InRange den
    · rw [inRange?_ok hden, ok_bind, ofPair_eq_fitting hd hq]
    · rw [inRange?_err hden, fitting_of_not_fits fun hf => hden (h hf).2]
      rfl
  · rw [inRange?_err hnum, fitting_of_not_fits fun hf => hnum (h hf).1]
    rfl

theorem ediv_gcd_pos_left {m n : Int} (h : 0 < m) : 0 < m / gcd m n :=
  Int.ediv_pos_of_pos_of_dvd h (Int.natCast_nonneg _) (gcd_dvd_left ..)

theorem ediv_gcd_pos_right {m n : Int} (h : 0 < n) : 0 < n / gcd m n :=
  Int.ediv_pos_of_pos_of_dvd h (Int.natCast_nonneg _) (gcd_dvd_right ..)

/-- Crosswise cancelled, the products of a multiplication are the parts of the result. -/
theorem multiply_eq_fitting (a b : ℚ) : (ofRat a).multiply (ofRat b) = fitting (a * b) := by
  have ha := (lowest_ofRat a).1
  have hb := (lowest_ofRat b).1
  have hden := Int.mul_pos (ediv_gcd_pos_left (n := (ofRat b).num) ha)
    (ediv_gcd_pos_right (m := (ofRat a).num) hb)
  have hproduct := cross_cancel (c := (ofRat b).num) (a := (ofRat a).num)
    (gcd_ne_zero_right (ofRat a).num hb.ne') (gcd_ne_zero_left (ofRat b).num ha.ne')
    (gcd_dvd_left ..) (gcd_dvd_right ..) (gcd_dvd_left ..) (gcd_dvd_right ..)
  rw [← toRat, ← toRat, toRat_ofRat, toRat_ofRat] at hproduct
  have hparts := eq_ofRat_of_isCoprime hden
    (isCoprime_cross (isCoprime_parts a) (isCoprime_parts b) ha.ne' hb.ne') hproduct
  refine products_eq_fitting hden.ne' hproduct fun hf => ?_
  rw [hparts.1, hparts.2]
  exact ⟨hf.num, hf.den⟩

theorem multiply_of_fits (h : (ofRat (a * b)).Fits) :
    (ofRat a).multiply (ofRat b) = .ok (ofRat (a * b)) := by
  rw [multiply_eq_fitting, fitting_of_fits h]

theorem one_multiply {n : Int} (h : InRange n) : one.multiply (ofInt n) = .ok (ofInt n) := by
  have hfits := fits_ofInt h
  rw [ofInt_eq_ofRat] at hfits ⊢
  rw [← ofRat_one, multiply_of_fits (by rwa [one_mul]), one_mul]

theorem eq_ofRat_of_neg {num den : Int} (hd : den < 0) (h : IsCoprime num den)
    (hq : (num : ℚ) / den = q) : num = -q.num ∧ den = -q.den := by
  have hq' : ((-num : Int) : ℚ) / ((-den : Int) : ℚ) = q := by
    push_cast
    rw [neg_div_neg_eq, hq]
  have hparts := eq_ofRat_of_isCoprime (Int.neg_pos_of_neg hd) h.neg_neg hq'
  omega

def upperProduct (a b : ℚ) : Int :=
  (ofRat a).num / gcd (ofRat a).num (ofRat b).num *
    ((ofRat b).den / gcd (ofRat a).den (ofRat b).den)

def lowerProduct (a b : ℚ) : Int :=
  (ofRat a).den / gcd (ofRat a).den (ofRat b).den *
    ((ofRat b).num / gcd (ofRat a).num (ofRat b).num)

section Divide

variable (a)

theorem isCoprime_products (hb : b ≠ 0) : IsCoprime (upperProduct a b) (lowerProduct a b) :=
  isCoprime_cross (isCoprime_parts a) (isCoprime_parts b).symm (den_ofRat_ne_zero a)
    (Rat.num_ne_zero.mpr hb)

theorem upperProduct_div_lowerProduct (hb : b ≠ 0) :
    (upperProduct a b : ℚ) / lowerProduct a b = a / b := by
  have hn : (ofRat b).num ≠ 0 := Rat.num_ne_zero.mpr hb
  have hg := gcd_ne_zero_right (ofRat a).num hn
  have hh := gcd_ne_zero_left (ofRat b).den (den_ofRat_ne_zero a)
  rw [upperProduct, lowerProduct, cross_cancel hg hh (gcd_dvd_left ..) (gcd_dvd_right ..)
    (gcd_dvd_left ..) (gcd_dvd_right ..), ← inv_div ((ofRat b).num : ℚ), ← div_eq_mul_inv,
    ← toRat, ← toRat, toRat_ofRat, toRat_ofRat]

/-- The lower product has the sign of the divisor. -/
theorem sign_lowerProduct (hb : b ≠ 0) : (lowerProduct a b).sign = b.num.sign := by
  have hn : (ofRat b).num ≠ 0 := Rat.num_ne_zero.mpr hb
  have hg : 0 < gcd (ofRat a).num (ofRat b).num :=
    (Int.natCast_nonneg _).lt_of_ne' (gcd_ne_zero_right (ofRat a).num hn)
  calc (lowerProduct a b).sign
    _ = ((ofRat b).num / gcd (ofRat a).num (ofRat b).num).sign := by
      rw [lowerProduct, Int.sign_mul, Int.sign_eq_one_of_pos (ediv_gcd_pos_left (lowest_ofRat a).1),
        one_mul]
    _ = (gcd (ofRat a).num (ofRat b).num *
          ((ofRat b).num / gcd (ofRat a).num (ofRat b).num)).sign := by
      rw [Int.sign_mul, Int.sign_eq_one_of_pos hg, one_mul]
    _ = b.num.sign := by rw [Int.mul_ediv_cancel' (gcd_dvd_right ..)]; rfl

/-- Denominators that are equal, or else numerators that are, cancel without a product. -/
theorem divide_eq (hb : b ≠ 0) :
    (ofRat a).divide (ofRat b) =
      if a.den = b.den ∨ a.num = b.num then fitting (a / b)
      else (do
        let num ← inRange? (upperProduct a b)
        let den ← inRange? (lowerProduct a b)
        ofPair num den) := by
  have hn : (ofRat b).num ≠ 0 := Rat.num_ne_zero.mpr hb
  have hdq : ((ofRat b).den : ℚ) ≠ 0 := by exact_mod_cast den_ofRat_ne_zero b
  have hnq : ((ofRat b).num : ℚ) ≠ 0 := by exact_mod_cast hn
  have hquotient : (ofRat a).toRat / (ofRat b).toRat = a / b := by
    rw [toRat_ofRat, toRat_ofRat]
  have hnz : (ofRat b).isZero = false := by simpa [isZero] using hn
  have hdens : (ofRat a).den = (ofRat b).den ↔ a.den = b.den := Int.natCast_inj
  have hnums : (ofRat a).num = (ofRat b).num ↔ a.num = b.num := Iff.rfl
  rw [divide, hnz, if_neg Bool.false_ne_true]
  by_cases hden : a.den = b.den
  · rw [if_pos (hdens.mpr hden), if_pos (.inl hden)]
    refine ofPair_eq_fitting hn ?_
    rw [← hquotient, toRat, toRat, hdens.mpr hden, div_div_div_cancel_right₀ hdq]
  rw [if_neg (hdens.not.mpr hden)]
  by_cases hnum : a.num = b.num
  · rw [if_pos (hnums.mpr hnum), if_pos (.inr hnum)]
    refine ofPair_eq_fitting (den_ofRat_ne_zero a) ?_
    rw [← hquotient, toRat, toRat, hnums.mpr hnum, div_div_div_cancel_left' _ _ hnq]
  · rw [if_neg (hnums.not.mpr hnum), if_neg (not_or.mpr ⟨hden, hnum⟩)]
    rfl

/-- A negative divisor turns the sign after the products are checked, so one number that fits has to
be left out. -/
theorem divide_eq_fitting (hb : b ≠ 0) (h : 0 < b ∨ (a / b).num ≠ least) :
    (ofRat a).divide (ofRat b) = fitting (a / b) := by
  have hcoprime := isCoprime_products a hb
  have hquotient := upperProduct_div_lowerProduct a hb
  have hsign := sign_lowerProduct a hb
  have hn : b.num ≠ 0 := Rat.num_ne_zero.mpr hb
  have hne : lowerProduct a b ≠ 0 := by
    rwa [ne_eq, ← Int.sign_eq_zero_iff_zero, hsign, Int.sign_eq_zero_iff_zero]
  rw [divide_eq a hb]
  split
  · rfl
  refine products_eq_fitting hne hquotient fun hf => ?_
  rcases lt_or_gt_of_ne hne with hneg | hpos
  · obtain ⟨hnum, hden⟩ := eq_ofRat_of_neg hneg hcoprime hquotient
    rw [Int.sign_eq_neg_one_of_neg hneg, eq_comm, Int.sign_eq_neg_one_iff_neg] at hsign
    have hleast : (a / b).num ≠ least := h.resolve_left fun hb => by
      have := Rat.num_pos.mpr hb
      omega
    have hfn := hf.num
    have hfd := hf.den
    rw [hnum, hden]
    simp only [InRange, ofRat, least] at *
    omega
  · obtain ⟨hnum, hden⟩ := eq_ofRat_of_isCoprime hpos hcoprime hquotient
    rw [hnum, hden]
    exact ⟨hf.num, hf.den⟩

end Divide

theorem divide_of_fits (hb : 0 < b) (h : (ofRat (a / b)).Fits) :
    (ofRat a).divide (ofRat b) = .ok (ofRat (a / b)) := by
  rw [divide_eq_fitting a hb.ne' (.inl hb), fitting_of_fits h]

/-! ## A common denominator -/

theorem den_dvd_of_mul {n m : Int} (h : (n : ℚ) = m * q) : (q.den : Int) ∣ m := by
  have hcross : n * q.den = m * q.num := by
    have : (n : ℚ) * q.den = m * q.num := by rw [h, mul_assoc, Rat.mul_den_eq_num]
    exact_mod_cast this
  exact (isCoprime_parts q).symm.dvd_of_dvd_mul_right ⟨n, by rw [← hcross, mul_comm]⟩

theorem den_mul_mul (q : ℚ) (k : Int) : ((q.den * k : Int) : ℚ) * q = (q.num * k : Int) := by
  push_cast
  rw [← Rat.mul_den_eq_num q]
  ring

theorem exists_mul_num {n m : Int} (hm : 0 < m) (h : (n : ℚ) = m * q) :
    ∃ k : Int, 1 ≤ k ∧ n = q.num * k := by
  obtain ⟨k, rfl⟩ := den_dvd_of_mul h
  have hk := pos_of_mul_pos_right hm (Int.natCast_nonneg q.den)
  refine ⟨k, by omega, ?_⟩
  rw [den_mul_mul] at h
  exact_mod_cast h

theorem fits_of_mul {n m : Int} (hm : 0 < m) (h : (n : ℚ) = m * q) (hn : InRange n)
    (hd : InRange q.den) : (ofRat q).Fits := by
  obtain ⟨k, hk, rfl⟩ := exists_mul_num hm h
  exact ⟨inRange_of_mul hk hn, hd⟩

/-- Let `m * d` be a common denominator over which `q` fits, and let `q` be multiplied by `d`. -/
theorem fits_mul_den {n m : Int} {d : Nat} (hm : 0 < m) (h : (n : ℚ) = m * d * q)
    (hn : InRange n) (hd : InRange q.den) : (ofRat (q * d)).Fits := by
  have hmul : (n : ℚ) = m * (q * d) := by rw [h]; ring
  refine fits_of_mul hm hmul hn ?_
  have hle : (q * d).den ≤ q.den := by
    have hdvd : (q * d).den ∣ q.den * (d : ℚ).den := Rat.mul_den_dvd q d
    rw [Rat.den_natCast, Nat.mul_one] at hdvd
    exact Nat.le_of_dvd q.den_pos hdvd
  unfold InRange at hd ⊢
  omega

end Fraction

end Marksheet
