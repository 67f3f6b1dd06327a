import Mathlib.Algebra.Order.Field.Basic
import Mathlib.Order.Bounds.Defs
import Marksheet.Proofs.Calculation
import Marksheet.Proofs.Fraction.Cancellation

/-!
# Marksheet.Proofs.Fraction.Limits

Which results are refused. Calculations check numbers on the way to a result, and these checks might
refuse more than the results that do not fit. They do so in one place only.

* `divide_of_least` : a quotient by a negative number is refused where it has the smallest
  numerator.
* `overflow_of_lowest` : products and quotients are refused there, where they do not fit, and
  nowhere else.
* `commonDenominator_eq` : a common denominator is refused where the least one does not fit.
* `denominators_of_lowest` : so it does not matter in which order it is formed, or how often a
  denominator occurs.
-/

namespace Marksheet.Fraction

variable {x y : Fraction} {a b q : ℚ}

/-! ## Products and quotients -/

theorem fitting_eq_ok_iff {z : Fraction} : fitting q = .ok z ↔ z = ofRat q ∧ z.Fits := by
  unfold fitting
  split
  · rename_i h
    constructor
    · rintro ⟨⟩
      exact ⟨rfl, h⟩
    · rintro ⟨rfl, -⟩
      rfl
  · rename_i h
    constructor
    · rintro ⟨⟩
    · rintro ⟨rfl, hf⟩
      exact absurd hf h

theorem fitting_eq_overflow_iff : fitting q = .error .overflow ↔ ¬ (ofRat q).Fits := by
  unfold fitting
  split <;> simp_all

theorem overflow_fitting (q : ℚ) : FaultsAre (· = .overflow) (fitting q) := by
  unfold fitting
  split
  · exact .ok _
  · exact .error rfl

/-- The number that is left out. A shortcut would have to start from a number out of range. -/
theorem divide_of_least (hb : b < 0) (hq : (a / b).num = least) (ha : InRange a.num) :
    (ofRat a).divide (ofRat b) = .error .overflow := by
  have hn := Rat.num_neg.mpr hb
  rw [divide_eq a hb.ne]
  split
  · rename_i hshort
    exfalso
    rcases hshort with hden | hnum
    · have hdq : (b.den : ℚ) ≠ 0 := by exact_mod_cast b.den_ne_zero
      have hnq : (b.num : ℚ) ≠ 0 := by exact_mod_cast hn.ne
      have hquotient : a / b = a.num / b.num := by
        calc a / b = (a.num / a.den) / (b.num / b.den) := by
              rw [Rat.num_div_den, Rat.num_div_den]
          _ = a.num / b.num := by rw [hden, div_div_div_cancel_right₀ hdq]
      have hmul : ((-a.num : Int) : ℚ) = (-b.num : Int) * (a / b) := by
        rw [hquotient]
        push_cast
        rw [neg_mul, mul_div_cancel₀ _ hnq]
      obtain ⟨k, hk, hnum⟩ := exists_mul_num (Int.neg_pos_of_neg hn) hmul
      rw [hq] at hnum
      simp only [InRange, least] at *
      omega
    · have hneg : a < 0 := by rwa [← Rat.num_neg, hnum]
      have hpos := Rat.num_pos.mpr (div_pos_of_neg_of_neg hneg hb)
      rw [hq] at hpos
      exact absurd hpos (by decide)
  · have hsign := sign_lowerProduct a hb.ne
    rw [Int.sign_eq_neg_one_of_neg hn, Int.sign_eq_neg_one_iff_neg] at hsign
    obtain ⟨hnum, -⟩ := eq_ofRat_of_neg hsign (isCoprime_products a hb.ne)
      (upperProduct_div_lowerProduct a hb.ne)
    rw [hnum, hq, inRange?_err (by decide)]
    rfl

theorem divide_of_inRange (hb : b ≠ 0) (ha : InRange a.num) :
    (ofRat a).divide (ofRat b) =
      if (a / b).num = least ∧ b < 0 then .error .overflow else fitting (a / b) := by
  split
  · rename_i h
    exact divide_of_least h.2 h.1 ha
  · rename_i h
    refine divide_eq_fitting a hb ?_
    rcases lt_or_gt_of_ne hb with hneg | hpos
    · exact .inr fun hl => h ⟨hl, hneg⟩
    · exact .inl hpos

/-- For fractions in lowest terms, a product is refused just where it does not fit. A quotient by
zero is a division by zero, and any other is refused where it does not fit, or where its numerator
is the smallest number and its divisor is negative. -/
theorem overflow_of_lowest (hx : x.Lowest) (hy : y.Lowest) (hf : x.Fits) :
    (∀ z, x.multiply y = .ok z ↔ z = ofRat (x.toRat * y.toRat) ∧ z.Fits) ∧
      (x.multiply y = .error .overflow ↔ ¬ (ofRat (x.toRat * y.toRat)).Fits) ∧
      (x.divide y = .error .divisionByZero ↔ y.toRat = 0) ∧
      (y.toRat ≠ 0 →
        (∀ z, x.divide y = .ok z ↔
          z = ofRat (x.toRat / y.toRat) ∧ z.Fits ∧ (z.num = least → 0 < y.toRat)) ∧
        (x.divide y = .error .overflow ↔
          ¬ (ofRat (x.toRat / y.toRat)).Fits ∨
            (x.toRat / y.toRat).num = least ∧ y.toRat < 0)) := by
  rw [hx.eq_ofRat] at hf ⊢
  rw [hy.eq_ofRat]
  generalize x.toRat = a at *
  generalize y.toRat = b at *
  simp only [toRat_ofRat, multiply_eq_fitting]
  have hdivide := fun hb : b ≠ 0 => divide_of_inRange hb hf.num
  refine ⟨fun z => fitting_eq_ok_iff, fitting_eq_overflow_iff, ⟨fun h => ?_, ?_⟩, fun hb => ?_⟩
  · by_contra hb
    rw [hdivide hb] at h
    unfold fitting at h
    split at h
    · cases h
    · split at h <;> cases h
  · rintro rfl
    rfl
  · rw [hdivide hb]
    split
    · rename_i h
      refine ⟨fun z => ⟨nofun, ?_⟩, fun _ => .inr h, fun _ => rfl⟩
      rintro ⟨rfl, -, hpos⟩
      exact absurd h.2 (hpos h.1).not_gt
    · rename_i h
      refine ⟨fun z => ?_, ?_⟩
      · rw [fitting_eq_ok_iff]
        constructor
        · rintro ⟨rfl, hz⟩
          refine ⟨rfl, hz, fun hl => ?_⟩
          exact (lt_or_gt_of_ne hb).resolve_left fun hneg => h ⟨hl, hneg⟩
        · rintro ⟨rfl, hz, -⟩
          exact ⟨rfl, hz⟩
      · rw [fitting_eq_overflow_iff, or_iff_left h]

theorem overflow_of_third :
    let x : Fraction := { num := 4611686018427387904, den := 3 }
    x.Lowest ∧ x.Fits ∧
      x.multiply { num := -2, den := 1 } = .ok { num := least, den := 3 } ∧
      x.divide { num := -1, den := 2 } = .error .overflow := by
  intro x
  have hx : x.Lowest := by decide
  have hf : x.Fits := by decide
  obtain ⟨hproduct, -⟩ := overflow_of_lowest hx (y := { num := -2, den := 1 }) (by decide) hf
  obtain ⟨-, -, -, hquotient⟩ := overflow_of_lowest hx (y := { num := -1, den := 2 }) (by decide) hf
  refine ⟨hx, hf, (hproduct _).mpr ?_, (hquotient ?_).2.mpr (.inr ?_)⟩
  · decide +kernel
  · decide +kernel
  · decide +kernel

/-! ## One denominator -/

def MakesWhole (den : Int) (q : ℚ) : Prop := ∃ k : Int, (k : ℚ) = den * q

theorem makesWhole_iff {den : Int} : MakesWhole den q ↔ (q.den : Int) ∣ den := by
  constructor
  · rintro ⟨k, hk⟩
    exact den_dvd_of_mul hk
  · rintro ⟨k, rfl⟩
    exact ⟨q.num * k, (den_mul_mul q k).symm⟩

theorem leastDenominator_dvd {qs : List ℚ} {den : Nat} (h : ∀ q ∈ qs, q.den ∣ den) :
    leastDenominator qs ∣ den := by
  induction qs with
  | nil => exact Nat.one_dvd den
  | cons q qs ih =>
    have hothers := ih fun other ho => h other (List.mem_cons_of_mem q ho)
    exact Nat.lcm_dvd (h q List.mem_cons_self) hothers

theorem leastDenominator_of_whole {qs : List ℚ} (h : ∀ q ∈ qs, q.den = 1) :
    leastDenominator qs = 1 :=
  Nat.dvd_one.mp (leastDenominator_dvd fun q hq => (h q hq).dvd)

theorem isLeast_leastDenominator (qs : List ℚ) :
    IsLeast {den : Int | 0 < den ∧ ∀ q ∈ qs, MakesWhole den q} (leastDenominator qs) := by
  constructor
  · refine ⟨Int.natCast_pos.mpr (leastDenominator_pos qs), fun q hq => ?_⟩
    exact makesWhole_iff.mpr (Int.natCast_dvd_natCast.mpr (den_dvd_leastDenominator hq))
  · rintro den ⟨hpos, hwhole⟩
    obtain ⟨m, rfl⟩ := Int.eq_ofNat_of_zero_le hpos.le
    have hdvd : leastDenominator qs ∣ m := leastDenominator_dvd fun q hq =>
      Int.natCast_dvd_natCast.mp (makesWhole_iff.mp (hwhole q hq))
    exact Int.ofNat_le.mpr (Nat.le_of_dvd (Int.natCast_pos.mp hpos) hdvd)

theorem leastDenominator_congr {qs others : List ℚ} (h : ∀ q, q ∈ others ↔ q ∈ qs) :
    leastDenominator others = leastDenominator qs := by
  refine Nat.dvd_antisymm ?_ ?_
  · exact leastDenominator_dvd fun q hq => den_dvd_leastDenominator ((h q).mp hq)
  · exact leastDenominator_dvd fun q hq => den_dvd_leastDenominator ((h q).mpr hq)

/-- Every multiple on the way divides the last one, so none is refused unless the last one is. -/
theorem commonMultiple_eq {m : Nat} {qs : List ℚ} (hpos : 0 < m) (hm : InRange m) :
    commonMultiple m (qs.map ofRat) = inRange? (m.lcm (leastDenominator qs) : Nat) := by
  induction qs generalizing m with
  | nil =>
    have hone : leastDenominator [] = 1 := rfl
    rw [hone, Nat.lcm_one_right, inRange?_ok hm]
    rfl
  | cons q qs ih =>
    have hlast : m.lcm (leastDenominator (q :: qs)) = (m.lcm q.den).lcm (leastDenominator qs) :=
      (Nat.lcm_assoc ..).symm
    have hnext := Nat.lcm_pos hpos q.den_pos
    rw [List.map_cons, commonMultiple, reduced_ofRat, ediv_gcd_mul_den, hlast]
    by_cases hr : InRange (m.lcm q.den : Nat)
    · rw [inRange?_ok hr, ok_bind, ih hnext hr]
    · have hle : m.lcm q.den ≤ (m.lcm q.den).lcm (leastDenominator qs) :=
        Nat.le_of_dvd (Nat.lcm_pos hnext (leastDenominator_pos qs)) (Nat.dvd_lcm_left ..)
      rw [inRange?_err hr, inRange?_err]
      · rfl
      · unfold InRange at *
        omega

theorem commonDenominator_eq (qs : List ℚ) :
    commonDenominator (qs.map ofRat) = inRange? (leastDenominator qs) := by
  have h : commonMultiple (1 : Nat) (qs.map ofRat) = _ := commonMultiple_eq Nat.one_pos (by decide)
  rwa [Nat.lcm_one_left] at h

theorem numeratorOver_eq_ok_iff {den k : Int} :
    (ofRat q).numeratorOver den = .ok k ↔ (k : ℚ) = den * q ∧ InRange k := by
  constructor
  · intro h
    exact ⟨numeratorOver_ofRat h, inRange_numeratorOver h⟩
  · rintro ⟨hk, hr⟩
    obtain ⟨m, rfl⟩ := den_dvd_of_mul hk
    rw [den_mul_mul] at hk
    have hnum : k = q.num * m := by exact_mod_cast hk
    have hrest : (q.den : Int) * m % (ofRat q).den = 0 := Int.mul_emod_right ..
    have hfactor : (q.den : Int) * m / (ofRat q).den = m :=
      Int.mul_ediv_cancel_left m (den_ofRat_ne_zero q)
    rw [numeratorOver, reduced_ofRat, if_pos hrest, hfactor]
    rw [hnum] at hr ⊢
    exact inRange?_ok hr

theorem numeratorOver_eq_overflow_iff {den : Int} :
    (ofRat q).numeratorOver den = .error .overflow ↔
      ∀ k : Int, (k : ℚ) = den * q → ¬ InRange k := by
  constructor
  · intro h k hk hr
    rw [numeratorOver_eq_ok_iff.mpr ⟨hk, hr⟩] at h
    cases h
  · intro h
    cases ho : (ofRat q).numeratorOver den with
    | ok k =>
      obtain ⟨hk, hr⟩ := numeratorOver_eq_ok_iff.mp ho
      exact absurd hr (h k hk)
    | error fault => rw [overflow_numeratorOver _ den fault ho]

theorem commonDenominator_of_lowest {xs : List Fraction} (hl : ∀ x ∈ xs, x.Lowest) :
    commonDenominator xs = inRange? (leastDenominator (xs.map toRat)) := by
  rw [← commonDenominator_eq, map_ofRat_toRat hl]

/-- The least common denominator of fractions in lowest terms is the least positive number that
makes all of them whole, and is refused where it does not fit; which fractions there are decides,
not their order or number. A numerator over any denominator is formed just where it is whole and
fits. -/
theorem denominators_of_lowest :
    (∀ xs : List Fraction, (∀ x ∈ xs, x.Lowest) →
      ∃ den : Int, IsLeast {den : Int | 0 < den ∧ ∀ x ∈ xs, MakesWhole den x.toRat} den ∧
        (den ≤ largest → commonDenominator xs = .ok den) ∧
        (largest < den → commonDenominator xs = .error .overflow) ∧
        ∀ others : List Fraction, (∀ x, x ∈ others ↔ x ∈ xs) →
          commonDenominator others = commonDenominator xs) ∧
      ∀ x : Fraction, x.Lowest → ∀ den : Int,
        (∀ k, x.numeratorOver den = .ok k ↔ (k : ℚ) = den * x.toRat ∧ InRange k) ∧
        (x.numeratorOver den = .error .overflow ↔
          ∀ k : Int, (k : ℚ) = den * x.toRat → ¬ InRange k) := by
  refine ⟨fun xs hl => ?_, fun x hl den => ?_⟩
  · have hpos := leastDenominator_pos (xs.map toRat)
    rw [commonDenominator_of_lowest hl]
    refine ⟨leastDenominator (xs.map toRat), ?_, fun hle => ?_, fun hlt => ?_, fun others ho => ?_⟩
    · simpa using isLeast_leastDenominator (xs.map toRat)
    · refine inRange?_ok ?_
      unfold InRange
      unfold largest at hle
      omega
    · refine inRange?_err ?_
      unfold InRange
      unfold largest at hlt
      omega
    · have hsame : ∀ q, q ∈ others.map toRat ↔ q ∈ xs.map toRat := by simp [ho]
      rw [commonDenominator_of_lowest fun x hx => hl x ((ho x).mp hx), leastDenominator_congr hsame]
  · rw [hl.eq_ofRat, toRat_ofRat]
    exact ⟨fun k => numeratorOver_eq_ok_iff, numeratorOver_eq_overflow_iff⟩

theorem denominators_of_twelfths :
    let xs : List Fraction := [⟨1, 6⟩, ⟨3, 4⟩, ⟨-5, 4⟩]
    (∀ x ∈ xs, x.Lowest) ∧
      IsLeast {den : Int | 0 < den ∧ ∀ x ∈ xs, MakesWhole den x.toRat} 12 ∧
      commonDenominator xs = .ok 12 ∧
      commonDenominator [⟨-5, 4⟩, ⟨3, 4⟩, ⟨1, 6⟩, ⟨3, 4⟩] = .ok 12 ∧
      numeratorOver ⟨-5, 4⟩ (-12) = .ok 15 ∧ numeratorOver ⟨-5, 4⟩ 6 = .error .overflow := by
  intro xs
  have hl : ∀ x ∈ xs, x.Lowest := by decide
  have h12 : commonDenominator xs = .ok 12 := by decide
  obtain ⟨hcommon, hnumerator⟩ := denominators_of_lowest
  obtain ⟨den, hleast, hfits, hrefused, hsame⟩ := hcommon xs hl
  have hden : den = 12 := by
    rcases le_or_gt den largest with hle | hlt
    · rw [hfits hle] at h12
      cases h12
      rfl
    · rw [hrefused hlt] at h12
      cases h12
  rw [hden] at hleast
  refine ⟨hl, hleast, h12, (hsame _ (by simp [xs]; grind)).trans h12, ?_, ?_⟩
  · refine ((hnumerator ⟨-5, 4⟩ (by decide) (-12)).1 15).mpr ⟨?_, by decide⟩
    decide +kernel
  · refine (hnumerator ⟨-5, 4⟩ (by decide) 6).2.mpr fun k hk => ?_
    exact absurd (makesWhole_iff.mp ⟨k, hk⟩) (by decide +kernel)

end Marksheet.Fraction
