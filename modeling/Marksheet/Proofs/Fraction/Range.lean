import Marksheet.Proofs.Fraction.Exact

/-!
# Marksheet.Proofs.Fraction.Range

Calculations with fractions stay in the 64-bit range. A step checks every product and sum before it
goes on, so a step that answers has met no number outside the range, and its answer is the exact
one.

* `Fraction.Fits` : both parts of a fraction fit into 64 bits.
* `Fraction.Convergent.expand` : the parts of a continued fraction fit, and are not negative, so its
  sign can be turned.
* `Fraction.Obtained` : the fractions that a calculation gives in which every step answers.
* `Fraction.obtained_sum` : sums are among them.
* `Fraction.exact_of_obtained` : they are in lowest terms, fit, and are exact.
-/

namespace Marksheet

theorem inRange_of_ok {n m : Int} (h : inRange? n = .ok m) : InRange m := by
  unfold inRange? at h
  split at h
  · rename_i hn
    cases h
    exact hn
  · cases h

namespace Fraction

structure Fits (x : Fraction) : Prop where
  num : InRange x.num
  den : InRange x.den

instance (x : Fraction) : Decidable x.Fits :=
  decidable_of_iff (InRange x.num ∧ InRange x.den) ⟨fun h => ⟨h.1, h.2⟩, fun h => ⟨h.num, h.den⟩⟩

/-! ## One operation -/

section Operations

variable {x y z : Fraction}

theorem fits_ofInt {n : Int} (h : InRange n) : (ofInt n).Fits where
  num := h
  den := (by decide : InRange 1)

theorem fits_ofPair {num den : Int} (h : ofPair num den = .ok z) : z.Fits := by
  unfold ofPair at h
  split at h
  · cases h
  · obtain ⟨n, hn, h⟩ := ok_of_bind h
    obtain ⟨d, hd, h⟩ := ok_of_bind h
    cases h
    exact ⟨inRange_of_ok hn, inRange_of_ok hd⟩

theorem lowest_ofPair {num den : Int} (h : ofPair num den = .ok z) : z.Lowest := by
  obtain ⟨_, rfl⟩ := ofPair_eq_ok h
  exact lowest_ofRat _

theorem fits_multiply (h : x.multiply y = .ok z) : z.Fits := by
  obtain ⟨num, _, h⟩ := ok_of_bind h
  obtain ⟨den, _, h⟩ := ok_of_bind h
  exact fits_ofPair h

theorem fits_divide (h : x.divide y = .ok z) : z.Fits := by
  unfold divide at h
  split at h
  · cases h
  split at h
  · exact fits_ofPair h
  split at h
  · exact fits_ofPair h
  · obtain ⟨num, _, h⟩ := ok_of_bind h
    obtain ⟨den, _, h⟩ := ok_of_bind h
    exact fits_ofPair h

theorem fits_add (h : x.add y = .ok z) : z.Fits := by
  obtain ⟨multiple, _, h⟩ := ok_of_bind h
  obtain ⟨left, _, h⟩ := ok_of_bind h
  obtain ⟨right, _, h⟩ := ok_of_bind h
  obtain ⟨num, _, h⟩ := ok_of_bind h
  exact fits_ofPair h

theorem inRange_numeratorOver {den k : Int} (h : x.numeratorOver den = .ok k) : InRange k := by
  unfold numeratorOver at h
  split at h
  · exact inRange_of_ok h
  · cases h

theorem inRange_commonMultiple {m den : Int} {xs : List Fraction} (hm : InRange m)
    (h : commonMultiple m xs = .ok den) : InRange den := by
  induction xs generalizing m with
  | nil => cases h; exact hm
  | cons x xs ih =>
    rw [commonMultiple] at h
    obtain ⟨next, hn, h⟩ := ok_of_bind h
    exact ih (inRange_of_ok hn) h

theorem Lowest.reduced_eq (h : x.Lowest) : x.reduced = x := by
  rw [h.eq_ofRat, reduced_ofRat]

theorem Lowest.toRat_eq_iff (hx : x.Lowest) (hy : y.Lowest) :
    x.toRat = y.toRat ↔ x.num = y.num ∧ x.den = y.den := by
  constructor
  · intro h
    have he : x = y := by rw [hx.eq_ofRat, hy.eq_ofRat, h]
    simp [he]
  · rintro ⟨hn, hd⟩
    rw [toRat, toRat, hn, hd]

end Operations

/-! ## Continued fractions -/

/-- The parts of a convergent: they fit, they are not negative, and one of them is positive. -/
structure Convergent (x : Fraction) : Prop where
  num_nonneg : 0 ≤ x.num
  den_nonneg : 0 ≤ x.den
  num_le : x.num ≤ largest
  den_le : x.den ≤ largest
  positive : 0 < x.num ∨ 0 < x.den

/-- What is added in a step is checked before it is formed. A negative quotient fails the check
because one part of the convergent before is positive. -/
theorem Convergent.next {a : Int} {last current next : Fraction} (hl : last.Convergent)
    (hc : current.Convergent) (h : nextConvergent? a last current = some next) :
    next.Convergent := by
  unfold nextConvergent? at h
  split at h
  · cases h
  rename_i hchecks
  cases h
  by_cases ha : a = 0
  · subst ha
    have hnum : 0 * current.num + last.num = last.num := by simp
    have hden : 0 * current.den + last.den = last.den := by simp
    constructor <;> simp only [hnum, hden]
    · exact hl.num_nonneg
    · exact hl.den_nonneg
    · exact hl.num_le
    · exact hl.den_le
    · exact hl.positive
  have hbounds : current.num ≤ largest / a ∧ current.den ≤ largest / a ∧
      a * current.num ≤ largest - last.num ∧ a * current.den ≤ largest - last.den := by
    simp only [not_and, not_or, not_lt] at hchecks
    exact hchecks ha
  obtain ⟨hnum, hden, hnumSum, hdenSum⟩ := hbounds
  have hpos : 0 < a := by
    by_contra hneg
    have hquotient : largest / a ≤ 0 :=
      Int.ediv_nonpos_of_nonneg_of_nonpos (by decide) (by omega)
    rcases hc.positive with hp | hp <;> omega
  have hnumProduct : 0 ≤ a * current.num := Int.mul_nonneg hpos.le hc.num_nonneg
  have hdenProduct : 0 ≤ a * current.den := Int.mul_nonneg hpos.le hc.den_nonneg
  have hln := hl.num_nonneg
  have hld := hl.den_nonneg
  have hlp := hl.positive
  constructor <;> dsimp only <;> omega

theorem Convergent.expand {target : Float} (steps : Nat) {rest : Float} {last current : Fraction}
    (hl : last.Convergent) (hc : current.Convergent) :
    (Fraction.expand target steps rest last current).Convergent := by
  induction steps generalizing rest last current with
  | zero => exact hc
  | succ steps ih =>
    rw [Fraction.expand]
    split
    · exact hc
    split
    · exact hc
    rename_i next hn
    have hnext := hl.next hc hn
    dsimp only
    split
    · exact hnext
    · exact ih hc hnext

theorem fits_approximate {target : Float} {z : Fraction} (h : approximate target = .ok z) :
    z.Fits ∧ 0 ≤ z.num := by
  refine ⟨fits_ofPair h, ?_⟩
  have hc : (Fraction.expand target longestExpansion target { num := 0, den := 1 }
      { num := 1, den := 0 }).Convergent := by
    refine Convergent.expand _ ?_ ?_ <;> constructor <;> decide
  obtain ⟨_, rfl⟩ := ofPair_eq_ok h
  have hnum : (0 : ℚ) ≤ (Fraction.expand target longestExpansion target { num := 0, den := 1 }
      { num := 1, den := 0 }).num := by exact_mod_cast hc.num_nonneg
  have hden : (0 : ℚ) ≤ (Fraction.expand target longestExpansion target { num := 0, den := 1 }
      { num := 1, den := 0 }).den := by exact_mod_cast hc.den_nonneg
  exact Rat.num_nonneg.mpr (div_nonneg hnum hden)

/-- The sign of a written factor is put in front of a numerator that is not negative. -/
theorem fits_ofFloat {x : Float} {z : Fraction} (h : ofFloat x = .ok z) : z.Fits := by
  unfold ofFloat at h
  split at h
  · cases h
  split at h
  · obtain ⟨whole, hw, h⟩ := ok_of_bind h
    cases h
    exact fits_ofInt (inRange_of_ok hw)
  · obtain ⟨found, hf, h⟩ := ok_of_bind h
    obtain ⟨hfits, hnonneg⟩ := fits_approximate hf
    cases h
    split
    · have hnum := hfits.num
      refine ⟨?_, hfits.den⟩
      unfold InRange at hnum ⊢
      dsimp only
      omega
    · exact hfits

/-! ## Calculations -/

/-- The fractions that a calculation with numbers of 64 bits gives, if each of its steps answers. -/
inductive Obtained : Fraction → Prop where
  | pair {num den : Int} {z : Fraction} : InRange num → InRange den → ofPair num den = .ok z →
      Obtained z
  | whole {n : Int} : InRange n → Obtained (ofInt n)
  | float {x : Float} {z : Fraction} : ofFloat x = .ok z → Obtained z
  | multiply {x y z : Fraction} : Obtained x → Obtained y → x.multiply y = .ok z → Obtained z
  | divide {x y z : Fraction} : Obtained x → Obtained y → x.divide y = .ok z → Obtained z
  | add {x y z : Fraction} : Obtained x → Obtained y → x.add y = .ok z → Obtained z
  | reduced {x : Fraction} : Obtained x → Obtained x.reduced

namespace Obtained

variable {x y : Fraction}

/-- Every step keeps lowest terms, shortcuts and changes of sign included. -/
theorem lowest (h : x.Obtained) : x.Lowest := by
  induction h with
  | pair _ _ hz => exact lowest_ofPair hz
  | whole _ => exact ⟨Int.one_pos, by simp [ofInt]⟩
  | float hz => exact ofFloat_lowest hz
  | multiply _ _ hz hx hy =>
    rw [multiply_exact hx.1.ne' hy.1.ne' hz]
    exact lowest_ofRat _
  | divide _ _ hz hx hy =>
    rw [(divide_exact hx.1.ne' hy.1.ne' hz).2]
    exact lowest_ofRat _
  | add _ _ hz hx hy =>
    rw [add_exact hx.1.ne' hy.1.ne' hz]
    exact lowest_ofRat _
  | reduced _ hx =>
    rw [hx.reduced_eq]
    exact hx

/-- Every step stays in the range. -/
theorem fits (h : x.Obtained) : x.Fits := by
  induction h with
  | pair _ _ hz => exact fits_ofPair hz
  | whole hn => exact fits_ofInt hn
  | float hz => exact fits_ofFloat hz
  | multiply _ _ hz => exact fits_multiply hz
  | divide _ _ hz => exact fits_divide hz
  | add _ _ hz => exact fits_add hz
  | reduced hx ih =>
    rw [hx.lowest.reduced_eq]
    exact ih

/-- They are all the fractions in lowest terms that fit. -/
theorem of_lowest (hl : x.Lowest) (hf : x.Fits) : x.Obtained := by
  refine .pair hf.num hf.den ?_
  have hself : Fraction.lowest x.num x.den = x := hl.reduced_eq
  rw [ofPair, if_neg hl.1.ne', hself, inRange?_ok hf.num, inRange?_ok hf.den]
  rfl

end Obtained

theorem obtained_sum {xs : List Fraction} {z : Fraction} (hx : ∀ x ∈ xs, x.Obtained)
    (h : sum xs = .ok z) : z.Obtained := by
  cases xs with
  | nil =>
    cases h
    exact .whole (n := 0) (by decide)
  | cons x xs =>
    obtain ⟨hfirst, hothers⟩ := List.forall_mem_cons.mp hx
    exact foldlM_preserves (fun y hy x hm z hz => .add hy (hothers x hm) hz) hfirst h

/-- Whatever fractions calculations give, they are in lowest terms with a positive denominator, both
parts fit, and another product, quotient or sum of them, if it answers, is the exact one. As numbers
they are equal just where their parts are. -/
theorem exact_of_obtained {x y : Fraction} (hx : x.Obtained) (hy : y.Obtained) :
    (0 < x.den ∧ x.num.gcd x.den = 1 ∧ InRange x.num ∧ InRange x.den) ∧
      (∀ z, x.multiply y = .ok z → z.toRat = x.toRat * y.toRat) ∧
      (∀ z, x.divide y = .ok z → y.toRat ≠ 0 ∧ z.toRat = x.toRat / y.toRat) ∧
      (∀ z, x.add y = .ok z → z.toRat = x.toRat + y.toRat) ∧
      x.reduced.toRat = x.toRat ∧
      (x.toRat = y.toRat ↔ x.num = y.num ∧ x.den = y.den) := by
  have hxd := hx.lowest.1.ne'
  have hyd := hy.lowest.1.ne'
  refine ⟨⟨hx.lowest.1, hx.lowest.2, hx.fits.num, hx.fits.den⟩, ?_, ?_, ?_, ?_, ?_⟩
  · intro z hz
    rw [multiply_exact hxd hyd hz, toRat_ofRat]
  · intro z hz
    obtain ⟨hne, rfl⟩ := divide_exact hxd hyd hz
    exact ⟨hne, toRat_ofRat _⟩
  · intro z hz
    rw [add_exact hxd hyd hz, toRat_ofRat]
  · rw [hx.lowest.reduced_eq]
  · exact hx.lowest.toRat_eq_iff hy.lowest

theorem exact_of_least :
    ∃ x y z : Fraction, x.Obtained ∧ y.Obtained ∧ x.multiply y = .ok z ∧
      x.num = -9223372036854775808 ∧ y = { num := -1, den := 10 } ∧
      z = { num := 4611686018427387904, den := 5 } ∧ z.toRat = x.toRat * y.toRat ∧
      InRange x.num ∧ ¬ InRange (-x.num) ∧ x.toRat ≠ y.toRat := by
  have hx : (ofInt (-9223372036854775808)).Obtained := .whole (by decide)
  have hy : Obtained { num := -1, den := 10 } := .float (x := -0.1) (by decide +kernel)
  have hz : (ofInt (-9223372036854775808)).multiply { num := -1, den := 10 } =
      .ok { num := 4611686018427387904, den := 5 } := by decide +kernel
  obtain ⟨⟨_, _, hnum, _⟩, hproduct, _, _, _, heq⟩ := exact_of_obtained hx hy
  refine ⟨_, _, _, hx, hy, hz, rfl, rfl, rfl, hproduct _ hz, hnum, by decide, ?_⟩
  intro h
  exact absurd (heq.mp h).1 (by decide)

end Fraction

end Marksheet
