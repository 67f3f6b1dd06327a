import Marksheet.Proofs.Fraction.Limits

/-!
# Marksheet.Proofs.Fraction.Addition

A sum is formed over the least common multiple of both denominators. The multiple, the two
numerators over it and their sum are checked in turn, so a sum may be refused that would fit in
lowest terms. Which of the fractions comes first makes no difference to that.

* `SumFits` : the four numbers that are checked fit.
* `add_of_sumFits`, `add_of_not_sumFits` : a sum is answered just where they do.
* `addition_of_lowest` : sums can be turned round, and zero changes nothing.
* `sum_whole` : for natural numbers only the whole sum has to fit.
-/

namespace Marksheet.Fraction

variable {x y : Fraction} {a b : ℚ}

def leastMultiple (x y : Fraction) : Int := (x.den.lcm y.den : Nat)

/-- What is checked on the way to a sum: the multiple, both numerators over it, and their sum. -/
structure SumFits (x y : Fraction) : Prop where
  multiple : InRange (leastMultiple x y)
  left : InRange (x.num * (leastMultiple x y / x.den))
  right : InRange (y.num * (leastMultiple x y / y.den))
  total : InRange (x.num * (leastMultiple x y / x.den) + y.num * (leastMultiple x y / y.den))

instance (x y : Fraction) : Decidable (SumFits x y) :=
  decidable_of_iff (InRange (leastMultiple x y) ∧ InRange (x.num * (leastMultiple x y / x.den)) ∧
      InRange (y.num * (leastMultiple x y / y.den)) ∧
      InRange (x.num * (leastMultiple x y / x.den) + y.num * (leastMultiple x y / y.den)))
    ⟨fun h => ⟨h.1, h.2.1, h.2.2.1, h.2.2.2⟩, fun h => ⟨h.multiple, h.left, h.right, h.total⟩⟩

theorem leastMultiple_comm (x y : Fraction) : leastMultiple x y = leastMultiple y x := by
  rw [leastMultiple, leastMultiple, Int.lcm_comm]

theorem SumFits.symm (h : SumFits x y) : SumFits y x := by
  obtain ⟨hmultiple, hleft, hright, htotal⟩ := h
  rw [leastMultiple_comm] at hmultiple hleft hright htotal
  rw [Int.add_comm] at htotal
  exact ⟨hmultiple, hright, hleft, htotal⟩

theorem sumFits_comm : SumFits x y ↔ SumFits y x := ⟨.symm, .symm⟩

theorem add_eq (a b : ℚ) :
    let x := ofRat a
    let y := ofRat b
    x.add y = (do
      let multiple ← inRange? (leastMultiple x y)
      let left ← inRange? (x.num * (multiple / x.den))
      let right ← inRange? (y.num * (multiple / y.den))
      let num ← inRange? (left + right)
      ofPair num multiple) := by
  have hmultiple : (ofRat a).den / gcd (ofRat a).den (ofRat b).den * (ofRat b).den =
      leastMultiple (ofRat a) (ofRat b) := ediv_gcd_mul_den a.den b
  simp only [add, hmultiple, Int.mul_comm]

theorem add_of_sumFits (h : SumFits (ofRat a) (ofRat b)) :
    (ofRat a).add (ofRat b) = .ok (ofRat (a + b)) := by
  obtain ⟨hmultiple, hleft, hright, htotal⟩ := h
  have hadd := add_eq a b
  dsimp only at hadd
  rw [inRange?_ok hmultiple, ok_bind, inRange?_ok hleft, ok_bind, inRange?_ok hright, ok_bind,
    inRange?_ok htotal, ok_bind] at hadd
  generalize htop : (ofRat a).num * (leastMultiple (ofRat a) (ofRat b) / (ofRat a).den) +
    (ofRat b).num * (leastMultiple (ofRat a) (ofRat b) / (ofRat b).den) = top at hadd htotal
  have hpos : 0 < leastMultiple (ofRat a) (ofRat b) :=
    Int.natCast_pos.mpr (Nat.lcm_pos a.den_pos b.den_pos)
  have hne : (leastMultiple (ofRat a) (ofRat b) : ℚ) ≠ 0 := by exact_mod_cast hpos.ne'
  have hmul : (top : ℚ) =
      leastMultiple (ofRat a) (ofRat b) * (top / leastMultiple (ofRat a) (ofRat b)) :=
    (mul_div_cancel₀ _ hne).symm
  have hle := Int.le_of_dvd hpos (den_dvd_of_mul hmul)
  have hden : InRange ((top / leastMultiple (ofRat a) (ofRat b) : ℚ).den) := by
    unfold InRange at hmultiple ⊢
    omega
  rw [ofPair_eq_fitting hpos.ne' rfl, fitting_of_fits (fits_of_mul hpos hmul htotal hden)] at hadd
  rw [hadd, add_ofRat hadd]

theorem add_of_not_sumFits (h : ¬ SumFits (ofRat a) (ofRat b)) :
    (ofRat a).add (ofRat b) = .error .overflow := by
  have hadd := add_eq a b
  dsimp only at hadd
  rw [hadd]
  by_cases hmultiple : InRange (leastMultiple (ofRat a) (ofRat b))
  · rw [inRange?_ok hmultiple, ok_bind]
    by_cases hleft : InRange ((ofRat a).num * (leastMultiple (ofRat a) (ofRat b) / (ofRat a).den))
    · rw [inRange?_ok hleft, ok_bind]
      by_cases hright :
          InRange ((ofRat b).num * (leastMultiple (ofRat a) (ofRat b) / (ofRat b).den))
      · rw [inRange?_ok hright, ok_bind,
          inRange?_err fun htotal => h ⟨hmultiple, hleft, hright, htotal⟩]
        rfl
      · rw [inRange?_err hright]
        rfl
    · rw [inRange?_err hleft]
      rfl
  · rw [inRange?_err hmultiple]
    rfl

theorem sumFits_zero (hl : x.Lowest) (hf : x.Fits) : SumFits x zero := by
  have hone : leastMultiple x zero = x.den := by
    rw [leastMultiple, zero, Int.lcm_one_right, Int.natAbs_of_nonneg hl.1.le]
  have hleft : x.num * (leastMultiple x zero / x.den) = x.num := by
    rw [hone, Int.ediv_self hl.1.ne', Int.mul_one]
  have hright : zero.num * (leastMultiple x zero / zero.den) = 0 := Int.zero_mul _
  constructor
  · rw [hone]
    exact hf.den
  · rw [hleft]
    exact hf.num
  · rw [hright]
    decide
  · rw [hleft, hright, Int.add_zero]
    exact hf.num

/-- For fractions in lowest terms, a sum and the sum turned round are the same, answered or refused.
It is answered just where the least common multiple, both numerators over it and their sum fit, and
then it is the exact sum in lowest terms. Zero, added on either side, changes nothing. -/
theorem addition_of_lowest (hx : x.Lowest) (hy : y.Lowest) (hf : x.Fits) :
    x.add y = y.add x ∧
      (∀ z, x.add y = .ok z ↔ z = ofRat (x.toRat + y.toRat) ∧ SumFits x y) ∧
      (x.add y = .error .overflow ↔ ¬ SumFits x y) ∧
      x.add zero = .ok x ∧ zero.add x = .ok x := by
  have hzero := sumFits_zero hx hf
  rw [hx.eq_ofRat] at hzero ⊢
  rw [hy.eq_ofRat]
  generalize x.toRat = a at *
  generalize y.toRat = b at *
  simp only [toRat_ofRat]
  have hzeroRight : (ofRat a).add zero = .ok (ofRat a) := by
    have h := add_of_sumFits (b := 0) hzero
    rwa [add_zero] at h
  have hzeroLeft : zero.add (ofRat a) = .ok (ofRat a) := by
    have h := add_of_sumFits (a := 0) hzero.symm
    rwa [zero_add] at h
  by_cases hs : SumFits (ofRat a) (ofRat b)
  · rw [add_of_sumFits hs, add_of_sumFits hs.symm, add_comm b a]
    refine ⟨rfl, fun z => ⟨?_, ?_⟩, ⟨nofun, fun h => absurd hs h⟩, hzeroRight, hzeroLeft⟩
    · rintro ⟨⟩
      exact ⟨rfl, hs⟩
    · rintro ⟨rfl, -⟩
      rfl
  · rw [add_of_not_sumFits hs, add_of_not_sumFits (sumFits_comm.not.mp hs)]
    refine ⟨rfl, fun z => ⟨nofun, fun h => absurd h.2 hs⟩, ⟨fun _ => hs, fun _ => rfl⟩,
      hzeroRight, hzeroLeft⟩

theorem addition_of_halves :
    let x : Fraction := { num := 9223372036854775807, den := 2 }
    let y : Fraction := { num := 1, den := 2 }
    x.Lowest ∧ y.Lowest ∧ x.Fits ∧ x.toRat + y.toRat = 4611686018427387904 ∧
      x.add y = .error .overflow ∧ y.add x = .error .overflow ∧ x.add zero = .ok x := by
  intro x y
  have hx : x.Lowest := by decide
  have hy : y.Lowest := by decide
  have hf : x.Fits := by decide
  obtain ⟨hcomm, -, hrefused, hzero, -⟩ := addition_of_lowest hx hy hf
  have hoverflow : x.add y = .error .overflow := hrefused.mpr (by decide)
  refine ⟨hx, hy, hf, by decide +kernel, hoverflow, hcomm.symm.trans hoverflow, hzero⟩

/-! ## Whole numbers -/

theorem add_ofInt {m n : Int} (hm : InRange m) (hn : InRange n) (h : InRange (m + n)) :
    (ofInt m).add (ofInt n) = .ok (ofInt (m + n)) := by
  have hone : leastMultiple (ofInt m) (ofInt n) = 1 := by simp [leastMultiple, ofInt]
  have hfits : SumFits (ofInt m) (ofInt n) := by
    constructor <;> rw [hone]
    · decide
    · simpa [ofInt] using hm
    · simpa [ofInt] using hn
    · simpa [ofInt] using h
  simp only [ofInt_eq_ofRat] at hfits ⊢
  rw [add_of_sumFits hfits]
  push_cast
  rfl

/-- A sum of natural numbers fits where the last step does. -/
theorem foldlM_add_whole {start : Nat} {ns : List Nat} (h : InRange (start + ns.sum : Nat)) :
    (ns.map fun n : Nat => ofInt n).foldlM add (ofInt start) =
      .ok (ofInt (start + ns.sum : Nat)) := by
  induction ns generalizing start with
  | nil => simp; rfl
  | cons n ns ih =>
    rw [List.sum_cons, ← Nat.add_assoc] at h ⊢
    have hadd : (ofInt start).add (ofInt n) = .ok (ofInt (start + n : Nat)) := by
      rw [Nat.cast_add]
      unfold InRange at h
      apply add_ofInt <;> unfold InRange <;> omega
    rw [List.map_cons, List.foldlM_cons, hadd, ok_bind]
    exact ih h

theorem sum_whole {ns : List Nat} (h : InRange ns.sum) :
    sum (ns.map fun n : Nat => ofInt n) = .ok (ofInt ns.sum) := by
  cases ns with
  | nil => rfl
  | cons n ns => exact foldlM_add_whole (by rwa [List.sum_cons] at h)

end Marksheet.Fraction
