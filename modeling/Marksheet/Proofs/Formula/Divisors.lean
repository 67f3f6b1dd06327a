import Marksheet.Proofs.Formula.Bounds
import Marksheet.Proofs.Fraction.Addition
import Marksheet.Proofs.Fraction.Expansion

/-!
# Marksheet.Proofs.Formula.Divisors

Where a division by zero comes from. All that can go wrong with the weights of a tree is that a
number does not fit, unless the tree is divided by a number whose fraction is zero.

* `Fraction.overflow_sum` : sums of weights.
* `Formula.overflow_mapWeights` : a change of all weights, by induction on the tree.
* `Formula.exists_divisor` : a factor and a divisor that end in a division by zero.
-/

namespace Marksheet

open Binary64 (IsValue)

/-! ## Weights -/

namespace Fraction

variable {x y : Fraction} {xs : List Fraction}

theorem overflow_multiply (hx : x.Lowest) (hy : y.Lowest) :
    FaultsAre (· = .overflow) (x.multiply y) := by
  rw [hx.eq_ofRat, hy.eq_ofRat, multiply_eq_fitting]
  exact overflow_fitting _

theorem overflow_divide (hx : x.Lowest) (hf : x.Fits) (hy : y.Lowest) (hne : y.toRat ≠ 0) :
    FaultsAre (· = .overflow) (x.divide y) := by
  rw [hx.eq_ofRat] at hf ⊢
  rw [hy.eq_ofRat, divide_of_inRange hne hf.num]
  split
  · exact .error rfl
  · exact overflow_fitting _

theorem overflow_add (hx : x.Lowest) (hy : y.Lowest) : FaultsAre (· = .overflow) (x.add y) := by
  rw [hx.eq_ofRat, hy.eq_ofRat]
  by_cases h : SumFits (ofRat x.toRat) (ofRat y.toRat)
  · rw [add_of_sumFits h]
    exact .ok _
  · rw [add_of_not_sumFits h]
    exact .error rfl

theorem overflow_sum (hx : ∀ x ∈ xs, x.Obtained) : FaultsAre (· = .overflow) (sum xs) := by
  cases xs with
  | nil => exact .ok zero
  | cons x xs =>
    obtain ⟨hfirst, hothers⟩ := List.forall_mem_cons.mp hx
    refine .foldlM_of_preserves (p := Obtained) ?_ ?_ hfirst
    · exact fun y hy x hm => overflow_add hy.lowest (hothers x hm).lowest
    · exact fun y hy x hm z hz => .add hy (hothers x hm) hz

end Fraction

/-! ## Trees -/

namespace Formula

variable {formula scaled : Formula} {formulas : List Formula} {factor divisor : Fraction}

theorem overflow_totalWeight (hf : ∀ formula ∈ formulas, formula.Calculated) :
    FaultsAre (· = .overflow) (totalWeight formulas) := by
  refine (Fraction.overflow_sum ?_).bind fun _ => .ok _
  intro x hx
  obtain ⟨formula, hm, rfl⟩ := List.mem_map.mp hx
  exact (hf formula hm).weight

theorem overflow_ofGroup (hf : ∀ formula ∈ formulas, formula.Calculated) :
    FaultsAre (· = .overflow) (ofGroup formulas) :=
  (overflow_totalWeight hf).bind fun _ => .ok _

theorem overflow_ofCall (function : NamedFunction)
    (hf : ∀ formula ∈ formulas, formula.Calculated) :
    FaultsAre (· = .overflow) (ofCall function formulas) :=
  (overflow_totalWeight hf).bind fun _ => .ok _

section Change

variable {change : Fraction → Except Fault Fraction}

mutual

/-- A change that only overflows makes the tree overflow at most: the sums above the changed weights
do not fail otherwise. -/
theorem overflow_mapWeights
    (hc : ∀ weight, weight.Obtained → FaultsAre (· = .overflow) (change weight))
    (ho : ∀ weight changed, weight.Obtained → change weight = .ok changed → changed.Obtained) :
    (formula : Formula) → formula.Calculated →
      FaultsAre (· = .overflow) (mapWeights change formula)
  | .leaf _ _ weight, hf => by
    cases hf with
    | leaf hw => exact (hc weight hw).bind fun _ => .ok _
  | .group members _, hf => by
    cases hf with
    | group _ hm =>
      refine (overflow_mapAllWeights hc ho members hm).bind_of_ok fun changed hz => ?_
      exact overflow_ofGroup (calculated_mapAllWeights ho members hm hz)
  | .call function arguments _, hf => by
    cases hf with
    | call _ ha =>
      refine (overflow_mapAllWeights hc ho arguments ha).bind_of_ok fun changed hz => ?_
      exact overflow_ofCall function (calculated_mapAllWeights ho arguments ha hz)

theorem overflow_mapAllWeights
    (hc : ∀ weight, weight.Obtained → FaultsAre (· = .overflow) (change weight))
    (ho : ∀ weight changed, weight.Obtained → change weight = .ok changed → changed.Obtained) :
    (formulas : List Formula) → (∀ formula ∈ formulas, formula.Calculated) →
      FaultsAre (· = .overflow) (mapAllWeights change formulas)
  | [], _ => .ok []
  | first :: others, hf => by
    obtain ⟨hfirst, hothers⟩ := List.forall_mem_cons.mp hf
    exact (overflow_mapWeights hc ho first hfirst).bind fun _ =>
      (overflow_mapAllWeights hc ho others hothers).bind fun _ => .ok _

end

end Change

theorem overflow_scale (hf : formula.Calculated) (hx : factor.Obtained) :
    FaultsAre (· = .overflow) (formula.scale factor) :=
  overflow_mapWeights (fun _ hw => Fraction.overflow_multiply hw.lowest hx.lowest)
    (fun _ _ hw hz => .multiply hw hx hz) formula hf

theorem overflow_divide (hf : formula.Calculated) (hx : divisor.Obtained)
    (hne : divisor.toRat ≠ 0) : FaultsAre (· = .overflow) (formula.divide divisor) :=
  overflow_mapWeights (fun _ hw => Fraction.overflow_divide hw.lowest hw.fits hx.lowest hne)
    (fun _ _ hw hz => .divide hw hx hz) formula hf

/-! ## Written factors and divisors -/

theorem overflow_scaleBy (hf : formula.Calculated) (factor : Option Float) :
    FaultsAre (· = .overflow) (formula.scaleBy factor) := by
  cases factor with
  | none => exact .ok formula
  | some x =>
    exact (Fraction.overflow_ofFloat x).bind_of_ok fun y hy => overflow_scale hf (.float hy)

/-- The divisor of a division by zero is a double of at most `2^-63`. -/
theorem exists_divisor {factor divisor : Option Float} (hf : formula.Calculated)
    (h : applyFactors formula factor divisor = .error .divisionByZero) :
    ∃ x q, divisor = some x ∧ IsValue x q ∧ |q| ≤ 1 / 2 ^ 63 := by
  rw [applyFactors_eq] at h
  cases hs : formula.scaleBy factor with
  | error fault =>
    obtain rfl := overflow_scaleBy hf factor fault hs
    rw [hs] at h
    cases h
  | ok scaled =>
    have hscaled := calculated_scaleBy hf hs
    rw [hs, ok_bind] at h
    cases divisor with
    | none => cases h
    | some x =>
      cases hy : Fraction.ofFloat x with
      | error fault =>
        obtain rfl := Fraction.overflow_ofFloat x fault hy
        rw [divideBy, hy] at h
        cases h
      | ok y =>
        rw [divideBy, hy, ok_bind] at h
        obtain ⟨q, hq⟩ := Fraction.exists_value hy
        refine ⟨x, q, rfl, hq, ?_⟩
        by_contra hlarge
        have hne : y.toRat ≠ 0 := (Fraction.toRat_eq_zero_iff hq hy).not.mpr hlarge
        cases overflow_divide hscaled (.float hy) hne _ h

end Formula

end Marksheet
