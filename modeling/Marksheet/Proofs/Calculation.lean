import Marksheet.Scheme
import Marksheet.Proofs.Outcome

/-!
# Marksheet.Proofs.Calculation

Only reading a text finds faults at a place in it. What is calculated from a text already read can
fail as well, but then the fault names no place, and only the last step blames a weighting.

* `Formula.ofEvaluation_applyFactors` : factors and divisors.
* `Normalization.overflow_weightings` : the least common denominator.
* `Scheme.unplaced_ofFormula` : all of what makes a scheme.
-/

namespace Marksheet

theorem overflow_inRange? (n : Int) : FaultsAre (· = .overflow) (inRange? n) := by
  unfold inRange?
  split
  · exact .ok n
  · exact .error rfl

theorem ofEvaluation_of_overflow {fault : Fault} (h : fault = .overflow) :
    fault.OfEvaluation := by
  subst h
  trivial

theorem ofEvaluation_inRange? (n : Int) : FaultsAre Fault.OfEvaluation (inRange? n) :=
  (overflow_inRange? n).mono fun _ => ofEvaluation_of_overflow

/-! ## Fractions -/

namespace Fraction

theorem ofEvaluation_ofPair (num den : Int) : FaultsAre Fault.OfEvaluation (ofPair num den) := by
  unfold ofPair
  split
  · exact .error trivial
  · exact (ofEvaluation_inRange? _).bind fun _ => (ofEvaluation_inRange? _).bind fun _ => .ok _

theorem ofEvaluation_multiply (x y : Fraction) : FaultsAre Fault.OfEvaluation (x.multiply y) :=
  (ofEvaluation_inRange? _).bind fun _ => (ofEvaluation_inRange? _).bind fun _ =>
    ofEvaluation_ofPair _ _

theorem ofEvaluation_divide (x y : Fraction) : FaultsAre Fault.OfEvaluation (x.divide y) := by
  unfold divide
  split
  · exact .error trivial
  split
  · exact ofEvaluation_ofPair _ _
  split
  · exact ofEvaluation_ofPair _ _
  · exact (ofEvaluation_inRange? _).bind fun _ => (ofEvaluation_inRange? _).bind fun _ =>
      ofEvaluation_ofPair _ _

theorem ofEvaluation_add (x y : Fraction) : FaultsAre Fault.OfEvaluation (x.add y) :=
  (ofEvaluation_inRange? _).bind fun _ => (ofEvaluation_inRange? _).bind fun _ =>
    (ofEvaluation_inRange? _).bind fun _ => (ofEvaluation_inRange? _).bind fun _ =>
      ofEvaluation_ofPair _ _

theorem ofEvaluation_sum (xs : List Fraction) : FaultsAre Fault.OfEvaluation (sum xs) := by
  cases xs with
  | nil => exact .ok zero
  | cons x xs => exact .foldlM ofEvaluation_add xs x

theorem overflow_numeratorOver (x : Fraction) (den : Int) :
    FaultsAre (· = .overflow) (x.numeratorOver den) := by
  unfold numeratorOver
  split
  · exact overflow_inRange? _
  · exact .error rfl

theorem overflow_commonMultiple (xs : List Fraction) (multiple : Int) :
    FaultsAre (· = .overflow) (commonMultiple multiple xs) := by
  induction xs generalizing multiple with
  | nil => exact .ok multiple
  | cons x xs ih => exact (overflow_inRange? _).bind fun _ => ih _

theorem ofEvaluation_ofFloat (x : Float) : FaultsAre Fault.OfEvaluation (ofFloat x) := by
  unfold ofFloat
  split
  · exact .error trivial
  split
  · exact (ofEvaluation_inRange? _).bind fun _ => .ok _
  · exact (ofEvaluation_ofPair _ _).bind fun _ => .ok _

end Fraction

/-! ## Formulas -/

theorem NamedFunction.ofEvaluation_checkArity (f : NamedFunction) (given : Nat) :
    FaultsAre Fault.OfEvaluation (f.checkArity given) := by
  unfold checkArity
  split
  · exact .ok ()
  · exact .error trivial

namespace Formula

theorem ofEvaluation_totalWeight (formulas : List Formula) :
    FaultsAre Fault.OfEvaluation (totalWeight formulas) :=
  (Fraction.ofEvaluation_sum _).bind fun _ => .ok _

theorem ofEvaluation_ofGroup (members : List Formula) :
    FaultsAre Fault.OfEvaluation (ofGroup members) :=
  (ofEvaluation_totalWeight members).bind fun _ => .ok _

theorem ofEvaluation_ofCall (function : NamedFunction) (arguments : List Formula) :
    FaultsAre Fault.OfEvaluation (ofCall function arguments) :=
  (ofEvaluation_totalWeight arguments).bind fun _ => .ok _

mutual

theorem ofEvaluation_mapWeights {change : Fraction → Except Fault Fraction}
    (hc : ∀ weight, FaultsAre Fault.OfEvaluation (change weight)) :
    (formula : Formula) → FaultsAre Fault.OfEvaluation (mapWeights change formula)
  | leaf _ _ weight => (hc weight).bind fun _ => .ok _
  | group members _ => (ofEvaluation_mapAllWeights hc members).bind ofEvaluation_ofGroup
  | call function arguments _ =>
    (ofEvaluation_mapAllWeights hc arguments).bind (ofEvaluation_ofCall function)

theorem ofEvaluation_mapAllWeights {change : Fraction → Except Fault Fraction}
    (hc : ∀ weight, FaultsAre Fault.OfEvaluation (change weight)) :
    (formulas : List Formula) → FaultsAre Fault.OfEvaluation (mapAllWeights change formulas)
  | [] => .ok []
  | first :: others => (ofEvaluation_mapWeights hc first).bind fun _ =>
    (ofEvaluation_mapAllWeights hc others).bind fun _ => .ok _

end

theorem ofEvaluation_scale (formula : Formula) (factor : Fraction) :
    FaultsAre Fault.OfEvaluation (formula.scale factor) :=
  ofEvaluation_mapWeights (fun weight => Fraction.ofEvaluation_multiply weight factor) formula

theorem ofEvaluation_divide (formula : Formula) (divisor : Fraction) :
    FaultsAre Fault.OfEvaluation (formula.divide divisor) :=
  ofEvaluation_mapWeights (fun weight => Fraction.ofEvaluation_divide weight divisor) formula

def scaleBy (formula : Formula) : Option Float → Except Fault Formula
  | some x => do formula.scale (← Fraction.ofFloat x)
  | none => .ok formula

def divideBy (formula : Formula) : Option Float → Except Fault Formula
  | some x => do formula.divide (← Fraction.ofFloat x)
  | none => .ok formula

/-- The factor comes first, then the divisor. -/
theorem applyFactors_eq (formula : Formula) (factor divisor : Option Float) :
    applyFactors formula factor divisor = (do (← formula.scaleBy factor).divideBy divisor) := by
  cases factor with
  | none => cases divisor <;> rfl
  | some x =>
    rw [applyFactors, scaleBy]
    cases Fraction.ofFloat x with
    | error fault => rfl
    | ok y =>
      rw [ok_bind, ok_bind]
      cases divisor <;> rfl

theorem ofEvaluation_applyFactors (formula : Formula) (factor divisor : Option Float) :
    FaultsAre Fault.OfEvaluation (applyFactors formula factor divisor) := by
  rw [applyFactors_eq]
  refine .bind ?_ fun scaled => ?_
  · cases factor with
    | none => exact .ok formula
    | some x => exact (Fraction.ofEvaluation_ofFloat x).bind (ofEvaluation_scale formula)
  · cases divisor with
    | none => exact .ok scaled
    | some x => exact (Fraction.ofEvaluation_ofFloat x).bind (ofEvaluation_divide scaled)

end Formula

/-! ## Schemes -/

namespace Normalization

/-- Over the least common denominator, all that can happen is that a number does not fit. -/
theorem overflow_weightings (shares : List Share) :
    FaultsAre (· = .overflow) (commonDenominator.weightings shares) :=
  (Fraction.overflow_commonMultiple _ _).bind fun den =>
    .mapM (fun share => Fraction.overflow_numeratorOver share.weight den) shares

theorem ofEvaluation_throughDenominator (weight : Fraction) (den : Int) :
    FaultsAre Fault.OfEvaluation (throughDenominator weight den) := by
  unfold throughDenominator
  split
  · exact .ok weight
  · exact (Fraction.ofEvaluation_multiply _ _).bind fun _ => Fraction.ofEvaluation_divide _ _

theorem ofEvaluation_weightings (normalization : Normalization) (shares : List Share) :
    FaultsAre Fault.OfEvaluation (normalization.weightings shares) := by
  cases normalization with
  | commonDenominator => exact (overflow_weightings shares).mono fun _ => ofEvaluation_of_overflow
  | numeratorOnly =>
    refine .mapM (fun share => ?_) shares
    exact .bind (.foldlM ofEvaluation_throughDenominator _ _) fun _ => .ok _

end Normalization

namespace Scheme

theorem ofEvaluation_merge (shares : List Share) : FaultsAre Fault.OfEvaluation (merge shares) :=
  .mapM (fun _ => (Fraction.ofEvaluation_sum _).bind fun _ => .ok _) _

/-- A weighting that is not positive has a name, but no place. -/
theorem unplaced_ofFormula (normalization : Normalization) (formula : Formula) :
    FaultsAre (fun fault => fault.position? = none) (ofFormula normalization formula) := by
  have hcalculation : ∀ fault : Fault, fault.OfEvaluation → fault.position? = none :=
    fun _ h => h.ofCalculation.position?
  refine ((ofEvaluation_merge _).mono hcalculation).bind fun shares => ?_
  refine ((normalization.ofEvaluation_weightings shares).mono hcalculation).bind fun weightings =>
    .bind ?_ fun _ => .ok _
  refine .mapM (fun (share, weighting) => ?_) _
  unfold entry
  dsimp only
  split
  · exact .ok _
  · exact .error rfl

end Scheme

end Marksheet
