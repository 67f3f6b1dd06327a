import Marksheet.Proofs.Calculation
import Marksheet.Proofs.Formula.Weights
import Marksheet.Proofs.Fraction.Range
import Marksheet.Proofs.Grammar.Evaluation

/-!
# Marksheet.Proofs.Formula.Bounds

No weight in a tree is outside the 64-bit range, however the tree came about: each is the result of
a calculation whose steps are checked.

* `Formula.Calculated` : the weights in a tree are all results of calculations.
* `Formula.calculated_mapWeights` : a change of all weights keeps them so.
* `Construction.calculated_formula`, `Term.calculated_formula` : so they are in every tree that is
  built step by step, and in every one that is evaluated from a text.
-/

namespace Marksheet

namespace Formula

/-- Every weight in the tree is the result of a calculation. -/
inductive Calculated : Formula → Prop where
  | leaf {name : Option String} {multiplier : Option Float} {weight : Fraction} :
      weight.Obtained → Calculated (.leaf name multiplier weight)
  | group {members : List Formula} {weight : Fraction} : weight.Obtained →
      (∀ formula ∈ members, Calculated formula) → Calculated (.group members weight)
  | call {function : NamedFunction} {arguments : List Formula} {weight : Fraction} :
      weight.Obtained → (∀ formula ∈ arguments, Calculated formula) →
      Calculated (.call function arguments weight)

variable {formula result : Formula}

theorem Calculated.weight (h : formula.Calculated) : formula.weight.Obtained := by
  cases h <;> assumption

theorem calculated_nil : ∀ formula ∈ ([] : List Formula), formula.Calculated :=
  fun _ h => absurd h List.not_mem_nil

theorem calculated_cons {others : List Formula} (hf : formula.Calculated)
    (ho : ∀ other ∈ others, other.Calculated) :
    ∀ member ∈ formula :: others, member.Calculated :=
  List.forall_mem_cons.mpr ⟨hf, ho⟩

/-! ## Building a tree -/

theorem calculated_ofLeaf (name : Option String) (multiplier : Option Float) :
    (ofLeaf name multiplier).Calculated :=
  .leaf (.whole (n := 1) (by decide))

theorem obtained_totalWeight {formulas : List Formula} {sum : Fraction}
    (hf : ∀ formula ∈ formulas, formula.Calculated) (h : totalWeight formulas = .ok sum) :
    sum.Obtained := by
  obtain ⟨total, ht, h⟩ := ok_of_bind h
  cases h
  refine .reduced (Fraction.obtained_sum ?_ ht)
  intro x hx
  obtain ⟨formula, hm, rfl⟩ := List.mem_map.mp hx
  exact (hf formula hm).weight

theorem calculated_ofGroup {members : List Formula}
    (hm : ∀ member ∈ members, member.Calculated) (h : ofGroup members = .ok result) :
    result.Calculated := by
  obtain ⟨sum, hs, h⟩ := ok_of_bind h
  cases h
  exact .group (obtained_totalWeight hm hs) hm

theorem calculated_ofCall {function : NamedFunction} {arguments : List Formula}
    (ha : ∀ argument ∈ arguments, argument.Calculated)
    (h : ofCall function arguments = .ok result) : result.Calculated := by
  obtain ⟨sum, hs, h⟩ := ok_of_bind h
  cases h
  exact .call (obtained_totalWeight ha hs) ha

/-! ## Changing its weights -/

section Change

variable {change : Fraction → Except Fault Fraction}

mutual

/-- The sums above changed weights are calculated anew, by induction on the tree. -/
theorem calculated_mapWeights
    (hc : ∀ weight changed, weight.Obtained → change weight = .ok changed → changed.Obtained) :
    (formula : Formula) → formula.Calculated → ∀ {result : Formula},
      mapWeights change formula = .ok result → result.Calculated
  | .leaf name multiplier weight, hf, result, h => by
    cases hf with
    | leaf hw =>
      rw [mapWeights] at h
      obtain ⟨changed, hz, h⟩ := ok_of_bind h
      cases h
      exact .leaf (hc weight changed hw hz)
  | .group members _, hf, result, h => by
    cases hf with
    | group _ hm =>
      rw [mapWeights] at h
      obtain ⟨changed, hz, h⟩ := ok_of_bind h
      exact calculated_ofGroup (calculated_mapAllWeights hc members hm hz) h
  | .call function arguments _, hf, result, h => by
    cases hf with
    | call _ ha =>
      rw [mapWeights] at h
      obtain ⟨changed, hz, h⟩ := ok_of_bind h
      exact calculated_ofCall (calculated_mapAllWeights hc arguments ha hz) h

theorem calculated_mapAllWeights
    (hc : ∀ weight changed, weight.Obtained → change weight = .ok changed → changed.Obtained) :
    (formulas : List Formula) → (∀ formula ∈ formulas, formula.Calculated) →
      ∀ {results : List Formula}, mapAllWeights change formulas = .ok results →
      ∀ result ∈ results, result.Calculated
  | [], _, results, h => by
    cases h
    exact calculated_nil
  | first :: others, hf, results, h => by
    obtain ⟨hfirst, hothers⟩ := List.forall_mem_cons.mp hf
    rw [mapAllWeights] at h
    obtain ⟨one, h₁, h⟩ := ok_of_bind h
    obtain ⟨rest, h₂, h⟩ := ok_of_bind h
    cases h
    exact calculated_cons (calculated_mapWeights hc first hfirst h₁)
      (calculated_mapAllWeights hc others hothers h₂)

end

end Change

theorem calculated_scale {factor : Fraction} (hf : formula.Calculated) (hx : factor.Obtained)
    (h : formula.scale factor = .ok result) : result.Calculated :=
  calculated_mapWeights (fun _ _ hw hz => .multiply hw hx hz) formula hf h

theorem calculated_divide {divisor : Fraction} (hf : formula.Calculated) (hx : divisor.Obtained)
    (h : formula.divide divisor = .ok result) : result.Calculated :=
  calculated_mapWeights (fun _ _ hw hz => .divide hw hx hz) formula hf h

theorem calculated_scaleBy {factor : Option Float} (hf : formula.Calculated)
    (h : formula.scaleBy factor = .ok result) : result.Calculated := by
  cases factor with
  | none =>
    cases h
    exact hf
  | some x =>
    obtain ⟨y, hy, h⟩ := ok_of_bind h
    exact calculated_scale hf (.float hy) h

theorem calculated_applyFactors {factor divisor : Option Float} (hf : formula.Calculated)
    (h : applyFactors formula factor divisor = .ok result) : result.Calculated := by
  rw [applyFactors_eq] at h
  obtain ⟨scaled, hs, h⟩ := ok_of_bind h
  have hscaled := calculated_scaleBy hf hs
  cases divisor with
  | none =>
    cases h
    exact hscaled
  | some x =>
    obtain ⟨y, hy, h⟩ := ok_of_bind h
    exact calculated_divide hscaled (.float hy) h

/-! ## Shares -/

mutual

theorem Calculated.shares : {formula : Formula} → formula.Calculated →
    ∀ share ∈ formula.shares, share.weight.Obtained
  | .leaf none _ _, _ => fun _ h => absurd h List.not_mem_nil
  | .leaf (some name) _ weight, hf => by
    cases hf with
    | leaf hw => exact List.forall_mem_singleton.mpr hw
  | .group members _, hf => by
    cases hf with
    | group _ hm => exact calculated_allShares hm
  | .call _ arguments _, hf => by
    cases hf with
    | call _ ha => exact calculated_allShares ha

theorem calculated_allShares : {formulas : List Formula} →
    (∀ formula ∈ formulas, formula.Calculated) → ∀ share ∈ allShares formulas,
      share.weight.Obtained
  | [], _ => fun _ h => absurd h List.not_mem_nil
  | first :: others, hf => by
    obtain ⟨hfirst, hothers⟩ := List.forall_mem_cons.mp hf
    intro share hs
    rcases List.mem_append.mp hs with hs | hs
    · exact Calculated.shares hfirst share hs
    · exact calculated_allShares hothers share hs

end

end Formula

namespace Construction

mutual

theorem calculated_formula : (construction : Construction) →
    (∀ x ∈ construction.numbers, x.Obtained) → ∀ {result : Formula},
      construction.formula = .ok result → result.Calculated
  | .leaf name multiplier, _, result, h => by
    cases h
    exact Formula.calculated_ofLeaf name multiplier
  | .group members, hx, result, h => by
    rw [formula] at h
    obtain ⟨built, hb, h⟩ := ok_of_bind h
    exact Formula.calculated_ofGroup (calculated_allFormulas members hx hb) h
  | .call function arguments, hx, result, h => by
    rw [formula] at h
    obtain ⟨built, hb, h⟩ := ok_of_bind h
    exact Formula.calculated_ofCall (calculated_allFormulas arguments hx hb) h
  | .scale whole factor, hx, result, h => by
    obtain ⟨hfactor, hwhole⟩ := List.forall_mem_cons.mp hx
    rw [formula] at h
    obtain ⟨inner, hi, h⟩ := ok_of_bind h
    exact Formula.calculated_scale (calculated_formula whole hwhole hi) hfactor h
  | .divide whole divisor, hx, result, h => by
    obtain ⟨hdivisor, hwhole⟩ := List.forall_mem_cons.mp hx
    rw [formula] at h
    obtain ⟨inner, hi, h⟩ := ok_of_bind h
    exact Formula.calculated_divide (calculated_formula whole hwhole hi) hdivisor h

theorem calculated_allFormulas : (constructions : List Construction) →
    (∀ x ∈ allNumbers constructions, x.Obtained) → ∀ {results : List Formula},
      allFormulas constructions = .ok results → ∀ result ∈ results, result.Calculated
  | [], _, results, h => by
    cases h
    exact Formula.calculated_nil
  | first :: others, hx, results, h => by
    obtain ⟨hfirst, hothers⟩ := List.forall_mem_append.mp hx
    rw [allFormulas] at h
    obtain ⟨one, h₁, h⟩ := ok_of_bind h
    obtain ⟨rest, h₂, h⟩ := ok_of_bind h
    cases h
    exact Formula.calculated_cons (calculated_formula first hfirst h₁)
      (calculated_allFormulas others hothers h₂)

end

end Construction

namespace Term

mutual

theorem calculated_formula : (term : Term) → ∀ {result : Formula}, term.formula = .ok result →
    result.Calculated
  | .number factor divisor, result, h => by
    rw [formula] at h
    exact Formula.calculated_applyFactors (Formula.calculated_ofLeaf none (some factor)) h
  | .name factor word divisor, result, h => by
    rw [formula] at h
    exact Formula.calculated_applyFactors (Formula.calculated_ofLeaf (some word) factor) h
  | .group factor members divisor, result, h => by
    rw [formula] at h
    obtain ⟨formulas, hm, h⟩ := ok_of_bind h
    obtain ⟨whole, hw, h⟩ := ok_of_bind h
    exact Formula.calculated_applyFactors
      (Formula.calculated_ofGroup (calculated_allFormulas members hm) hw) h
  | .call factor function arguments divisor, result, h => by
    rw [formula] at h
    cases hn : NamedFunction.ofName? function with
    | none => rw [hn] at h; cases h
    | some known =>
      rw [hn] at h
      obtain ⟨formulas, hm, h⟩ := ok_of_bind h
      obtain ⟨whole, hw, h⟩ := ok_of_bind h
      exact Formula.calculated_applyFactors
        (Formula.calculated_ofCall (calculated_allFormulas arguments hm) hw) h

theorem calculated_allFormulas : (terms : List Term) → ∀ {results : List Formula},
    allFormulas terms = .ok results → ∀ result ∈ results, result.Calculated
  | [], results, h => by
    cases h
    exact Formula.calculated_nil
  | first :: others, results, h => by
    rw [allFormulas] at h
    obtain ⟨one, h₁, h⟩ := ok_of_bind h
    obtain ⟨rest, h₂, h⟩ := ok_of_bind h
    cases h
    exact Formula.calculated_cons (calculated_formula first h₁)
      (calculated_allFormulas others h₂)

end

end Term

end Marksheet
