import Marksheet.Formula
import Marksheet.Proofs.Fraction.Exact

/-!
# Marksheet.Proofs.Formula.Weights

The weights of a tree, however it came about. A construction makes leaves, puts what is there into
groups and calls, and multiplies or divides any part of it. If it goes through:

* the weight of every group and call is the sum of the weights right below it (`Summed`);
* a leaf weighs the product of the factors over the product of the divisors that were applied to it
  or to anything it stands in (`Construction.leaves`);
* apart from weights, factors and divisors leave no trace (`Construction.outline`).

`mapWeights_changed` says it for one change of all weights; `weights_of_construction` follows by
induction on the construction.
-/

namespace Marksheet

structure Leaf where
  name : Option String
  multiplier : Option Float
  weight : Fraction

inductive Outline where
  | leaf (name : Option String) (multiplier : Option Float)
  | group (members : List Outline)
  | call (function : NamedFunction) (arguments : List Outline)

namespace Leaf

def share? (leaf : Leaf) : Option Share :=
  leaf.name.map fun name => { name, weight := leaf.weight }

def reweigh (change : ℚ → ℚ) (leaf : Leaf) : Leaf :=
  { leaf with weight := .ofRat (change leaf.weight.toRat) }

end Leaf

namespace Formula

mutual

def leaves : Formula → List Leaf
  | leaf name multiplier weight => [{ name, multiplier, weight }]
  | group members _ => allLeaves members
  | call _ arguments _ => allLeaves arguments

def allLeaves : List Formula → List Leaf
  | [] => []
  | first :: others => leaves first ++ allLeaves others

end

mutual

def outline : Formula → Outline
  | leaf name multiplier _ => .leaf name multiplier
  | group members _ => .group (allOutlines members)
  | call function arguments _ => .call function (allOutlines arguments)

def allOutlines : List Formula → List Outline
  | [] => []
  | first :: others => outline first :: allOutlines others

end

/-- The sum of the numbers that the weights of `formulas` stand for. -/
def exactTotal (formulas : List Formula) : ℚ :=
  (formulas.map fun formula => formula.weight.toRat).sum

/-- Every weight is in lowest terms, and that of a group or call is the sum of the weights right
below it. -/
inductive Summed : Formula → Prop where
  | leaf {name : Option String} {multiplier : Option Float} {weight : Fraction} :
      weight.Lowest → Summed (.leaf name multiplier weight)
  | group {members : List Formula} : (∀ formula ∈ members, Summed formula) →
      Summed (.group members (.ofRat (exactTotal members)))
  | call {function : NamedFunction} {arguments : List Formula} :
      (∀ formula ∈ arguments, Summed formula) →
      Summed (.call function arguments (.ofRat (exactTotal arguments)))

theorem Summed.lowest {formula : Formula} (h : formula.Summed) : formula.weight.Lowest := by
  cases h with
  | leaf hw => exact hw
  | group => exact Fraction.lowest_ofRat _
  | call => exact Fraction.lowest_ofRat _

theorem totalWeight_eq_ofRat {formulas : List Formula} {sum : Fraction}
    (hs : ∀ formula ∈ formulas, formula.Summed) (h : totalWeight formulas = .ok sum) :
    sum = .ofRat (exactTotal formulas) := by
  have hw : formulas.map weight =
      (formulas.map fun formula => formula.weight.toRat).map Fraction.ofRat := by
    rw [List.map_map]
    exact List.map_congr_left fun formula hm => (hs formula hm).lowest.eq_ofRat
  obtain ⟨total, ht, h⟩ := ok_of_bind h
  cases h
  rw [hw] at ht
  rw [Fraction.sum_ofRat ht, Fraction.reduced_ofRat]
  rfl

theorem ofGroup_eq_ok {members : List Formula} {formula : Formula}
    (hs : ∀ member ∈ members, member.Summed) (h : ofGroup members = .ok formula) :
    formula = .group members (.ofRat (exactTotal members)) := by
  obtain ⟨sum, ht, h⟩ := ok_of_bind h
  cases h
  rw [totalWeight_eq_ofRat hs ht]

theorem ofCall_eq_ok {function : NamedFunction} {arguments : List Formula} {formula : Formula}
    (hs : ∀ argument ∈ arguments, argument.Summed) (h : ofCall function arguments = .ok formula) :
    formula = .call function arguments (.ofRat (exactTotal arguments)) := by
  obtain ⟨sum, ht, h⟩ := ok_of_bind h
  cases h
  rw [totalWeight_eq_ofRat hs ht]

/-! ## One change of all weights -/

section Change

variable {change : Fraction → Except Fault Fraction} {effect : ℚ → ℚ}

mutual

/-- A change that is exact on each weight is so on the leaves of a tree, keeps the sums above them,
and leaves the outline alone. -/
theorem mapWeights_changed
    (hc : ∀ q z, change (.ofRat q) = .ok z → z = .ofRat (effect q)) :
    (formula : Formula) → formula.Summed → ∀ {result : Formula},
      mapWeights change formula = .ok result →
      result.Summed ∧ result.leaves = formula.leaves.map (Leaf.reweigh effect) ∧
        result.outline = formula.outline
  | .leaf name multiplier weight, hs, result, h => by
    cases hs with
    | leaf hw =>
      rw [mapWeights] at h
      obtain ⟨changed, hz, h⟩ := ok_of_bind h
      cases h
      rw [hw.eq_ofRat] at hz
      cases hc _ _ hz
      exact ⟨.leaf (Fraction.lowest_ofRat _), rfl, rfl⟩
  | .group members _, hs, result, h => by
    cases hs with
    | group hm =>
      rw [mapWeights] at h
      obtain ⟨changed, hz, h⟩ := ok_of_bind h
      obtain ⟨hs', hl, ho⟩ := mapAllWeights_changed hc members hm hz
      rw [ofGroup_eq_ok hs' h]
      exact ⟨.group hs', by simp only [leaves, hl], by simp only [outline, ho]⟩
  | .call function arguments _, hs, result, h => by
    cases hs with
    | call hm =>
      rw [mapWeights] at h
      obtain ⟨changed, hz, h⟩ := ok_of_bind h
      obtain ⟨hs', hl, ho⟩ := mapAllWeights_changed hc arguments hm hz
      rw [ofCall_eq_ok hs' h]
      exact ⟨.call hs', by simp only [leaves, hl], by simp only [outline, ho]⟩

theorem mapAllWeights_changed
    (hc : ∀ q z, change (.ofRat q) = .ok z → z = .ofRat (effect q)) :
    (formulas : List Formula) → (∀ formula ∈ formulas, formula.Summed) →
      ∀ {results : List Formula}, mapAllWeights change formulas = .ok results →
      (∀ result ∈ results, result.Summed) ∧
        allLeaves results = (allLeaves formulas).map (Leaf.reweigh effect) ∧
        allOutlines results = allOutlines formulas
  | [], _, results, h => by
    cases h
    exact ⟨by simp, rfl, rfl⟩
  | first :: others, hs, results, h => by
    rw [mapAllWeights] at h
    obtain ⟨one, h₁, h⟩ := ok_of_bind h
    obtain ⟨rest, h₂, h⟩ := ok_of_bind h
    cases h
    obtain ⟨hs₁, hl₁, ho₁⟩ := mapWeights_changed hc first (hs first List.mem_cons_self) h₁
    obtain ⟨hs₂, hl₂, ho₂⟩ :=
      mapAllWeights_changed hc others (fun f hf => hs f (List.mem_cons_of_mem _ hf)) h₂
    refine ⟨?_, ?_, ?_⟩
    · intro result hr
      rcases List.mem_cons.mp hr with rfl | hr
      · exact hs₁
      · exact hs₂ result hr
    · simp only [allLeaves, hl₁, hl₂, List.map_append]
    · simp only [allOutlines, ho₁, ho₂]

end

end Change

theorem scale_changed {formula result : Formula} {factor : Fraction} (hs : formula.Summed)
    (hf : factor.Lowest) (h : formula.scale factor = .ok result) :
    result.Summed ∧ result.leaves = formula.leaves.map (Leaf.reweigh (· * factor.toRat)) ∧
      result.outline = formula.outline := by
  refine mapWeights_changed ?_ formula hs h
  intro q z hz
  rw [hf.eq_ofRat] at hz
  exact Fraction.multiply_ofRat hz

theorem divide_changed {formula result : Formula} {divisor : Fraction} (hs : formula.Summed)
    (hd : divisor.Lowest) (h : formula.divide divisor = .ok result) :
    result.Summed ∧ result.leaves = formula.leaves.map (Leaf.reweigh (· / divisor.toRat)) ∧
      result.outline = formula.outline := by
  refine mapWeights_changed ?_ formula hs h
  intro q z hz
  rw [hd.eq_ofRat] at hz
  exact (Fraction.divide_ofRat hz).2

/-! ## Numeric leaves and names -/

mutual

/-- The shares are the leaves with a name. -/
theorem shares_eq_filterMap :
    (formula : Formula) → formula.shares = formula.leaves.filterMap Leaf.share?
  | .leaf (some _) _ _ => rfl
  | .leaf none _ _ => rfl
  | .group members _ => allShares_eq_filterMap members
  | .call _ arguments _ => allShares_eq_filterMap arguments

theorem allShares_eq_filterMap :
    (formulas : List Formula) → allShares formulas = (allLeaves formulas).filterMap Leaf.share?
  | [] => rfl
  | first :: others => by
    rw [allShares, allLeaves, List.filterMap_append, shares_eq_filterMap first,
      allShares_eq_filterMap others]

end

theorem exactTotal_cons (first : Formula) (others : List Formula) :
    exactTotal (first :: others) = first.weight.toRat + exactTotal others := rfl

mutual

/-- The weight of a tree is the sum over all its leaves. -/
theorem Summed.weight_eq_sum : (formula : Formula) → formula.Summed →
    formula.weight = .ofRat (formula.leaves.map fun leaf => leaf.weight.toRat).sum
  | .leaf name multiplier weight, hs => by
    cases hs with
    | leaf hw => simpa [Formula.weight, leaves] using hw.eq_ofRat
  | .group members _, hs => by
    cases hs with
    | group hm => rw [Formula.weight, leaves, exactTotal_eq_sum members hm]
  | .call _ arguments _, hs => by
    cases hs with
    | call hm => rw [Formula.weight, leaves, exactTotal_eq_sum arguments hm]

theorem exactTotal_eq_sum : (formulas : List Formula) → (∀ formula ∈ formulas, formula.Summed) →
    exactTotal formulas = ((allLeaves formulas).map fun leaf => leaf.weight.toRat).sum
  | [], _ => rfl
  | first :: others, hs => by
    rw [exactTotal_cons, allLeaves, List.map_append, List.sum_append,
      Summed.weight_eq_sum first (hs first List.mem_cons_self), Fraction.toRat_ofRat,
      exactTotal_eq_sum others fun f hf => hs f (List.mem_cons_of_mem _ hf)]

end

mutual

theorem Summed.lowest_leaves : {formula : Formula} → formula.Summed →
    ∀ leaf ∈ formula.leaves, leaf.weight.Lowest
  | .leaf name multiplier weight, hs => by
    cases hs with
    | leaf hw => simpa [leaves] using hw
  | .group members _, hs => by
    cases hs with
    | group hm => exact lowest_allLeaves hm
  | .call _ arguments _, hs => by
    cases hs with
    | call hm => exact lowest_allLeaves hm

theorem lowest_allLeaves : {formulas : List Formula} → (∀ formula ∈ formulas, formula.Summed) →
    ∀ leaf ∈ allLeaves formulas, leaf.weight.Lowest
  | [], _ => by simp [allLeaves]
  | first :: others, hs => by
    intro leaf hl
    rcases List.mem_append.mp hl with hl | hl
    · exact Summed.lowest_leaves (hs first List.mem_cons_self) leaf hl
    · exact lowest_allLeaves (fun f hf => hs f (List.mem_cons_of_mem _ hf)) leaf hl

end

/-! ## Changes that fault -/

section Zero

variable {change : Fraction → Except Fault Fraction}

theorem totalWeight_of_zero {formulas : List Formula}
    (h : ∀ formula ∈ formulas, formula.weight = .zero) : totalWeight formulas = .ok .zero := by
  have hz : ∀ {xs : List Fraction}, (∀ x ∈ xs, x = .zero) →
      xs.foldlM Fraction.add .zero = .ok .zero := by
    intro xs hx
    induction xs with
    | nil => rfl
    | cons x xs ih =>
      rw [hx x List.mem_cons_self, List.foldlM_cons]
      exact ih fun y hy => hx y (List.mem_cons_of_mem _ hy)
  cases formulas with
  | nil => rfl
  | cons first others =>
    have hs : Fraction.sum ((first :: others).map weight) = .ok .zero := by
      rw [List.map_cons, h first List.mem_cons_self]
      refine hz ?_
      intro x hx
      obtain ⟨formula, hf, rfl⟩ := List.mem_map.mp hx
      exact h formula (List.mem_cons_of_mem _ hf)
    rw [totalWeight, hs]
    rfl

mutual

theorem mapWeights_of_no_leaves (change : Fraction → Except Fault Fraction) :
    (formula : Formula) → formula.leaves = [] → ∃ result,
      mapWeights change formula = .ok result ∧ result.weight = .zero
  | .leaf _ _ _, h => by cases h
  | .group members _, h => by
    obtain ⟨results, hr, hz⟩ := mapAllWeights_of_no_leaves change members h
    refine ⟨.group results .zero, ?_, rfl⟩
    rw [mapWeights, hr, ok_bind, ofGroup, totalWeight_of_zero hz]
    rfl
  | .call function arguments _, h => by
    obtain ⟨results, hr, hz⟩ := mapAllWeights_of_no_leaves change arguments h
    refine ⟨.call function results .zero, ?_, rfl⟩
    rw [mapWeights, hr, ok_bind, ofCall, totalWeight_of_zero hz]
    rfl

theorem mapAllWeights_of_no_leaves (change : Fraction → Except Fault Fraction) :
    (formulas : List Formula) → allLeaves formulas = [] → ∃ results,
      mapAllWeights change formulas = .ok results ∧ ∀ result ∈ results, result.weight = .zero
  | [], _ => ⟨[], rfl, by simp⟩
  | first :: others, h => by
    obtain ⟨h₁, h₂⟩ := List.append_eq_nil_iff.mp h
    obtain ⟨one, ho, hz⟩ := mapWeights_of_no_leaves change first h₁
    obtain ⟨rest, hr, hzs⟩ := mapAllWeights_of_no_leaves change others h₂
    refine ⟨one :: rest, ?_, ?_⟩
    · rw [mapAllWeights, ho, ok_bind, hr]
      rfl
    · intro result hm
      rcases List.mem_cons.mp hm with rfl | hm
      · exact hz
      · exact hzs result hm

end

mutual

/-- A change that fails on every weight fails where there is a leaf; what stands before the first
leaf does not get in its way. -/
theorem mapWeights_of_fault {fault : Fault} (hc : ∀ weight, change weight = .error fault) :
    (formula : Formula) → formula.leaves ≠ [] → mapWeights change formula = .error fault
  | .leaf name multiplier weight, _ => by rw [mapWeights, hc, error_bind]
  | .group members _, h => by
    rw [mapWeights, mapAllWeights_of_fault hc members h, error_bind]
  | .call _ arguments _, h => by
    rw [mapWeights, mapAllWeights_of_fault hc arguments h, error_bind]

theorem mapAllWeights_of_fault {fault : Fault} (hc : ∀ weight, change weight = .error fault) :
    (formulas : List Formula) → allLeaves formulas ≠ [] →
      mapAllWeights change formulas = .error fault
  | [], h => absurd rfl h
  | first :: others, h => by
    rw [mapAllWeights]
    by_cases hf : first.leaves = []
    · obtain ⟨one, ho, _⟩ := mapWeights_of_no_leaves change first hf
      rw [ho, ok_bind, mapAllWeights_of_fault hc others, error_bind]
      simpa [allLeaves, hf] using h
    · rw [mapWeights_of_fault hc first hf, error_bind]

end

theorem divide_zero_iff {formula : Formula} {divisor : Fraction} (hz : divisor.isZero = true) :
    formula.divide divisor = .error .divisionByZero ↔ formula.leaves ≠ [] := by
  constructor
  · intro h hn
    obtain ⟨result, hr, _⟩ :=
      mapWeights_of_no_leaves (fun weight => weight.divide divisor) formula hn
    rw [divide, hr] at h
    cases h
  · exact mapWeights_of_fault (fun weight => by rw [Fraction.divide, if_pos hz]) formula

end Zero

end Formula

/-! ## Any way to build a tree -/

/-- A way to build a formula. -/
inductive Construction where
  | leaf (name : Option String) (multiplier : Option Float)
  | group (members : List Construction)
  | call (function : NamedFunction) (arguments : List Construction)
  | scale (whole : Construction) (factor : Fraction)
  | divide (whole : Construction) (divisor : Fraction)

namespace Construction

mutual

def formula : Construction → Except Fault Formula
  | leaf name multiplier => .ok (Formula.ofLeaf name multiplier)
  | group members => do Formula.ofGroup (← allFormulas members)
  | call function arguments => do Formula.ofCall function (← allFormulas arguments)
  | scale whole factor => do (← formula whole).scale factor
  | divide whole divisor => do (← formula whole).divide divisor

def allFormulas : List Construction → Except Fault (List Formula)
  | [] => .ok []
  | first :: others => do
    let first ← formula first
    let others ← allFormulas others
    return first :: others

end

mutual

def numbers : Construction → List Fraction
  | leaf _ _ => []
  | group members => allNumbers members
  | call _ arguments => allNumbers arguments
  | scale whole factor => factor :: numbers whole
  | divide whole divisor => divisor :: numbers whole

def allNumbers : List Construction → List Fraction
  | [] => []
  | first :: others => numbers first ++ allNumbers others

end

/-- The product of `factors` over the product of `divisors`. -/
def ratio (factors divisors : List Fraction) : ℚ :=
  (factors.map Fraction.toRat).prod / (divisors.map Fraction.toRat).prod

mutual

/-- The leaves, where `factors` and `divisors` are applied to what they stand in. -/
def leaves (factors divisors : List Fraction) : Construction → List Leaf
  | leaf name multiplier => [{ name, multiplier, weight := .ofRat (ratio factors divisors) }]
  | group members => allLeaves factors divisors members
  | call _ arguments => allLeaves factors divisors arguments
  | scale whole factor => leaves (factor :: factors) divisors whole
  | divide whole divisor => leaves factors (divisor :: divisors) whole

def allLeaves (factors divisors : List Fraction) : List Construction → List Leaf
  | [] => []
  | first :: others => leaves factors divisors first ++ allLeaves factors divisors others

end

mutual

/-- The outline, in which factors and divisors do not show. -/
def outline : Construction → Outline
  | leaf name multiplier => .leaf name multiplier
  | group members => .group (allOutlines members)
  | call function arguments => .call function (allOutlines arguments)
  | scale whole _ => outline whole
  | divide whole _ => outline whole

def allOutlines : List Construction → List Outline
  | [] => []
  | first :: others => outline first :: allOutlines others

end

theorem ratio_cons_factor (factor : Fraction) (factors divisors : List Fraction) :
    ratio (factor :: factors) divisors = ratio factors divisors * factor.toRat := by
  rw [ratio, ratio, List.map_cons, List.prod_cons, mul_comm, mul_div_right_comm]

theorem ratio_cons_divisor (divisor : Fraction) (factors divisors : List Fraction) :
    ratio factors (divisor :: divisors) = ratio factors divisors / divisor.toRat := by
  rw [ratio, ratio, List.map_cons, List.prod_cons, mul_comm, div_mul_eq_div_div]

section Effect

variable {k : ℚ}

mutual

/-- Only the ratio of what is applied counts, and it counts for each leaf alike. -/
theorem leaves_of_ratio :
    (construction : Construction) → {factors divisors factors' divisors' : List Fraction} →
      ratio factors' divisors' = ratio factors divisors * k →
      leaves factors' divisors' construction =
        (leaves factors divisors construction).map (Leaf.reweigh (· * k))
  | .leaf name multiplier, factors, divisors, _, _, h => by
    simp [leaves, Leaf.reweigh, h]
  | .group members, _, _, _, _, h => allLeaves_of_ratio members h
  | .call _ arguments, _, _, _, _, h => allLeaves_of_ratio arguments h
  | .scale whole factor, _, _, _, _, h => by
    refine leaves_of_ratio whole ?_
    rw [ratio_cons_factor, ratio_cons_factor, h]
    ring
  | .divide whole divisor, _, _, _, _, h => by
    refine leaves_of_ratio whole ?_
    rw [ratio_cons_divisor, ratio_cons_divisor, h]
    ring

theorem allLeaves_of_ratio :
    (constructions : List Construction) → {factors divisors factors' divisors' : List Fraction} →
      ratio factors' divisors' = ratio factors divisors * k →
      allLeaves factors' divisors' constructions =
        (allLeaves factors divisors constructions).map (Leaf.reweigh (· * k))
  | [], _, _, _, _, _ => rfl
  | first :: others, _, _, _, _, h => by
    rw [allLeaves, allLeaves, leaves_of_ratio first h, allLeaves_of_ratio others h,
      List.map_append]

end

end Effect

mutual

/-- What a construction comes to, by induction on its steps. -/
theorem formula_built : (construction : Construction) →
    (∀ x ∈ construction.numbers, x.Lowest) → ∀ {result : Formula},
      construction.formula = .ok result →
      result.Summed ∧ result.leaves = construction.leaves [] [] ∧
        result.outline = construction.outline
  | .leaf name multiplier, _, result, h => by
    cases h
    refine ⟨.leaf (by decide), ?_, rfl⟩
    simp [Formula.ofLeaf, Formula.leaves, leaves, ratio, Fraction.ofRat_one]
  | .group members, hl, result, h => by
    rw [formula] at h
    obtain ⟨built, hb, h⟩ := ok_of_bind h
    obtain ⟨hs, hv, ho⟩ := allFormulas_built members hl hb
    rw [Formula.ofGroup_eq_ok hs h]
    exact ⟨.group hs, hv, congrArg Outline.group ho⟩
  | .call function arguments, hl, result, h => by
    rw [formula] at h
    obtain ⟨built, hb, h⟩ := ok_of_bind h
    obtain ⟨hs, hv, ho⟩ := allFormulas_built arguments hl hb
    rw [Formula.ofCall_eq_ok hs h]
    exact ⟨.call hs, hv, congrArg (Outline.call function) ho⟩
  | .scale whole factor, hl, result, h => by
    rw [formula] at h
    obtain ⟨inner, hi, h⟩ := ok_of_bind h
    obtain ⟨hs, hv, ho⟩ := formula_built whole (fun x hx => hl x (List.mem_cons_of_mem _ hx)) hi
    obtain ⟨hs', hv', ho'⟩ := Formula.scale_changed hs (hl factor List.mem_cons_self) h
    refine ⟨hs', ?_, ho'.trans ho⟩
    rw [hv', hv, leaves, leaves_of_ratio whole (ratio_cons_factor factor [] [])]
  | .divide whole divisor, hl, result, h => by
    rw [formula] at h
    obtain ⟨inner, hi, h⟩ := ok_of_bind h
    obtain ⟨hs, hv, ho⟩ := formula_built whole (fun x hx => hl x (List.mem_cons_of_mem _ hx)) hi
    obtain ⟨hs', hv', ho'⟩ := Formula.divide_changed hs (hl divisor List.mem_cons_self) h
    refine ⟨hs', ?_, ho'.trans ho⟩
    have hk : ratio [] [divisor] = ratio [] [] * (divisor.toRat)⁻¹ := by
      rw [ratio_cons_divisor, div_eq_mul_inv]
    rw [hv', hv, leaves, leaves_of_ratio whole hk]
    simp only [div_eq_mul_inv]

theorem allFormulas_built : (constructions : List Construction) →
    (∀ x ∈ allNumbers constructions, x.Lowest) → ∀ {results : List Formula},
      allFormulas constructions = .ok results →
      (∀ result ∈ results, result.Summed) ∧
        Formula.allLeaves results = allLeaves [] [] constructions ∧
        Formula.allOutlines results = allOutlines constructions
  | [], _, results, h => by
    cases h
    exact ⟨by simp, rfl, rfl⟩
  | first :: others, hl, results, h => by
    rw [allFormulas] at h
    obtain ⟨one, h₁, h⟩ := ok_of_bind h
    obtain ⟨rest, h₂, h⟩ := ok_of_bind h
    cases h
    obtain ⟨hs₁, hv₁, ho₁⟩ :=
      formula_built first (fun x hx => hl x (List.mem_append_left _ hx)) h₁
    obtain ⟨hs₂, hv₂, ho₂⟩ :=
      allFormulas_built others (fun x hx => hl x (List.mem_append_right _ hx)) h₂
    refine ⟨?_, ?_, ?_⟩
    · intro result hr
      rcases List.mem_cons.mp hr with rfl | hr
      · exact hs₁
      · exact hs₂ result hr
    · rw [Formula.allLeaves, allLeaves, hv₁, hv₂]
    · rw [Formula.allOutlines, allOutlines, ho₁, ho₂]

end

/-- A construction with factors and divisors in lowest terms, if it goes through, gives a tree whose
sums and leaves are exact. Its shares are the leaves with a name. Dividing it by zero is a fault
just where there is a leaf. -/
theorem weights_of_construction {construction : Construction} {result : Formula}
    (hl : ∀ x ∈ construction.numbers, x.Lowest) (h : construction.formula = .ok result) :
    result.Summed ∧
      result.weight = .ofRat (result.leaves.map fun leaf => leaf.weight.toRat).sum ∧
      result.leaves = construction.leaves [] [] ∧
      result.outline = construction.outline ∧
      result.shares = result.leaves.filterMap Leaf.share? ∧
      ∀ divisor : Fraction, divisor.isZero = true →
        (result.divide divisor = .error .divisionByZero ↔ result.leaves ≠ []) := by
  obtain ⟨hs, hv, ho⟩ := formula_built construction hl h
  exact ⟨hs, Formula.Summed.weight_eq_sum result hs, hv, ho,
    Formula.shares_eq_filterMap result, fun _ hz => Formula.divide_zero_iff hz⟩

def nested : Construction :=
  .divide (.group [.leaf (some "a") none,
    .scale (.divide (.group [.leaf (some "b") none, .leaf none (some 2), .group []]) (.ofInt 2))
      (.ofInt 5),
    .call .root [.leaf (some "c") none, .leaf none (some 3)]]) (.ofInt 7)

theorem weights_of_nested :
    ∃ result, nested.formula = .ok result ∧ result.Summed ∧
      result.weight = .ofRat (result.leaves.map fun leaf => leaf.weight.toRat).sum ∧
      result.leaves = nested.leaves [] [] ∧ result.outline = nested.outline ∧
      result.divide .zero = .error .divisionByZero := by
  have hl : ∀ x ∈ nested.numbers, x.Lowest := by decide
  obtain ⟨result, h⟩ := exists_ok (x := nested.formula) (by decide +kernel)
  obtain ⟨hs, hw, hv, ho, _, hz⟩ := weights_of_construction hl h
  refine ⟨result, h, hs, hw, hv, ho, (hz .zero rfl).mpr ?_⟩
  rw [hv]
  exact List.cons_ne_nil _ _

end Construction

end Marksheet
