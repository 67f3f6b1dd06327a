import Marksheet.Proofs.Scheme.Weightings
import Mathlib.Data.List.Nodup

/-!
# Marksheet.Proofs.Scheme.Totals

The total of a scheme is what its formula weighs. It comes from the sums that the tree carries; the
weightings come from the named leaves, merged and brought to one denominator. What is between the
two are the numbers of the formula, which weigh something but have no name.

* `Term.numbers` : the numbers in a term, each with the weight it has there.
* `Term.formula_numbers` : the leaves without a name are these, whatever the nesting.
* `sum_coefficients` : merging loses no weight.
* `Scheme.conserves_of_compile` : the total over the least common denominator.
-/

namespace Marksheet

def Leaf.number? (leaf : Leaf) : Option ℚ :=
  if leaf.name.isNone then some leaf.weight.toRat else none

theorem sum_leaves (leaves : List Leaf) :
    (leaves.map fun leaf => leaf.weight.toRat).sum =
      ((leaves.filterMap Leaf.share?).map fun share => share.weight.toRat).sum +
        (leaves.filterMap Leaf.number?).sum := by
  induction leaves with
  | nil => simp
  | cons leaf leaves ih =>
    cases hn : leaf.name with
    | none =>
      have hshare : leaf.share? = none := by simp [Leaf.share?, hn]
      have hnumber : leaf.number? = some leaf.weight.toRat := by simp [Leaf.number?, hn]
      rw [List.map_cons, List.sum_cons, ih, List.filterMap_cons_none hshare,
        List.filterMap_cons_some hnumber, List.sum_cons, add_left_comm]
    | some name =>
      have hshare : leaf.share? = some { name, weight := leaf.weight } := by
        simp [Leaf.share?, hn]
      have hnumber : leaf.number? = none := by simp [Leaf.number?, hn]
      rw [List.map_cons, List.sum_cons, ih, List.filterMap_cons_some hshare,
        List.filterMap_cons_none hnumber, List.map_cons, List.sum_cons, add_assoc]

/-! ## Numbers -/

namespace Formula

variable {formula result : Formula}

def numbers (formula : Formula) : List ℚ := formula.leaves.filterMap Leaf.number?

theorem numbers_reweighed {k : ℚ} (hl : result.leaves = formula.leaves.map (Leaf.reweigh (k * ·))) :
    result.numbers = formula.numbers.map (k * ·) := by
  rw [numbers, numbers, hl, List.filterMap_map, List.map_filterMap]
  refine List.filterMap_congr ?_
  intro leaf _
  cases hn : leaf.name <;> simp [Leaf.number?, Leaf.reweigh, hn]

/-- A formula weighs as much as its named occurrences and its numbers together. -/
theorem weight_of_lists {occurrences : List Occurrence} (h : formula.Lists occurrences) :
    formula.weight = .ofRat ((occurrences.map Occurrence.times).sum + formula.numbers.sum) := by
  obtain ⟨hs, hl⟩ := h
  rw [shares_eq_filterMap] at hl
  rw [Summed.weight_eq_sum formula hs, sum_leaves, hl, List.map_map]
  simp [Occurrence.share, Function.comp_def, numbers]

end Formula

namespace Term

mutual

def numbers : Term → Except Fault (List ℚ)
  | number factor divisor => do return [← multiplicity (some factor) divisor]
  | name _ _ _ => .ok []
  | group factor members divisor => do
    let k ← multiplicity factor divisor
    return (← allNumbers members).map (k * ·)
  | call factor _ arguments divisor => do
    let k ← multiplicity factor divisor
    return (← allNumbers arguments).map (k * ·)

def allNumbers : List Term → Except Fault (List ℚ)
  | [] => .ok []
  | first :: others => do
    let first ← numbers first
    let others ← allNumbers others
    return first ++ others

end

open Formula (ofLeaf ofGroup ofCall applyFactors)

mutual

/-- The numbers of a formula, by induction on the nesting of its term. -/
theorem formula_numbers : (term : Term) → ∀ {result : Formula}, term.formula = .ok result →
    term.numbers = .ok result.numbers
  | .number factor divisor, result, h => by
    rw [formula] at h
    obtain ⟨k, hk, _, hl⟩ :=
      Formula.leaves_applyFactors (lists_leaf none (some factor)).1 h
    have hone : (ofLeaf none (some factor)).numbers = [1] := by
      simp [Formula.numbers, ofLeaf, Formula.leaves, Leaf.number?, ← Fraction.ofRat_one]
    rw [numbers, hk, Formula.numbers_reweighed hl, hone, List.map_singleton, mul_one]
    rfl
  | .name factor word divisor, result, h => by
    rw [formula] at h
    obtain ⟨k, _, _, hl⟩ := Formula.leaves_applyFactors (lists_leaf (some word) factor).1 h
    rw [numbers, Formula.numbers_reweighed hl]
    rfl
  | .group factor members divisor, result, h => by
    rw [formula] at h
    obtain ⟨formulas, hm, h⟩ := ok_of_bind h
    obtain ⟨_, _, hs, _⟩ := allFormulas_occurrences members hm
    obtain ⟨whole, hw, h⟩ := ok_of_bind h
    rw [Formula.ofGroup_eq_ok hs hw] at h
    obtain ⟨k, hk, _, hl⟩ := Formula.leaves_applyFactors (.group hs) h
    rw [numbers, hk, ok_bind, allFormulas_numbers members hm, Formula.numbers_reweighed hl]
    rfl
  | .call factor function arguments divisor, result, h => by
    rw [formula] at h
    cases hn : NamedFunction.ofName? function with
    | none => rw [hn] at h; cases h
    | some known =>
      rw [hn] at h
      obtain ⟨formulas, hm, h⟩ := ok_of_bind h
      obtain ⟨_, _, hs, _⟩ := allFormulas_occurrences arguments hm
      obtain ⟨whole, hw, h⟩ := ok_of_bind h
      rw [Formula.ofCall_eq_ok hs hw] at h
      obtain ⟨k, hk, _, hl⟩ := Formula.leaves_applyFactors (.call hs) h
      rw [numbers, hk, ok_bind, allFormulas_numbers arguments hm, Formula.numbers_reweighed hl]
      rfl

theorem allFormulas_numbers : (terms : List Term) → ∀ {results : List Formula},
    allFormulas terms = .ok results →
      allNumbers terms = .ok ((Formula.allLeaves results).filterMap Leaf.number?)
  | [], results, h => by
    cases h
    rfl
  | first :: others, results, h => by
    rw [allFormulas] at h
    obtain ⟨one, h₁, h⟩ := ok_of_bind h
    obtain ⟨rest, h₂, h⟩ := ok_of_bind h
    cases h
    rw [allNumbers, formula_numbers first h₁, ok_bind, allFormulas_numbers others h₂,
      Formula.allLeaves, List.filterMap_append]
    rfl

end

end Term

/-! ## Names -/

theorem coefficient_cons (first : Occurrence) (others : List Occurrence) (name : String) :
    coefficient (first :: others) name =
      (if name = first.name then first.times else 0) + coefficient others name := by
  unfold coefficient
  by_cases h : name = first.name
  · simp [h]
  · have hne : ¬ first.name = name := fun e => h e.symm
    simp [h, hne]

theorem sum_coefficients {names : List String} (hn : names.Nodup) :
    ∀ {occurrences : List Occurrence}, (∀ occurrence ∈ occurrences, occurrence.name ∈ names) →
      (names.map (coefficient occurrences)).sum = (occurrences.map Occurrence.times).sum := by
  intro occurrences h
  induction occurrences with
  | nil => exact List.sum_eq_zero (by simp [coefficient])
  | cons first others ih =>
    have hfirst : (names.map fun name => if name = first.name then first.times else 0).sum =
        first.times := by
      rw [List.sum_map_eq_nsmul_single first.name _ fun name hne _ => if_neg hne,
        List.count_eq_one_of_mem hn (h first List.mem_cons_self), if_pos rfl, one_nsmul]
    have hothers := ih fun occurrence ho => h occurrence (List.mem_cons_of_mem _ ho)
    calc (names.map (coefficient (first :: others))).sum
      _ = (names.map fun name =>
            (if name = first.name then first.times else 0) + coefficient others name).sum :=
        congrArg List.sum (List.map_congr_left fun name _ => coefficient_cons first others name)
      _ = first.times + (others.map Occurrence.times).sum := by
        rw [List.sum_map_add, hfirst, hothers]
      _ = ((first :: others).map Occurrence.times).sum := by
        rw [List.map_cons, List.sum_cons]

namespace Scheme

variable {scheme : Scheme} {occurrences : List Occurrence} {numbers : List ℚ} {formula : Formula}

/-- The sum of all weightings. -/
def weightingSum (scheme : Scheme) : ℚ :=
  (scheme.entries.map fun entry => (entry.weighting : ℚ)).sum

/-- The least common denominator of the coefficients of all names. -/
def leastDenominator (scheme : Scheme) (occurrences : List Occurrence) : ℚ :=
  Fraction.leastDenominator (scheme.entries.map fun entry => coefficient occurrences entry.name)

/-- The total of a scheme over the least common denominator: the weightings, and the numbers of the
formula. -/
structure Conserves (scheme : Scheme) (occurrences : List Occurrence) (numbers : List ℚ) :
    Prop where
  lowest : scheme.total.Lowest
  total : scheme.total.toRat * scheme.leastDenominator occurrences =
    scheme.weightingSum + scheme.leastDenominator occurrences * numbers.sum
  unnumbered : numbers = [] →
    scheme.total = .ofRat (scheme.weightingSum / scheme.leastDenominator occurrences)

theorem total_of_ofFormula {normalization : Normalization}
    (h : ofFormula normalization formula = .ok scheme) : scheme.total = formula.weight := by
  obtain ⟨_, _, _, _, _, htotal⟩ := ofFormula_eq_ok h
  exact htotal

/-- The coefficients of the names of a scheme come to all named occurrences. -/
theorem sum_of_names
    (h : InFirstOrder (occurrences.map Occurrence.name) (scheme.entries.map Entry.name)) :
    (scheme.entries.map fun entry => coefficient occurrences entry.name).sum =
      (occurrences.map Occurrence.times).sum := by
  rw [← sum_coefficients h.nodup, List.map_map]
  · rfl
  · intro occurrence ho
    exact (h.mem_iff _).mpr (List.mem_map_of_mem ho)

theorem Keeps.weightingSum_eq (h : scheme.Keeps occurrences) :
    scheme.weightingSum =
      scheme.leastDenominator occurrences * (occurrences.map Occurrence.times).sum := by
  rw [weightingSum, List.map_congr_left h.weighting, List.sum_map_mul_left, sum_of_names h.names]
  rfl

theorem conserves_of_keeps (hk : scheme.Keeps occurrences)
    (ht : scheme.total = .ofRat ((occurrences.map Occurrence.times).sum + numbers.sum)) :
    scheme.Conserves occurrences numbers := by
  have hsum := hk.weightingSum_eq
  have hne : scheme.leastDenominator occurrences ≠ 0 := leastDenominator_ne_zero _
  refine ⟨?_, ?_, ?_⟩
  · rw [ht]
    exact Fraction.lowest_ofRat _
  · rw [ht, Fraction.toRat_ofRat, hsum]
    ring
  · rintro rfl
    rw [ht, hsum, mul_div_cancel_left₀ _ hne, List.sum_nil, add_zero]

/-- Where a text compiles over the least common denominator, its total is conserved, whichever way
the text is derived. By numerators alone the total is the same. -/
theorem conserves_of_compile (limit : Nat) (text : String) (scheme : Scheme)
    (h : compile { normalization := .commonDenominator, depthLimit := limit } text = .ok scheme) :
    (∃ terms, Grammar.FormulaText text.toList terms) ∧
      (∀ terms, Grammar.FormulaText text.toList terms →
        ∃ occurrences numbers, Term.allOccurrences terms = .ok occurrences ∧
          Term.allNumbers terms = .ok numbers ∧ scheme.Conserves occurrences numbers) ∧
      ∀ limit' other,
        compile { normalization := .numeratorOnly, depthLimit := limit' } text = .ok other →
          other.total = scheme.total := by
  obtain ⟨formula, hp, h⟩ := ok_of_bind h
  refine ⟨?_, ?_, ?_⟩
  · obtain ⟨terms, ht, _⟩ := Formula.formulaText_of_parse hp
    exact ⟨terms, ht⟩
  · intro terms ht
    obtain ⟨formulas, hf, hw⟩ := Formula.formulas_of_parse ht hp
    obtain ⟨occurrences, ho, hs, hl⟩ := Term.allFormulas_occurrences terms hf
    have hnumbers := Term.allFormulas_numbers terms hf
    have hwhole := Formula.ofGroup_eq_ok hs hw
    subst hwhole
    have hlists : (Formula.group formulas _).Lists occurrences := ⟨.group hs, hl⟩
    refine ⟨occurrences, _, ho, hnumbers, conserves_of_keeps (keeps_of_ofFormula hlists h) ?_⟩
    rw [total_of_ofFormula h, Formula.weight_of_lists hlists]
    rfl
  · intro limit' other hother
    obtain ⟨formula', hp', hother⟩ := ok_of_bind hother
    rw [total_of_ofFormula hother, total_of_ofFormula h, Formula.eq_of_parse hp' hp]

theorem conserves_of_numbers :
    ∃ scheme terms occurrences numbers, compile {} "(a + 3b)/2 + root(c, .5) + 2" = .ok scheme ∧
      scheme.entries = [⟨"a", 1⟩, ⟨"b", 3⟩, ⟨"c", 2⟩] ∧
      scheme.total = { num := 11, den := 2 } ∧
      Term.allOccurrences terms = .ok occurrences ∧ Term.allNumbers terms = .ok numbers ∧
      scheme.Conserves occurrences numbers := by
  have he : (compile {} "(a + 3b)/2 + root(c, .5) + 2").toOption.map
      (fun scheme => (scheme.entries, scheme.total)) =
        some ([⟨"a", 1⟩, ⟨"b", 3⟩, ⟨"c", 2⟩], { num := 11, den := 2 }) := by
    decide +kernel
  obtain ⟨scheme, h⟩ := exists_ok (x := compile {} "(a + 3b)/2 + root(c, .5) + 2")
    (by decide +kernel)
  rw [h] at he
  obtain ⟨hentries, htotal⟩ := Prod.mk.inj (Option.some.inj he)
  obtain ⟨⟨terms, ht⟩, hall, _⟩ := conserves_of_compile 200 "(a + 3b)/2 + root(c, .5) + 2" scheme h
  obtain ⟨occurrences, numbers, ho, hn, hc⟩ := hall terms ht
  exact ⟨scheme, terms, occurrences, numbers, h, hentries, htotal, ho, hn, hc⟩

end Scheme

end Marksheet
