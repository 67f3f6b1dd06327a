import Marksheet.Proofs.Formula.Weights
import Marksheet.Proofs.Grammar.Evaluation
import Marksheet.Proofs.Calculation

/-!
# Marksheet.Proofs.Scheme.Coefficients

The exact coefficients of the names of a formula. A factor multiplies all that it stands in front
of, and a divisor divides it, so an occurrence of a name counts as often as the product of the
factors over the divisors of all terms around it says.

* `Term.occurrences` : the occurrences of names in a term, with these products.
* `coefficient` : how often a name counts in all.
* `Formula.leaves_applyFactors` : a factor and a divisor reach every leaf alike.
* `Term.formula_occurrences` : the shares of a formula are its occurrences, whatever the nesting.
-/

namespace Marksheet

/-- A name in a formula, and how often it counts there. -/
structure Occurrence where
  name : String
  times : ℚ

namespace Occurrence

def within (k : ℚ) (occurrence : Occurrence) : Occurrence :=
  { occurrence with times := k * occurrence.times }

def share (occurrence : Occurrence) : Share :=
  { name := occurrence.name, weight := .ofRat occurrence.times }

end Occurrence

/-- How often a name counts in all. -/
def coefficient (occurrences : List Occurrence) (name : String) : ℚ :=
  ((occurrences.filter fun occurrence => occurrence.name = name).map Occurrence.times).sum

namespace Term

def amount : Option Float → Except Fault ℚ
  | some x => do return (← Fraction.ofFloat x).toRat
  | none => .ok 1

def multiplicity (factor divisor : Option Float) : Except Fault ℚ := do
  return (← amount factor) / (← amount divisor)

mutual

/-- The names in a term from left to right. -/
def occurrences : Term → Except Fault (List Occurrence)
  | number _ _ => .ok []
  | name factor word divisor => do
    return [{ name := word, times := ← multiplicity factor divisor }]
  | group factor members divisor => do
    let k ← multiplicity factor divisor
    return (← allOccurrences members).map (Occurrence.within k)
  | call factor _ arguments divisor => do
    let k ← multiplicity factor divisor
    return (← allOccurrences arguments).map (Occurrence.within k)

def allOccurrences : List Term → Except Fault (List Occurrence)
  | [] => .ok []
  | first :: others => do
    let first ← occurrences first
    let others ← allOccurrences others
    return first ++ others

end

end Term

/-! ## Factors and divisors -/

namespace Formula

variable {formula result : Formula} {factor divisor : Option Float} {present : List Occurrence}

/-- The shares of a formula with exact sums are these occurrences. -/
def Lists (formula : Formula) (present : List Occurrence) : Prop :=
  formula.Summed ∧ formula.shares = present.map Occurrence.share

theorem shares_reweighed {k : ℚ} (hl : result.leaves = formula.leaves.map (Leaf.reweigh (k * ·)))
    (h : formula.shares = present.map Occurrence.share) :
    result.shares = (present.map (Occurrence.within k)).map Occurrence.share := by
  have hshare : ∀ leaf : Leaf, (leaf.reweigh (k * ·)).share? =
      leaf.share?.map fun share => { share with weight := .ofRat (k * share.weight.toRat) } := by
    intro leaf
    simp only [Leaf.share?, Leaf.reweigh, Option.map_map]
    rfl
  rw [shares_eq_filterMap, hl, List.filterMap_map, List.map_map]
  calc formula.leaves.filterMap (Leaf.share? ∘ Leaf.reweigh (k * ·))
    _ = (formula.leaves.filterMap Leaf.share?).map
          (fun share => { share with weight := .ofRat (k * share.weight.toRat) }) := by
        rw [List.map_filterMap]
        exact List.filterMap_congr fun leaf _ => hshare leaf
    _ = (present.map Occurrence.share).map
          (fun share => { share with weight := .ofRat (k * share.weight.toRat) }) := by
        rw [← shares_eq_filterMap, h]
    _ = present.map (Occurrence.share ∘ Occurrence.within k) := by
        rw [List.map_map]
        refine List.map_congr_left ?_
        intro occurrence _
        simp [Occurrence.share, Occurrence.within]

theorem reweigh_one (hs : formula.Summed) :
    formula.leaves.map (Leaf.reweigh (1 * ·)) = formula.leaves := by
  refine (List.map_congr_left fun leaf hl => ?_).trans (List.map_id _)
  rw [Leaf.reweigh, one_mul, ← (hs.lowest_leaves leaf hl).eq_ofRat]
  rfl

theorem reweigh_reweigh (a b : ℚ) (leaves : List Leaf) :
    (leaves.map (Leaf.reweigh (a * ·))).map (Leaf.reweigh (b * ·)) =
      leaves.map (Leaf.reweigh (a * b * ·)) := by
  rw [List.map_map]
  refine List.map_congr_left ?_
  intro leaf _
  simp only [Leaf.reweigh, Function.comp_apply, Fraction.toRat_ofRat]
  rw [mul_comm a b, mul_assoc]

theorem leaves_scaleBy (hs : formula.Summed) (h : formula.scaleBy factor = .ok result) :
    ∃ a, Term.amount factor = .ok a ∧ result.Summed ∧
      result.leaves = formula.leaves.map (Leaf.reweigh (a * ·)) := by
  cases factor with
  | none =>
    cases h
    exact ⟨1, rfl, hs, (reweigh_one hs).symm⟩
  | some x =>
    obtain ⟨y, hy, h⟩ := ok_of_bind h
    obtain ⟨hs', hl, _⟩ := scale_changed hs (Fraction.ofFloat_lowest hy) h
    refine ⟨y.toRat, by rw [Term.amount, hy]; rfl, hs', ?_⟩
    simpa only [mul_comm] using hl

theorem leaves_divideBy (hs : formula.Summed) (h : formula.divideBy divisor = .ok result) :
    ∃ b, Term.amount divisor = .ok b ∧ result.Summed ∧
      result.leaves = formula.leaves.map (Leaf.reweigh (b⁻¹ * ·)) := by
  cases divisor with
  | none =>
    cases h
    exact ⟨1, rfl, hs, by rw [inv_one, reweigh_one hs]⟩
  | some x =>
    obtain ⟨y, hy, h⟩ := ok_of_bind h
    obtain ⟨hs', hl, _⟩ := divide_changed hs (Fraction.ofFloat_lowest hy) h
    refine ⟨y.toRat, by rw [Term.amount, hy]; rfl, hs', ?_⟩
    simpa only [div_eq_mul_inv, mul_comm] using hl

/-- A factor and a divisor make each leaf count as many times as they say. -/
theorem leaves_applyFactors (hs : formula.Summed)
    (h : applyFactors formula factor divisor = .ok result) :
    ∃ k, Term.multiplicity factor divisor = .ok k ∧ result.Summed ∧
      result.leaves = formula.leaves.map (Leaf.reweigh (k * ·)) := by
  rw [applyFactors_eq] at h
  obtain ⟨scaled, hscaled, h⟩ := ok_of_bind h
  obtain ⟨a, ha, hs₁, hl₁⟩ := leaves_scaleBy hs hscaled
  obtain ⟨b, hb, hs₂, hl₂⟩ := leaves_divideBy hs₁ h
  refine ⟨a / b, by rw [Term.multiplicity, ha, hb]; rfl, hs₂, ?_⟩
  rw [hl₂, hl₁, reweigh_reweigh, div_eq_mul_inv]

theorem lists_applyFactors (hf : formula.Lists present)
    (h : applyFactors formula factor divisor = .ok result) :
    ∃ k, Term.multiplicity factor divisor = .ok k ∧
      result.Lists (present.map (Occurrence.within k)) := by
  obtain ⟨k, hk, hs, hl⟩ := leaves_applyFactors hf.1 h
  exact ⟨k, hk, hs, shares_reweighed hl hf.2⟩

end Formula

/-! ## Terms -/

namespace Term

open Formula (ofLeaf ofGroup ofCall applyFactors)

theorem lists_leaf (name : Option String) (factor : Option Float) :
    (ofLeaf name factor).Lists ((name.map fun name => { name, times := 1 }).toList) := by
  refine ⟨.leaf (by decide), ?_⟩
  cases name with
  | none => rfl
  | some name => simp [ofLeaf, Formula.shares, Occurrence.share, Fraction.ofRat_one]

mutual

/-- However terms are nested, the shares of a formula are the occurrences of its names. -/
theorem formula_occurrences : (term : Term) → ∀ {result : Formula}, term.formula = .ok result →
    ∃ present, term.occurrences = .ok present ∧ result.Lists present
  | .number factor divisor, result, h => by
    rw [formula] at h
    obtain ⟨_, _, hr⟩ := Formula.lists_applyFactors (lists_leaf none (some factor)) h
    exact ⟨[], rfl, hr⟩
  | .name factor word divisor, result, h => by
    rw [formula] at h
    obtain ⟨k, hk, hr⟩ := Formula.lists_applyFactors (lists_leaf (some word) factor) h
    refine ⟨[{ name := word, times := k }], by rw [occurrences, hk]; rfl, ?_⟩
    simpa [Occurrence.within] using hr
  | .group factor members divisor, result, h => by
    rw [formula] at h
    obtain ⟨formulas, hm, h⟩ := ok_of_bind h
    obtain ⟨present, hp, hs, hl⟩ := allFormulas_occurrences members hm
    obtain ⟨whole, hw, h⟩ := ok_of_bind h
    have hwhole := Formula.ofGroup_eq_ok hs hw
    subst hwhole
    obtain ⟨k, hk, hr⟩ := Formula.lists_applyFactors ⟨.group hs, hl⟩ h
    exact ⟨present.map (Occurrence.within k), by rw [occurrences, hk, ok_bind, hp]; rfl, hr⟩
  | .call factor function arguments divisor, result, h => by
    rw [formula] at h
    cases hn : NamedFunction.ofName? function with
    | none => rw [hn] at h; cases h
    | some known =>
      rw [hn] at h
      obtain ⟨formulas, hm, h⟩ := ok_of_bind h
      obtain ⟨present, hp, hs, hl⟩ := allFormulas_occurrences arguments hm
      obtain ⟨whole, hw, h⟩ := ok_of_bind h
      have hwhole := Formula.ofCall_eq_ok hs hw
      subst hwhole
      obtain ⟨k, hk, hr⟩ := Formula.lists_applyFactors ⟨.call hs, hl⟩ h
      exact ⟨present.map (Occurrence.within k), by rw [occurrences, hk, ok_bind, hp]; rfl, hr⟩

theorem allFormulas_occurrences : (terms : List Term) → ∀ {results : List Formula},
    allFormulas terms = .ok results → ∃ present, allOccurrences terms = .ok present ∧
      (∀ result ∈ results, result.Summed) ∧
      Formula.allShares results = present.map Occurrence.share
  | [], results, h => by
    cases h
    exact ⟨[], rfl, by simp, rfl⟩
  | first :: others, results, h => by
    rw [allFormulas] at h
    obtain ⟨one, h₁, h⟩ := ok_of_bind h
    obtain ⟨rest, h₂, h⟩ := ok_of_bind h
    cases h
    obtain ⟨present, hp, hs, hl⟩ := formula_occurrences first h₁
    obtain ⟨more, hm, hs', hl'⟩ := allFormulas_occurrences others h₂
    refine ⟨present ++ more, by rw [allOccurrences, hp, ok_bind, hm]; rfl, ?_, ?_⟩
    · intro result hr
      rcases List.mem_cons.mp hr with rfl | hr
      · exact hs
      · exact hs' result hr
    · rw [Formula.allShares, hl, hl', List.map_append]

end

end Term

end Marksheet
