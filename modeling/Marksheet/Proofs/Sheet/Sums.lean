import Mathlib.Algebra.BigOperators.Ring.Finset
import Mathlib.Algebra.Order.BigOperators.Group.List
import Mathlib.Tactic.Linarith
import Marksheet.Proofs.Formula.Bounds
import Marksheet.Proofs.Scheme.Normalizations
import Marksheet.Proofs.Scheme.Totals
import Marksheet.Proofs.Sheet.History

/-!
# Marksheet.Proofs.Sheet.Sums

How large weightings can get. Each of them is checked to fit into 64 bits with a sign. Their sum is
not checked, and need not even fit without a sign: what is checked is the weight of the whole
formula, and the sum is a multiple of what is left of that weight without the numbers. A sheet adds
weightings up in 64 bits, so what it gives is the sum only as far as that fits.

* `sumOf_weightings` : a sum of 64 bits against the exact one, with and without overflow checks.
* `Normalization.inRange_weightings` : one weighting.
* `Scheme.weightingSum_le` : the sum, in terms of the weight of the formula.
* `Scheme.limited_of_ofFormula` : where the sum fits.
* `Sheet.sums_of_weightings` : what a sheet adds up.
* `Scheme.limited_of_history` : both, after any history of a sheet.
-/

namespace Marksheet

/-! ## Sums in 64 bits -/

/-- The largest number of 64 bits without a sign. -/
def largestSum : Nat := 18446744073709551615

theorem toNat_foldl_wrapping (weightings : List Nat) (sum : UInt64) :
    (weightings.foldl (fun sum weighting => sum + .ofNat weighting) sum).toNat =
      (sum.toNat + weightings.sum) % UInt64.size := by
  induction weightings generalizing sum with
  | nil => exact (Nat.mod_eq_of_lt sum.toNat_lt).symm
  | cons weighting rest ih =>
    rw [List.foldl_cons, ih, UInt64.toNat_add, UInt64.toNat_ofNat', List.sum_cons]
    simp only [UInt64.size]
    omega

/-- A chain of checked additions stops just when one check of the whole sum would fail. -/
theorem foldlM_checked (weightings : List Nat) (sum : UInt64) :
    weightings.foldlM
      (fun sum weighting =>
        if sum.toNat + weighting < UInt64.size then some (sum + .ofNat weighting) else none) sum =
      if sum.toNat + weightings.sum ≤ largestSum then
        some (weightings.foldl (fun sum weighting => sum + .ofNat weighting) sum)
      else none := by
  induction weightings generalizing sum with
  | nil =>
    have hsum : sum.toNat ≤ largestSum := Nat.le_of_lt_succ (n := largestSum) sum.toNat_lt
    simp [hsum]
  | cons weighting rest ih =>
    rw [List.foldlM_cons, List.foldl_cons, List.sum_cons, ← Nat.add_assoc]
    by_cases hfits : sum.toNat + weighting < UInt64.size
    · have hnext : (sum + .ofNat weighting).toNat = sum.toNat + weighting := by
        rw [UInt64.toNat_add, UInt64.toNat_ofNat', Nat.add_mod_mod]
        exact Nat.mod_eq_of_lt hfits
      rw [if_pos hfits, Option.bind_eq_bind, Option.bind_some, ih, hnext]
    · have hover : ¬ sum.toNat + weighting + rest.sum ≤ largestSum := by
        simp only [UInt64.size, largestSum] at *
        omega
      rw [if_neg hfits, if_neg hover]
      rfl

/-- What the two kinds of sums have to do with the exact one. -/
structure SumOf (weightings : List Nat) (wrapped : UInt64) (checked : Option UInt64) : Prop where
  modulo : wrapped.toNat = weightings.sum % UInt64.size
  wrapped_iff : wrapped.toNat = weightings.sum ↔ weightings.sum ≤ largestSum
  checked_iff : checked = some wrapped ↔ weightings.sum ≤ largestSum
  stopped_iff : checked = none ↔ largestSum < weightings.sum

theorem sumOf_weightings (weightings : List Nat) :
    SumOf weightings (wrappingSum weightings) (checkedSum? weightings) := by
  have hmod : (wrappingSum weightings).toNat = weightings.sum % UInt64.size := by
    rw [wrappingSum, toNat_foldl_wrapping, UInt64.toNat_zero, Nat.zero_add]
  have hchecked : checkedSum? weightings =
      if weightings.sum ≤ largestSum then some (wrappingSum weightings) else none := by
    rw [checkedSum?, foldlM_checked, UInt64.toNat_zero, Nat.zero_add]
    rfl
  refine ⟨hmod, ?_, ?_, ?_⟩
  · rw [hmod, Nat.mod_eq_iff_lt (by decide)]
    exact Nat.lt_succ_iff
  · simp [hchecked]
  · simp [hchecked]

/-! ## One weighting -/

namespace Normalization

variable {shares : List Share} {weightings : List Int}

theorem inRange_weightings {normalization : Normalization}
    (ho : ∀ share ∈ shares, share.weight.Obtained)
    (h : normalization.weightings shares = .ok weightings) :
    ∀ weighting ∈ weightings, InRange weighting := by
  intro weighting hw
  cases normalization with
  | commonDenominator =>
    obtain ⟨den, _, h⟩ := ok_of_bind h
    obtain ⟨share, _, hk⟩ := exists_of_mapM h weighting hw
    exact Fraction.inRange_numeratorOver hk
  | numeratorOnly =>
    rw [numerators_eq_ok (fun share hs => (ho share hs).lowest) h] at hw
    obtain ⟨share, hs, rfl⟩ := List.mem_map.mp hw
    exact (ho share hs).fits.num

end Normalization

theorem Fraction.toRat_le {x : Fraction} (hl : x.Lowest) (hf : x.Fits) :
    x.toRat ≤ 9223372036854775807 := by
  have hden : (1 : ℚ) ≤ x.den := by exact_mod_cast hl.1
  have hnum : (x.num : ℚ) ≤ 9223372036854775807 := by exact_mod_cast hf.num.2
  rw [Fraction.toRat, div_le_iff₀ (by linarith)]
  linarith

namespace Formula

def occurrences (formula : Formula) : List Occurrence :=
  formula.shares.map fun share => { name := share.name, times := share.weight.toRat }

theorem lists_occurrences {formula : Formula} (hs : formula.Summed) (hc : formula.Calculated) :
    formula.Lists formula.occurrences := by
  refine ⟨hs, ?_⟩
  rw [occurrences, List.map_map]
  refine ((List.map_congr_left fun share hm => ?_).trans (List.map_id _)).symm
  have hself := (hc.shares share hm).lowest.eq_ofRat
  rw [Function.comp_apply, Occurrence.share, ← hself]
  rfl

end Formula

namespace Scheme

variable {normalization : Normalization} {formula : Formula} {scheme : Scheme}
  {shares merged : List Share} {occurrences : List Occurrence}

/-- Whichever way a formula is weighted, every weighting fits. -/
theorem weighting_of_ofFormula (hc : formula.Calculated)
    (h : ofFormula normalization formula = .ok scheme) :
    ∀ entry ∈ scheme.entries, 1 ≤ entry.weighting ∧ entry.weighting ≤ 9223372036854775807 := by
  obtain ⟨merged, weightings, hm, hw, he, -⟩ := ofFormula_eq_ok h
  intro entry hentry
  obtain ⟨hone, hmem⟩ := weighting_of_entriesOf he entry hentry
  have hrange := Normalization.inRange_weightings (obtained_merge hc.shares hm) hw _ hmem
  unfold InRange at hrange
  omega

/-! ## All weightings -/

theorem names_of_ofFormula (hf : formula.Lists occurrences)
    (h : ofFormula normalization formula = .ok scheme) :
    InFirstOrder (occurrences.map Occurrence.name) (scheme.entries.map Entry.name) := by
  obtain ⟨merged, weightings, hm, hw, he, -⟩ := ofFormula_eq_ok h
  rw [names_of_entriesOf he (length_weightings hw), names_of_merge hm, distinctNames, hf.2,
    List.map_map]
  exact inFirstOrder_eraseDups _

theorem numerators_of_ofFormula (hf : formula.Lists occurrences)
    (h : ofFormula .numeratorOnly formula = .ok scheme) :
    ∀ entry ∈ scheme.entries,
      (entry.weighting : Int) = (coefficient occurrences entry.name).num := by
  obtain ⟨merged, weightings, hm, hw, he, -⟩ := ofFormula_eq_ok h
  rw [hf.2] at hm
  rw [merge_share hm] at hw he
  have hlowest : ∀ share ∈ (occurrences.map Occurrence.name).eraseDups.map fun name =>
      ({ name, weight := .ofRat (coefficient occurrences name) } : Share),
        share.weight.Lowest := by
    intro share hs
    obtain ⟨name, _, rfl⟩ := List.mem_map.mp hs
    exact Fraction.lowest_ofRat _
  rw [Normalization.numerators_eq_ok hlowest hw, List.map_map] at he
  obtain ⟨hentries, hpos⟩ := entriesOf_eq_ok he
  intro entry hentry
  rw [hentries] at hentry
  obtain ⟨name, hn, rfl⟩ := List.mem_map.mp hentry
  exact Int.toNat_of_nonneg (Int.le_trans (by decide) (hpos name hn))

/-- A numerator is no more than the number over any multiple of its denominator. -/
theorem num_le_mul {q : ℚ} {den : Nat} (hq : 0 < q.num) (hd : q.den ≤ den) :
    (q.num : ℚ) ≤ den * q := by
  have hpos : 0 ≤ q := Rat.num_nonneg.mp hq.le
  have hle : (q.den : ℚ) ≤ den := by exact_mod_cast hd
  calc (q.num : ℚ)
    _ = q.den * q := (Rat.den_mul_eq_num q).symm
    _ ≤ den * q := mul_le_mul_of_nonneg_right hle hpos

theorem weightingSum_le (hf : formula.Lists occurrences)
    (h : ofFormula .numeratorOnly formula = .ok scheme)
    (hone : ∀ entry ∈ scheme.entries, 1 ≤ entry.weighting) :
    scheme.weightingSum ≤
      scheme.leastDenominator occurrences * (occurrences.map Occurrence.times).sum := by
  rw [← sum_of_names (names_of_ofFormula hf h), ← List.sum_map_mul_left]
  refine List.sum_le_sum ?_
  intro entry he
  have hpos := hone entry he
  have heq := numerators_of_ofFormula hf h entry he
  have hdvd : (coefficient occurrences entry.name).den ∣ Fraction.leastDenominator
      (scheme.entries.map fun entry => coefficient occurrences entry.name) :=
    Fraction.den_dvd_leastDenominator (List.mem_map.mpr ⟨entry, he, rfl⟩)
  have hle := num_le_mul (by omega) (Nat.le_of_dvd (Fraction.leastDenominator_pos _) hdvd)
  rwa [← heq] at hle

/-- How large the weightings of a formula are, one by one and together. -/
structure Limited (normalization : Normalization) (formula : Formula) (scheme : Scheme) :
    Prop where
  each : ∀ entry ∈ scheme.entries, 1 ≤ entry.weighting ∧ entry.weighting ≤ 9223372036854775807
  /-- The weight of the formula is checked; the sum is another number. -/
  sum_eq : normalization = .commonDenominator →
    scheme.weightingSum = scheme.leastDenominator formula.occurrences *
      (formula.weight.toRat - formula.numbers.sum)
  numerators : normalization = .numeratorOnly → ∀ entry ∈ scheme.entries,
    (entry.weighting : Int) = (coefficient formula.occurrences entry.name).num
  sum_le : scheme.weightingSum ≤ scheme.leastDenominator formula.occurrences *
    (formula.weight.toRat - formula.numbers.sum)
  pair : scheme.entries.length ≤ 2 → scheme.weightingSum ≤ largestSum
  /-- It fits over a denominator of one or two, unless numbers take away from the weight. -/
  halves : scheme.leastDenominator formula.occurrences ≤ 2 → 0 ≤ formula.numbers.sum →
    scheme.weightingSum ≤ largestSum

theorem weightingSum_of_pair
    (h : ∀ entry ∈ scheme.entries, entry.weighting ≤ 9223372036854775807)
    (hlen : scheme.entries.length ≤ 2) : scheme.weightingSum ≤ largestSum := by
  have heach : ∀ weighting ∈ scheme.entries.map fun entry => (entry.weighting : ℚ),
      weighting ≤ 9223372036854775807 := by
    intro weighting hw
    obtain ⟨entry, he, rfl⟩ := List.mem_map.mp hw
    exact_mod_cast h entry he
  have hsum := List.sum_le_card_nsmul _ _ heach
  rw [List.length_map, nsmul_eq_mul] at hsum
  have hcount : (scheme.entries.length : ℚ) ≤ 2 := by exact_mod_cast hlen
  calc scheme.weightingSum
    _ ≤ scheme.entries.length * 9223372036854775807 := hsum
    _ ≤ 2 * 9223372036854775807 := mul_le_mul_of_nonneg_right hcount (by norm_num)
    _ ≤ largestSum := by norm_num [largestSum]

theorem weightingSum_of_halves {total numbers : ℚ}
    (h : scheme.weightingSum ≤ scheme.leastDenominator occurrences * (total - numbers))
    (ht : total ≤ 9223372036854775807) (hn : 0 ≤ numbers)
    (hd : scheme.leastDenominator occurrences ≤ 2) : scheme.weightingSum ≤ largestSum := by
  have hpos : 0 ≤ scheme.leastDenominator occurrences := Nat.cast_nonneg _
  calc scheme.weightingSum
    _ ≤ scheme.leastDenominator occurrences * (total - numbers) := h
    _ ≤ scheme.leastDenominator occurrences * 9223372036854775807 :=
        mul_le_mul_of_nonneg_left (by linarith) hpos
    _ ≤ 2 * 9223372036854775807 := mul_le_mul_of_nonneg_right hd (by norm_num)
    _ ≤ largestSum := by norm_num [largestSum]

theorem limited_of_ofFormula (hs : formula.Summed) (hc : formula.Calculated)
    (h : ofFormula normalization formula = .ok scheme) :
    scheme.Limited normalization formula := by
  have hlists := Formula.lists_occurrences hs hc
  have heach := weighting_of_ofFormula hc h
  have htimes : (formula.occurrences.map Occurrence.times).sum =
      formula.weight.toRat - formula.numbers.sum := by
    rw [Formula.weight_of_lists hlists, Fraction.toRat_ofRat, add_sub_cancel_right]
  have hsum : normalization = .commonDenominator →
      scheme.weightingSum = scheme.leastDenominator formula.occurrences *
        (formula.weight.toRat - formula.numbers.sum) := by
    rintro rfl
    rw [(keeps_of_ofFormula hlists h).weightingSum_eq, htimes]
  have hle : scheme.weightingSum ≤ scheme.leastDenominator formula.occurrences *
      (formula.weight.toRat - formula.numbers.sum) := by
    cases normalization with
    | commonDenominator => exact (hsum rfl).le
    | numeratorOnly =>
      rw [← htimes]
      exact weightingSum_le hlists h fun entry he => (heach entry he).1
  exact {
    each := heach
    sum_eq := hsum
    numerators := by
      rintro rfl
      exact numerators_of_ofFormula hlists h
    sum_le := hle
    pair := weightingSum_of_pair fun entry he => (heach entry he).2
    halves := fun hd hn =>
      weightingSum_of_halves hle (Fraction.toRat_le hc.weight.lowest hc.weight.fits) hn hd }

end Scheme

/-! ## Sheets -/

namespace Sheet

variable {α : Type}

/-- What a sheet of a scheme adds up. -/
structure Sums (scheme : Scheme) (sheet : Sheet α) : Prop where
  weightings : sheet.weightings = scheme.entries.map Entry.weighting
  exact : (sheet.weightings.sum : ℚ) = scheme.weightingSum
  total : SumOf sheet.weightings sheet.totalWeighting sheet.totalWeighting?
  part : sheet.markedWeightings.Sublist sheet.weightings
  whole : sheet.isComplete = true → sheet.markedWeightings = sheet.weightings
  marked : SumOf sheet.markedWeightings sheet.markedWeighting sheet.markedWeighting?
  /-- Where the total fits, neither sum stops, whatever is marked. -/
  fits : scheme.weightingSum ≤ largestSum →
    sheet.totalWeighting? = some sheet.totalWeighting ∧
      sheet.markedWeighting? = some sheet.markedWeighting ∧
      sheet.markedWeighting ≤ sheet.totalWeighting

theorem markedWeightings_sublist (sheet : Sheet α) :
    sheet.markedWeightings.Sublist sheet.weightings :=
  List.filter_sublist.map Entity.weighting

theorem markedWeightings_of_isComplete {sheet : Sheet α} (h : sheet.isComplete = true) :
    sheet.markedWeightings = sheet.weightings := by
  rw [markedWeightings, List.filter_eq_self.mpr (List.all_eq_true.mp h)]
  rfl

theorem sums_of_weightings {scheme : Scheme} {sheet : Sheet α}
    (h : sheet.weightings = scheme.entries.map Entry.weighting) : sheet.Sums scheme := by
  have hexact : (sheet.weightings.sum : ℚ) = scheme.weightingSum := by
    rw [h, Nat.cast_list_sum, List.map_map]
    rfl
  have hpart := sheet.markedWeightings_sublist
  have hle : sheet.markedWeightings.sum ≤ sheet.weightings.sum :=
    hpart.sum_le_sum fun _ _ => Nat.zero_le _
  have htotal : SumOf _ sheet.totalWeighting sheet.totalWeighting? := sumOf_weightings _
  have hmarked : SumOf _ sheet.markedWeighting sheet.markedWeighting? := sumOf_weightings _
  refine ⟨h, hexact, htotal, hpart, markedWeightings_of_isComplete, hmarked, fun hfit => ?_⟩
  rw [← hexact, Nat.cast_le] at hfit
  have hfit' := hle.trans hfit
  refine ⟨htotal.checked_iff.mpr hfit, hmarked.checked_iff.mpr hfit', ?_⟩
  rw [UInt64.le_iff_toNat_le, htotal.wrapped_iff.mpr hfit, hmarked.wrapped_iff.mpr hfit']
  exact hle

end Sheet

namespace Scheme

theorem limited_of_parse {normalization : Normalization} {limit : Nat} {text : String}
    {formula : Formula} {scheme : Scheme} (hp : Formula.parse limit text = .ok formula)
    (h : ofFormula normalization formula = .ok scheme) :
    scheme.Limited normalization formula := by
  obtain ⟨terms, ht, _⟩ := Formula.formulaText_of_parse hp
  obtain ⟨formulas, hf, hw⟩ := Formula.formulas_of_parse ht hp
  obtain ⟨occurrences, _, hs, _⟩ := Formula.lists_of_parse ht hp
  have hc := Formula.calculated_ofGroup (Term.calculated_allFormulas terms hf) hw
  exact limited_of_ofFormula hs hc h

/-- However a formula is built, and also when it is read from a text, its weightings are limited one
by one; their sum is limited for at most two names, and over a denominator of one or two. What a
sheet adds up after whatever history is this sum, or a part of it, only as far as it fits. -/
theorem limited_of_history (normalization : Normalization) :
    (∀ construction formula scheme, (∀ x ∈ Construction.numbers construction, x.Lowest ∧ x.Fits) →
      construction.formula = .ok formula → ofFormula normalization formula = .ok scheme →
        scheme.Limited normalization formula) ∧
      ∀ (α : Type) (limit : Nat) (text : String) (start : Sheet α) (history : List (Action α)),
        Sheet.ofFormula { normalization, depthLimit := limit } text = .ok start →
          ∃ formula scheme, Formula.parse limit text = .ok formula ∧
            ofFormula normalization formula = .ok scheme ∧ scheme.Limited normalization formula ∧
            (Sheet.run history start).Sums scheme := by
  constructor
  · intro construction formula scheme hx hf h
    have hlowest : ∀ x ∈ construction.numbers, x.Lowest := fun x hm => (hx x hm).1
    have hobtained : ∀ x ∈ construction.numbers, x.Obtained := fun x hm =>
      .of_lowest (hx x hm).1 (hx x hm).2
    exact limited_of_ofFormula (Construction.formula_built construction hlowest hf).1
      (Construction.calculated_formula construction hobtained hf) h
  · intro α limit text start history h
    obtain ⟨scheme, hcompile, hstart⟩ := ok_of_bind h
    cases hstart
    obtain ⟨formula, hp, hscheme⟩ := ok_of_bind hcompile
    exact ⟨formula, scheme, hp, hscheme, limited_of_parse hp hscheme,
      Sheet.sums_of_weightings (Sheet.weightings_run hcompile history)⟩

def thirds : String := "(a + b + c)/3 + 2305843009213693952(a + b + c)"

/-- The total of all three wraps, and so the part of two of them comes out larger than the whole. -/
theorem limited_of_thirds :
    (∃ formula scheme, Construction.nested.formula = .ok formula ∧
      ofFormula .numeratorOnly formula = .ok scheme ∧ scheme.Limited .numeratorOnly formula) ∧
    ∃ (start : Sheet Float) (formula : Formula) (scheme : Scheme),
      Sheet.ofFormula { normalization := .numeratorOnly } thirds = .ok start ∧
      Formula.parse 200 thirds = .ok formula ∧ scheme.Limited .numeratorOnly formula ∧
      (Sheet.run [.set "a" 1, .set "b" 2] start).Sums scheme ∧
      (Sheet.run [.set "a" 1, .set "b" 2] start).totalWeighting = 2305843009213693955 ∧
      (Sheet.run [.set "a" 1, .set "b" 2] start).totalWeighting? = none ∧
      (Sheet.run [.set "a" 1, .set "b" 2] start).markedWeighting? = some 13835058055282163714 := by
  obtain ⟨htree, hsheet⟩ := limited_of_history .numeratorOnly
  constructor
  · obtain ⟨formula, hf⟩ := exists_ok (x := Construction.nested.formula) (by decide +kernel)
    obtain ⟨scheme, h⟩ := exists_ok
      (x := do ofFormula .numeratorOnly (← Construction.nested.formula)) (by decide +kernel)
    rw [hf] at h
    exact ⟨formula, scheme, hf, h, htree _ formula scheme (by decide) hf h⟩
  · have hvalue : (Sheet.ofFormula { normalization := .numeratorOnly } thirds).toOption.map
        (fun start : Sheet Float =>
          let sheet := Sheet.run [.set "a" 1, .set "b" 2] start
          (sheet.totalWeighting, sheet.totalWeighting?, sheet.markedWeighting?)) =
          some (2305843009213693955, none, some 13835058055282163714) := by
      decide +kernel
    obtain ⟨start, h⟩ := exists_ok
      (x := (Sheet.ofFormula { normalization := .numeratorOnly } thirds :
        Except Fault (Sheet Float))) (by decide +kernel)
    obtain ⟨formula, scheme, hp, _, hlimited, hsums⟩ :=
      hsheet Float 200 thirds start [.set "a" 1, .set "b" 2] h
    rw [h] at hvalue
    obtain ⟨htotal, hrest⟩ := Prod.mk.inj (Option.some.inj hvalue)
    obtain ⟨hstopped, hmarked⟩ := Prod.mk.inj hrest
    exact ⟨start, formula, scheme, h, hp, hlimited, hsums, htotal, hstopped, hmarked⟩

/-- The sum need not fit, whichever way a formula is weighted, although every weighting does and the
weight of the whole formula as well. -/
theorem largestSum_lt_of_thirds :
    ∃ text, ∀ normalization, ∃ scheme,
      compile { normalization } text = .ok scheme ∧ scheme.total.Fits ∧
        scheme.entries = [⟨"a", 6917529027641081857⟩, ⟨"b", 6917529027641081857⟩,
          ⟨"c", 6917529027641081857⟩] ∧
        largestSum < scheme.weightingSum := by
  refine ⟨thirds, fun normalization => ?_⟩
  have hvalue : (compile { normalization } thirds).toOption.map
      (fun scheme => (scheme.total, scheme.entries)) =
        some (.ofInt 6917529027641081857, [⟨"a", 6917529027641081857⟩, ⟨"b", 6917529027641081857⟩,
          ⟨"c", 6917529027641081857⟩]) := by
    cases normalization <;> decide +kernel
  obtain ⟨scheme, h⟩ := exists_ok (x := compile { normalization } thirds)
    (by cases normalization <;> decide +kernel)
  rw [h] at hvalue
  obtain ⟨htotal, hentries⟩ := Prod.mk.inj (Option.some.inj hvalue)
  refine ⟨scheme, h, ?_, hentries, ?_⟩
  · rw [htotal]
    decide
  · rw [weightingSum, hentries]
    norm_num [largestSum]

end Scheme

end Marksheet
