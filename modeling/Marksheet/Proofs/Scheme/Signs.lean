import Marksheet.Proofs.Reading.Divisors
import Marksheet.Proofs.Scheme.Normalizations

/-!
# Marksheet.Proofs.Scheme.Signs

What the signs of written numbers decide. A factor or divisor stands for a fraction of its own
sign, unless it is so close to zero that the fraction is zero. A division by zero comes from such a
divisor only, and a weighting that is not positive from such a number, or one below zero.

* `Term.occurrences_pos` : factors and divisors that are large enough make every name count.
* `Scheme.faults_of_ofFormula` : weightings are never divided by zero.
* `Scheme.overflow_of_pos` : where all weights are positive, so are all weightings.
* `Scheme.signs_of_literals` : all of it together.
-/

namespace Marksheet

open Binary64 (IsValue)

/-! ## Positive factors -/

namespace Term

mutual

/-- The factors and divisors by which names in a term count. -/
def scalings : Term → List Float
  | number _ _ => []
  | name factor _ divisor => factor.toList ++ divisor.toList
  | group factor members divisor => factor.toList ++ (divisor.toList ++ allScalings members)
  | call factor _ arguments divisor => factor.toList ++ (divisor.toList ++ allScalings arguments)

def allScalings : List Term → List Float
  | [] => []
  | first :: others => scalings first ++ allScalings others

end

/-- The double is large enough to stand for a positive fraction. -/
def Counts (x : Float) : Prop := ∃ q, IsValue x q ∧ 1 / 2 ^ 63 < q

theorem amount_pos {written : Option Float} {a : ℚ} (hw : ∀ x ∈ written.toList, Counts x)
    (h : amount written = .ok a) : 0 < a := by
  cases written with
  | none =>
    cases h
    exact one_pos
  | some x =>
    obtain ⟨q, hq, hlow⟩ := hw x (List.mem_singleton_self x)
    obtain ⟨z, hz, h⟩ := ok_of_bind h
    cases h
    exact Fraction.toRat_pos hq hz hlow

theorem multiplicity_pos {factor divisor : Option Float} {k : ℚ}
    (hf : ∀ x ∈ factor.toList, Counts x) (hd : ∀ x ∈ divisor.toList, Counts x)
    (h : multiplicity factor divisor = .ok k) : 0 < k := by
  obtain ⟨a, ha, h⟩ := ok_of_bind h
  obtain ⟨b, hb, h⟩ := ok_of_bind h
  cases h
  exact div_pos (amount_pos hf ha) (amount_pos hd hb)

theorem within_pos {k : ℚ} {present : List Occurrence} (hk : 0 < k)
    (h : ∀ occurrence ∈ present, 0 < occurrence.times) :
    ∀ occurrence ∈ present.map (Occurrence.within k), 0 < occurrence.times := by
  intro occurrence ho
  obtain ⟨inner, hi, rfl⟩ := List.mem_map.mp ho
  exact mul_pos hk (h inner hi)

mutual

theorem occurrences_pos : (term : Term) → (∀ x ∈ term.scalings, Counts x) →
    ∀ {present : List Occurrence}, term.occurrences = .ok present →
      ∀ occurrence ∈ present, 0 < occurrence.times
  | .number _ _, _, present, h => by
    cases h
    simp
  | .name factor word divisor, hs, present, h => by
    obtain ⟨hf, hd⟩ := List.forall_mem_append.mp hs
    obtain ⟨k, hk, h⟩ := ok_of_bind h
    cases h
    exact List.forall_mem_singleton.mpr (multiplicity_pos hf hd hk)
  | .group factor members divisor, hs, present, h => by
    obtain ⟨hf, hs⟩ := List.forall_mem_append.mp hs
    obtain ⟨hd, hm⟩ := List.forall_mem_append.mp hs
    rw [occurrences] at h
    obtain ⟨k, hk, h⟩ := ok_of_bind h
    obtain ⟨inner, hi, h⟩ := ok_of_bind h
    cases h
    exact within_pos (multiplicity_pos hf hd hk) (allOccurrences_pos members hm hi)
  | .call factor function arguments divisor, hs, present, h => by
    obtain ⟨hf, hs⟩ := List.forall_mem_append.mp hs
    obtain ⟨hd, ha⟩ := List.forall_mem_append.mp hs
    rw [occurrences] at h
    obtain ⟨k, hk, h⟩ := ok_of_bind h
    obtain ⟨inner, hi, h⟩ := ok_of_bind h
    cases h
    exact within_pos (multiplicity_pos hf hd hk) (allOccurrences_pos arguments ha hi)

theorem allOccurrences_pos : (terms : List Term) → (∀ x ∈ allScalings terms, Counts x) →
    ∀ {present : List Occurrence}, allOccurrences terms = .ok present →
      ∀ occurrence ∈ present, 0 < occurrence.times
  | [], _, present, h => by
    cases h
    simp
  | first :: others, hs, present, h => by
    obtain ⟨hfirst, hothers⟩ := List.forall_mem_append.mp hs
    rw [allOccurrences] at h
    obtain ⟨one, ho, h⟩ := ok_of_bind h
    obtain ⟨rest, hr, h⟩ := ok_of_bind h
    cases h
    exact List.forall_mem_append.mpr
      ⟨occurrences_pos first hfirst ho, allOccurrences_pos others hothers hr⟩

end

end Term

theorem coefficient_pos {occurrences : List Occurrence} {name : String}
    (h : ∀ occurrence ∈ occurrences, 0 < occurrence.times)
    (hn : name ∈ occurrences.map Occurrence.name) : 0 < coefficient occurrences name := by
  obtain ⟨occurrence, ho, rfl⟩ := List.mem_map.mp hn
  refine List.sum_pos _ ?_ ?_
  · intro times ht
    obtain ⟨other, hm, rfl⟩ := List.mem_map.mp ht
    exact h other (List.mem_of_mem_filter hm)
  · simp only [ne_eq, List.map_eq_nil_iff, List.filter_eq_nil_iff, not_forall]
    exact ⟨occurrence, ho, by simp⟩

/-! ## Weightings -/

namespace Normalization

variable {shares : List Share} {weight : Fraction} {den : Int}

theorem overflow_throughDenominator (hw : weight.Obtained) (hr : InRange den) (hd : den ≠ 0) :
    FaultsAre (· = .overflow) (throughDenominator weight den) := by
  unfold throughDenominator
  split
  · exact .ok weight
  · have hden : (Fraction.ofInt den).Obtained := .whole hr
    refine (Fraction.overflow_multiply hw.lowest hden.lowest).bind_of_ok fun multiplied hm => ?_
    have hmultiplied : multiplied.Obtained := .multiply hw hden hm
    refine Fraction.overflow_divide hmultiplied.lowest hmultiplied.fits hden.lowest ?_
    rw [Fraction.ofInt_eq_ofRat, Fraction.toRat_ofRat]
    exact_mod_cast hd

/-- However they are formed, all that can happen is that a number does not fit. -/
theorem overflow_of_obtained (normalization : Normalization)
    (ho : ∀ share ∈ shares, share.weight.Obtained) :
    FaultsAre (· = .overflow) (normalization.weightings shares) := by
  cases normalization with
  | commonDenominator => exact overflow_weightings shares
  | numeratorOnly =>
    refine .mapM_of_mem fun share hs => ?_
    refine (FaultsAre.foldlM_of_preserves (p := (· = share.weight)) ?_ ?_ rfl).bind fun _ => .ok _
    · rintro _ rfl den hd
      obtain ⟨other, hother, rfl⟩ := List.mem_map.mp (List.mem_eraseDups.mp hd)
      have hweight := ho other hother
      exact overflow_throughDenominator (ho share hs) hweight.fits.den hweight.lowest.1.ne'
    · rintro _ rfl den hd z hz
      obtain ⟨other, hother, rfl⟩ := List.mem_map.mp (List.mem_eraseDups.mp hd)
      exact throughDenominator_eq_ok (ho share hs).lowest (ho other hother).lowest.1.ne' hz

/-- Weightings have the signs of their weights. -/
theorem exists_positive {normalization : Normalization} {weightings : List Int}
    (hl : ∀ share ∈ shares, share.weight.Lowest) (hp : ∀ share ∈ shares, 1 ≤ share.weight.num)
    (h : normalization.weightings shares = .ok weightings) :
    ∃ weighting : Share → Int, weightings = shares.map weighting ∧
      ∀ share ∈ shares, 1 ≤ weighting share := by
  cases normalization with
  | commonDenominator =>
    refine ⟨extended shares, (weightings_of_common hl h).1, fun share hs => ?_⟩
    exact (one_le_extended_iff (hl share hs) hs).mpr (hp share hs)
  | numeratorOnly => exact ⟨_, numerators_eq_ok hl h, hp⟩

end Normalization

namespace Scheme

variable {shares merged : List Share} {formula : Formula} {normalization : Normalization}

theorem overflow_merge (ho : ∀ share ∈ shares, share.weight.Obtained) :
    FaultsAre (· = .overflow) (merge shares) := by
  refine .mapM_of_mem fun name _ => (Fraction.overflow_sum ?_).bind fun _ => .ok _
  intro x hx
  obtain ⟨share, hs, rfl⟩ := List.mem_map.mp hx
  exact ho share (List.mem_of_mem_filter hs)

/-- Weightings are formed without a division by zero. -/
theorem faults_of_ofFormula (hc : formula.Calculated) :
    FaultsAre (fun fault => fault = .overflow ∨ ∃ name, fault = .weightNotPositive name)
      (ofFormula normalization formula) := by
  refine ((overflow_merge hc.shares).mono fun _ => .inl).bind_of_ok fun merged hm => ?_
  have ho := obtained_merge hc.shares hm
  refine ((normalization.overflow_of_obtained ho).mono fun _ => .inl).bind fun weightings => ?_
  refine .bind (.mapM (fun (share, weighting) => ?_) _) fun _ => .ok _
  unfold entry
  dsimp only
  split
  · exact .ok _
  · exact .error (.inr ⟨_, rfl⟩)

/-- Where every name counts, every weighting is positive. -/
theorem overflow_of_pos (hc : formula.Calculated)
    (hp : ∀ merged, merge formula.shares = .ok merged → ∀ share ∈ merged, 0 < share.weight.toRat) :
    FaultsAre (· = .overflow) (ofFormula normalization formula) := by
  refine (overflow_merge hc.shares).bind_of_ok fun merged hm => ?_
  have ho := obtained_merge hc.shares hm
  have hl : ∀ share ∈ merged, share.weight.Lowest := fun share hs => (ho share hs).lowest
  have hnum : ∀ share ∈ merged, 1 ≤ share.weight.num := fun share hs =>
    (one_le_num_iff (hl share hs)).mpr (hp merged hm share hs)
  refine (normalization.overflow_of_obtained ho).bind_of_ok fun weightings hw => ?_
  obtain ⟨weighting, rfl, hpositive⟩ := Normalization.exists_positive hl hnum hw
  rw [entriesOf_of_pos hpositive]
  exact .ok _

theorem pos_of_merge {occurrences : List Occurrence}
    (ho : ∀ occurrence ∈ occurrences, 0 < occurrence.times)
    (hm : merge (occurrences.map Occurrence.share) = .ok merged) :
    ∀ share ∈ merged, 0 < share.weight.toRat := by
  rw [merge_share hm]
  intro share hs
  obtain ⟨name, hn, rfl⟩ := List.mem_map.mp hs
  rw [Fraction.toRat_ofRat]
  exact coefficient_pos ho (List.mem_eraseDups.mp hn)

/-! ## Texts -/

variable {options : Options} {text : String} {terms : List Term}

theorem calculated_of_parse {limit : Nat} (h : Formula.parse limit text = .ok formula) :
    formula.Calculated := by
  obtain ⟨terms, ht, _⟩ := Formula.formulaText_of_parse h
  obtain ⟨formulas, hf, hw⟩ := Formula.formulas_of_parse ht h
  exact Formula.calculated_ofGroup (Term.calculated_allFormulas terms hf) hw

theorem hasVanishing_of_compile (h : compile options text = .error .divisionByZero) :
    Formula.HasVanishing text.toList := by
  cases hp : Formula.parse options.depthLimit text with
  | error fault =>
    rw [compile, hp] at h
    cases h
    exact Formula.hasVanishing_of_parse hp
  | ok formula =>
    rw [compile, hp, ok_bind] at h
    rcases faults_of_ofFormula (calculated_of_parse hp) _ h with e | ⟨_, e⟩ <;> cases e

theorem ne_weightNotPositive_of_scalings (ht : Grammar.FormulaText text.toList terms)
    (hs : ∀ x ∈ Term.allScalings terms, Term.Counts x) (name : String) :
    compile options text ≠ .error (.weightNotPositive name) := by
  intro h
  cases hp : Formula.parse options.depthLimit text with
  | error fault =>
    obtain ⟨_, _, _, hplaced, _⟩ := Formula.placed_of_parse hp
    rw [compile, hp] at h
    cases h
    exact ne_weightNotPositive hplaced.cause name rfl
  | ok formula =>
    obtain ⟨occurrences, ho, _, hshares⟩ := Formula.lists_of_parse ht hp
    have hpos := Term.allOccurrences_pos terms hs ho
    rw [compile, hp, ok_bind] at h
    have hpositive : ∀ merged, merge formula.shares = .ok merged →
        ∀ share ∈ merged, 0 < share.weight.toRat := by
      intro merged hm
      rw [hshares] at hm
      exact pos_of_merge hpos hm
    cases overflow_of_pos (calculated_of_parse hp) hpositive _ h

/-! ## Literals -/

theorem numberText_power (mantissa exponent : Numeral) {x power : Float}
    (hm : mantissa.IsDecimal) (he : exponent.IsDecimal) (hx : mantissa.value? = some x)
    (hp : exponent.value? = some power) :
    Grammar.NumberText (mantissa.text ++ 'e' :: exponent.text) (Number.scale x power) :=
  .scaled ⟨mantissa, hm, rfl, hx⟩ rfl ⟨exponent, he, rfl, hp⟩

theorem nameText_a : Grammar.NameText ['a'] := ⟨'a', [], rfl, by decide +kernel, by simp⟩

theorem formulaText_divided {name token : List Char} {x : Float} (hn : Grammar.NameText name)
    (ht : Grammar.NumberText token x) :
    Grammar.FormulaText (name ++ '/' :: token) [.name none (String.ofList name) (some x)] := by
  have hname : Grammar.NameToken name ('/' :: (token ++ [])) :=
    Grammar.maximal_name hn fun _ => (Grammar.endsToken_symbol (by decide) _).isNameChar_eq_false
  have hnumber : Grammar.NumberToken token x [] := Grammar.maximal_number ht rfl rfl
  have hdivisor : Grammar.DivisorText ([] ++ '/' :: ([] ++ token)) (some x) [] :=
    .some (.mk Grammar.isBlanks_nil Grammar.isBlanks_nil hnumber)
  have hterm := Grammar.TermText.name Grammar.isBlanks_nil .none Grammar.isBlanks_nil hname hdivisor
  exact ⟨_, [], (List.append_nil _).symm, .one hterm, Grammar.isBlanks_nil⟩

/-- A finite double stands for zero up to `2^-63`, and otherwise for a fraction of its own sign. So
a text compiles to a division by zero only if it has a divisor that is no larger, and where all
factors and divisors of its names are above `2^-63` no weighting fails to be positive. -/
theorem signs_of_literals (options : Options) (text : String) :
    (∀ x q, IsValue x q → ∀ z, Fraction.ofFloat x = .ok z →
      (z.toRat = 0 ↔ |q| ≤ 1 / 2 ^ 63) ∧
      (z.toRat ≠ 0 → SignType.sign z.toRat = SignType.sign q)) ∧
    (compile options text = .error .divisionByZero → Formula.HasVanishing text.toList) ∧
    ∀ terms, Grammar.FormulaText text.toList terms →
      (∀ x ∈ Term.allScalings terms, Term.Counts x) →
      ∀ name, compile options text ≠ .error (.weightNotPositive name) := by
  refine ⟨fun x q hq z hz => ?_, hasVanishing_of_compile, fun terms ht hs => ?_⟩
  · exact ⟨Fraction.toRat_eq_zero_iff hq hz, Fraction.sign_of_ne_zero hq hz⟩
  · exact ne_weightNotPositive_of_scalings ht hs

theorem signs_of_small :
    ∃ x q z, Grammar.FormulaText "a/2e-19".toList [.name none "a" (some x)] ∧ IsValue x q ∧
      Fraction.ofFloat x = .ok z ∧ z.toRat ≠ 0 ∧ SignType.sign z.toRat = SignType.sign q ∧
      (∀ name, compile {} "a/2e-19" ≠ .error (.weightNotPositive name)) ∧
      compile {} "a/0 + )" = .error .divisionByZero ∧
      Formula.HasVanishing "a/0 + )".toList := by
  obtain ⟨hsign, -, hpositive⟩ := signs_of_literals {} "a/2e-19"
  obtain ⟨-, hdivisor, -⟩ := signs_of_literals {} "a/0 + )"
  have htoken := numberText_power ⟨none, ['2'], none⟩ ⟨some .minus, ['1', '9'], none⟩
    (by simp [Numeral.IsDecimal, Numeral.digits]) (by simp [Numeral.IsDecimal, Numeral.digits])
    rfl rfl
  have htext := formulaText_divided nameText_a htoken
  have hvalue : IsValue (Number.scale (Binary64.nearest false 2 1) (Binary64.nearest true 19 1))
      (Binary64.toRat ⟨false, 8307674973655724, -115⟩) := ⟨_, by decide +kernel, rfl⟩
  have hlow : 1 / 2 ^ 63 < Binary64.toRat ⟨false, 8307674973655724, -115⟩ := by
    norm_num [Binary64.toRat, Binary64.size]
  have hz : Fraction.ofFloat (Number.scale (Binary64.nearest false 2 1)
      (Binary64.nearest true 19 1)) = .ok { num := 1, den := 5000000000000000000 } := by
    decide +kernel
  have hne : Fraction.toRat { num := 1, den := 5000000000000000000 } ≠ 0 := by
    norm_num [Fraction.toRat]
  have hzero : compile {} "a/0 + )" = .error .divisionByZero := error_of_fault? (by decide +kernel)
  refine ⟨_, _, _, htext, hvalue, hz, hne, (hsign _ _ hvalue _ hz).2 hne, ?_, hzero,
    hdivisor hzero⟩
  refine hpositive _ htext ?_
  exact List.forall_mem_singleton.mpr ⟨_, hvalue, hlow⟩

theorem vanishing_of_tiny :
    ∃ x q, Grammar.FormulaText "a/1e-20".toList [.name none "a" (some x)] ∧ IsValue x q ∧ 0 < q ∧
      Fraction.ofFloat x = .ok .zero ∧ compile {} "a/1e-20" = .error .divisionByZero ∧
      compile {} "(a)1e-20" = .error (.weightNotPositive "a") := by
  have htoken := numberText_power ⟨none, ['1'], none⟩ ⟨some .minus, ['2', '0'], none⟩
    (by simp [Numeral.IsDecimal, Numeral.digits]) (by simp [Numeral.IsDecimal, Numeral.digits])
    rfl rfl
  refine ⟨_, _, formulaText_divided nameText_a htoken,
    ⟨⟨false, 6646139978924579, -119⟩, by decide +kernel, rfl⟩, ?_, ?_, ?_, ?_⟩
  · norm_num [Binary64.toRat, Binary64.size]
  · decide +kernel
  · exact error_of_fault? (by decide +kernel)
  · exact error_of_fault? (by decide +kernel)

end Scheme

end Marksheet
