import Marksheet.Proofs.Fraction.Cancellation
import Marksheet.Proofs.Reading.Faults
import Marksheet.Proofs.Scheme.Weightings

/-!
# Marksheet.Proofs.Scheme.Normalizations

The two ways of weighting agree. Wherever weightings over the least common denominator can be
formed, multiplying a weight by a denominator and dividing it again goes through and changes
nothing, so the numerators in lowest terms can be formed as well, and both lists are positive in the
same places.

* `Normalization.throughDenominator_of_fits` : one denominator.
* `Normalization.weightings_of_common` : all weights through all denominators.
* `Scheme.agreement_of_compile` : both ways make of a text the same fault or corresponding schemes.
-/

namespace Marksheet

/-! ## Through every denominator -/

namespace Normalization

open Fraction (ofRat leastDenominator)

theorem throughDenominator_of_fits {q : ℚ} {d : Nat} (hd : 0 < d) (hq : (ofRat q).Fits)
    (hm : (ofRat (q * d)).Fits) : throughDenominator (ofRat q) d = .ok (ofRat q) := by
  have hdq : (0 : ℚ) < d := by exact_mod_cast hd
  have hback : q * d / d = q := mul_div_cancel_right₀ q hdq.ne'
  unfold throughDenominator
  split
  · rfl
  · rw [Fraction.ofInt_eq_ofRat, Int.cast_natCast, Fraction.multiply_of_fits hm, ok_bind,
      Fraction.divide_of_fits hdq (by rwa [hback]), hback]

theorem foldlM_throughDenominator {weight : Fraction} {denominators : List Int}
    (h : ∀ den ∈ denominators, throughDenominator weight den = .ok weight) :
    denominators.foldlM throughDenominator weight = .ok weight := by
  induction denominators with
  | nil => rfl
  | cons den denominators ih =>
    rw [List.foldlM_cons, h den List.mem_cons_self, ok_bind]
    exact ih fun other ho => h other (List.mem_cons_of_mem den ho)

def weights (shares : List Share) : List ℚ := shares.map fun share => share.weight.toRat

def denominators (shares : List Share) : List Int :=
  (shares.map fun share => share.weight.den).eraseDups

section Common

variable {shares : List Share} {weightings : List Int}

theorem weights_eq_ofRat (hl : ∀ share ∈ shares, share.weight.Lowest) :
    shares.map Share.weight = (weights shares).map ofRat := by
  have hmap : weights shares = (shares.map Share.weight).map Fraction.toRat := by
    rw [weights, List.map_map]
    rfl
  rw [hmap, Fraction.map_ofRat_toRat]
  simpa using hl

theorem mapM_of_common (hl : ∀ share ∈ shares, share.weight.Lowest)
    (h : commonDenominator.weightings shares = .ok weightings) :
    InRange (leastDenominator (weights shares)) ∧
      shares.mapM (fun share => share.weight.numeratorOver (leastDenominator (weights shares))) =
        .ok weightings := by
  obtain ⟨den, hd, h⟩ := ok_of_bind h
  have hden : den = leastDenominator (weights shares) := by
    rw [weights_eq_ofRat hl] at hd
    exact Fraction.commonDenominator_ofRat hd
  subst hden
  exact ⟨Fraction.inRange_commonMultiple (by decide) hd, h⟩

theorem den_of_lowest {share : Share} (h : share.weight.Lowest) :
    share.weight.den = share.weight.toRat.den :=
  congrArg Fraction.den h.eq_ofRat

theorem dvd_leastDenominator {share : Share} (hs : share ∈ shares) :
    share.weight.toRat.den ∣ leastDenominator (weights shares) :=
  Fraction.den_dvd_leastDenominator (List.mem_map.mpr ⟨share, hs, rfl⟩)

/-- No denominator of the list changes a weight of the list, or makes it overflow. -/
theorem throughDenominators_of_common (hl : ∀ share ∈ shares, share.weight.Lowest)
    (h : commonDenominator.weightings shares = .ok weightings) {share : Share}
    (hs : share ∈ shares) :
    (denominators shares).foldlM throughDenominator share.weight = .ok share.weight := by
  obtain ⟨hrange, hall⟩ := mapM_of_common hl h
  obtain ⟨k, hk⟩ := ok_of_mapM hall share hs
  have hkrange := Fraction.inRange_numeratorOver hk
  have hpos := Fraction.leastDenominator_pos (weights shares)
  have hden : InRange share.weight.toRat.den := by
    have hle := Nat.le_of_dvd hpos (dvd_leastDenominator hs)
    unfold InRange at hrange ⊢
    omega
  have hself : (k : ℚ) = (leastDenominator (weights shares) : Int) * share.weight.toRat := by
    rw [(hl share hs).eq_ofRat] at hk
    exact Fraction.numeratorOver_ofRat hk
  refine foldlM_throughDenominator ?_
  intro den hd
  obtain ⟨other, ho, rfl⟩ := List.mem_map.mp (List.mem_eraseDups.mp hd)
  obtain ⟨m, hm⟩ := dvd_leastDenominator ho
  have hmpos : 0 < m := Nat.pos_of_mul_pos_left (hm ▸ hpos)
  have hmul : (k : ℚ) = (m : Int) * other.weight.toRat.den * share.weight.toRat := by
    rw [hself, hm]
    push_cast
    ring
  rw [den_of_lowest (hl other ho), (hl share hs).eq_ofRat]
  refine throughDenominator_of_fits (Rat.den_pos _) ?_ ?_
  · exact Fraction.fits_of_mul (by exact_mod_cast hpos) hself hkrange hden
  · exact Fraction.fits_mul_den (by exact_mod_cast hmpos) hmul hkrange hden

theorem throughDenominator_eq_ok {weight result : Fraction} {den : Int} (hl : weight.Lowest)
    (hd : den ≠ 0) (h : throughDenominator weight den = .ok result) : result = weight := by
  unfold throughDenominator at h
  split at h
  · cases h
    rfl
  · obtain ⟨multiplied, hm, h⟩ := ok_of_bind h
    rw [Fraction.ofInt_eq_ofRat] at hm h
    rw [hl.eq_ofRat] at hm
    rw [Fraction.multiply_ofRat hm] at h
    have hdq : (den : ℚ) ≠ 0 := by exact_mod_cast hd
    rw [(Fraction.divide_ofRat h).2, mul_div_cancel_right₀ _ hdq, ← hl.eq_ofRat]

theorem foldlM_throughDenominator_eq_ok {weight result : Fraction} {denominators : List Int}
    (hl : weight.Lowest) (hd : ∀ den ∈ denominators, den ≠ 0)
    (h : denominators.foldlM throughDenominator weight = .ok result) : result = weight := by
  have hstep : ∀ current, current = weight → ∀ den ∈ denominators, ∀ next,
      throughDenominator current den = .ok next → next = weight := by
    rintro _ rfl den hm next hn
    exact throughDenominator_eq_ok hl (hd den hm) hn
  exact foldlM_preserves (p := (· = weight)) hstep rfl h

/-- The numerators in lowest terms are those of the weights. -/
theorem numerators_eq_ok (hl : ∀ share ∈ shares, share.weight.Lowest)
    (h : numeratorOnly.weightings shares = .ok weightings) :
    weightings = shares.map fun share => share.weight.num := by
  refine map_of_mapM h ?_
  intro share hs k hk
  obtain ⟨weight, hw, hk⟩ := ok_of_bind hk
  cases hk
  have hd : ∀ den ∈ (shares.map fun share => share.weight.den).eraseDups, den ≠ 0 := by
    intro den hden
    obtain ⟨other, ho, rfl⟩ := List.mem_map.mp (List.mem_eraseDups.mp hden)
    exact (hl other ho).1.ne'
  rw [foldlM_throughDenominator_eq_ok (hl share hs) hd hw, (hl share hs).reduced_eq]

/-- What a numerator comes to over the least common denominator. -/
def extended (shares : List Share) (share : Share) : Int :=
  share.weight.num * (leastDenominator (weights shares) / share.weight.den)

/-- Where there are weightings over the least common denominator, the numerators are there as
well. -/
theorem weightings_of_common (hl : ∀ share ∈ shares, share.weight.Lowest)
    (h : commonDenominator.weightings shares = .ok weightings) :
    weightings = shares.map (extended shares) ∧
      numeratorOnly.weightings shares = .ok (shares.map fun share => share.weight.num) := by
  constructor
  · obtain ⟨_, hall⟩ := mapM_of_common hl h
    refine map_of_mapM hall ?_
    intro share hs k hk
    unfold Fraction.numeratorOver at hk
    rw [(hl share hs).reduced_eq] at hk
    split at hk
    · exact inRange?_eq_ok hk
    · cases hk
  · refine mapM_of_ok ?_
    intro share hs
    have hpass := throughDenominators_of_common hl h hs
    simp only [denominators] at hpass
    rw [hpass, ok_bind, (hl share hs).reduced_eq]
    rfl

/-- Over the least common denominator a weighting keeps the sign of its weight. -/
theorem one_le_extended_iff {share : Share} (hl : share.weight.Lowest) (hs : share ∈ shares) :
    1 ≤ extended shares share ↔ 1 ≤ share.weight.num := by
  have hpos : 0 < (leastDenominator (weights shares) : Int) / share.weight.den := by
    have hl' := Fraction.leastDenominator_pos (weights shares)
    refine Int.ediv_pos_of_pos_of_dvd (by exact_mod_cast hl') hl.1.le ?_
    rw [den_of_lowest hl]
    exact_mod_cast dvd_leastDenominator hs
  unfold extended
  constructor
  · intro h
    have hn := pos_of_mul_pos_left (Int.lt_of_lt_of_le Int.one_pos h) hpos.le
    omega
  · intro h
    have hn := Int.mul_pos (Int.lt_of_lt_of_le Int.one_pos h) hpos
    omega

end Common

end Normalization

/-! ## Entries -/

namespace Scheme

open Normalization (weights denominators throughDenominator extended)

variable {shares earlier later : List Share} {share : Share} {weighting : Share → Int}

theorem entriesOf_map (shares : List Share) (weighting : Share → Int) :
    entriesOf shares (shares.map weighting) =
      shares.mapM fun share => entry share.name (weighting share) := by
  have hzip : shares.zip (shares.map weighting) =
      shares.map fun share => (share, weighting share) := by
    simpa using List.zip_map' (f := id) (g := weighting) (l := shares)
  rw [entriesOf, hzip, List.mapM_map]
  rfl

theorem entriesOf_of_pos (h : ∀ share ∈ shares, 1 ≤ weighting share) :
    entriesOf shares (shares.map weighting) =
      .ok (shares.map fun share =>
        { name := share.name, weighting := (weighting share).toNat }) := by
  rw [entriesOf_map]
  exact mapM_of_ok fun share hs => if_pos (h share hs)

/-- The first weighting that is not positive is told. -/
theorem entriesOf_of_not_pos (he : ∀ share ∈ earlier, 1 ≤ weighting share)
    (hs : ¬ 1 ≤ weighting share) :
    entriesOf (earlier ++ share :: later) ((earlier ++ share :: later).map weighting) =
      .error (.weightNotPositive share.name) := by
  rw [entriesOf_map]
  exact mapM_of_error (fun other ho => if_pos (he other ho)) (if_neg hs)

theorem names_of_entries (shares : List Share) (weighting : Share → Int) :
    (shares.map fun share =>
      ({ name := share.name, weighting := (weighting share).toNat } : Entry)).map Entry.name =
      shares.map Share.name := by
  rw [List.map_map]
  rfl

theorem weightings_of_entries (h : ∀ share ∈ shares, 1 ≤ weighting share) :
    (shares.map fun share =>
      ({ name := share.name, weighting := (weighting share).toNat } : Entry)).map
        (fun entry => (entry.weighting : Int)) = shares.map weighting := by
  rw [List.map_map]
  refine List.map_congr_left ?_
  intro share hs
  have hone := h share hs
  simp only [Function.comp_apply]
  omega

/-! ## Both ways -/

/-- The shares of a text, one for each name, of which all weightings are formed. -/
structure Merges (limit : Nat) (text : String) (shares : List Share) : Prop where
  merged : ∃ formula, Formula.parse limit text = .ok formula ∧ merge formula.shares = .ok shares
  lowest : ∀ share ∈ shares, share.weight.Lowest
  unchanged : ∀ share ∈ shares,
    (denominators shares).foldlM throughDenominator share.weight = .ok share.weight

/-- Two schemes that weight the same shares, over the least common denominator and by the
numerators alone. -/
structure Corresponding (shares : List Share) (common numerators : Scheme) : Prop where
  positive : ∀ share ∈ shares, 0 < share.weight.toRat
  total : common.total = numerators.total
  commonNames : common.entries.map Entry.name = shares.map Share.name
  numeratorNames : numerators.entries.map Entry.name = shares.map Share.name
  commonWeightings : common.entries.map (fun entry => (entry.weighting : Int)) =
    shares.map fun share => share.weight.num *
      ((Fraction.leastDenominator (weights shares) : Int) / share.weight.den)
  numeratorWeightings : numerators.entries.map (fun entry => (entry.weighting : Int)) =
    shares.map fun share => share.weight.num

/-- How the outcome over the least common denominator and that of the numerators go together. -/
inductive Agreement (limit : Nat) (text : String) :
    Except Fault Scheme → Except Fault Scheme → Prop where
  | fault {fault : Fault} : (∀ name, fault ≠ .weightNotPositive name) →
      Agreement limit text (.error fault) (.error fault)
  /-- The same name, the first whose weight is not positive. -/
  | notPositive {shares earlier later : List Share} {share : Share} : Merges limit text shares →
      shares = earlier ++ share :: later → (∀ other ∈ earlier, 0 < other.weight.toRat) →
      share.weight.toRat ≤ 0 →
      Agreement limit text (.error (.weightNotPositive share.name))
        (.error (.weightNotPositive share.name))
  | schemes {shares : List Share} {common numerators : Scheme} : Merges limit text shares →
      Corresponding shares common numerators → Agreement limit text (.ok common) (.ok numerators)

theorem ofFormula_of_weightings {normalization : Normalization} {formula : Formula}
    {weightings : List Int} (hm : merge formula.shares = .ok shares)
    (hw : normalization.weightings shares = .ok weightings) :
    ofFormula normalization formula = (do
      let entries ← entriesOf shares weightings
      return { entries, total := formula.weight }) := by
  rw [ofFormula, hm, ok_bind, hw, ok_bind]

theorem obtained_merge {merged : List Share} (ho : ∀ share ∈ shares, share.weight.Obtained)
    (h : merge shares = .ok merged) : ∀ share ∈ merged, share.weight.Obtained := by
  intro share hs
  obtain ⟨name, _, hn⟩ := exists_of_mapM h share hs
  obtain ⟨weight, hw, hn⟩ := ok_of_bind hn
  cases hn
  refine Fraction.obtained_sum ?_ hw
  intro x hx
  obtain ⟨other, hm, rfl⟩ := List.mem_map.mp hx
  exact ho other (List.mem_of_mem_filter hm)

theorem lowest_of_merge {formula : Formula} {limit : Nat} {text : String}
    (hp : Formula.parse limit text = .ok formula) (hm : merge formula.shares = .ok shares) :
    ∀ share ∈ shares, share.weight.Lowest := by
  obtain ⟨terms, ht, _⟩ := Formula.formulaText_of_parse hp
  obtain ⟨occurrences, _, _, hl⟩ := Formula.lists_of_parse ht hp
  rw [hl] at hm
  rw [merge_share hm]
  intro share hm
  obtain ⟨name, _, rfl⟩ := List.mem_map.mp hm
  exact Fraction.lowest_ofRat _

theorem one_le_num_iff (hl : share.weight.Lowest) :
    1 ≤ share.weight.num ↔ 0 < share.weight.toRat := by
  rw [← Rat.num_pos, congrArg Fraction.num hl.eq_ofRat]
  rfl

/-- Before there are weightings, no fault is one of a weighting. -/
theorem ne_weightNotPositive {fault : Fault} (h : fault.OfCalculation ∨ fault.position? ≠ none)
    (name : String) : fault ≠ .weightNotPositive name := by
  rintro rfl
  rcases h with h | h
  · exact h
  · exact h rfl

/-- Where all weightings are formed, the signs of the weights decide alike for both ways. -/
theorem agreement_of_weightings {limit : Nat} {text : String} (hm : Merges limit text shares)
    (total : Fraction) :
    Agreement limit text
      (do let entries ← entriesOf shares (shares.map (extended shares))
          return { entries, total })
      (do let entries ← entriesOf shares (shares.map fun share => share.weight.num)
          return { entries, total }) := by
  rcases forall_or_first (fun share => 1 ≤ share.weight.num) shares with hpos | hfirst
  · have hcommon : ∀ share ∈ shares, 1 ≤ extended shares share := fun share hs =>
      (Normalization.one_le_extended_iff (hm.lowest share hs) hs).mpr (hpos share hs)
    rw [entriesOf_of_pos hcommon, entriesOf_of_pos hpos]
    refine .schemes hm ⟨?_, rfl, ?_, ?_, ?_, ?_⟩
    · exact fun share hs => (one_le_num_iff (hm.lowest share hs)).mp (hpos share hs)
    · exact names_of_entries _ _
    · exact names_of_entries _ _
    · exact weightings_of_entries hcommon
    · exact weightings_of_entries hpos
  · obtain ⟨earlier, share, later, rfl, hbefore, hnot⟩ := hfirst
    have hshare : share ∈ earlier ++ share :: later := by simp
    have hmem : ∀ other ∈ earlier, other ∈ earlier ++ share :: later := fun other ho =>
      List.mem_append_left _ ho
    have hearlier : ∀ other ∈ earlier, 1 ≤ extended (earlier ++ share :: later) other := by
      intro other ho
      have hl := hm.lowest other (hmem other ho)
      exact (Normalization.one_le_extended_iff hl (hmem other ho)).mpr (hbefore other ho)
    have hextended : ¬ 1 ≤ extended (earlier ++ share :: later) share := by
      rwa [Normalization.one_le_extended_iff (hm.lowest share hshare) hshare]
    rw [entriesOf_of_not_pos hearlier hextended, entriesOf_of_not_pos hbefore hnot]
    refine .notPositive hm rfl ?_ ?_
    · intro other ho
      exact (one_le_num_iff (hm.lowest other (hmem other ho))).mp (hbefore other ho)
    · rwa [one_le_num_iff (hm.lowest share hshare), not_lt] at hnot

/-- Unless compiling over the least common denominator overflows, the numerators have the
corresponding outcome. -/
theorem agreement_of_compile (limit : Nat) (text : String)
    (h : compile { normalization := .commonDenominator, depthLimit := limit } text ≠
      .error .overflow) :
    Agreement limit text
      (compile { normalization := .commonDenominator, depthLimit := limit } text)
      (compile { normalization := .numeratorOnly, depthLimit := limit } text) := by
  unfold compile at h ⊢
  dsimp only at h ⊢
  cases hp : Formula.parse limit text with
  | error fault =>
    obtain ⟨_, _, _, hplaced, _⟩ := Formula.placed_of_parse hp
    exact .fault (ne_weightNotPositive hplaced.cause)
  | ok formula =>
    rw [hp, ok_bind] at h
    rw [ok_bind, ok_bind]
    cases hm : merge formula.shares with
    | error fault =>
      have hkind := (ofEvaluation_merge formula.shares fault hm).ofCalculation
      rw [ofFormula, ofFormula, hm]
      exact .fault (ne_weightNotPositive (.inl hkind))
    | ok shares =>
      have hl := lowest_of_merge hp hm
      cases hw : Normalization.commonDenominator.weightings shares with
      | error fault =>
        obtain rfl := Normalization.overflow_weightings shares fault hw
        rw [ofFormula, hm, ok_bind, hw] at h
        exact absurd rfl h
      | ok weightings =>
        obtain ⟨rfl, hnumerators⟩ := Normalization.weightings_of_common hl hw
        have hmerges : Merges limit text shares := ⟨⟨formula, hp, hm⟩, hl,
          fun share hs => Normalization.throughDenominators_of_common hl hw hs⟩
        rw [ofFormula_of_weightings hm hw, ofFormula_of_weightings hm hnumerators]
        exact agreement_of_weightings hmerges formula.weight

theorem agreement_of_sixths :
    ∃ common numerators, Agreement 200 "a/2 + b/3 + 3a" (.ok common) (.ok numerators) ∧
      common.entries = [⟨"a", 21⟩, ⟨"b", 2⟩] ∧ numerators.entries = [⟨"a", 7⟩, ⟨"b", 1⟩] := by
  have hcommon : (compile {} "a/2 + b/3 + 3a").toOption.map entries =
      some [⟨"a", 21⟩, ⟨"b", 2⟩] := by
    decide +kernel
  have hnumerators : (compile { normalization := .numeratorOnly } "a/2 + b/3 + 3a").toOption.map
      entries = some [⟨"a", 7⟩, ⟨"b", 1⟩] := by
    decide +kernel
  obtain ⟨common, hc⟩ := exists_ok (x := compile {} "a/2 + b/3 + 3a") (by decide +kernel)
  obtain ⟨numerators, hn⟩ := exists_ok
    (x := compile { normalization := .numeratorOnly } "a/2 + b/3 + 3a") (by decide +kernel)
  have h := agreement_of_compile 200 "a/2 + b/3 + 3a" (by rw [hc]; exact nofun)
  rw [hc] at h hcommon
  rw [hn] at h hnumerators
  exact ⟨common, numerators, h, Option.some.inj hcommon, Option.some.inj hnumerators⟩

end Scheme

end Marksheet
