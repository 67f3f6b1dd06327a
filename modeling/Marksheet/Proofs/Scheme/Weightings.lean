import Mathlib.Algebra.BigOperators.Ring.List
import Mathlib.Data.List.Induction
import Marksheet.Proofs.Reading.Formulas
import Marksheet.Proofs.Scheme.Coefficients

/-!
# Marksheet.Proofs.Scheme.Weightings

A scheme over the least common denominator keeps the meaning of its formula.

* `InFirstOrder` : the members of a list, each once, in the order in which they first occur.
* `Formula.lists_of_parse` : the formula of a text has the occurrences of its terms.
* `Scheme.distinctNames_of_compile` : whichever way weightings are formed, the names are those of
  the formula, each once.
* `Scheme.Keeps` : the names of a scheme are those of the formula, each weighting is the coefficient
  of its name over the least common denominator, and weighted averages are exact.
* `Scheme.keeps_of_compile` : so it is for every text that compiles.
-/

namespace Marksheet

/-- `distinct` lists the members of `names`, each once, in the order of first occurrence. -/
structure InFirstOrder (names distinct : List String) : Prop where
  mem_iff : ∀ name, name ∈ distinct ↔ name ∈ names
  nodup : distinct.Nodup
  ordered : distinct.Pairwise fun first second => names.idxOf first < names.idxOf second

theorem eraseDups_concat (names : List String) (last : String) :
    (names ++ [last]).eraseDups =
      if last ∈ names then names.eraseDups else names.eraseDups ++ [last] := by
  rw [List.eraseDups_append]
  split
  · rename_i hl
    simp [List.removeAll, hl]
  · rename_i hl
    simp [List.removeAll, hl, List.eraseDups_cons]

theorem ordered_eraseDups (names : List String) :
    names.eraseDups.Pairwise fun first second => names.idxOf first < names.idxOf second := by
  induction names using List.reverseRecOn with
  | nil => exact .nil
  | append_singleton names last ih =>
    have hold : names.eraseDups.Pairwise fun first second =>
        (names ++ [last]).idxOf first < (names ++ [last]).idxOf second := by
      refine ih.imp_of_mem fun {first second} h₁ h₂ hlt => ?_
      rwa [List.idxOf_append_of_mem (List.mem_eraseDups.mp h₁),
        List.idxOf_append_of_mem (List.mem_eraseDups.mp h₂)]
    rw [eraseDups_concat]
    split
    · exact hold
    · rename_i hl
      refine List.pairwise_append.mpr ⟨hold, List.pairwise_singleton _ _, ?_⟩
      intro first hf second hs
      obtain rfl := List.mem_singleton.mp hs
      have hm := List.mem_eraseDups.mp hf
      rw [List.idxOf_append_of_mem hm, List.idxOf_append_of_notMem hl, List.idxOf_cons_self,
        Nat.add_zero]
      exact List.idxOf_lt_length_of_mem hm

theorem inFirstOrder_eraseDups (names : List String) : InFirstOrder names names.eraseDups where
  mem_iff name := List.mem_eraseDups
  nodup := by
    refine (ordered_eraseDups names).imp fun {first second} hlt e => ?_
    subst e
    exact Nat.lt_irrefl _ hlt
  ordered := ordered_eraseDups names

/-- Whichever way a text is derived, the formula that is read has the names of its terms. -/
theorem Formula.lists_of_parse {limit : Nat} {text : String} {terms : List Term}
    {formula : Formula} (ht : Grammar.FormulaText text.toList terms)
    (h : parse limit text = .ok formula) :
    ∃ occurrences, Term.allOccurrences terms = .ok occurrences ∧ formula.Lists occurrences := by
  obtain ⟨formulas, hf, hw⟩ := formulas_of_parse ht h
  obtain ⟨occurrences, ho, hs, hl⟩ := Term.allFormulas_occurrences terms hf
  rw [ofGroup_eq_ok hs hw]
  exact ⟨occurrences, ho, .group hs, hl⟩

namespace Scheme

/-- The scheme keeps what the occurrences of a formula's names say. -/
structure Keeps (scheme : Scheme) (occurrences : List Occurrence) : Prop where
  names : InFirstOrder (occurrences.map Occurrence.name) (scheme.entries.map Entry.name)
  weighting : ∀ entry ∈ scheme.entries, (entry.weighting : ℚ) =
    Fraction.leastDenominator (scheme.entries.map fun entry => coefficient occurrences entry.name) *
      coefficient occurrences entry.name
  positive : ∀ entry ∈ scheme.entries, 1 ≤ entry.weighting
  average : ∀ values : String → ℚ,
    (scheme.entries.map fun entry => (entry.weighting : ℚ) * values entry.name).sum /
        (scheme.entries.map fun entry => (entry.weighting : ℚ)).sum =
      (scheme.entries.map fun entry =>
          coefficient occurrences entry.name * values entry.name).sum /
        (scheme.entries.map fun entry => coefficient occurrences entry.name).sum

variable {occurrences : List Occurrence} {shares merged : List Share} {formula : Formula}
  {scheme : Scheme}

theorem weightsOf_share (occurrences : List Occurrence) (name : String) :
    weightsOf name (occurrences.map Occurrence.share) =
      ((occurrences.filter fun occurrence => occurrence.name = name).map
        Occurrence.times).map Fraction.ofRat := by
  rw [weightsOf, List.filter_map, List.map_map, List.map_map]
  rfl

theorem merge_share (h : merge (occurrences.map Occurrence.share) = .ok merged) :
    merged = (occurrences.map Occurrence.name).eraseDups.map fun name =>
      { name, weight := .ofRat (coefficient occurrences name) } := by
  have hnames : distinctNames (occurrences.map Occurrence.share) =
      (occurrences.map Occurrence.name).eraseDups := by
    rw [distinctNames, List.map_map]
    rfl
  rw [← hnames]
  refine map_of_mapM h ?_
  intro name _ share hs
  obtain ⟨weight, hw, hs⟩ := ok_of_bind hs
  cases hs
  rw [weightsOf_share] at hw
  rw [Fraction.sum_ofRat hw]
  rfl

def multiple (den : Nat) (occurrences : List Occurrence) (name : String) : Int :=
  (den * coefficient occurrences name).num

/-- Over the least common denominator all coefficients are whole. -/
theorem weightings_share {names : List String} {weightings : List Int}
    (h : Normalization.commonDenominator.weightings (names.map fun name =>
      { name, weight := .ofRat (coefficient occurrences name) }) = .ok weightings) :
    weightings = names.map (multiple
        (Fraction.leastDenominator (names.map (coefficient occurrences))) occurrences) ∧
      ∀ name ∈ names,
        (multiple (Fraction.leastDenominator (names.map (coefficient occurrences)))
          occurrences name : ℚ) =
          Fraction.leastDenominator (names.map (coefficient occurrences)) *
            coefficient occurrences name := by
  obtain ⟨den, hd, h⟩ := ok_of_bind h
  have hden : den = Fraction.leastDenominator (names.map (coefficient occurrences)) := by
    refine Fraction.commonDenominator_ofRat ?_
    rw [List.map_map] at hd ⊢
    exact hd
  subst hden
  have hwhole : ∀ name k, (Fraction.ofRat (coefficient occurrences name)).numeratorOver
      (Fraction.leastDenominator (names.map (coefficient occurrences))) = .ok k →
      (k : ℚ) = Fraction.leastDenominator (names.map (coefficient occurrences)) *
        coefficient occurrences name := by
    intro name k hk
    have hq := Fraction.numeratorOver_ofRat hk
    rwa [Int.cast_natCast] at hq
  rw [List.mapM_map] at h
  refine ⟨map_of_mapM h ?_, ?_⟩
  · intro name _ k hk
    rw [multiple, ← hwhole name k hk, Rat.num_intCast]
  · intro name hn
    obtain ⟨k, hk⟩ := ok_of_mapM h name hn
    rw [multiple, ← hwhole name k hk, Rat.num_intCast]

theorem entry_eq_ok {name : String} {weighting : Int} {result : Entry}
    (h : entry name weighting = .ok result) :
    1 ≤ weighting ∧ result = { name, weighting := weighting.toNat } := by
  unfold entry at h
  split at h
  · rename_i hw
    cases h
    exact ⟨hw, rfl⟩
  · cases h

theorem entriesOf_eq_ok {names : List String} {weight : String → Fraction}
    {weighting : String → Int} {entries : List Entry}
    (h : entriesOf (names.map fun name => { name, weight := weight name })
      (names.map weighting) = .ok entries) :
    (entries = names.map fun name => { name, weighting := (weighting name).toNat }) ∧
      ∀ name ∈ names, 1 ≤ weighting name := by
  rw [entriesOf, List.zip_map', List.mapM_map] at h
  refine ⟨map_of_mapM h fun name _ result hr => (entry_eq_ok hr).2, ?_⟩
  intro name hn
  obtain ⟨result, hr⟩ := ok_of_mapM h name hn
  exact (entry_eq_ok hr).1

theorem names_of_merge (h : merge shares = .ok merged) :
    merged.map Share.name = distinctNames shares := by
  rw [map_eq_of_mapM (g := id) h, List.map_id]
  intro name _ share hs
  obtain ⟨weight, _, hs⟩ := ok_of_bind hs
  cases hs
  rfl

theorem length_weightings {normalization : Normalization} {weightings : List Int}
    (h : normalization.weightings shares = .ok weightings) :
    weightings.length = shares.length := by
  cases normalization with
  | commonDenominator =>
    obtain ⟨den, _, h⟩ := ok_of_bind h
    exact length_of_mapM h
  | numeratorOnly => exact length_of_mapM h

theorem names_of_entriesOf {weightings : List Int} {entries : List Entry}
    (h : entriesOf shares weightings = .ok entries)
    (hlen : weightings.length = shares.length) :
    entries.map Entry.name = shares.map Share.name := by
  have hentries : entries.map Entry.name =
      (shares.zip weightings).map fun pair => pair.1.name := by
    refine map_eq_of_mapM h ?_
    rintro ⟨share, weighting⟩ _ result hr
    rw [(entry_eq_ok hr).2]
  calc entries.map Entry.name
    _ = ((shares.zip weightings).map Prod.fst).map Share.name := by rw [hentries, List.map_map]; rfl
    _ = shares.map Share.name := by rw [List.map_fst_zip hlen.ge]

theorem weighting_of_entriesOf {weightings : List Int} {entries : List Entry}
    (h : entriesOf shares weightings = .ok entries) :
    ∀ entry ∈ entries, 1 ≤ entry.weighting ∧ (entry.weighting : Int) ∈ weightings := by
  intro entry he
  obtain ⟨⟨share, weighting⟩, hp, hentry⟩ := exists_of_mapM h entry he
  obtain ⟨hone, rfl⟩ := entry_eq_ok hentry
  have hnat : ((weighting.toNat : Nat) : Int) = weighting := by omega
  refine ⟨by dsimp only; omega, ?_⟩
  rw [hnat]
  exact (List.of_mem_zip hp).2

theorem ofFormula_eq_ok {normalization : Normalization}
    (h : ofFormula normalization formula = .ok scheme) :
    ∃ merged weightings, merge formula.shares = .ok merged ∧
      normalization.weightings merged = .ok weightings ∧
      entriesOf merged weightings = .ok scheme.entries ∧ scheme.total = formula.weight := by
  obtain ⟨merged, hm, h⟩ := ok_of_bind h
  obtain ⟨weightings, hw, h⟩ := ok_of_bind h
  obtain ⟨entries, he, h⟩ := ok_of_bind h
  cases h
  exact ⟨merged, weightings, hm, hw, he, rfl⟩

/-- However weightings are formed, the entries are those of the names in the formula. -/
theorem distinctNames_of_compile {options : Options} {text : String} {scheme : Scheme}
    (h : compile options text = .ok scheme) :
    ∃ formula, Formula.parse options.depthLimit text = .ok formula ∧
      scheme.entries.map Entry.name = distinctNames formula.shares := by
  obtain ⟨formula, hp, h⟩ := ok_of_bind h
  obtain ⟨merged, weightings, hm, hw, he, -⟩ := ofFormula_eq_ok h
  refine ⟨formula, hp, ?_⟩
  rw [names_of_entriesOf he (length_weightings hw), names_of_merge hm]

theorem names_of_compile {options : Options} {text : String} {scheme : Scheme}
    (h : compile options text = .ok scheme) : (scheme.entries.map Entry.name).Nodup := by
  obtain ⟨formula, -, hnames⟩ := distinctNames_of_compile h
  rw [hnames]
  exact (inFirstOrder_eraseDups _).nodup

/-- Options decide about weightings, and whether there are any, but not about names. -/
theorem names_of_options {options other : Options} {text : String} {scheme scheme' : Scheme}
    (h : compile options text = .ok scheme) (h' : compile other text = .ok scheme') :
    scheme.entries.map Entry.name = scheme'.entries.map Entry.name := by
  obtain ⟨formula, hp, hn⟩ := distinctNames_of_compile h
  obtain ⟨formula', hp', hn'⟩ := distinctNames_of_compile h'
  rw [hn, hn', Formula.eq_of_parse hp hp']

/-- Weightings that are multiples of the coefficients keep all averages. -/
theorem average_of_multiples {entries : List Entry} {weight : String → ℚ} {den : ℚ} (hd : den ≠ 0)
    (hw : ∀ entry ∈ entries, (entry.weighting : ℚ) = den * weight entry.name)
    (values : String → ℚ) :
    (entries.map fun entry => (entry.weighting : ℚ) * values entry.name).sum /
        (entries.map fun entry => (entry.weighting : ℚ)).sum =
      (entries.map fun entry => weight entry.name * values entry.name).sum /
        (entries.map fun entry => weight entry.name).sum := by
  have htotal : entries.map (fun entry => (entry.weighting : ℚ)) =
      entries.map fun entry => den * weight entry.name :=
    List.map_congr_left hw
  have hvalues : entries.map (fun entry => (entry.weighting : ℚ) * values entry.name) =
      entries.map fun entry => den * (weight entry.name * values entry.name) := by
    refine List.map_congr_left ?_
    intro entry he
    rw [hw entry he, mul_assoc]
  rw [htotal, hvalues, List.sum_map_mul_left, List.sum_map_mul_left, mul_div_mul_left _ _ hd]

theorem leastDenominator_ne_zero (qs : List ℚ) : (Fraction.leastDenominator qs : ℚ) ≠ 0 := by
  exact_mod_cast (Fraction.leastDenominator_pos qs).ne'

theorem keeps_of_multiples {names : List String} {weighting : String → Int} {total : Fraction}
    (hn : InFirstOrder (occurrences.map Occurrence.name) names)
    (hw : ∀ name ∈ names, (weighting name : ℚ) =
      Fraction.leastDenominator (names.map (coefficient occurrences)) *
        coefficient occurrences name)
    (hp : ∀ name ∈ names, 1 ≤ weighting name) :
    Keeps { entries := names.map fun name => { name, weighting := (weighting name).toNat }, total }
      occurrences := by
  have hnames : (names.map fun name =>
      ({ name, weighting := (weighting name).toNat } : Entry)).map Entry.name = names := by
    rw [List.map_map]
    exact List.map_id names
  have hcoefficients : ((names.map fun name =>
      ({ name, weighting := (weighting name).toNat } : Entry)).map fun entry =>
        coefficient occurrences entry.name) = names.map (coefficient occurrences) := by
    rw [List.map_map]
    rfl
  have hweighting : ∀ entry ∈ names.map fun name =>
      ({ name, weighting := (weighting name).toNat } : Entry), (entry.weighting : ℚ) =
        Fraction.leastDenominator (names.map (coefficient occurrences)) *
          coefficient occurrences entry.name := by
    intro entry he
    obtain ⟨name, hm, rfl⟩ := List.mem_map.mp he
    have hnat : (((weighting name).toNat : Int) : ℚ) = weighting name := by
      rw [Int.toNat_of_nonneg (Int.le_trans (by decide) (hp name hm))]
    rw [← hw name hm, ← hnat, Int.cast_natCast]
  refine ⟨?_, ?_, ?_, ?_⟩
  · rw [hnames]
    exact hn
  · rw [hcoefficients]
    exact hweighting
  · intro entry he
    obtain ⟨name, hm, rfl⟩ := List.mem_map.mp he
    have hone := hp name hm
    show 1 ≤ (weighting name).toNat
    omega
  · exact average_of_multiples (leastDenominator_ne_zero _) hweighting

theorem keeps_of_ofFormula (hf : formula.Lists occurrences)
    (h : ofFormula .commonDenominator formula = .ok scheme) : scheme.Keeps occurrences := by
  obtain ⟨merged, weightings, hm, hw, he, -⟩ := ofFormula_eq_ok h
  obtain ⟨entries, total⟩ := scheme
  rw [hf.2] at hm
  rw [merge_share hm] at hw he
  obtain ⟨rfl, hwhole⟩ := weightings_share hw
  obtain ⟨rfl, hpos⟩ := entriesOf_eq_ok he
  exact keeps_of_multiples (inFirstOrder_eraseDups _) hwhole hpos

/-- Where a text compiles over the least common denominator it is the text of a formula. Whichever
way it is derived, the scheme keeps the occurrences of its names. -/
theorem keeps_of_compile (limit : Nat) (text : String) (scheme : Scheme)
    (h : compile { normalization := .commonDenominator, depthLimit := limit } text = .ok scheme) :
    (∃ terms, Grammar.FormulaText text.toList terms) ∧
      ∀ terms, Grammar.FormulaText text.toList terms →
        ∃ occurrences, Term.allOccurrences terms = .ok occurrences ∧
          scheme.Keeps occurrences := by
  obtain ⟨formula, hp, h⟩ := ok_of_bind h
  refine ⟨?_, ?_⟩
  · obtain ⟨terms, ht, _⟩ := Formula.formulaText_of_parse hp
    exact ⟨terms, ht⟩
  · intro terms ht
    rw [Formula.parse_of_formulaText ht] at hp
    obtain ⟨_, _, hsum⟩ := Formula.readSum_eq_ok_iff.mp hp
    obtain ⟨formulas, hf, hw⟩ := ok_of_bind hsum
    obtain ⟨occurrences, ho, hs, hl⟩ := Term.allFormulas_occurrences terms hf
    have hwhole := Formula.ofGroup_eq_ok hs hw
    subst hwhole
    exact ⟨occurrences, ho, keeps_of_ofFormula ⟨.group hs, hl⟩ h⟩

theorem keeps_of_nested :
    ∃ scheme terms occurrences, compile {} "2(a + 3b)/5 + root(c, .5b) + a" = .ok scheme ∧
      scheme.entries = [⟨"a", 14⟩, ⟨"b", 17⟩, ⟨"c", 10⟩] ∧
      Term.allOccurrences terms = .ok occurrences ∧ scheme.Keeps occurrences := by
  have he : (compile {} "2(a + 3b)/5 + root(c, .5b) + a").toOption.map entries =
      some [⟨"a", 14⟩, ⟨"b", 17⟩, ⟨"c", 10⟩] := by
    decide +kernel
  obtain ⟨scheme, h⟩ := exists_ok (x := compile {} "2(a + 3b)/5 + root(c, .5b) + a")
    (by decide +kernel)
  rw [h] at he
  obtain ⟨⟨terms, ht⟩, hall⟩ := keeps_of_compile 200 "2(a + 3b)/5 + root(c, .5b) + a" scheme h
  obtain ⟨occurrences, ho, hkeeps⟩ := hall terms ht
  exact ⟨scheme, terms, occurrences, h, Option.some.inj he, ho, hkeeps⟩

end Scheme

end Marksheet
