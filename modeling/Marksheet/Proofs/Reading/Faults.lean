import Marksheet.Proofs.Reading.Formulas

/-!
# Marksheet.Proofs.Reading.Faults

The place that a fault names is the right one.

* `sequential_wholeText` : a fault is found at or before the character where reading stopped, and on
  every text with the same characters up to there.
* `viable_of_wholeText` : what stands in front of a misplaced character begins a formula.
* `Scheme.place_of_fault` : no text that goes on with the misplaced character is a formula.
-/

namespace Marksheet

open Cursor (ask)
open Scan (Sequential)
open Grammar

namespace Term

mutual

theorem ofCalculation_reading (limit : Nat) :
    (depth : Nat) → (term : Term) → FaultsAre Fault.OfCalculation (term.reading limit depth)
  | 0, term => by
    rw [reading]
    exact .error trivial
  | depth + 1, .number factor divisor => by
    rw [reading]
    exact (Formula.ofEvaluation_applyFactors _ _ _).ofCalculation
  | depth + 1, .name factor word divisor => by
    rw [reading]
    exact (Formula.ofEvaluation_applyFactors _ _ _).ofCalculation
  | depth + 1, .group factor members divisor => by
    rw [reading]
    refine (ofCalculation_allReadings limit depth members).bind ?_
    intro formulas
    exact (Formula.ofEvaluation_ofGroup formulas).ofCalculation.bind fun whole =>
      (Formula.ofEvaluation_applyFactors whole factor divisor).ofCalculation
  | depth + 1, .call factor function arguments divisor => by
    rw [reading_call, called]
    refine .bind ?_ fun whole =>
      (Formula.ofEvaluation_applyFactors whole factor divisor).ofCalculation
    cases NamedFunction.ofName? function with
    | none => exact .error trivial
    | some function =>
      refine (ofCalculation_allReadings limit depth arguments).bind ?_
      intro formulas
      exact (function.ofEvaluation_checkArity _).ofCalculation.bind fun _ =>
        (Formula.ofEvaluation_ofCall function formulas).ofCalculation

theorem ofCalculation_allReadings (limit : Nat) :
    (depth : Nat) → (terms : List Term) →
      FaultsAre Fault.OfCalculation (allReadings limit depth terms)
  | depth, [] => by
    rw [allReadings]
    exact .ok []
  | depth, first :: others => by
    rw [allReadings]
    refine (ofCalculation_reading limit depth first).bind ?_
    intro one
    exact (ofCalculation_allReadings limit depth others).bind fun rest => .ok _

end

end Term

namespace Formula

variable {limit : Nat} {text : List Char} {position : Nat} {terms : List Term} {fault : Fault}
  {behind : Cursor (List Char)}

theorem ofCalculation_readSum (limit : Nat) (terms : List Term) :
    FaultsAre Fault.OfCalculation (readSum limit terms) :=
  (Term.ofCalculation_allReadings limit limit terms).bind fun formulas =>
    (ofEvaluation_ofGroup formulas).ofCalculation

theorem sequential_wholeText (limit : Nat) (text : List Char) (position : Nat) :
    Sequential (wholeText limit) text position := by
  refine (sequential_separated '+' (reads_term limit limit) _ _).bind ?_
  intro terms _ _ _ _
  refine Scan.sequential_skipBlanks.bind ?_
  intro _ _ _ _ _
  refine Scan.sequential_atEnd.bind ?_
  intro atEnd _ _ _ _
  cases atEnd with
  | true => exact Scan.sequential_lift (ofEvaluation_ofGroup terms)
  | false =>
    exact Scan.sequential_throw_get (Scan.placed_unexpected _ _) fun _ => Scan.unexpected_of_head?

/-- Something can be written behind `used` that makes it a formula. -/
def ViableFormula (used : List Char) : Prop :=
  ∃ completion terms, FormulaText (used ++ completion) terms

theorem viable_of_wholeText (h : wholeText limit (ask text position) = .error fault behind)
    (hm : fault.IsMisplaced) : StopsAt ViableFormula text position behind := by
  have hi := reads_term limit limit
  rcases Scan.bind_error h with h₁ | ⟨formulas, between, h₁, k₁⟩
  · obtain ⟨used, rest, rfl, rfl, completion, terms, hl⟩ := viable_of_separated (.inl rfl) hi h₁ hm
    refine ⟨used, rest, rfl, rfl, completion, terms, used ++ completion, [], ?_, ?_, isBlanks_nil⟩
    · rw [List.append_nil]
    · exact hl [] (afterTerm_blanks isBlanks_nil)
  obtain ⟨used, terms, rest, rfl, hl, hb, _⟩ := listText_of_separated hi h₁
  rcases Scan.bind_error k₁ with h₂ | ⟨_, _, h₂, k₂⟩
  · cases h₂
  rw [hb.skipBlanks] at h₂
  obtain ⟨gap, last, rfl, hg, rfl, _⟩ := Scan.skipped h₂
  rcases Scan.bind_error k₂ with h₃ | ⟨atEnd, _, h₃, k₃⟩
  · cases h₃
  rw [Scan.atEnd_ask] at h₃
  cases h₃
  cases last with
  | nil =>
    have hkind := ofEvaluation_ofGroup formulas
    exact absurd hm (hkind _ (Scan.lift_error k₃)).not_isMisplaced
  | cons c last =>
    cases k₃
    refine ⟨used ++ gap, c :: last, by rw [List.append_assoc], ?_, [], terms, used, gap, ?_, ?_, hg⟩
    · rw [List.length_append, Nat.add_assoc]
    · rw [List.append_nil]
    · exact ListText.before terms (.inl rfl) hl (afterTerm_blanks hg)

theorem not_isMisplaced_of_formulaText (ht : FormulaText text terms)
    (h : wholeText limit (ask text position) = .error fault behind) : ¬ fault.IsMisplaced := by
  obtain ⟨cursor, hy⟩ := wholeText_formulaText limit position ht
  have hu := ofCalculation_readSum limit terms
  cases hr : readSum limit terms with
  | ok formula =>
    rw [hr] at hy
    have hok : wholeText limit (ask text position) = .ok formula cursor := hy
    rw [hok] at h
    cases h
  | error other =>
    rw [hr] at hy
    obtain ⟨between, herr⟩ := hy
    rw [herr] at h
    cases h
    exact Scan.not_isMisplaced_of_none (hu fault hr).position?

theorem error_of_parse {text : String} (h : parse limit text = .error fault) :
    ∃ behind, wholeText limit (ask text.toList 0) = .error fault behind := by
  cases hw : wholeText limit (ask text.toList 0) with
  | ok formula behind =>
    rw [parse_of_ok hw] at h
    cases h
  | error other behind =>
    rw [parse_of_error hw] at h
    cases h
    exact ⟨behind, rfl⟩

/-- A fault that a text is read with names a place in it. Where a character is misplaced, what
stands in front begins a formula, and together with the character it begins none. -/
theorem placed_of_parse {text : String} (h : parse limit text = .error fault) :
    ∃ used rest, text.toList = used ++ rest ∧ Scan.Placed fault used.length rest.head? ∧
      (fault.IsMisplaced → ViableFormula used ∧
        ∀ c others, rest = c :: others → ¬ ViableFormula (used ++ [c])) := by
  obtain ⟨behind, hw⟩ := error_of_parse h
  obtain ⟨used, rest, ht, hb, hp, hall⟩ := (sequential_wholeText limit text.toList 0).error hw
  rw [Nat.zero_add] at hp
  refine ⟨used, rest, ht, hp, fun hm => ⟨?_, ?_⟩⟩
  · obtain ⟨used', rest', ht', hb', hv⟩ := viable_of_wholeText hw hm
    obtain ⟨rfl, _⟩ := Cursor.ask_injective (hb.symm.trans hb')
    rw [List.append_cancel_right (ht.symm.trans ht')]
    exact hv
  · rintro c others rfl ⟨completion, terms, hf⟩
    rw [List.append_assoc, List.singleton_append] at hf
    exact not_isMisplaced_of_formulaText hf (hall (c :: completion) rfl) hm

end Formula

namespace Scheme

/-- The place that a fault names lies in the text, or at its end. An unexpected character stands at
its place. In front of a misplaced character the text begins a formula, and with the character it
begins none. -/
theorem place_of_fault (options : Options) (text : String) (fault : Fault)
    (h : compile options text = .error fault) :
    (∀ place, fault.position? = some place → place ≤ text.length) ∧
    (∀ found place, fault = .unexpected found place → text.toList[place]? = some found) ∧
    ∀ place, (∃ found, fault = .unexpected found place) ∨
        (∃ wanted, fault = .expected wanted place) →
      (∃ completion terms, FormulaText (text.toList.take place ++ completion) terms) ∧
      (place < text.length → ∀ suffix terms,
        ¬ FormulaText (text.toList.take (place + 1) ++ suffix) terms) := by
  cases hp : Formula.parse options.depthLimit text with
  | ok formula =>
    have hn : fault.position? = none := by
      rw [compile, hp] at h
      exact unplaced_ofFormula options.normalization formula fault h
    have hm := Scan.not_isMisplaced_of_none hn
    refine ⟨?_, ?_, ?_⟩
    · intro place hq
      rw [hn] at hq
      cases hq
    · intro found place e
      subst e
      exact (hm trivial).elim
    · intro place e
      rcases e with ⟨_, rfl⟩ | ⟨_, rfl⟩ <;> exact (hm trivial).elim
  | error other =>
    obtain rfl : other = fault := by
      rw [compile, hp] at h
      cases h
      rfl
    obtain ⟨used, rest, ht, hplaced, hmisplaced⟩ := Formula.placed_of_parse hp
    have hlen : text.length = used.length + rest.length := by
      rw [← String.length_toList, ht, List.length_append]
    refine ⟨?_, ?_, ?_⟩
    · intro place hq
      have hle := hplaced.le place hq
      omega
    · intro found place e
      obtain ⟨rfl, hc⟩ := hplaced.unexpected found place e
      rw [ht, List.getElem?_append_right (Nat.le_refl _), Nat.sub_self, ← List.head?_eq_getElem?]
      exact hc
    · intro place e
      obtain ⟨hm, rfl⟩ : other.IsMisplaced ∧ place = used.length := by
        rcases e with ⟨found, e⟩ | ⟨wanted, e⟩
        · exact ⟨by rw [e]; trivial, (hplaced.unexpected found place e).1⟩
        · exact ⟨by rw [e]; trivial, hplaced.expected wanted place e⟩
      obtain ⟨hviable, hnot⟩ := hmisplaced hm
      rw [ht, List.take_left]
      refine ⟨hviable, ?_⟩
      intro hlt suffix terms hf
      cases rest with
      | nil =>
        rw [hlen, List.length_nil] at hlt
        omega
      | cons c others =>
        rw [List.take_length_add_append, List.take_succ_cons, List.take_zero] at hf
        exact hnot c others rfl ⟨suffix, terms, hf⟩

theorem place_of_semicolon :
    "root(a, 2b; c)".toList[10]? = some ';' ∧
    (∃ completion terms, FormulaText ("root(a, 2b".toList ++ completion) terms) ∧
    ∀ suffix terms, ¬ FormulaText ("root(a, 2b;".toList ++ suffix) terms := by
  have h : compile {} "root(a, 2b; c)" = .error (.expected ')' 10) :=
    error_of_fault? (by decide +kernel)
  obtain ⟨_, _, hplace⟩ := place_of_fault {} "root(a, 2b; c)" (.expected ')' 10) h
  obtain ⟨hviable, hnot⟩ := hplace 10 (.inr ⟨')', rfl⟩)
  exact ⟨by decide, hviable, hnot (by decide)⟩

end Scheme

end Marksheet
