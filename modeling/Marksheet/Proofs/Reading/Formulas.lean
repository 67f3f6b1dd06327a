import Marksheet.Proofs.Reading.Terms

/-!
# Marksheet.Proofs.Reading.Formulas

Reading a whole text agrees with the grammar of formulas.

* `parse_of_formulaText` : the text of a formula is read as its terms are evaluated, faults and all.
* `formulaText_of_parse` : only the text of a formula is read.
* `parse_eq_ok_iff` : a text is read exactly when the grammar derives it, nested no deeper than the
  limit, with no calls but those of `root` with one or two arguments, and it can be evaluated.
-/

namespace Marksheet.Formula

open Cursor (ask Ahead)
open Scan (Sequential Yields)
open Grammar
open Term (allReadings sumFormula)

variable {limit : Nat} {text : List Char} {position : Nat} {terms : List Term} {formula : Formula}
  {fault : Fault} {behind : Cursor (List Char)}

/-- The formula of a whole text, with all that can go wrong in the order in which it is met. -/
def readSum (limit : Nat) (terms : List Term) : Except Fault Formula := do
  ofGroup (← allReadings limit limit terms)

theorem readSum_eq_ok_iff :
    readSum limit terms = .ok formula ↔
      Term.allHeights terms ≤ limit ∧ Term.AllRootCalls terms ∧
        sumFormula terms = .ok formula := by
  constructor
  · intro h
    obtain ⟨formulas, hf, hw⟩ := ok_of_bind h
    obtain ⟨hh, hc, ha⟩ := (Term.allReadings_eq_ok_iff limit terms).mp hf
    refine ⟨hh, hc, ?_⟩
    rw [sumFormula, ha]
    exact hw
  · rintro ⟨hh, hc, h⟩
    obtain ⟨formulas, ha, hw⟩ := ok_of_bind h
    rw [readSum, (Term.allReadings_eq_ok_iff limit terms).mpr ⟨hh, hc, ha⟩]
    exact hw

theorem parse_of_ok {text : String}
    (h : wholeText limit (ask text.toList 0) = .ok formula behind) :
    parse limit text = .ok formula := by
  have hr : EStateM.run (wholeText limit) (Cursor.start text.toList) = .ok formula behind := h
  rw [parse, Scan.run, hr]

theorem parse_of_error {text : String}
    (h : wholeText limit (ask text.toList 0) = .error fault behind) :
    parse limit text = .error fault := by
  have hr : EStateM.run (wholeText limit) (Cursor.start text.toList) = .error fault behind := h
  rw [parse, Scan.run, hr]

/-! ## What has been passed -/

theorem formulaText_of_wholeText (h : wholeText limit (ask text position) = .ok formula behind) :
    ∃ terms, FormulaText text terms ∧ readSum limit terms = .ok formula := by
  obtain ⟨formulas, between, h₁, k₁⟩ := Scan.bind_ok h
  obtain ⟨used, terms, rest, rfl, hl, hb, hf⟩ := listText_of_separated (reads_term limit limit) h₁
  obtain ⟨_, _, h₂, k₂⟩ := Scan.bind_ok k₁
  rw [hb.skipBlanks] at h₂
  obtain ⟨gap, last, rfl, hg, rfl, _⟩ := Scan.skipped h₂
  obtain ⟨atEnd, _, h₃, k₃⟩ := Scan.bind_ok k₂
  rw [Scan.atEnd_ask] at h₃
  cases h₃
  cases last with
  | cons c last =>
    obtain ⟨_, _, _, k₄⟩ := Scan.bind_ok k₃
    cases k₄
  | nil =>
    obtain ⟨hw, _⟩ := Scan.lift_ok k₃
    rw [List.append_nil] at hl ⊢
    refine ⟨terms, ⟨used, gap, rfl, hl, hg⟩, ?_⟩
    rw [readSum, hf]
    exact hw

theorem formulaText_of_parse {text : String} (h : parse limit text = .ok formula) :
    ∃ terms, FormulaText text.toList terms ∧ readSum limit terms = .ok formula := by
  cases hw : wholeText limit (ask text.toList 0) with
  | ok result behind =>
    rw [parse_of_ok hw] at h
    cases h
    exact formulaText_of_wholeText hw
  | error fault behind =>
    rw [parse_of_error hw] at h
    cases h

/-! ## What is passed -/

theorem wholeText_formulaText (limit position : Nat) (h : FormulaText text terms) :
    ∃ behind, Yields (wholeText limit (ask text position)) (readSum limit terms) behind := by
  obtain ⟨sum, blanks, rfl, hl, hb⟩ := h
  have hnext : next blanks = none := by
    rw [← List.append_nil blanks, next_append hb]
    rfl
  obtain ⟨between, ha, hy⟩ := separated_listText position (.inl rfl) (reads_term limit limit) hl
    (afterTerm_blanks hb) (by rw [hnext]; simp)
  have hend : ∀ c, ([] : List Char).head? = some c → Text.isBlank c = false := by simp
  have hskip : Scan.skipBlanks (ask blanks (position + sum.length)) =
      .ok () (ask [] (position + sum.length + blanks.length)) := by
    have ht := takeWhile_run hb hend
    have hd := dropWhile_run hb hend
    rw [List.append_nil] at ht hd
    rw [Scan.skipBlanks_ask, ht, hd]
  refine ⟨ask [] (position + sum.length + blanks.length), hy.bind ?_⟩
  intro formulas _
  exact .bind_ok (ha.skipBlanks.trans hskip) (.bind_ok Scan.atEnd_ask (.lift (ofGroup formulas)))

theorem parse_of_formulaText {text : String} (h : FormulaText text.toList terms) :
    parse limit text = readSum limit terms := by
  obtain ⟨behind, hy⟩ := wholeText_formulaText limit 0 h
  cases hr : readSum limit terms with
  | ok formula =>
    rw [hr] at hy
    exact parse_of_ok hy
  | error fault =>
    rw [hr] at hy
    obtain ⟨cursor, hw⟩ := hy
    exact parse_of_error hw

theorem formulas_of_parse {text : String} (ht : FormulaText text.toList terms)
    (h : parse limit text = .ok formula) :
    ∃ formulas, Term.allFormulas terms = .ok formulas ∧ ofGroup formulas = .ok formula := by
  rw [parse_of_formulaText ht] at h
  obtain ⟨_, _, hsum⟩ := readSum_eq_ok_iff.mp h
  exact ok_of_bind hsum

/-- The limit of nesting decides whether a text is read, but not as what. -/
theorem eq_of_parse {limit' : Nat} {text : String} {formula' : Formula}
    (h : parse limit text = .ok formula) (h' : parse limit' text = .ok formula') :
    formula = formula' := by
  obtain ⟨terms, ht, _⟩ := formulaText_of_parse h
  obtain ⟨formulas, hf, hw⟩ := formulas_of_parse ht h
  obtain ⟨formulas', hf', hw'⟩ := formulas_of_parse ht h'
  cases hf.symm.trans hf'
  cases hw.symm.trans hw'
  rfl

/-- A text is read, and as this formula, exactly when the grammar derives it with terms that are
nested no deeper than the limit, call only `root` with one or two arguments, and evaluate to the
formula. -/
theorem parse_eq_ok_iff (limit : Nat) (text : String) (formula : Formula) :
    parse limit text = .ok formula ↔
      ∃ terms, FormulaText text.toList terms ∧ Term.allHeights terms ≤ limit ∧
        Term.AllRootCalls terms ∧ sumFormula terms = .ok formula := by
  constructor
  · intro h
    obtain ⟨terms, ht, hr⟩ := formulaText_of_parse h
    exact ⟨terms, ht, readSum_eq_ok_iff.mp hr⟩
  · rintro ⟨terms, ht, hr⟩
    rw [parse_of_formulaText ht]
    exact readSum_eq_ok_iff.mpr hr

end Marksheet.Formula
