import Marksheet.Proofs.Formula.Divisors
import Marksheet.Proofs.Reading.Faults

/-!
# Marksheet.Proofs.Reading.Divisors

Reading ends in a division by zero only where the text has a divisor for it. Factors and divisors
are applied as soon as a term ends, so what follows the divisor need not be part of a formula.

* `Formula.HasVanishing` : the text has a divisor that is a double of at most `2^-63`.
* `Formula.Blames` : if the scan of a text ends in a division by zero, the text has such a divisor.
* `Formula.blames_term` : terms are scanned so, by induction on the levels left.
* `Formula.hasVanishing_of_parse` : and so are whole texts.
-/

namespace Marksheet

theorem Fault.ne_divisionByZero_of_position? {fault : Fault} (h : fault.position? ≠ none) :
    fault ≠ .divisionByZero := by
  rintro rfl
  exact h rfl

theorem Fault.OfNumber.ne_divisionByZero {fault : Fault} (h : fault.OfNumber) :
    fault ≠ .divisionByZero :=
  ne_divisionByZero_of_position? h.position?_ne_none

theorem FaultsAre.ne_divisionByZero {α : Type} {r : Except Fault α}
    (h : FaultsAre (· = .overflow) r) : FaultsAre (· ≠ .divisionByZero) r :=
  h.mono fun _ e => by rw [e]; exact nofun

theorem NamedFunction.checkArity_ne_divisionByZero (function : NamedFunction) (given : Nat) :
    FaultsAre (· ≠ .divisionByZero) (function.checkArity given) := by
  unfold checkArity
  split
  · exact .ok ()
  · exact .error nofun

namespace Formula

open Binary64 (IsValue)
open Cursor (ask Ahead)
open Scan (Sequential OnlyFaults)
open Grammar
open Term (allReadings)

variable {α β : Type} {item : Item (List Char) Formula} {limit depth start : Nat}
  {text rest : List Char} {position : Nat} {leading factor : Option Float} {star : Bool}
  {formula : Formula} {behind : Cursor (List Char)}

/-! ## What has been calculated -/

theorem calculated_of_readings {terms : List Term} {formulas : List Formula}
    (h : allReadings limit depth terms = .ok formulas) :
    ∀ formula ∈ formulas, formula.Calculated :=
  Term.calculated_allFormulas terms ((Term.allReadings_eq_ok_iff limit terms).mp h).2.2

theorem calculated_of_enclosed (hi : item.Reads limit depth) {separator : Char}
    {formulas : List Formula}
    (h : enclosed separator item (ask text position) = .ok formulas behind) :
    ∀ formula ∈ formulas, formula.Calculated := by
  obtain ⟨_, _, _, _, _, _, hf⟩ := enclosedText_of_enclosed hi h
  exact calculated_of_readings hf

theorem calculated_of_operand (hi : item.Reads limit depth)
    (h : operand item start leading star (ask text position) = .ok (formula, factor) behind) :
    formula.Calculated := by
  obtain ⟨found, opened, h₁, k₁⟩ := Scan.bind_ok h
  obtain ⟨_, rest, _, rfl⟩ := (Scan.sequential_accept '(').ok h₁
  cases found with
  | true =>
    obtain ⟨members, _, h₂, k₂⟩ := Scan.bind_ok k₁
    obtain ⟨_, _, _, k₃⟩ := Scan.bind_ok k₂
    obtain ⟨whole, _, h₄, k₄⟩ := Scan.bind_ok k₃
    cases k₄
    exact calculated_ofGroup (calculated_of_enclosed hi h₂) (Scan.lift_ok h₄).1
  | false =>
    obtain ⟨name, _, h₂, k₂⟩ := Scan.bind_ok k₁
    obtain ⟨_, last, _, rfl⟩ := Name.sequential_scan.ok h₂
    cases name with
    | some name =>
      obtain ⟨current, _, h₃, k₃⟩ := Scan.bind_ok k₂
      obtain ⟨rfl, rfl⟩ := Scan.current_ok h₃
      split at k₃
      · rename_i hc
        rw [Cursor.current_ask] at hc
        obtain ⟨others, rfl⟩ := List.head?_eq_some_iff.mp hc
        obtain ⟨_, _, h₄, k₄⟩ := Scan.bind_ok k₃
        cases h₄
        obtain ⟨whole, _, h₅, k₅⟩ := Scan.bind_ok k₄
        cases k₅
        obtain ⟨_, _, _, _, _, _, _, _, _, hf, _, hw⟩ := enclosedText_of_callOf hi h₅
        exact calculated_ofCall (calculated_of_readings hf) hw
      · cases k₃
        exact calculated_ofLeaf _ _
    | none =>
      dsimp only at k₂
      split at k₂
      · cases k₂
        exact calculated_ofLeaf _ _
      · cases k₂

/-! ## Who is to blame -/

/-- Somewhere in the text a slash stands in front of a number that is a double of at most
`2^-63`. -/
def HasVanishing (text : List Char) : Prop :=
  ∃ before divided following x q, text = before ++ (divided ++ following) ∧
    MarkedNumber '/' divided x following ∧ IsValue x q ∧ |q| ≤ 1 / 2 ^ 63

theorem HasVanishing.append (used : List Char) (h : HasVanishing rest) :
    HasVanishing (used ++ rest) := by
  obtain ⟨before, divided, following, x, q, rfl, hm, hq, hle⟩ := h
  exact ⟨used ++ before, divided, following, x, q, by rw [List.append_assoc], hm, hq, hle⟩

/-- A division by zero in which the scan of this text ends comes from a divisor in the text. -/
def Blames (scan : Scan (List Char) α) (text : List Char) (position : Nat) : Prop :=
  ∀ behind, scan (ask text position) = .error .divisionByZero behind → HasVanishing text

theorem Blames.of_onlyFaults {scan : Scan (List Char) α}
    (h : OnlyFaults (· ≠ .divisionByZero) scan) : Blames scan text position :=
  fun _ e => absurd rfl (h _ _ _ e)

/-- What has been passed stands in front of whatever the next step finds. -/
theorem Blames.bind {scan : Scan (List Char) α} {next : α → Scan (List Char) β}
    (hs : Sequential scan text position) (hb : Blames scan text position)
    (hn : ∀ x used rest, text = used ++ rest →
      scan (ask text position) = .ok x (ask rest (position + used.length)) →
      Blames (next x) rest (position + used.length)) :
    Blames (scan >>= next) text position := by
  intro behind h
  rcases Scan.bind_error h with h₁ | ⟨x, between, h₁, h₂⟩
  · exact hb _ h₁
  · obtain ⟨used, rest, rfl, rfl⟩ := hs.ok h₁
    exact (hn x used rest rfl h₁ _ h₂).append used

/-- The current character is known, and so is what is done with it. -/
theorem Blames.bind_current {next : Option Char → Scan (List Char) β}
    (h : Blames (next text.head?) text position) :
    Blames (Scan.current >>= next) text position := by
  intro behind e
  rw [Scan.bind_of_ok Scan.current_ask] at e
  exact h behind e

theorem Blames.bind_position {next : Nat → Scan (List Char) β}
    (h : Blames (next position) text position) :
    Blames (Scan.position >>= next) text position := by
  intro behind e
  rw [Scan.bind_of_ok Scan.position_ask] at e
  exact h behind e

theorem blames_divided (hf : formula.Calculated) (factor : Option Float) (text : List Char)
    (position : Nat) :
    Blames (divisor >>= fun divided => Scan.lift (applyFactors formula factor divided))
      text position := by
  intro behind h
  rcases Scan.bind_error h with h₁ | ⟨divided, between, h₁, h₂⟩
  · exact absurd rfl (Fault.OfNumber.ne_divisionByZero (onlyFaults_divisor _ _ _ h₁))
  · obtain ⟨used, rest, rfl, hd, _⟩ := divisorText_of_divisor h₁
    obtain ⟨x, q, rfl, hq, hle⟩ := exists_divisor hf (Scan.lift_error h₂)
    cases hd with
    | some hm => exact ⟨[], used, rest, x, q, rfl, hm, hq, hle⟩

/-! ## Lists and terms -/

section Items

variable (hi : item.Reads limit depth) (hb : ∀ text position, Blames item.scan text position)

include hi hb

theorem blames_separated (separator : Char) (text : List Char) (position : Nat) :
    Blames (separated separator item) text position := by
  induction hn : text.length using Nat.strongRecOn generalizing text position with
  | _ n ih =>
    subst hn
    rw [separated_eq]
    refine .bind (hi.sequential text position) (hb text position) ?_
    intro first used rest ht _
    refine .bind (Scan.sequential_accept _) (.of_onlyFaults (Scan.onlyFaults_accept _)) ?_
    intro found more last hr ha
    cases found with
    | false => exact .of_onlyFaults (Scan.onlyFaults_pure _)
    | true =>
      obtain ⟨gap, others, hg, _, hbehind⟩ := Scan.accept_found ha
      obtain ⟨rfl, _⟩ := Cursor.ask_injective hbehind
      have hlt : last.length < text.length := by
        rw [ht, hg]
        simp only [List.length_append, List.length_cons]
        omega
      refine .bind (sequential_separated separator hi _ _) (ih _ hlt last _ rfl) ?_
      exact fun _ _ _ _ _ => .of_onlyFaults (Scan.onlyFaults_pure _)

theorem blames_enclosed (separator : Char) (text : List Char) (position : Nat) :
    Blames (enclosed separator item) text position := by
  refine .bind (sequential_separated separator hi _ _) (blames_separated hi hb separator _ _) ?_
  intro items _ _ _ _
  exact .of_onlyFaults (.bind (Scan.onlyFaults_expect fun _ => nofun) fun _ =>
    Scan.onlyFaults_pure items)

theorem blames_callOf (name : String) (text : List Char) (position : Nat) :
    Blames (callOf name item) text position := by
  unfold callOf
  split
  · exact .of_onlyFaults (Scan.onlyFaults_throw (by simp))
  · rename_i function _
    refine .bind (sequential_enclosed ',' hi _ _) (blames_enclosed hi hb ',' _ _) ?_
    intro arguments _ _ _ h
    have hcalculated := calculated_of_enclosed hi h
    refine .of_onlyFaults (.bind (Scan.onlyFaults_lift ?_) fun _ => Scan.onlyFaults_lift ?_)
    · exact NamedFunction.checkArity_ne_divisionByZero function _
    · exact (overflow_ofCall function hcalculated).ne_divisionByZero

theorem blames_operand (start : Nat) (leading : Option Float) (star : Bool) (text : List Char)
    (position : Nat) : Blames (operand item start leading star) text position := by
  refine .bind (Scan.sequential_accept _) (.of_onlyFaults (Scan.onlyFaults_accept _)) ?_
  intro found _ rest _ _
  cases found with
  | true =>
    refine .bind (sequential_enclosed '+' hi _ _) (blames_enclosed hi hb '+' _ _) ?_
    intro members _ _ _ h
    have hsum := (overflow_ofGroup (calculated_of_enclosed hi h)).ne_divisionByZero
    refine .of_onlyFaults (.bind ?_ fun factor => .bind (Scan.onlyFaults_lift hsum) fun _ =>
      Scan.onlyFaults_pure _)
    exact onlyFaults_groupFactor.mono fun _ => Fault.OfNumber.ne_divisionByZero
  | false =>
    refine .bind Name.sequential_scan (.of_onlyFaults Name.onlyFaults_scan) ?_
    intro name _ last _ _
    cases name with
    | some name =>
      refine .bind_current ?_
      split
      · rename_i hc
        obtain ⟨others, rfl⟩ := List.head?_eq_some_iff.mp hc
        refine .bind (Scan.sequential_advance_cons _) (.of_onlyFaults Scan.onlyFaults_advance) ?_
        intro _ _ inside _ _
        refine .bind (sequential_callOf hi name) (blames_callOf hi hb name inside _) ?_
        exact fun _ _ _ _ _ => .of_onlyFaults (Scan.onlyFaults_pure _)
      · exact .of_onlyFaults (Scan.onlyFaults_pure _)
    | none =>
      dsimp only
      split
      · exact .of_onlyFaults (Scan.onlyFaults_pure _)
      · refine .of_onlyFaults (Scan.onlyFaults_throw_get fun cursor => ?_)
        exact Fault.ne_divisionByZero_of_position? (position?_missingOperand_ne_none start cursor)

theorem blames_termOf (text : List Char) (position : Nat) :
    Blames (termOf item) text position := by
  refine .bind Scan.sequential_skipBlanks (.of_onlyFaults Scan.onlyFaults_skipBlanks) ?_
  intro _ _ _ _ _
  refine .bind_position (.bind Number.sequential_scan (.of_onlyFaults ?_) ?_)
  · exact Number.onlyFaults_scan.mono fun _ => Fault.OfNumber.ne_divisionByZero
  intro leading _ _ _ _
  refine .bind sequential_starred (.of_onlyFaults onlyFaults_starred) ?_
  intro star _ _ _ _
  refine .bind (sequential_operand hi (by omega)) (blames_operand hi hb _ _ _ _ _) ?_
  rintro ⟨formula, factor⟩ _ _ _ h
  exact blames_divided (calculated_of_operand hi h) factor _ _

end Items

/-! ## Every depth -/

theorem blames_term (limit depth : Nat) (text : List Char) (position : Nat) :
    Blames (term limit depth : Item (List Char) Formula).scan text position := by
  induction depth generalizing text position with
  | zero => exact .of_onlyFaults (Scan.onlyFaults_throw (by simp))
  | succ depth ih => exact blames_termOf (reads_term limit depth) ih text position

theorem blames_wholeText (limit : Nat) (text : List Char) (position : Nat) :
    Blames (wholeText limit) text position := by
  have hi := reads_term limit limit
  refine .bind (sequential_separated '+' hi _ _)
    (blames_separated hi (blames_term limit limit) '+' _ _) ?_
  intro formulas _ _ _ h
  refine .bind Scan.sequential_skipBlanks (.of_onlyFaults Scan.onlyFaults_skipBlanks) ?_
  intro _ _ _ _ _
  refine .bind Scan.sequential_atEnd (.of_onlyFaults Scan.onlyFaults_atEnd) ?_
  intro atEnd _ _ _ _
  obtain ⟨_, _, _, _, _, _, hf⟩ := listText_of_separated hi h
  cases atEnd with
  | true =>
    have hsum := overflow_ofGroup (calculated_of_readings hf)
    exact .of_onlyFaults (Scan.onlyFaults_lift hsum.ne_divisionByZero)
  | false =>
    refine .of_onlyFaults (Scan.onlyFaults_throw_get fun cursor => ?_)
    exact Fault.ne_divisionByZero_of_position? cursor.position?_unexpected_ne_none

/-- A text that reading ends in a division by zero has a divisor for it. -/
theorem hasVanishing_of_parse {text : String}
    (h : parse limit text = .error .divisionByZero) : HasVanishing text.toList := by
  obtain ⟨behind, hw⟩ := error_of_parse h
  exact blames_wholeText limit text.toList 0 behind hw

end Formula

end Marksheet
