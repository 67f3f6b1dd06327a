import Marksheet.Proofs.Reading.Words

/-!
# Marksheet.Proofs.Reading.Factors

The numbers of a term: in front of its operand with or without a star, behind a group, and as a
divisor.

* `lead_leadText`, `lead_numeral`, `leadText_of_scan` : the number in front.
* `groupFactor_trailText`, `trailText_of_groupFactor` : the factor of a group.
* `divisor_divisorText`, `divisorText_of_divisor` : the divisor.
* `onlyFaults_requiredNumber`, `onlyFaults_groupFactor`, `onlyFaults_divisor` : their faults are
  those of numbers.
-/

namespace Marksheet.Formula

open Cursor (ask Ahead)
open Scan (Sequential OnlyFaults)
open Grammar

variable {text rest following : List Char} {position : Nat} {behind between : Cursor (List Char)}
  {value : Float}

/-! ## A number that has to follow -/

theorem isBlank_of_mem_head {token : List Char} (h : NumberText token value) (rest : List Char) :
    ∀ c, (token ++ rest).head? = some c → Text.isBlank c = false := by
  obtain ⟨first, others, rfl, hf⟩ := h.head
  intro c hc
  cases hc
  rcases hf with rfl | rfl | hf
  · decide
  · decide
  · exact isBlank_of_startsFactor hf

theorem requiredNumber_numberText {space token : List Char} (hs : IsBlanks space)
    (h : NumberText token value) (he : EndsToken rest) :
    requiredNumber (ask (space ++ (token ++ rest)) position) =
      .ok value (ask rest (position + space.length + token.length)) := by
  have hstop := isBlank_of_mem_head h rest
  refine (Scan.bind_of_ok Scan.skipBlanks_ask).trans ?_
  rw [takeWhile_run hs hstop, dropWhile_run hs hstop]
  refine (Scan.bind_of_ok Scan.position_ask).trans ?_
  exact Scan.bind_of_ok
    (Number.scan_numberText h he.startsFactor_eq_false he.isMarker_eq_false)

theorem numberToken_of_required (h : requiredNumber (ask text position) = .ok value behind) :
    ∃ space token rest, text = space ++ (token ++ rest) ∧ IsBlanks space ∧
      NumberToken token value rest ∧
      behind = ask rest (position + space.length + token.length) := by
  obtain ⟨_, _, h₁, h⟩ := Scan.bind_ok h
  obtain ⟨space, rest, rfl, hs, rfl, _⟩ := Scan.skipped h₁
  obtain ⟨_, _, h₂, h⟩ := Scan.bind_ok h
  cases h₂
  obtain ⟨found, _, h₃, h⟩ := Scan.bind_ok h
  cases found with
  | none => cases h
  | some v =>
    cases h
    obtain ⟨token, last, rfl, rfl, ht⟩ := Number.numberToken_of_scan h₃
    exact ⟨space, token, last, rfl, hs, ht, rfl⟩

theorem sequential_requiredNumber : Sequential requiredNumber text position := by
  refine Scan.sequential_skipBlanks.bind fun _ used rest _ _ => .bind_position ?_
  refine Number.sequential_scan.bind ?_
  intro found more _ _ _
  cases found with
  | some v => exact Scan.sequential_pure v
  | none =>
    exact Scan.sequential_throw (Scan.placed_of_le rfl (Nat.le_add_right _ _) id)

theorem onlyFaults_requiredNumber :
    OnlyFaults Fault.OfNumber (requiredNumber : Scan (List Char) Float) := by
  refine .bind Scan.onlyFaults_skipBlanks fun _ => .bind Scan.onlyFaults_position ?_
  intro start
  refine .bind Number.onlyFaults_scan ?_
  intro found
  cases found with
  | some v => exact Scan.onlyFaults_pure v
  | none => exact Scan.onlyFaults_throw trivial

/-! ## A symbol and its number -/

theorem place_marked (gap space token : List Char) (symbol : Char) (place : Nat) :
    place + (gap ++ symbol :: (space ++ token)).length =
      place + gap.length + 1 + space.length + token.length := by
  simp only [List.length_append, List.length_cons]
  omega

theorem required_of_marked {symbol : Char} (hb : Text.isBlank symbol = false)
    (h : MarkedNumber symbol text value following) (he : EndsToken rest) :
    ∃ between, Scan.accept symbol (ask (text ++ rest) position) = .ok true between ∧
      requiredNumber between = .ok value (ask rest (position + text.length)) := by
  cases h with
  | @mk gap space token _ _ hg hs ht =>
    rw [List.append_assoc, List.cons_append, List.append_assoc, place_marked]
    exact ⟨_, Scan.accept_gap hg hb, requiredNumber_numberText hs ht.1 he⟩

theorem marked_of_required {symbol : Char}
    (h₁ : Scan.accept symbol (ask text position) = .ok true between)
    (h₂ : requiredNumber between = .ok value behind) :
    ∃ used rest, text = used ++ rest ∧ MarkedNumber symbol used value rest ∧
      behind = ask rest (position + used.length) := by
  obtain ⟨gap, rest, rfl, hg, rfl⟩ := Scan.accept_found h₁
  obtain ⟨space, token, last, rfl, hs, ht, rfl⟩ := numberToken_of_required h₂
  refine ⟨gap ++ symbol :: (space ++ token), last, ?_, .mk hg hs ht, ?_⟩
  · rw [List.append_assoc, List.cons_append, List.append_assoc]
  · rw [place_marked]

/-! ## Divisors -/

variable {divided : Option Float}

theorem divisor_divisorText (position : Nat) (h : DivisorText text divided following)
    (ha : AfterTerm following) :
    ∃ behind, divisor (ask (text ++ following) position) = .ok divided behind ∧
      Ahead following (position + text.length) behind := by
  cases h with
  | none =>
    have hn : next following ≠ some '/' := by
      intro hn
      have hc := ha _ hn
      revert hc
      decide
    exact ⟨_, Scan.bind_of_ok (Scan.accept_missing hn), .dropWhile _ _⟩
  | some h =>
    obtain ⟨between, h₁, h₂⟩ := required_of_marked (by decide) h ha.endsToken
    exact ⟨_, (Scan.bind_of_ok h₁).trans (Scan.bind_of_ok h₂), .refl _ _⟩

theorem divisorText_of_divisor (h : divisor (ask text position) = .ok divided behind) :
    ∃ used rest, text = used ++ rest ∧ DivisorText used divided rest ∧
      Ahead rest (position + used.length) behind := by
  obtain ⟨found, between, h₁, h⟩ := Scan.bind_ok h
  cases found with
  | true =>
    obtain ⟨v, _, h₂, h⟩ := Scan.bind_ok h
    cases h
    obtain ⟨used, rest, rfl, hm, rfl⟩ := marked_of_required h₁ h₂
    exact ⟨used, rest, rfl, .some hm, .refl _ _⟩
  | false =>
    cases h
    obtain ⟨gap, rest, rfl, hg, rfl, _⟩ := Scan.accept_missed h₁
    exact ⟨[], gap ++ rest, rfl, .none, .of_gap hg (.refl _ _)⟩

theorem sequential_divisor : Sequential divisor text position := by
  refine (Scan.sequential_accept _).bind ?_
  intro found _ _ _ _
  cases found with
  | true => exact sequential_requiredNumber.bind fun _ _ _ _ _ => Scan.sequential_pure _
  | false => exact Scan.sequential_pure none

theorem onlyFaults_divisor :
    OnlyFaults Fault.OfNumber (divisor : Scan (List Char) (Option Float)) := by
  refine .bind (Scan.onlyFaults_accept '/') ?_
  intro found
  cases found with
  | true => exact .bind onlyFaults_requiredNumber fun _ => Scan.onlyFaults_pure _
  | false => exact Scan.onlyFaults_pure none

/-! ## The factor of a group -/

variable {leading trailing factor : Option Float}

theorem startsFactor_next (h : AfterOperand text) : startsFactor (next text) = false := by
  cases hn : next text with
  | none => rfl
  | some c => rcases h c hn with rfl | rfl | rfl | rfl <;> decide

theorem trailingFactor_trailText (h : TrailText text trailing following)
    (ha : AfterOperand following) :
    ∃ behind, trailingFactor (ask (text ++ following) position) = .ok trailing behind ∧
      Ahead following (position + text.length) behind := by
  cases h with
  | none =>
    refine ⟨_, (Scan.bind_of_ok (Scan.accept_missing (ha.next_ne (by decide)))).trans ?_,
      .dropWhile _ _⟩
    have hf : startsFactor (following.dropWhile Text.isBlank).head? = false :=
      startsFactor_next ha
    refine (Scan.bind_of_ok Scan.current_ask).trans (Scan.of_eq (pure none) (if_neg ?_) rfl)
    rw [hf]
    exact Bool.false_ne_true
  | starred h =>
    obtain ⟨between, h₁, h₂⟩ := required_of_marked (by decide) h ha.endsToken
    exact ⟨_, (Scan.bind_of_ok h₁).trans (Scan.bind_of_ok h₂), .refl _ _⟩
  | @plain gap token _ value hg ht hf =>
    have hstop := isBlank_of_mem_head ht.1 following
    obtain ⟨first, others, hh, _⟩ := ht.1.head
    have hn : next (gap ++ (token ++ following)) = some first := by
      rw [hh, List.cons_append, next_gap_cons hg (hstop first (by rw [hh]; rfl))]
    have hne : next (gap ++ (token ++ following)) ≠ some '*' := by
      rw [hn]
      intro e
      cases e
      rw [hh] at hf
      cases hf
    refine ⟨ask following (position + (gap ++ token).length), ?_, .refl _ _⟩
    rw [List.append_assoc]
    refine (Scan.bind_of_ok (Scan.accept_missing hne)).trans ?_
    rw [takeWhile_run hg hstop, dropWhile_run hg hstop]
    refine (Scan.bind_of_ok Scan.current_ask).trans
      (Scan.of_eq (Number.scan true) (if_pos ?_) ?_)
    · rw [hh] at hf ⊢
      exact hf
    · rw [Number.scan_numberText ht.1 ha.endsToken.startsFactor_eq_false
        ha.endsToken.isMarker_eq_false, List.length_append, Nat.add_assoc]

theorem trailText_of_trailingFactor
    (h : trailingFactor (ask text position) = .ok trailing behind) :
    ∃ used rest, text = used ++ rest ∧ TrailText used trailing rest ∧
      Ahead rest (position + used.length) behind := by
  obtain ⟨found, between, h₁, h⟩ := Scan.bind_ok h
  cases found with
  | true =>
    obtain ⟨v, _, h₂, h⟩ := Scan.bind_ok h
    cases h
    obtain ⟨used, rest, rfl, hm, rfl⟩ := marked_of_required h₁ h₂
    exact ⟨used, rest, rfl, .starred hm, .refl _ _⟩
  | false =>
    obtain ⟨gap, rest, rfl, hg, rfl, _⟩ := Scan.accept_missed h₁
    obtain ⟨current, _, h₂, h⟩ := Scan.bind_ok h
    obtain ⟨rfl, rfl⟩ := Scan.current_ok h₂
    rw [Cursor.current_ask] at h
    split at h
    · rename_i hf
      cases trailing with
      | none =>
        obtain rfl := Number.none_of_scan h
        exact ⟨[], gap ++ rest, rfl, .none, .of_gap hg (.refl _ _)⟩
      | some v =>
        obtain ⟨token, last, rfl, rfl, ht⟩ := Number.numberToken_of_scan h
        obtain ⟨first, others, rfl, _⟩ := ht.1.head
        refine ⟨gap ++ first :: others, last, by rw [List.append_assoc], .plain hg ht hf, ?_⟩
        rw [List.length_append, ← Nat.add_assoc]
        exact .refl _ _
    · cases h
      exact ⟨[], gap ++ rest, rfl, .none, .of_gap hg (.refl _ _)⟩

theorem groupFactor_trailText (h : TrailText text trailing following)
    (hone : leading = none ∨ trailing = none) (ha : AfterOperand following) :
    ∃ behind, groupFactor leading (ask (text ++ following) position) =
        .ok (leading.or trailing) behind ∧
      Ahead following (position + text.length) behind := by
  cases leading with
  | none => exact trailingFactor_trailText h ha
  | some v =>
    obtain rfl : trailing = none := by simpa using hone
    cases h
    exact ⟨_, rfl, .refl _ _⟩

theorem trailText_of_groupFactor (h : groupFactor leading (ask text position) = .ok factor behind) :
    ∃ used trailing rest, text = used ++ rest ∧ TrailText used trailing rest ∧
      (leading = none ∨ trailing = none) ∧ factor = leading.or trailing ∧
      Ahead rest (position + used.length) behind := by
  cases leading with
  | none =>
    obtain ⟨used, rest, ht, htrail, hb⟩ := trailText_of_trailingFactor h
    exact ⟨used, factor, rest, ht, htrail, .inl rfl, rfl, hb⟩
  | some v =>
    cases h
    exact ⟨[], none, text, rfl, .none, .inr rfl, rfl, .refl _ _⟩

theorem sequential_trailingFactor : Sequential trailingFactor text position := by
  refine (Scan.sequential_accept _).bind ?_
  intro found _ _ _ _
  cases found with
  | true => exact sequential_requiredNumber.bind fun _ _ _ _ _ => Scan.sequential_pure _
  | false =>
    refine .bind_current ?_
    split
    · exact Number.sequential_scan
    · exact Scan.sequential_pure none

theorem sequential_groupFactor : Sequential (groupFactor leading) text position := by
  cases leading with
  | none => exact sequential_trailingFactor
  | some v => exact Scan.sequential_pure _

theorem onlyFaults_groupFactor :
    OnlyFaults Fault.OfNumber (groupFactor leading : Scan (List Char) (Option Float)) := by
  cases leading with
  | some v => exact Scan.onlyFaults_pure _
  | none =>
    refine .bind (Scan.onlyFaults_accept '*') ?_
    intro found
    cases found with
    | true => exact .bind onlyFaults_requiredNumber fun _ => Scan.onlyFaults_pure _
    | false =>
      refine .bind Scan.onlyFaults_current ?_
      intro current
      split
      · exact Number.onlyFaults_scan
      · exact Scan.onlyFaults_pure none

/-! ## The number in front -/

/-- What a factor in front applies to starts with a parenthesis or a name. -/
def StartsOperand (text : List Char) : Prop :=
  ∃ c others, text = c :: others ∧ (c = '(' ∨ Text.isNameStart c = true)

variable {blanks lead gap operand token : List Char}

theorem startsOperand_name (h : NameText token) (text : List Char) :
    StartsOperand (token ++ text) := by
  obtain ⟨first, others, rfl, hf, _⟩ := h
  exact ⟨first, others ++ text, rfl, .inr hf⟩

theorem StartsOperand.isBlank_eq_false (h : StartsOperand operand) :
    ∀ c, operand.head? = some c → Text.isBlank c = false := by
  obtain ⟨first, others, rfl, hf⟩ := h
  intro c hc
  cases hc
  rcases hf with rfl | hf
  · decide
  · exact isBlank_of_isNameStart hf

theorem StartsOperand.startsFactor_eq_false (h : StartsOperand operand) :
    startsFactor operand.head? = false := by
  obtain ⟨first, others, rfl, hf⟩ := h
  rcases hf with rfl | hf
  · rfl
  · exact startsFactor_of_isNameStart hf

theorem StartsOperand.head?_ne (h : StartsOperand operand) {c : Char} (hc : c ≠ '(')
    (hn : Text.isNameStart c = false) : operand.head? ≠ some c := by
  obtain ⟨first, others, rfl, hf⟩ := h
  intro e
  cases e
  rcases hf with rfl | hf
  · exact hc rfl
  · rw [hn] at hf
    cases hf

theorem StartsOperand.next_eq (h : StartsOperand operand) (hg : IsBlanks gap) :
    next (gap ++ operand) = operand.head? := by
  obtain ⟨first, others, rfl, _⟩ := id h
  exact next_gap_cons hg (h.isBlank_eq_false first rfl) others

/-- The steps up to an operand: blanks, a number, and a star. -/
def Leads (start : Cursor (List Char)) (leading : Option Float) (star : Bool)
    (behind : Cursor (List Char)) : Prop :=
  ∃ opened between, Scan.skipBlanks start = .ok () opened ∧
    Number.scan false opened = .ok leading between ∧ starred leading between = .ok star behind

theorem place_starred (token space : List Char) (place : Nat) :
    place + (token ++ space ++ ['*']).length = place + token.length + space.length + 1 := by
  simp only [List.length_append, List.length_singleton]
  omega

theorem lead_numeral (position : Nat) (hb : IsBlanks blanks) (h : NumeralText token value)
    (hf : startsFactor following.head? = false) (hn : next following ≠ some '*') :
    ∃ behind, Leads (ask (blanks ++ (token ++ following)) position) (some value) false behind ∧
      Ahead following (position + blanks.length + token.length) behind := by
  have hstop := isBlank_of_mem_head (.plain h) following
  refine ⟨_, ⟨_, _, Scan.skipBlanks_ask, ?_, Scan.accept_missing hn⟩, .dropWhile _ _⟩
  rw [takeWhile_run hb hstop, dropWhile_run hb hstop]
  exact Number.scan_numeralText h hf rfl

theorem lead_leadText (position : Nat) (hb : IsBlanks blanks)
    (h : LeadText lead leading (gap ++ operand)) (hg : IsBlanks gap) (ho : StartsOperand operand) :
    ∃ star behind,
      Leads (ask (blanks ++ (lead ++ (gap ++ operand))) position) leading star behind ∧
      Ahead (gap ++ operand) (position + blanks.length + lead.length) behind := by
  have hf := startsFactor_gap hg ho.startsFactor_eq_false
  cases h with
  | none =>
    have hall := hb.append hg
    have hstop := ho.isBlank_eq_false
    refine ⟨false, _, ⟨_, _, Scan.skipBlanks_ask, ?_, rfl⟩, gap, operand, rfl, hg, rfl⟩
    rw [List.nil_append, ← List.append_assoc, takeWhile_run hall hstop, dropWhile_run hall hstop,
      List.length_append, ← Nat.add_assoc]
    exact Number.scan_none (ho.head?_ne (by decide) (by decide))
      (ho.head?_ne (by decide) (by decide)) ho.startsFactor_eq_false
  | number ht =>
    have hn : next (gap ++ operand) ≠ some '*' := by
      rw [ho.next_eq hg]
      exact ho.head?_ne (by decide) (by decide)
    exact ⟨false, lead_numeral position hb ht.1 hf hn⟩
  | @starred token space _ value ht hs =>
    have hstop := isBlank_of_mem_head (.plain ht.1) (space ++ '*' :: (gap ++ operand))
    refine ⟨true,
      ask (gap ++ operand) (position + blanks.length + (token ++ space ++ ['*']).length),
      ⟨_, ask (space ++ '*' :: (gap ++ operand)) (position + blanks.length + token.length),
        Scan.skipBlanks_ask, ?_, ?_⟩, .refl _ _⟩
    · rw [List.append_assoc, List.append_assoc, List.singleton_append, takeWhile_run hb hstop,
        dropWhile_run hb hstop]
      exact Number.scan_numeralText ht.1 (startsFactor_gap hs rfl) rfl
    · rw [place_starred]
      exact Scan.accept_gap hs (by decide)

theorem leadText_of_scan {star : Bool} (h : Leads (ask text position) leading star behind) :
    ∃ blanks lead rest, text = blanks ++ (lead ++ rest) ∧ IsBlanks blanks ∧
      LeadText lead leading rest ∧ Ahead rest (position + blanks.length + lead.length) behind ∧
      ∀ value, leading = some value → star = false → NumeralToken lead value rest := by
  obtain ⟨opened, between, h₁, h₂, h₃⟩ := h
  obtain ⟨blanks, rest, rfl, hb, rfl, _⟩ := Scan.skipped h₁
  cases leading with
  | none =>
    cases h₃
    obtain rfl := Number.none_of_scan h₂
    exact ⟨blanks, [], rest, rfl, hb, .none, .refl _ _, by simp⟩
  | some v =>
    obtain ⟨token, last, rfl, rfl, ht⟩ := Number.numeralToken_of_scan h₂
    cases star with
    | true =>
      obtain ⟨space, others, rfl, hs, rfl⟩ := Scan.accept_found h₃
      refine ⟨blanks, token ++ space ++ ['*'], others, ?_, hb, .starred ht hs, ?_, by simp⟩
      · rw [List.append_assoc, List.append_assoc, List.singleton_append]
      · rw [place_starred]
        exact .refl _ _
    | false =>
      obtain ⟨space, others, rfl, hs, rfl, _⟩ := Scan.accept_missed h₃
      refine ⟨blanks, token, space ++ others, rfl, hb, .number ht, .of_gap hs (.refl _ _), ?_⟩
      intro value hv _
      cases hv
      exact ht

theorem sequential_starred : Sequential (starred leading) text position := by
  cases leading with
  | none => exact Scan.sequential_pure false
  | some v => exact Scan.sequential_accept _

theorem onlyFaults_starred {kind : Fault → Prop} :
    OnlyFaults kind (starred leading : Scan (List Char) Bool) := by
  cases leading with
  | none => exact Scan.onlyFaults_pure false
  | some v => exact Scan.onlyFaults_accept '*'

end Marksheet.Formula
