import Marksheet.Proofs.Grammar.Tokens

/-!
# Marksheet.Proofs.Grammar.Terms

The grammar of formulas, apart from how one is read. A derivation relates a text, the term that it
writes, and the characters that follow it; these count because every token is as long as possible.

* `TermText`, `ListText`, `EnclosedText` : terms, lists of them, and lists up to a parenthesis.
* `FormulaText` : whole formulas.
* `TermText.before`, `ListText.before` : a derivation holds in front of anything that can follow a
  term (`AfterTerm`), whatever followed it first.
-/

namespace Marksheet

/-- A term as it is written. The factor is the number in front of it or, for a group, behind it. -/
inductive Term where
  | number (factor : Float) (divisor : Option Float)
  | name (factor : Option Float) (name : String) (divisor : Option Float)
  | group (factor : Option Float) (members : List Term) (divisor : Option Float)
  | call (factor : Option Float) (function : String) (arguments : List Term)
      (divisor : Option Float)

namespace Grammar

open Formula (startsFactor)
open Number (isMarker)

/-- A number in front of an operand, and a star behind it. -/
inductive LeadText : List Char → Option Float → List Char → Prop where
  | none {following : List Char} : LeadText [] none following
  | number {token following : List Char} {value : Float} :
      NumeralToken token value following → LeadText token (some value) following
  | starred {token gap following : List Char} {value : Float} :
      NumeralToken token value (gap ++ '*' :: following) → IsBlanks gap →
      LeadText (token ++ gap ++ ['*']) (some value) following

inductive MarkedNumber (symbol : Char) : List Char → Float → List Char → Prop where
  | mk {gap space token following : List Char} {value : Float} :
      IsBlanks gap → IsBlanks space → NumberToken token value following →
      MarkedNumber symbol (gap ++ symbol :: (space ++ token)) value following

inductive DivisorText : List Char → Option Float → List Char → Prop where
  | none {following : List Char} : DivisorText [] none following
  | some {text following : List Char} {value : Float} :
      MarkedNumber '/' text value following → DivisorText text (some value) following

/-- The factor behind a group. Without a star it starts with a digit or a point. -/
inductive TrailText : List Char → Option Float → List Char → Prop where
  | none {following : List Char} : TrailText [] none following
  | starred {text following : List Char} {value : Float} :
      MarkedNumber '*' text value following → TrailText text (some value) following
  | plain {gap token following : List Char} {value : Float} :
      IsBlanks gap → NumberToken token value following → startsFactor token.head? = true →
      TrailText (gap ++ token) (some value) following

mutual

inductive TermText : List Char → Term → List Char → Prop where
  | number {blanks token divided following : List Char} {value : Float} {divisor : Option Float} :
      IsBlanks blanks → NumeralToken token value (divided ++ following) →
      DivisorText divided divisor following →
      TermText (blanks ++ (token ++ divided)) (.number value divisor) following
  | name {blanks lead gap token divided following : List Char} {factor divisor : Option Float} :
      IsBlanks blanks → LeadText lead factor (gap ++ (token ++ (divided ++ following))) →
      IsBlanks gap → NameToken token (divided ++ following) →
      DivisorText divided divisor following →
      TermText (blanks ++ (lead ++ (gap ++ (token ++ divided))))
        (.name factor (String.ofList token) divisor) following
  | group {blanks lead gap inner trail divided following : List Char}
      {leading trailing divisor : Option Float} {members : List Term} :
      IsBlanks blanks →
      LeadText lead leading (gap ++ '(' :: (inner ++ (trail ++ (divided ++ following)))) →
      IsBlanks gap → EnclosedText '+' inner members (trail ++ (divided ++ following)) →
      TrailText trail trailing (divided ++ following) → leading = none ∨ trailing = none →
      DivisorText divided divisor following →
      TermText (blanks ++ (lead ++ (gap ++ '(' :: (inner ++ (trail ++ divided)))))
        (.group (leading.or trailing) members divisor) following
  | call {blanks lead gap token inner divided following : List Char}
      {factor divisor : Option Float} {arguments : List Term} :
      IsBlanks blanks →
      LeadText lead factor (gap ++ (token ++ '(' :: (inner ++ (divided ++ following)))) →
      IsBlanks gap → NameToken token ('(' :: (inner ++ (divided ++ following))) →
      EnclosedText ',' inner arguments (divided ++ following) →
      DivisorText divided divisor following →
      TermText (blanks ++ (lead ++ (gap ++ (token ++ '(' :: (inner ++ divided)))))
        (.call factor (String.ofList token) arguments divisor) following

/-- Terms with a separator between them. -/
inductive ListText : Char → List Char → List Term → List Char → Prop where
  | one {separator : Char} {text following : List Char} {term : Term} :
      TermText text term following → ListText separator text [term] following
  | more {separator : Char} {text gap texts following : List Char} {term : Term}
      {terms : List Term} :
      TermText text term (gap ++ separator :: (texts ++ following)) → IsBlanks gap →
      ListText separator texts terms following →
      ListText separator (text ++ (gap ++ separator :: texts)) (term :: terms) following

/-- Terms up to a closing parenthesis, this included. -/
inductive EnclosedText : Char → List Char → List Term → List Char → Prop where
  | closed {separator : Char} {items gap following : List Char} {terms : List Term} :
      ListText separator items terms (gap ++ ')' :: following) → IsBlanks gap →
      EnclosedText separator (items ++ (gap ++ [')'])) terms following

end

/-- The text of a formula: a sum of terms, and blanks. -/
def FormulaText (text : List Char) (terms : List Term) : Prop :=
  ∃ sum blanks, text = sum ++ blanks ∧ ListText '+' sum terms blanks ∧ IsBlanks blanks

/-! ## What follows a token -/

def next (text : List Char) : Option Char := (text.dropWhile Text.isBlank).head?

/-- Only these can stand behind a term, blanks apart. -/
def AfterTerm (text : List Char) : Prop :=
  ∀ c, next text = some c → c = '+' ∨ c = ',' ∨ c = ')'

/-- The same for what a factor applies to, behind which a divisor may stand as well. -/
def AfterOperand (text : List Char) : Prop :=
  ∀ c, next text = some c → c = '/' ∨ c = '+' ∨ c = ',' ∨ c = ')'

/-- No name and no number goes on with the first character. -/
def EndsToken (text : List Char) : Prop :=
  ∀ c, text.head? = some c → Text.isNameChar c = false ∧ c ≠ '.'

theorem isNameChar_of_isDigit {c : Char} (h : c.isDigit = true) : Text.isNameChar c = true := by
  have hlt : c.val < 0x80 := by
    simp only [Char.isDigit, Bool.and_eq_true, decide_eq_true_eq] at h
    exact UInt32.lt_of_le_of_lt h.2 (by decide)
  simp [Text.isNameChar, Text.isNumeric, hlt, h]

theorem isNameChar_of_isMarker {c : Char} (h : isMarker (some c) = true) :
    Text.isNameChar c = true := by
  rcases isMarker_eq_true h with rfl | rfl <;> decide

def blankCodes : List Nat :=
  [9, 10, 11, 12, 13, 0x20, 0x85, 0xA0, 0x1680, 0x2000, 0x2001, 0x2002, 0x2003, 0x2004, 0x2005,
   0x2006, 0x2007, 0x2008, 0x2009, 0x200A, 0x2028, 0x2029, 0x202F, 0x205F, 0x3000]

theorem mem_blankCodes {c : Char} (h : Text.isBlank c = true) : c.toNat ∈ blankCodes := by
  simp only [Text.isBlank, Bool.or_eq_true, Bool.and_eq_true, decide_eq_true_eq, beq_iff_eq] at h
  simp only [blankCodes, List.mem_cons, List.not_mem_nil, or_false]
  omega

theorem isNameChar_of_isBlank {c : Char} (h : Text.isBlank c = true) :
    Text.isNameChar c = false := by
  have hall : ∀ code ∈ blankCodes, Text.isNameChar (Char.ofNat code) = false := by
    decide +kernel
  rw [← Char.ofNat_toNat c]
  exact hall _ (mem_blankCodes h)

theorem next_append {gap : List Char} (h : IsBlanks gap) (text : List Char) :
    next (gap ++ text) = next text := by
  rw [next, next, List.dropWhile_append_of_pos h]

theorem next_cons {c : Char} (h : Text.isBlank c = false) (text : List Char) :
    next (c :: text) = some c := by
  rw [next, List.dropWhile_cons, h]
  rfl

theorem next_gap_cons {gap : List Char} {c : Char} (hg : IsBlanks gap)
    (hc : Text.isBlank c = false) (text : List Char) : next (gap ++ c :: text) = some c := by
  rw [next_append hg, next_cons hc]

theorem EndsToken.startsFactor_eq_false {text : List Char} (h : EndsToken text) :
    startsFactor text.head? = false := by
  cases text with
  | nil => rfl
  | cons c text =>
    obtain ⟨hn, hp⟩ := h c rfl
    have hd : c.isDigit = false := by
      cases hd : c.isDigit with
      | false => rfl
      | true => rw [isNameChar_of_isDigit hd] at hn; cases hn
    simp [startsFactor, hd, hp]

theorem EndsToken.isMarker_eq_false {text : List Char} (h : EndsToken text) :
    isMarker text.head? = false := by
  cases text with
  | nil => rfl
  | cons c text =>
    cases hm : isMarker (List.head? (c :: text)) with
    | false => rfl
    | true =>
      have hn := (h c rfl).1
      rw [isNameChar_of_isMarker hm] at hn
      cases hn

theorem EndsToken.isNameChar_eq_false {text : List Char} (h : EndsToken text) {c : Char}
    (hc : text.head? = some c) : Text.isNameChar c = false := (h c hc).1

/-- The symbols of the grammar end every token. -/
theorem endsToken_symbol {c : Char} (hc : c ∈ ['+', ',', ')', '(', '*', '/']) (text : List Char) :
    EndsToken (c :: text) := by
  intro d hd
  cases hd
  simp only [List.mem_cons, List.not_mem_nil, or_false] at hc
  rcases hc with rfl | rfl | rfl | rfl | rfl | rfl <;> decide +kernel

theorem endsToken_blank {c : Char} (h : Text.isBlank c = true) (text : List Char) :
    EndsToken (c :: text) := by
  intro d hd
  cases hd
  exact ⟨isNameChar_of_isBlank h, fun e => by subst e; revert h; decide⟩

theorem AfterTerm.afterOperand {text : List Char} (h : AfterTerm text) : AfterOperand text :=
  fun c hc => .inr (h c hc)

theorem AfterOperand.endsToken {text : List Char} (h : AfterOperand text) : EndsToken text := by
  intro c hc
  cases text with
  | nil => cases hc
  | cons d text =>
    cases hc
    cases hb : Text.isBlank c with
    | true => exact endsToken_blank hb text c rfl
    | false =>
      refine endsToken_symbol ?_ text c rfl
      rcases h c (next_cons hb text) with rfl | rfl | rfl | rfl <;> decide

theorem AfterTerm.endsToken {text : List Char} (h : AfterTerm text) : EndsToken text :=
  h.afterOperand.endsToken

theorem AfterOperand.next_ne {text : List Char} (h : AfterOperand text) {c : Char}
    (hc : c ∉ ['/', '+', ',', ')']) : next text ≠ some c := by
  intro hn
  have hm := h c hn
  simp only [List.mem_cons, List.not_mem_nil, or_false] at hc
  exact hc hm

theorem afterTerm_blanks {text : List Char} (h : IsBlanks text) : AfterTerm text := by
  intro c hc
  rw [← List.append_nil text, next_append h] at hc
  cases hc

theorem afterTerm_gap {gap : List Char} {c : Char} (hg : IsBlanks gap)
    (hc : c = '+' ∨ c = ',' ∨ c = ')') (text : List Char) : AfterTerm (gap ++ c :: text) := by
  intro d hd
  have hb : Text.isBlank c = false := by rcases hc with rfl | rfl | rfl <;> decide
  rw [next_gap_cons hg hb] at hd
  cases hd
  exact hc

theorem not_isNameStart_of_isDigit {c : Char} (h : c.isDigit = true) :
    Text.isNameStart c = false := by
  have hall : ∀ code ∈ List.range' 48 10, Text.isNameStart (Char.ofNat code) = false := by
    decide +kernel
  rw [← Char.ofNat_toNat c]
  refine hall _ ?_
  simp only [Char.isDigit, Bool.and_eq_true, decide_eq_true_eq] at h
  have h₁ : 48 ≤ c.toNat := UInt32.le_iff_toNat_le.mp h.1
  have h₂ : c.toNat ≤ 57 := UInt32.le_iff_toNat_le.mp h.2
  simp only [List.mem_range'_1]
  omega

theorem startsFactor_of_isNameStart {c : Char} (h : Text.isNameStart c = true) :
    startsFactor (some c) = false := by
  have hd : c.isDigit = false := by
    cases hd : c.isDigit with
    | false => rfl
    | true => rw [not_isNameStart_of_isDigit hd] at h; cases h
  have hp : c ≠ '.' := fun e => by subst e; revert h; decide
  simp [startsFactor, hd, hp]

theorem NameText.startsFactor_eq_false {token : List Char} (h : NameText token)
    (text : List Char) : startsFactor (token ++ text).head? = false := by
  obtain ⟨first, others, rfl, hf, _⟩ := h
  exact startsFactor_of_isNameStart hf

theorem startsFactor_gap {gap text : List Char} (hg : IsBlanks gap)
    (h : startsFactor text.head? = false) : startsFactor (gap ++ text).head? = false := by
  cases gap with
  | nil => exact h
  | cons c gap =>
    exact (endsToken_blank (hg c List.mem_cons_self) (gap ++ text)).startsFactor_eq_false

/-! ## Another text behind -/

section Before

variable {text following other : List Char}

theorem LeadText.before {factor : Option Float} (h : LeadText text factor following)
    (ho : startsFactor other.head? = false) : LeadText text factor other := by
  cases h with
  | none => exact .none
  | number ht => exact .number (maximal_numeral ht.1 ho)
  | starred ht hg =>
    refine .starred (maximal_numeral ht.1 ?_) hg
    exact startsFactor_gap hg rfl

theorem MarkedNumber.before {symbol : Char} {value : Float}
    (h : MarkedNumber symbol text value following) (ho : EndsToken other) :
    MarkedNumber symbol text value other := by
  cases h with
  | mk hg hs ht =>
    exact .mk hg hs (maximal_number ht.1 ho.startsFactor_eq_false ho.isMarker_eq_false)

theorem DivisorText.before {divisor : Option Float} (h : DivisorText text divisor following)
    (ho : EndsToken other) : DivisorText text divisor other := by
  cases h with
  | none => exact .none
  | some h => exact .some (h.before ho)

theorem TrailText.before {factor : Option Float} (h : TrailText text factor following)
    (ho : EndsToken other) : TrailText text factor other := by
  cases h with
  | none => exact .none
  | starred h => exact .starred (h.before ho)
  | plain hg ht hf =>
    exact .plain hg (maximal_number ht.1 ho.startsFactor_eq_false ho.isMarker_eq_false) hf

theorem NameToken.before (h : NameToken text following) (ho : EndsToken other) :
    NameToken text other :=
  maximal_name h.1 fun _ => ho.isNameChar_eq_false

/-- A divisor, or what stands in its place, ends the part in front of it. -/
theorem DivisorText.afterOperand {divisor : Option Float} (h : DivisorText text divisor following)
    (ho : AfterTerm other) : AfterOperand (text ++ other) := by
  cases h with
  | none => exact ho.afterOperand
  | some h =>
    cases h with
    | mk hg _ _ =>
      intro c hc
      rw [List.append_assoc, List.cons_append, next_gap_cons hg (by decide)] at hc
      cases hc
      exact .inl rfl

theorem DivisorText.endsToken {divisor : Option Float} (h : DivisorText text divisor following)
    (ho : AfterTerm other) : EndsToken (text ++ other) :=
  (h.afterOperand ho).endsToken

/-- A closing parenthesis ends a list, whatever stands behind it. -/
theorem EnclosedText.before {separator : Char} {terms : List Term}
    (hl : ∀ {items after : List Char}, ListText separator items terms after →
      ∀ {other : List Char}, AfterTerm other → ListText separator items terms other)
    (h : EnclosedText separator text terms following) :
    EnclosedText separator text terms other := by
  cases h with
  | closed hi hg => exact .closed (hl hi (afterTerm_gap hg (.inr (.inr rfl)) _)) hg

mutual

/-- What is written of a term does not depend on what follows it, as long as that can follow a
term. -/
theorem TermText.before : (term : Term) → ∀ {text following other : List Char},
    TermText text term following → AfterTerm other → TermText text term other
  | .number _ _, text, following, other, h, ho => by
    cases h with
    | number hb ht hd =>
      have he := hd.endsToken ho
      exact .number hb (maximal_numeral ht.1 he.startsFactor_eq_false) (hd.before ho.endsToken)
  | .name _ _ _, text, following, other, h, ho => by
    cases h with
    | name hb hl hg ht hd =>
      refine .name hb (hl.before ?_) hg (ht.before (hd.endsToken ho)) (hd.before ho.endsToken)
      exact startsFactor_gap hg (ht.1.startsFactor_eq_false _)
  | .group _ members _, text, following, other, h, ho => by
    cases h with
    | group hb hl hg hi ht hlt hd =>
      refine .group hb (hl.before ?_) hg
        (hi.before fun h _ ho => ListText.before members (.inl rfl) h ho)
        (ht.before (hd.endsToken ho)) hlt (hd.before ho.endsToken)
      exact startsFactor_gap hg rfl
  | .call _ _ arguments _, text, following, other, h, ho => by
    cases h with
    | call hb hl hg ht hi hd =>
      refine .call hb (hl.before ?_) hg (ht.before (endsToken_symbol (by decide) _))
        (hi.before fun h _ ho => ListText.before arguments (.inr rfl) h ho)
        (hd.before ho.endsToken)
      exact startsFactor_gap hg (ht.1.startsFactor_eq_false _)

theorem ListText.before : (terms : List Term) → ∀ {separator : Char},
    separator = '+' ∨ separator = ',' → ∀ {text following other : List Char},
    ListText separator text terms following → AfterTerm other →
    ListText separator text terms other
  | [], separator, _, text, following, other, h, _ => by cases h
  | term :: terms, separator, hs, text, following, other, h, ho => by
    cases h with
    | one ht => exact .one (TermText.before term ht ho)
    | more ht hg hts =>
      exact .more (TermText.before term ht (afterTerm_gap hg (hs.imp_right .inl) _)) hg
        (ListText.before terms hs hts ho)

end

end Before

end Grammar

end Marksheet
