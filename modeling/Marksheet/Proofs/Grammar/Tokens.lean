import Marksheet.Formula.Grammar

/-!
# Marksheet.Proofs.Grammar.Tokens

The smallest parts of a formula's text, as sets of texts: runs of blanks, numerals, numbers with
exponents, and names. A token is always as long as possible (`Maximal`): no longer beginning of
what is written is of the same kind.

* `NumeralText`, `NumberText` : the texts of numbers, with their values.
* `NameText` : the texts of names.
* `maximal_numeral`, `maximal_number`, `maximal_name` : a token that stands in front of a character
  which cannot go on with it is as long as possible.
-/

namespace Marksheet

namespace Sign

def char : Sign → Char
  | .plus => '+'
  | .minus => '-'

end Sign

namespace Numeral

def signText (sign : Option Sign) : List Char := (sign.map Sign.char).toList

def fractionText : Option (List Char) → List Char
  | some digits => '.' :: digits
  | none => []

def text (numeral : Numeral) : List Char :=
  signText numeral.sign ++ (numeral.whole ++ fractionText numeral.fraction)

def IsDecimal (numeral : Numeral) : Prop := ∀ c ∈ numeral.digits, c.isDigit = true

end Numeral

namespace Grammar

open Formula (startsFactor)
open Number (isMarker)
open Numeral (signText fractionText)

/-- No longer beginning of `token` and what follows it is of the kind. -/
def Maximal (kind : List Char → Prop) (token following : List Char) : Prop :=
  ∀ longer, kind longer → longer <+: token ++ following → longer.length ≤ token.length

/-- A run of blanks, possibly empty. -/
def IsBlanks (text : List Char) : Prop := ∀ c ∈ text, Text.isBlank c = true

/-- An optional sign and digits, at least one, with at most one point among them. -/
def NumeralText (text : List Char) (value : Float) : Prop :=
  ∃ numeral : Numeral, numeral.IsDecimal ∧ numeral.text = text ∧ numeral.value? = some value

/-- A numeral, or two of them around a marker. -/
inductive NumberText : List Char → Float → Prop where
  | plain {text : List Char} {value : Float} : NumeralText text value → NumberText text value
  | scaled {mantissa exponent : List Char} {marker : Char} {value power : Float} :
      NumeralText mantissa value → isMarker (some marker) = true → NumeralText exponent power →
      NumberText (mantissa ++ marker :: exponent) (Number.scale value power)

/-- A letter or underscore with letters, numbers and underscores behind it. -/
def NameText (text : List Char) : Prop :=
  ∃ first others, text = first :: others ∧ Text.isNameStart first = true ∧
    ∀ c ∈ others, Text.isNameChar c = true

/-- A numeral that is as long as possible in front of `following`. -/
def NumeralToken (token : List Char) (value : Float) (following : List Char) : Prop :=
  NumeralText token value ∧ Maximal (fun text => ∃ v, NumeralText text v) token following

/-- A number, with or without an exponent, that is as long as possible in front of `following`. -/
def NumberToken (token : List Char) (value : Float) (following : List Char) : Prop :=
  NumberText token value ∧ Maximal (fun text => ∃ v, NumberText text v) token following

/-- A name that is as long as possible in front of `following`. -/
def NameToken (token following : List Char) : Prop :=
  NameText token ∧ Maximal NameText token following

theorem isBlanks_nil : IsBlanks [] := by
  intro c hc
  cases hc

theorem IsBlanks.append {blanks more : List Char} (h : IsBlanks blanks) (hm : IsBlanks more) :
    IsBlanks (blanks ++ more) := by
  intro c hc
  rcases List.mem_append.mp hc with hc | hc
  · exact h c hc
  · exact hm c hc

/-! ## Characters of a number -/

/-- Behind its first character a numeral has only digits and points. -/
theorem digit_or_point_of_mem_tail {numeral : Numeral} (hd : numeral.IsDecimal) {c : Char}
    (h : c ∈ numeral.text.tail) : startsFactor (some c) = true := by
  obtain ⟨sign, whole, fraction⟩ := numeral
  have hc : c ∈ whole ∨ c = '.' ∨ c ∈ fraction.getD [] := by
    cases sign with
    | some s =>
      cases fraction with
      | some digits => simpa [Numeral.text, signText, fractionText] using h
      | none => exact .inl (by simpa [Numeral.text, signText, fractionText] using h)
    | none =>
      cases fraction with
      | some digits => simpa [Numeral.text, signText, fractionText] using List.mem_of_mem_tail h
      | none =>
        exact .inl (by simpa [Numeral.text, signText, fractionText] using List.mem_of_mem_tail h)
  have hdig : c ∈ whole ∨ c ∈ fraction.getD [] → c.isDigit = true := by
    intro hm
    exact hd c (by simpa [Numeral.digits] using hm)
  rcases hc with hc | rfl | hc
  · simp [startsFactor, hdig (.inl hc)]
  · rfl
  · simp [startsFactor, hdig (.inr hc)]

theorem NumeralText.head {text : List Char} {value : Float} (h : NumeralText text value) :
    ∃ c others, text = c :: others ∧ (c = '+' ∨ c = '-' ∨ startsFactor (some c) = true) := by
  obtain ⟨⟨sign, whole, fraction⟩, hd, rfl, hv⟩ := h
  cases sign with
  | some sign =>
    cases sign with
    | plus => exact ⟨'+', _, rfl, .inl rfl⟩
    | minus => exact ⟨'-', _, rfl, .inr (.inl rfl)⟩
  | none =>
    cases whole with
    | cons c whole =>
      have hc : c.isDigit = true := hd c List.mem_cons_self
      exact ⟨c, _, rfl, .inr (.inr (by simp [startsFactor, hc]))⟩
    | nil =>
      cases fraction with
      | some digits => exact ⟨'.', _, rfl, .inr (.inr rfl)⟩
      | none => cases hv

theorem NumeralText.ne_nil {text : List Char} {value : Float} (h : NumeralText text value) :
    text ≠ [] := by
  obtain ⟨c, others, rfl, _⟩ := h.head
  exact List.cons_ne_nil c others

theorem NumberText.head {text : List Char} {value : Float} (h : NumberText text value) :
    ∃ c others, text = c :: others ∧ (c = '+' ∨ c = '-' ∨ startsFactor (some c) = true) := by
  cases h with
  | plain h => exact h.head
  | scaled h _ _ =>
    obtain ⟨c, others, rfl, hc⟩ := h.head
    exact ⟨c, _, rfl, hc⟩

theorem NumeralText.startsFactor_of_mem_tail {text : List Char} {value : Float}
    (h : NumeralText text value) {c : Char} (hc : c ∈ text.tail) :
    startsFactor (some c) = true := by
  obtain ⟨numeral, hd, rfl, _⟩ := h
  exact digit_or_point_of_mem_tail hd hc

theorem isMarker_eq_true {c : Char} (h : isMarker (some c) = true) : c = 'e' ∨ c = 'E' := by
  simpa [isMarker] using h

theorem exists_of_isMarker {text : List Char} (h : isMarker text.head? = true) :
    ∃ marker rest, text = marker :: rest := by
  cases text with
  | nil => cases h
  | cons marker rest => exact ⟨marker, rest, rfl⟩

theorem startsFactor_eq_false_of_isMarker {c : Char} (h : isMarker (some c) = true) :
    startsFactor (some c) = false := by
  rcases isMarker_eq_true h with rfl | rfl <;> decide

theorem NumeralText.marker_not_mem {text : List Char} {value : Float} (h : NumeralText text value)
    {c : Char} (hm : isMarker (some c) = true) : c ∉ text := by
  intro hc
  have hf := startsFactor_eq_false_of_isMarker hm
  obtain ⟨first, others, rfl, hfirst⟩ := h.head
  rcases List.mem_cons.mp hc with rfl | hc
  · rcases hfirst with rfl | rfl | hs
    · exact absurd hm (by decide)
    · exact absurd hm (by decide)
    · rw [hs] at hf; cases hf
  · rw [h.startsFactor_of_mem_tail hc] at hf
    cases hf

/-! ## As long as possible -/

/-- A longer beginning takes in the first of the following characters. -/
theorem exists_of_longer {longer token following : List Char} (h : longer <+: token ++ following)
    (hl : token.length < longer.length) :
    ∃ x more, longer = token ++ x :: more ∧ following.head? = some x := by
  obtain ⟨rest, hr⟩ := h
  rcases List.append_eq_append_iff.mp hr with ⟨more, ht, _⟩ | ⟨more, hlonger, hf⟩
  · rw [ht, List.length_append] at hl
    omega
  · cases more with
    | nil =>
      rw [hlonger, List.append_nil] at hl
      omega
    | cons x more =>
      exact ⟨x, more, hlonger, by rw [hf]; rfl⟩

theorem mem_tail_append {token more : List Char} {x : Char} (h : token ≠ []) :
    x ∈ (token ++ x :: more).tail := by
  rw [List.tail_append_of_ne_nil h]
  simp

theorem maximal_numeral {token following : List Char} {value : Float} (h : NumeralText token value)
    (hf : startsFactor following.head? = false) : NumeralToken token value following := by
  refine ⟨h, ?_⟩
  intro longer hl hp
  refine Nat.le_of_not_lt ?_
  intro hlt
  obtain ⟨x, more, rfl, hx⟩ := exists_of_longer hp hlt
  obtain ⟨v, hv⟩ := hl
  rw [hx, hv.startsFactor_of_mem_tail (mem_tail_append h.ne_nil)] at hf
  cases hf

/-- Two texts with one marker each agree part by part. -/
theorem split_at_marker {m m' e e' : List Char} {k k' : Char} (hk : k ∉ m') (hk' : k' ∉ m)
    (h : m ++ k :: e = m' ++ k' :: e') : e = e' := by
  rcases List.append_eq_append_iff.mp h with ⟨more, hm, he⟩ | ⟨more, hm, he⟩
  · cases more with
    | nil => simpa using (List.cons.inj he).2
    | cons c more =>
      obtain ⟨rfl, _⟩ := List.cons.inj he
      exact absurd (by rw [hm]; simp) hk
  · cases more with
    | nil => simpa using (List.cons.inj he).2.symm
    | cons c more =>
      obtain ⟨rfl, _⟩ := List.cons.inj he
      exact absurd (by rw [hm]; simp) hk'

theorem maximal_plain {token following : List Char} {value : Float} (h : NumeralText token value)
    (hf : startsFactor following.head? = false) (hm : isMarker following.head? = false) :
    NumberToken token value following := by
  refine ⟨.plain h, ?_⟩
  intro longer hl hp
  refine Nat.le_of_not_lt ?_
  intro hlt
  obtain ⟨x, more, hx, hhead⟩ := exists_of_longer hp hlt
  rw [hhead] at hf hm
  obtain ⟨v, hv⟩ := hl
  cases hv with
  | plain hv =>
    subst hx
    rw [hv.startsFactor_of_mem_tail (mem_tail_append h.ne_nil)] at hf
    cases hf
  | @scaled mantissa exponent marker _ _ hv hk _ =>
    rcases List.append_eq_append_iff.mp hx with ⟨rest, ht, he⟩ | ⟨rest, ht, he⟩
    · cases rest with
      | nil =>
        obtain ⟨rfl, _⟩ := List.cons.inj he
        rw [hk] at hm
        cases hm
      | cons c rest =>
        obtain ⟨rfl, _⟩ := List.cons.inj he
        exact h.marker_not_mem hk (by rw [ht]; simp)
    · cases rest with
      | nil =>
        obtain ⟨rfl, _⟩ := List.cons.inj he
        rw [hk] at hm
        cases hm
      | cons c rest =>
        obtain ⟨rfl, _⟩ := List.cons.inj he
        subst ht
        rw [hv.startsFactor_of_mem_tail (mem_tail_append h.ne_nil)] at hf
        cases hf

theorem maximal_scaled {mantissa exponent following : List Char} {marker : Char}
    {value power : Float} (h : NumeralText mantissa value) (hk : isMarker (some marker) = true)
    (he : NumeralText exponent power) (hf : startsFactor following.head? = false) :
    NumberToken (mantissa ++ marker :: exponent) (Number.scale value power) following := by
  refine ⟨.scaled h hk he, ?_⟩
  intro longer hl hp
  refine Nat.le_of_not_lt ?_
  intro hlt
  obtain ⟨x, more, hx, hhead⟩ := exists_of_longer hp hlt
  rw [hhead] at hf
  obtain ⟨v, hv⟩ := hl
  cases hv with
  | plain hv =>
    subst hx
    exact hv.marker_not_mem hk (by simp)
  | @scaled mantissa' exponent' marker' _ _ hv hk' he' =>
    rw [List.append_assoc, List.cons_append] at hx
    have hlast := split_at_marker (h.marker_not_mem hk') (hv.marker_not_mem hk) hx
    subst hlast
    rw [he'.startsFactor_of_mem_tail (mem_tail_append he.ne_nil)] at hf
    cases hf

theorem maximal_number {token following : List Char} {value : Float} (h : NumberText token value)
    (hf : startsFactor following.head? = false) (hm : isMarker following.head? = false) :
    NumberToken token value following := by
  cases h with
  | plain h => exact maximal_plain h hf hm
  | scaled h hk he => exact maximal_scaled h hk he hf

theorem maximal_name {token following : List Char} (h : NameText token)
    (hf : ∀ c, following.head? = some c → Text.isNameChar c = false) :
    NameToken token following := by
  refine ⟨h, ?_⟩
  intro longer hl hp
  refine Nat.le_of_not_lt ?_
  intro hlt
  obtain ⟨x, more, hx, hhead⟩ := exists_of_longer hp hlt
  obtain ⟨first, others, rfl, _, _⟩ := h
  obtain ⟨first', others', rfl, _, ho⟩ := hl
  obtain ⟨_, rfl⟩ := List.cons.inj hx
  have hc : Text.isNameChar x = true := ho x (by simp)
  rw [hf x hhead] at hc
  cases hc

end Grammar

end Marksheet
