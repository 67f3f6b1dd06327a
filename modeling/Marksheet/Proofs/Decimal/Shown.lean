import Marksheet.Decimal
import Marksheet.Proofs.Binary64.Whole
import Marksheet.Proofs.Reading.Numerals
import Marksheet.Proofs.Text.Digits

/-!
# Marksheet.Proofs.Decimal.Shown

How marks are shown. The exact value of a double is rounded to whole units of the last place kept,
and what is shown of these is the shortest decimal, without a point where there is nothing behind
it and without a sign for zero.

* `NearestEven` : the nearest whole number, of two equally near the even one.
* `Numeral.Canonical`, `Numeral.length_le_of_canonical` : a decimal without anything that could be
  left out is the shortest of its value.
* `Decimal.trimmed_fixed` : trimming leaves such a decimal.
* `Decimal.renders_of_isValue` : what is shown of a double.
-/

namespace Marksheet

/-! ## The nearest whole number -/

/-- The whole number nearest to a quotient; of two equally near, the even one. -/
structure NearestEven (q : ℚ) (k : ℤ) : Prop where
  close : |q - k| ≤ 1 / 2
  even : |q - k| = 1 / 2 → Even k

namespace NearestEven

variable {q : ℚ} {k l : ℤ}

theorem neg (h : NearestEven q k) : NearestEven (-q) (-k) := by
  have habs : |-q - ((-k : ℤ) : ℚ)| = |q - k| := by
    rw [Int.cast_neg, neg_sub_neg, abs_sub_comm]
  exact ⟨habs ▸ h.close, fun hh => (h.even (habs ▸ hh)).neg⟩

/-- Two of them would be neighbours, and both even. -/
theorem unique (h : NearestEven q k) (h' : NearestEven q l) : k = l := by
  have hdist : |(k : ℚ) - l| ≤ |q - k| + |q - l| := by
    have := abs_sub_le (k : ℚ) q l
    rwa [abs_sub_comm (k : ℚ) q] at this
  have hk := h.close
  have hl := h'.close
  by_contra hne
  have hone : (1 : ℚ) ≤ |(k : ℚ) - l| := by
    have : 1 ≤ |k - l| := Int.one_le_abs (sub_ne_zero.mpr hne)
    exact_mod_cast this
  obtain ⟨a, rfl⟩ := h.even (by linarith)
  obtain ⟨b, rfl⟩ := h'.even (by linarith)
  have hle : |(a + a) - (b + b)| ≤ 1 := by
    have : |((a + a : ℤ) : ℚ) - (b + b : ℤ)| ≤ 1 := by linarith
    exact_mod_cast this
  rw [abs_le] at hle
  omega

theorem below {n : ℤ} {part : ℚ} (h : 0 ≤ part) (hp : part < 1 / 2) : NearestEven (n + part) n := by
  have hdist : |(n + part : ℚ) - n| = part := by
    rw [add_sub_cancel_left, abs_of_nonneg h]
  exact ⟨by linarith, fun he => by linarith⟩

theorem above {n : ℤ} {part : ℚ} (h : part ≤ 1) (hp : 1 / 2 < part) :
    NearestEven (n + part) (n + 1 : ℤ) := by
  have hdist : |(n + part : ℚ) - (n + 1 : ℤ)| = 1 - part := by
    rw [Int.cast_add, Int.cast_one, add_sub_add_left_eq_sub, abs_sub_comm,
      abs_of_nonneg (by linarith)]
  exact ⟨by linarith, fun he => by linarith⟩

theorem halfway {n : ℤ} (hk : k = n ∨ k = n + 1) (he : Even k) : NearestEven (n + 1 / 2) k := by
  refine ⟨?_, fun _ => he⟩
  rcases hk with rfl | rfl
  · rw [add_sub_cancel_left, abs_of_pos one_half_pos]
  · rw [Int.cast_add, Int.cast_one, add_sub_add_left_eq_sub, abs_sub_comm]
    norm_num

end NearestEven

/-- A quotient is its whole part and a rest below one; the rest decides, and on a half whether the
whole part is even. -/
theorem nearestEven_roundHalfEven {num den : Nat} (hd : 0 < den) :
    NearestEven ((num : ℚ) / den) (roundHalfEven num den : Nat) := by
  have hden : (0 : ℚ) < den := by exact_mod_cast hd
  have hlt := Nat.mod_lt num hd
  have hq : (num : ℚ) / den = ((num / den : Nat) : ℤ) + ((num % den : Nat) : ℚ) / den := by
    have hnum : (num : ℚ) = den * (num / den : Nat) + (num % den : Nat) := by
      exact_mod_cast (Nat.div_add_mod num den).symm
    rw [Int.cast_natCast]
    field_simp
    linarith
  unfold roundHalfEven
  rw [hq]
  generalize num / den = quotient
  generalize num % den = rest at hlt ⊢
  have hnonneg : 0 ≤ (rest : ℚ) / den := by positivity
  have hone : (rest : ℚ) / den ≤ 1 := (div_le_one hden).mpr (by exact_mod_cast hlt.le)
  dsimp only
  split
  · rename_i h
    refine .below hnonneg ((div_lt_iff₀ hden).mpr ?_)
    have : (2 * rest : ℚ) < den := by exact_mod_cast h
    linarith
  split
  · rename_i h
    refine .above hone ((lt_div_iff₀ hden).mpr ?_)
    have : (den : ℚ) < 2 * rest := by exact_mod_cast h
    linarith
  · have htie : (rest : ℚ) / den = 1 / 2 := by
      have : (2 * rest : ℚ) = den := by
        have : 2 * rest = den := by omega
        exact_mod_cast this
      rw [div_eq_div_iff hden.ne' two_ne_zero]
      linarith
    rw [htie]
    split
    · exact .halfway (.inl rfl) (by rw [Int.even_coe_nat]; exact Nat.even_iff.mpr ‹_›)
    · refine .halfway (.inr (by push_cast; rfl)) ?_
      rw [Int.even_coe_nat, Nat.even_iff]
      omega

/-! ## The shortest decimal -/

namespace Numeral

def exact (numeral : Numeral) : ℚ :=
  let size : ℚ := digitsValue numeral.digits / 10 ^ (numeral.fraction.getD []).length
  if numeral.sign = some .minus then -size else size

/-- Written with a whole part and without anything that could be left out. -/
structure Canonical (numeral : Numeral) : Prop where
  decimal : numeral.IsDecimal
  sign : numeral.sign = none ∨ numeral.sign = some .minus ∧ digitsValue numeral.digits ≠ 0
  some_digit : numeral.whole ≠ []
  leading : numeral.whole.head? = some '0' → numeral.whole = ['0']
  trailing : ∀ places, numeral.fraction = some places → ∃ c, places.getLast? = some c ∧ c ≠ '0'

variable {numeral other : Numeral}

theorem digitsValue_digits (numeral : Numeral) :
    digitsValue numeral.digits =
      digitsValue numeral.whole * 10 ^ (numeral.fraction.getD []).length +
        digitsValue (numeral.fraction.getD []) :=
  digitsValue_append _ _

theorem abs_exact (numeral : Numeral) :
    |numeral.exact| =
      (digitsValue numeral.digits : ℚ) / 10 ^ (numeral.fraction.getD []).length := by
  rw [exact]
  split
  · rw [abs_neg, abs_of_nonneg (by positivity)]
  · rw [abs_of_nonneg (by positivity)]

theorem eq_of_parts {p whole whole' part part' : Nat} (hp : part < p) (hp' : part' < p)
    (h : whole * p + part = whole' * p + part') : whole = whole' ∧ part = part' := by
  obtain ⟨hdiv, hmod⟩ := (Nat.div_mod_unique (d := whole) (Nat.zero_lt_of_lt hp)).mpr
    ⟨by rw [Nat.mul_comm p, Nat.add_comm], hp⟩
  obtain ⟨hdiv', hmod'⟩ := (Nat.div_mod_unique (d := whole') (Nat.zero_lt_of_lt hp)).mpr
    ⟨by rw [Nat.mul_comm p, Nat.add_comm], hp'⟩
  rw [h] at hdiv hmod
  exact ⟨hdiv.symm.trans hdiv', hmod.symm.trans hmod'⟩

/-- Numerals of one value agree in their whole parts, and in what is behind the point once the
shorter fraction is filled up with zeros. -/
theorem parts_of_exact (hd : numeral.IsDecimal) (ho : other.IsDecimal)
    (he : other.exact = numeral.exact) :
    digitsValue other.whole = digitsValue numeral.whole ∧
      digitsValue (other.fraction.getD []) * 10 ^ (numeral.fraction.getD []).length =
        digitsValue (numeral.fraction.getD []) * 10 ^ (other.fraction.getD []).length := by
  have hlt := digitsValue_lt fun c hc => hd c (List.mem_append_right _ hc)
  have hlt' := digitsValue_lt fun c hc => ho c (List.mem_append_right _ hc)
  have hcross : digitsValue other.digits * 10 ^ (numeral.fraction.getD []).length =
      digitsValue numeral.digits * 10 ^ (other.fraction.getD []).length := by
    have habs := congrArg abs he
    rw [abs_exact, abs_exact, div_eq_div_iff (by positivity) (by positivity)] at habs
    exact_mod_cast habs
  rw [digitsValue_digits, digitsValue_digits] at hcross
  refine eq_of_parts ?_ ?_ ?_ (p := 10 ^ (other.fraction.getD []).length *
    10 ^ (numeral.fraction.getD []).length)
  · exact Nat.mul_lt_mul_of_pos_right hlt' (by positivity)
  · rw [Nat.mul_comm (10 ^ (other.fraction.getD []).length)]
    exact Nat.mul_lt_mul_of_pos_right hlt (by positivity)
  · linarith

theorem sign_of_neg (h : numeral.exact < 0) : numeral.sign = some .minus := by
  by_contra hs
  rw [exact, if_neg hs] at h
  exact absurd h (not_lt.mpr (by positivity))

theorem Canonical.exact_neg_iff (h : numeral.Canonical) :
    numeral.exact < 0 ↔ numeral.sign = some .minus := by
  refine ⟨sign_of_neg, fun hs => ?_⟩
  obtain hnone | ⟨-, hne⟩ := h.sign
  · rw [hnone] at hs
    cases hs
  · have hpos : (0 : ℚ) < digitsValue numeral.digits := by exact_mod_cast Nat.pos_of_ne_zero hne
    rw [exact, if_pos hs, neg_lt_zero]
    positivity

/-- It ends in a digit. -/
theorem Canonical.last (h : numeral.Canonical) {c : Char} (hc : numeral.text.getLast? = some c) :
    c.isDigit = true := by
  refine h.decimal c ?_
  obtain ⟨last, hmem, hlast⟩ := exists_last h.some_digit
  cases hf : numeral.fraction with
  | none =>
    obtain rfl : last = c := by
      simpa [text, fractionText, hf, List.getLast?_append, hlast] using hc
    exact List.mem_append_left _ hmem
  | some places =>
    obtain ⟨d, hd, -⟩ := h.trailing places hf
    obtain rfl : d = c := by
      simpa [text, fractionText, hf, List.getLast?_append, List.getLast?_cons, hd] using hc
    simp [digits, hf, List.mem_of_getLast? hd]

theorem Canonical.ne_minusZero (h : numeral.Canonical) : numeral.text ≠ ['-', '0'] := by
  intro htext
  obtain hnone | ⟨hminus, hne⟩ := h.sign
  · obtain ⟨c, rest, hc⟩ := List.exists_cons_of_ne_nil h.some_digit
    rw [text, hnone, hc] at htext
    obtain ⟨rfl, -⟩ := List.cons.inj htext
    exact absurd (h.decimal '-' (by simp [digits, hc])) (by decide)
  · rw [text, hminus] at htext
    obtain ⟨-, hzero⟩ := List.cons.inj htext
    change numeral.whole ++ fractionText numeral.fraction = _ at hzero
    obtain ⟨hnil, -⟩ | ⟨hwhole, hnil⟩ := List.append_eq_singleton_iff.mp hzero
    · exact h.some_digit hnil
    · cases hf : numeral.fraction with
      | none => exact hne (by simp [digits, hf, hwhole, digitsValue, digitValue])
      | some places =>
        rw [hf] at hnil
        cases hnil

theorem Canonical.length_whole_le (h : numeral.Canonical) (ho : other.IsDecimal)
    (hw : other.whole ≠ []) (he : digitsValue other.whole = digitsValue numeral.whole) :
    numeral.whole.length ≤ other.whole.length := by
  obtain ⟨c, rest, hc⟩ := List.exists_cons_of_ne_nil h.some_digit
  by_cases hzero : c = '0'
  · rw [h.leading (by rw [hc, hzero]; rfl)]
    exact List.length_pos_of_ne_nil hw
  · have hdigit : c.isDigit = true := h.decimal c (by simp [digits, hc])
    have hle : 10 ^ rest.length ≤ digitsValue numeral.whole := by
      rw [hc]
      exact le_digitsValue hdigit hzero
    have hlt := digitsValue_lt fun c hc => ho c (List.mem_append_left _ hc)
    have hlength := (Nat.pow_lt_pow_iff_right (by decide)).mp (hle.trans_lt (he ▸ hlt))
    rw [hc, List.length_cons]
    omega

/-- Fewer digits behind the point would make a multiple of ten of digits that end in another one
than zero. -/
theorem Canonical.length_fraction_le (h : numeral.Canonical)
    (he : digitsValue (other.fraction.getD []) * 10 ^ (numeral.fraction.getD []).length =
      digitsValue (numeral.fraction.getD []) * 10 ^ (other.fraction.getD []).length) :
    (fractionText numeral.fraction).length ≤ (fractionText other.fraction).length := by
  cases hf : numeral.fraction with
  | none => exact Nat.zero_le _
  | some places =>
    obtain ⟨c, hc, hzero⟩ := h.trailing places hf
    obtain ⟨front, rfl⟩ := List.getLast?_eq_some_iff.mp hc
    have hdigit : c.isDigit = true := h.decimal c (by simp [digits, hf])
    have hlast := digitValue_lt hdigit
    have hpos := digitValue_pos hdigit hzero
    have hle : (front ++ [c]).length ≤ (other.fraction.getD []).length := by
      by_contra hlt
      obtain ⟨d, hd⟩ := Nat.exists_eq_add_of_lt (Nat.lt_of_not_le hlt)
      rw [hf, Option.getD_some, hd, digitsValue_concat, Nat.pow_succ, Nat.pow_add] at he
      have hcancel : 10 * (digitsValue (other.fraction.getD []) * 10 ^ d) =
          10 * digitsValue front + digitValue c := by
        have hpower : 0 < 10 ^ (other.fraction.getD []).length := by positivity
        refine Nat.eq_of_mul_eq_mul_right hpower ?_
        rw [← he]
        ring
      omega
    cases ho : other.fraction with
    | none =>
      rw [ho] at hle
      simp at hle
    | some places' =>
      rw [ho, Option.getD_some] at hle
      simp only [fractionText, List.length_cons]
      omega

/-- A decimal of which nothing can be left out is the shortest with a whole part of its value. -/
theorem length_le_of_canonical (h : numeral.Canonical) (ho : other.IsDecimal)
    (hw : other.whole ≠ []) (he : other.exact = numeral.exact) :
    numeral.text.length ≤ other.text.length := by
  obtain ⟨hwhole, hfraction⟩ := parts_of_exact h.decimal ho he
  have hsign : (signText numeral.sign).length ≤ (signText other.sign).length := by
    obtain hnone | ⟨hminus, -⟩ := h.sign
    · rw [hnone]
      exact Nat.zero_le _
    · have hother := sign_of_neg (he ▸ h.exact_neg_iff.mpr hminus)
      rw [hminus, hother]
  have hleft := h.length_whole_le ho hw hwhole
  have hright := h.length_fraction_le hfraction
  simp only [text, List.length_append]
  omega

end Numeral

/-! ## Trimming -/

namespace Decimal

open Text (dropEndWhile dropEndWhile_of_last dropEndWhile_run dropEndWhile_stops
  exists_dropEndWhile)

def places (units : Nat) : List Char :=
  dropEndWhile (· == '0') (lastDigits shownPlaces (units % Nat.pow 10 shownPlaces))

/-- What is shown of a number of units. -/
def numeral (negative : Bool) (units : Nat) : Numeral where
  sign := if negative && units != 0 then some .minus else none
  whole := decimalDigits (units / Nat.pow 10 shownPlaces)
  fraction := if places units = [] then none else some (places units)

variable {units : Nat}

theorem places_zeros (units : Nat) :
    ∃ zeros, lastDigits shownPlaces (units % Nat.pow 10 shownPlaces) = places units ++ zeros ∧
      (∀ c ∈ zeros, (c == '0') = true) ∧ (places units).length + zeros.length = shownPlaces := by
  obtain ⟨zeros, hz, hrun⟩ := exists_dropEndWhile (· == '0')
    (lastDigits shownPlaces (units % Nat.pow 10 shownPlaces))
  refine ⟨zeros, hz, hrun, ?_⟩
  have hlength := congrArg List.length hz
  rwa [length_lastDigits, List.length_append, eq_comm] at hlength

theorem last_places {c : Char} (h : (places units).getLast? = some c) : c ≠ '0' := by
  simpa using dropEndWhile_stops _ _ c h

theorem isDigit_places (units : Nat) : ∀ c ∈ places units, c.isDigit = true := by
  obtain ⟨zeros, hz, -, -⟩ := places_zeros units
  intro c hc
  refine isDigit_lastDigits shownPlaces (units % Nat.pow 10 shownPlaces) c ?_
  rw [hz]
  exact List.mem_append_left _ hc

theorem digitsValue_zeros {zeros : List Char} (h : ∀ c ∈ zeros, (c == '0') = true) :
    digitsValue zeros = 0 := by
  induction zeros using List.reverseRecOn with
  | nil => rfl
  | append_singleton zeros c ih =>
    obtain rfl : c = '0' := by simpa using h c (by simp)
    rw [digitsValue_concat, ih fun d hd => h d (List.mem_append_left _ hd)]
    rfl

/-- The places write the part behind the point. -/
theorem digitsValue_places (units : Nat) :
    (digitsValue (places units) : ℚ) / 10 ^ (places units).length =
      (units % Nat.pow 10 shownPlaces : Nat) / 10 ^ shownPlaces := by
  obtain ⟨zeros, hz, hrun, hlength⟩ := places_zeros units
  have hvalue := congrArg digitsValue hz
  rw [digitsValue_lastDigits, digitsValue_append, digitsValue_zeros hrun, Nat.add_zero,
    Nat.pow_eq, Nat.mod_mod] at hvalue
  rw [Nat.pow_eq, hvalue, ← hlength, pow_add]
  push_cast
  field_simp

theorem places_eq_nil_iff : places units = [] ↔ units % Nat.pow 10 shownPlaces = 0 := by
  have hvalue := digitsValue_places units
  constructor
  · intro h
    rw [h, eq_comm, div_eq_iff (by positivity)] at hvalue
    simpa [digitsValue] using hvalue
  · intro h
    by_contra hne
    obtain ⟨c, hmem, hlast⟩ := exists_last hne
    obtain ⟨front, hfront⟩ := List.getLast?_eq_some_iff.mp hlast
    have hpos := digitValue_pos (isDigit_places units c hmem) (last_places hlast)
    rw [h, Nat.cast_zero, zero_div, div_eq_zero_iff, hfront, digitsValue_concat] at hvalue
    rcases hvalue with hvalue | hvalue
    · have : 10 * digitsValue front + digitValue c = 0 := by exact_mod_cast hvalue
      omega
    · exact absurd hvalue (by positivity)

/-- Neither the zeros of the whole part nor the point can be reached by the zeros at the end. -/
theorem dropEndWhile_zeros (sign whole : List Char) (units : Nat) :
    dropEndWhile (· == '0') (sign ++ (whole ++
      '.' :: lastDigits shownPlaces (units % Nat.pow 10 shownPlaces))) =
        sign ++ (whole ++ '.' :: places units) := by
  obtain ⟨zeros, hz, hrun, -⟩ := places_zeros units
  have hsplit : sign ++ (whole ++ '.' :: lastDigits shownPlaces (units % Nat.pow 10 shownPlaces)) =
      sign ++ (whole ++ '.' :: places units) ++ zeros := by
    rw [hz]
    simp
  rw [hsplit]
  refine dropEndWhile_run hrun ?_
  intro c hc
  cases hlast : (places units).getLast? with
  | none =>
    obtain rfl : '.' = c := by simpa [List.getLast?_append, List.getLast?_cons, hlast] using hc
    rfl
  | some d =>
    obtain rfl : d = c := by simpa [List.getLast?_append, List.getLast?_cons, hlast] using hc
    simpa using last_places hlast

theorem dropEndWhile_point (sign : List Char) {whole : List Char} (hw : whole ≠ [])
    (hd : ∀ c ∈ whole, c.isDigit = true) (units : Nat) :
    dropEndWhile (· == '.') (sign ++ (whole ++ '.' :: places units)) =
      sign ++ (whole ++ Numeral.fractionText (numeral false units).fraction) := by
  have hpoint : ∀ c : Char, c.isDigit = true → (c == '.') = false := by
    intro c hc
    refine beq_false_of_ne ?_
    rintro rfl
    exact absurd hc (by decide)
  by_cases hp : places units = []
  · have hrun : ∀ c ∈ ['.'], (c == '.') = true := by simp
    have hsplit : sign ++ (whole ++ '.' :: places units) = sign ++ whole ++ ['.'] := by simp [hp]
    rw [hsplit, dropEndWhile_run hrun]
    · simp [numeral, hp, Numeral.fractionText]
    · intro c hc
      obtain ⟨last, hmem, hlast⟩ := exists_last hw
      obtain rfl : last = c := by simpa [List.getLast?_append, hlast] using hc
      exact hpoint last (hd last hmem)
  · rw [dropEndWhile_of_last]
    · simp [numeral, hp, Numeral.fractionText]
    · intro c hc
      obtain ⟨last, hmem, hlast⟩ := exists_last hp
      obtain rfl : last = c := by
        simpa [List.getLast?_append, List.getLast?_cons, hlast] using hc
      exact hpoint last (isDigit_places units last hmem)

/-! ## What is shown -/

def signedUnits (negative : Bool) (units : Nat) : ℤ := if negative then -units else units

theorem natAbs_signedUnits (negative : Bool) (units : Nat) :
    (signedUnits negative units).natAbs = units := by
  cases negative <;> simp [signedUnits]

theorem sign_numeral (negative : Bool) (units : Nat) :
    (numeral negative units).sign = some .minus ↔ signedUnits negative units < 0 := by
  cases negative <;> simp [numeral, signedUnits, Nat.pos_iff_ne_zero]

theorem fraction_numeral (negative : Bool) (units : Nat) :
    (numeral negative units).fraction.getD [] = places units := by
  by_cases hp : places units = [] <;> simp [numeral, hp]

theorem size_numeral (negative : Bool) (units : Nat) :
    (digitsValue (numeral negative units).digits : ℚ) / 10 ^ (places units).length =
      units / 10 ^ shownPlaces := by
  have hunits : (units : ℚ) = 10 ^ shownPlaces * (units / Nat.pow 10 shownPlaces : Nat) +
      (units % Nat.pow 10 shownPlaces : Nat) := by
    exact_mod_cast (Nat.div_add_mod units (Nat.pow 10 shownPlaces)).symm
  have hwhole : digitsValue (numeral negative units).whole = units / Nat.pow 10 shownPlaces :=
    digitsValue_decimalDigits _
  have hplaces := digitsValue_places units
  rw [Numeral.digitsValue_digits, fraction_numeral, hwhole, hunits]
  push_cast
  rw [add_div, add_div, mul_div_cancel_right₀ _ (by positivity), mul_div_cancel_left₀ _
    (by positivity), hplaces]

theorem digitsValue_numeral_eq_zero_iff (negative : Bool) (units : Nat) :
    digitsValue (numeral negative units).digits = 0 ↔ units = 0 := by
  have hsize := size_numeral negative units
  rw [div_eq_div_iff (by positivity) (by positivity)] at hsize
  constructor
  · intro h
    rw [h] at hsize
    simpa using hsize.symm
  · rintro rfl
    simpa using hsize

theorem exact_numeral (negative : Bool) (units : Nat) :
    (numeral negative units).exact = signedUnits negative units / 10 ^ shownPlaces := by
  have hsize := size_numeral negative units
  rw [Numeral.exact, fraction_numeral, hsize]
  by_cases hs : (numeral negative units).sign = some .minus
  · rw [if_pos hs]
    cases negative with
    | false => simp [numeral] at hs
    | true => simp [signedUnits, neg_div]
  · rw [if_neg hs]
    cases negative with
    | false => simp [signedUnits]
    | true =>
      obtain rfl : units = 0 := by simpa [numeral] using hs
      simp [signedUnits]

theorem canonical_numeral (negative : Bool) (units : Nat) :
    (numeral negative units).Canonical where
  decimal := by
    intro c hc
    rw [Numeral.digits, fraction_numeral] at hc
    rcases List.mem_append.mp hc with hc | hc
    · exact isDigit_decimalDigits _ c hc
    · exact isDigit_places units c hc
  sign := by
    rw [Ne, digitsValue_numeral_eq_zero_iff]
    by_cases hu : units = 0 <;> cases negative <;> simp [numeral, hu]
  some_digit := decimalDigits_ne_nil _
  leading := by
    intro h
    rcases Nat.eq_zero_or_pos (units / Nat.pow 10 shownPlaces) with hzero | hpos
    · show decimalDigits _ = _
      rw [hzero]
      rfl
    · exact absurd h (head_decimalDigits hpos)
  trailing := by
    intro given hg
    by_cases hp : places units = []
    · simp [numeral, hp] at hg
    · obtain ⟨c, -, hc⟩ := exists_last hp
      obtain rfl : places units = given := by simpa [numeral, hp] using hg
      exact ⟨c, hc, last_places hc⟩

/-- The zeros at the end and then the point are taken off, but not the zeros of a whole number, and
of minus zero the sign. -/
theorem trimmed_fixed (negative : Bool) (units : Nat) :
    trimmed (fixed negative units) = (numeral negative units).text := by
  have hd := isDigit_decimalDigits (units / Nat.pow 10 shownPlaces)
  rw [trimmed, fixed, dropEndWhile_zeros, dropEndWhile_point _ (decimalDigits_ne_nil _) hd]
  by_cases hz : negative = true ∧ units = 0
  · obtain ⟨rfl, rfl⟩ := hz
    decide
  · have hsign : (if negative = true then ['-'] else []) =
        Numeral.signText (numeral negative units).sign := by
      cases negative with
      | false => rfl
      | true =>
        have hu : units ≠ 0 := fun hu => hz ⟨rfl, hu⟩
        simp [numeral, hu, Numeral.signText, Sign.char]
    rw [hsign]
    exact if_neg (canonical_numeral negative units).ne_minusZero

/-- The text is the shortest decimal of `k` units of the fourth place. -/
structure Renders (text : String) (k : ℤ) (numeral : Numeral) : Prop where
  toList : text.toList = numeral.text
  exact : numeral.exact = k / 10 ^ 4
  sign : numeral.sign = if k < 0 then some .minus else none
  /-- These digits have no leading zero, and all zeros at their own end. -/
  whole : numeral.whole = decimalDigits (k.natAbs / 10 ^ 4)
  fraction : numeral.fraction = none ↔ (10 ^ 4 : ℤ) ∣ k
  canonical : numeral.Canonical
  shortest : ∀ other : Numeral, other.IsDecimal → other.whole ≠ [] →
    other.exact = k / 10 ^ 4 → text.length ≤ other.text.length
  read : ∃ behind, Numeral.scan (Cursor.start text.toList) = .ok numeral behind ∧
    behind.atEnd = true

theorem renders_numeral (negative : Bool) (units : Nat) :
    Renders (String.ofList (trimmed (fixed negative units))) (signedUnits negative units)
      (numeral negative units) := by
  have hcanonical := canonical_numeral negative units
  have htext : (String.ofList (trimmed (fixed negative units))).toList =
      (numeral negative units).text := by
    rw [String.toList_ofList, trimmed_fixed]
  constructor
  · exact htext
  · exact exact_numeral negative units
  · split
    · rename_i h
      exact (sign_numeral negative units).mpr h
    · rename_i h
      exact hcanonical.sign.resolve_right fun hs => h ((sign_numeral negative units).mp hs.1)
  · rw [natAbs_signedUnits]
    rfl
  · have hnil : (numeral negative units).fraction = none ↔ places units = [] := by simp [numeral]
    rw [hnil, places_eq_nil_iff, ← Int.natAbs_dvd_natAbs, natAbs_signedUnits, Int.natAbs_pow]
    exact Nat.dvd_iff_mod_eq_zero.symm
  · exact hcanonical
  · intro other ho hw he
    have hlength := Numeral.length_le_of_canonical hcanonical ho hw
      (he.trans (exact_numeral negative units).symm)
    rwa [← htext, String.length_toList] at hlength
  · have hscan : Numeral.scan (Cursor.ask ((numeral negative units).text ++ []) 0) =
        .ok (numeral negative units) (Cursor.ask [] (0 + (numeral negative units).text.length)) :=
      Numeral.scan_numeral hcanonical.decimal
        (by simp [Numeral.digits, hcanonical.some_digit]) rfl
    rw [List.append_nil, ← htext] at hscan
    exact ⟨_, hscan, by rw [Cursor.atEnd_ask]; rfl⟩

theorem nearestEven_signedUnits (x : Binary64) :
    NearestEven (x.toRat * 10 ^ shownPlaces) (signedUnits x.negative (shownUnits x)) := by
  have hsize : NearestEven (x.size * 10 ^ shownPlaces) (shownUnits x : Nat) := by
    have hvalue : x.size * 10 ^ shownPlaces =
        ((x.magnitude.1 * Nat.pow 10 shownPlaces : Nat) : ℚ) / x.magnitude.2 := by
      rw [x.size_eq_magnitude, Nat.pow_eq]
      push_cast
      ring
    rw [hvalue]
    exact nearestEven_roundHalfEven x.magnitude_pos
  rw [Binary64.toRat, signedUnits]
  split
  · rw [neg_mul]
    exact hsize.neg
  · exact hsize

/-- What is shown of a finite double is the shortest decimal of the whole number of units nearest
to its exact value. It does not end in a point, and is not minus zero. -/
theorem renders_of_isValue (v : Float) (q : ℚ) (h : Binary64.IsValue v q) :
    ∃ k numeral, (NearestEven (q * 10 ^ 4) k ∧ ∀ l, NearestEven (q * 10 ^ 4) l → l = k) ∧
      Renders (shown v) k numeral ∧ (shown v).toList.getLast? ≠ some '.' ∧ shown v ≠ "-0" := by
  obtain ⟨x, hx, rfl⟩ := h
  have hnearest := nearestEven_signedUnits x
  have hrenders := renders_numeral x.negative (shownUnits x)
  have hshown : shown v = String.ofList (trimmed (fixed x.negative (shownUnits x))) := by
    rw [shown, fixedText, hx]
  rw [← hshown] at hrenders
  refine ⟨_, _, ⟨hnearest, fun l hl => hl.unique hnearest⟩, hrenders, ?_, ?_⟩
  · rw [hrenders.toList]
    intro hc
    exact absurd (hrenders.canonical.last hc) (by decide)
  · intro he
    refine hrenders.canonical.ne_minusZero ?_
    rw [← hrenders.toList, he]
    rfl

theorem renders_of_tie :
    ∃ numeral, NearestEven (1 / 32 * 10 ^ 4) 312 ∧ Renders (shown 0.03125) 312 numeral ∧
      shown 0.03125 = "0.0312" := by
  have hexact : Binary64.ofFloat? 0.03125 =
      some { negative := false, mantissa := Nat.pow 2 52, exponent := -57 } := by
    decide +kernel
  have hvalue : Binary64.IsValue 0.03125 (1 / 32) :=
    ⟨_, hexact, by norm_num [Binary64.toRat, Binary64.size]⟩
  have htie : NearestEven (1 / 32 * 10 ^ 4) 312 :=
    ⟨by norm_num [abs_of_pos], fun _ => ⟨156, by norm_num⟩⟩
  obtain ⟨k, numeral, ⟨-, hunique⟩, hrenders, -⟩ := renders_of_isValue 0.03125 (1 / 32) hvalue
  obtain rfl := hunique 312 htie
  exact ⟨numeral, htie, hrenders, by decide +kernel⟩

-- zeros of a whole number, and a small number below zero
example : shown 1000 = "1000" ∧ shown (-0.00001) = "0" ∧ shown (-2.5) = "-2.5" := by
  decide +kernel

end Decimal

end Marksheet
