import Marksheet.Proofs.Binary64.Rounding

/-!
# Marksheet.Proofs.Binary64.Whole

Whole numbers among doubles.

* `floor_size`, `truncate_of_nonneg` : what the whole part of a double is.
* `isIntegral_iff`     : which doubles are whole.
* `isValue_nearest`    : the double nearest to a whole number that is a double is this number.
* `IsValue.sub_floor`  : taking off the whole part leaves what follows the point, without rounding.
-/

namespace Marksheet.Binary64

open Float.Model.Format (binary64)
open Float.Model.UnpackedFloat (Sign packComponents)

variable {x : Binary64}

/-! ## Whole parts -/

theorem magnitude_pos (x : Binary64) : 0 < x.magnitude.2 := by
  unfold magnitude
  split
  · exact Nat.one_pos
  · exact Nat.pow_pos Nat.two_pos

theorem size_eq_magnitude (x : Binary64) : x.size = x.magnitude.1 / x.magnitude.2 := by
  unfold magnitude size
  split
  · rename_i h
    have hpow : (2 : ℚ) ^ x.exponent = (Nat.pow 2 x.exponent.toNat : Nat) := by
      rw [Nat.pow_eq, Nat.cast_pow, ← zpow_natCast, Int.toNat_of_nonneg h, Nat.cast_ofNat]
    rw [hpow]
    push_cast
    ring
  · rename_i h
    have hpow : (2 : ℚ) ^ x.exponent = ((Nat.pow 2 (-x.exponent).toNat : Nat) : ℚ)⁻¹ := by
      rw [Nat.pow_eq, Nat.cast_pow, ← zpow_natCast, Int.toNat_of_nonneg (by omega), zpow_neg,
        inv_inv, Nat.cast_ofNat]
    rw [hpow]
    rfl

theorem floor_size (x : Binary64) : ⌊x.size⌋ = (x.magnitude.1 / x.magnitude.2 : Nat) := by
  rw [size_eq_magnitude, Rat.floor_natCast_div_natCast, Int.natCast_div]

theorem toRat_of_nonneg (h : 0 ≤ x.toRat) : x.toRat = x.size := by
  rw [← abs_toRat, abs_of_nonneg h]

theorem truncate_of_nonneg (h : 0 ≤ x.toRat) : x.truncate = ⌊x.toRat⌋ := by
  have hfloor := x.floor_size
  rw [← toRat_of_nonneg h] at hfloor
  rw [truncate, ← hfloor]
  by_cases hneg : x.negative = true
  · have hzero : x.toRat = 0 := by
      have hsize := x.size_nonneg
      rw [toRat, if_pos hneg] at h ⊢
      linarith
    rw [hzero, Int.floor_zero]
    exact ite_self _
  · exact if_neg hneg

theorem isIntegral_iff : x.isIntegral = true ↔ ∃ n : Nat, x.size = n := by
  have hd : (0 : ℚ) < x.magnitude.2 := by exact_mod_cast x.magnitude_pos
  rw [isIntegral, beq_iff_eq, size_eq_magnitude]
  constructor
  · intro h
    refine ⟨x.magnitude.1 / x.magnitude.2, ?_⟩
    rw [div_eq_iff hd.ne']
    exact_mod_cast (Nat.div_mul_cancel (Nat.dvd_of_mod_eq_zero h)).symm
  · rintro ⟨n, hn⟩
    rw [div_eq_iff hd.ne'] at hn
    have hnat : x.magnitude.1 = n * x.magnitude.2 := by exact_mod_cast hn
    rw [hnat, Nat.mul_mod_left]

/-- Whatever has digits behind the point has few in front of it. -/
theorem size_lt_of_not_isIntegral (hx : x.Canonical) (h : x.isIntegral = false) :
    x.size < 2 ^ 53 := by
  have he : x.exponent < 0 := by
    by_contra hnonneg
    have hwhole : x.isIntegral = true := by
      simp [isIntegral, magnitude, not_lt.mp hnonneg, Nat.mod_one]
    rw [h] at hwhole
    cases hwhole
  have hm : (x.mantissa : ℚ) < 2 ^ 53 := by exact_mod_cast hx.mantissa
  have hp : (2 : ℚ) ^ x.exponent ≤ 1 := zpow_le_one_of_nonpos₀ (by norm_num) he.le
  calc x.size ≤ x.mantissa * 1 := by
        unfold size
        gcongr
    _ < 2 ^ 53 := by rwa [mul_one]

/-! ## The nearest double of a whole number -/

theorem log2_bounds {n : Nat} (hn : n ≠ 0) : 2 ^ n.log2 ≤ n ∧ n < 2 ^ (n.log2 + 1) :=
  ⟨Nat.log2_self_le hn, Nat.lt_log2_self⟩

theorem exponentOf_whole {n : Nat} (hn : n ≠ 0) : exponentOf n 1 = n.log2 - 52 := by
  obtain ⟨hlow, -⟩ := log2_bounds hn
  have hone : Nat.log2 1 = 0 := by decide
  have hestimate : (n.log2 : Int) - (Nat.log2 1 : Nat) - 52 = n.log2 - 52 := by
    rw [hone]
    simp
  unfold exponentOf
  rw [hestimate]
  dsimp only
  have hscaled : ¬ (if 0 ≤ (n.log2 : Int) - 52 then n / (1 * Nat.pow 2 ((n.log2 : Int) - 52).toNat)
      else n * Nat.pow 2 (-((n.log2 : Int) - 52)).toNat / 1) < Nat.pow 2 52 := by
    rw [not_lt, Nat.pow_eq, Nat.pow_eq, Nat.pow_eq, Nat.one_mul, Nat.div_one]
    split
    · rw [Nat.le_div_iff_mul_le (by positivity), ← pow_add]
      refine le_trans (Nat.pow_le_pow_right (by norm_num) ?_) hlow
      omega
    · calc 2 ^ 52 = 2 ^ n.log2 * 2 ^ (-((n.log2 : Int) - 52)).toNat := by
            rw [← pow_add]
            congr 1
            omega
        _ ≤ n * 2 ^ (-((n.log2 : Int) - 52)).toNat := Nat.mul_le_mul_right _ hlow
  rw [if_neg hscaled]
  omega

def signOf (negative : Bool) : Sign := if negative then .negative else .positive

theorem isNegative_signOf (negative : Bool) : isNegative (signOf negative) = negative := by
  cases negative <;> rfl

theorem ofFloat?_withSign {negative : Bool} {field low : Nat} (hf : field < 2047)
    (hl : low < 2 ^ 52) :
    ofFloat? (withSign negative (field * 2 ^ 52 + low)) =
      if field = 0 then some { negative, mantissa := low, exponent := -1074 }
      else some { negative, mantissa := 2 ^ 52 + low, exponent := (field : Int) - 1075 } := by
  have hfield : (BitVec.ofNat 11 field).toNat = field := by
    rw [BitVec.toNat_ofNat, Nat.mod_eq_of_lt (by omega)]
  have hlow : (BitVec.ofNat 52 low).toNat = low := by
    rw [BitVec.toNat_ofNat, Nat.mod_eq_of_lt hl]
  have hbits : (UInt64.ofNat (if negative then Nat.pow 2 63 + (field * 2 ^ 52 + low)
      else field * 2 ^ 52 + low)).toNat =
        (packComponents binary64 (signOf negative) (BitVec.ofNat 11 field)
          (BitVec.ofNat 52 low)).toNat := by
    rw [toNat_packComponents, toNat_toBitVec, isNegative_signOf, hfield, hlow, UInt64.toNat_ofNat']
    cases negative <;> norm_num <;> omega
  have hread := ofFloat?_ofBits hbits (by omega)
  rwa [hfield, hlow, isNegative_signOf] at hread

theorem exists_digits {n : Nat} (hn : n ≠ 0) (hw : Writable n) :
    ∃ low < 2 ^ 52, ((n.log2 : Int) ≤ 1023) ∧
      (n : ℚ) / (2 : ℚ) ^ ((n.log2 : Int) - 52) = (2 ^ 52 + low : Nat) := by
  obtain ⟨hlog, hlt⟩ := log2_bounds hn
  obtain ⟨digits, j, hd, -, hj, hdigits⟩ := hw
  have hp : (0 : ℚ) < 2 ^ ((n.log2 : Int) - 52) := by positivity
  have hlead : 2 ^ 52 * (2 : ℚ) ^ ((n.log2 : Int) - 52) ≤ n := by
    have : 2 ^ 52 * (2 : ℚ) ^ ((n.log2 : Int) - 52) = 2 ^ n.log2 := by
      rw [zpow_sub₀ two_ne_zero, zpow_natCast]
      norm_num
      ring
    rw [this]
    exact_mod_cast hlog
  have hle : (n.log2 : Int) - 52 ≤ j := by
    by_contra hgt
    have := digits_lt hd (show j < (n.log2 : Int) - 52 by omega)
    rw [← hdigits] at this
    linarith
  obtain ⟨k, hk⟩ := exists_units hle hdigits
  have hlower : 2 ^ 52 ≤ k := by
    have : (2 : ℚ) ^ 52 ≤ k := by
      rw [← hk, le_div_iff₀ hp]
      exact hlead
    exact_mod_cast this
  have hupper : k < 2 ^ 53 := by
    have : (k : ℚ) < 2 ^ 53 := by
      rw [← hk, div_lt_iff₀ hp, zpow_sub₀ two_ne_zero, zpow_natCast]
      have : (n : ℚ) < 2 ^ (n.log2 + 1) := by exact_mod_cast hlt
      rw [pow_succ] at this
      norm_num
      linarith
    exact_mod_cast this
  obtain ⟨low, rfl⟩ := Nat.exists_eq_add_of_le hlower
  exact ⟨low, by omega, by omega, hk⟩

theorem roundHalfEven_whole {n digits : Nat} {e : Int}
    (h : (n : ℚ) = digits * (2 : ℚ) ^ e) :
    (if 0 ≤ e then roundHalfEven n (1 * Nat.pow 2 e.toNat)
      else roundHalfEven (n * Nat.pow 2 (-e).toNat) 1) = digits := by
  rw [Nat.pow_eq, Nat.pow_eq, Nat.one_mul]
  split
  · rename_i he
    have hnat : n = digits * 2 ^ e.toNat := by
      rw [← Int.toNat_of_nonneg he, zpow_natCast] at h
      exact_mod_cast h
    have hpow : 0 < 2 ^ e.toNat := by positivity
    rw [roundHalfEven_of_dvd hpow (Dvd.intro_left _ hnat.symm)]
    exact Nat.div_eq_of_eq_mul_left hpow hnat
  · rename_i he
    have hnat : n * 2 ^ (-e).toNat = digits := by
      rw [show e = -((-e).toNat : Int) by omega, zpow_neg, zpow_natCast, ← div_eq_mul_inv,
        eq_div_iff (by positivity)] at h
      exact_mod_cast h
    rw [hnat, roundHalfEven_of_dvd Nat.one_pos (one_dvd _), Nat.div_one]

theorem nearestBits_whole {n : Nat} (hn : n ≠ 0) (hw : Writable n) :
    ∃ low < 2 ^ 52, (n : ℚ) = (2 ^ 52 + low : Nat) * (2 : ℚ) ^ ((n.log2 : Int) - 52) ∧
      n.log2 ≤ 1023 ∧ nearestBits n 1 = (n.log2 + 1023 - 1) * 2 ^ 52 + (2 ^ 52 + low) := by
  obtain ⟨low, hlow, hlog, hdigits⟩ := exists_digits hn hw
  have hp : (2 : ℚ) ^ ((n.log2 : Int) - 52) ≠ 0 := by positivity
  rw [div_eq_iff hp] at hdigits
  refine ⟨low, hlow, hdigits, by omega, ?_⟩
  have hexponent : ((n.log2 : Int) - 52 + 1074).toNat = n.log2 + 1023 - 1 := by omega
  rw [nearestBits, if_neg hn]
  dsimp only
  rw [exponentOf_whole hn, roundHalfEven_whole hdigits, hexponent, Nat.pow_eq, infinityBits,
    Nat.pow_eq]
  exact min_eq_left (by omega)

/-- A whole number that is a double is read as this double. -/
theorem isValue_nearest {n : Nat} (negative : Bool) (hw : Writable n) :
    IsValue (nearest negative n 1) (if negative then -n else n) := by
  by_cases hn : n = 0
  · subst hn
    have hzero : ofFloat? (withSign negative (0 * 2 ^ 52 + 0)) =
        some { negative, mantissa := 0, exponent := -1074 } :=
      ofFloat?_withSign (by norm_num) (by norm_num)
    refine ⟨_, hzero, ?_⟩
    simp [toRat, size]
  obtain ⟨low, hlow, hdigits, hlog, hbits⟩ := nearestBits_whole hn hw
  have hfields : (n.log2 + 1023 - 1) * 2 ^ 52 + (2 ^ 52 + low) =
      (n.log2 + 1023) * 2 ^ 52 + low := by omega
  have hexponent : ((n.log2 + 1023 : Nat) : Int) - 1075 = n.log2 - 52 := by
    push_cast
    ring
  rw [nearest, hbits, hfields]
  refine ⟨_, (ofFloat?_withSign (by omega) hlow).trans (if_neg (by omega)), ?_⟩
  rw [toRat, size, hexponent, ← hdigits]

/-! ## The whole part of a double -/

theorem writable_size (hx : x.Canonical) (he : x.exponent ≤ 971) : Writable x.size :=
  ⟨x.mantissa, x.exponent, hx.mantissa, hx.exponent, he, rfl⟩

/-- The digits in front of the point, and those behind it. -/
theorem size_eq_add (x : Binary64) (h : x.exponent < 0) :
    x.magnitude.1 = x.mantissa ∧ x.size = (x.mantissa / x.magnitude.2 : Nat) +
      (x.mantissa % x.magnitude.2 : Nat) * (2 : ℚ) ^ x.exponent := by
  have hnum : x.magnitude.1 = x.mantissa := by rw [magnitude, if_neg (by omega)]
  have hden : (x.magnitude.2 : ℚ) = ((2 : ℚ) ^ x.exponent)⁻¹ := by
    rw [magnitude, if_neg (by omega), Nat.pow_eq, Nat.cast_pow, ← zpow_natCast,
      Int.toNat_of_nonneg (by omega), zpow_neg, Nat.cast_ofNat]
  have hsplit : (x.mantissa : ℚ) = (x.mantissa / x.magnitude.2 : Nat) * x.magnitude.2 +
      (x.mantissa % x.magnitude.2 : Nat) := by
    exact_mod_cast (Nat.div_add_mod' x.mantissa x.magnitude.2).symm
  have hp : (2 : ℚ) ^ x.exponent ≠ 0 := by positivity
  refine ⟨hnum, ?_⟩
  rw [hden] at hsplit
  rw [size]
  generalize ((x.mantissa / x.magnitude.2 : Nat) : ℚ) = whole at hsplit ⊢
  rw [hsplit, add_mul, mul_assoc, inv_mul_cancel₀ hp, mul_one]

/-- Taking the whole part off leaves the last digits. -/
theorem exists_parts (hx : x.Canonical) (he : x.exponent ≤ 971) :
    ∃ n : Nat, ⌊x.size⌋ = n ∧ Writable n ∧ Writable (x.size - n) := by
  refine ⟨x.magnitude.1 / x.magnitude.2, x.floor_size, ?_⟩
  have hsize := x.size_eq_magnitude
  by_cases hw : 0 ≤ x.exponent
  · have hden : x.magnitude.2 = 1 := by rw [magnitude, if_pos hw]
    rw [hden, Nat.cast_one, div_one] at hsize
    rw [hden, Nat.div_one, ← hsize, sub_self]
    exact ⟨writable_size hx he, 0, 0, by norm_num, by norm_num, by norm_num, by simp⟩
  · obtain ⟨hnum, hsplit⟩ := x.size_eq_add (not_le.mp hw)
    have hlt := hx.mantissa
    have hquotient : x.mantissa / x.magnitude.2 ≤ x.mantissa := Nat.div_le_self _ _
    have hrest : x.mantissa % x.magnitude.2 ≤ x.mantissa := Nat.mod_le _ _
    rw [hnum]
    refine ⟨⟨x.mantissa / x.magnitude.2, 0, by omega, by norm_num, by norm_num,
      by rw [zpow_zero, mul_one]⟩,
      x.mantissa % x.magnitude.2, x.exponent, by omega, hx.exponent, he, ?_⟩
    rw [sub_eq_iff_eq_add', hsplit]

theorem writable_of_lt {n : Nat} (h : n < 2 ^ 53) : Writable n :=
  ⟨n, 0, h, by norm_num, by norm_num, by simp⟩

theorem isValue_ofNat {n : Nat} (hw : Writable n) : IsValue (ofInt n) n := by
  have hnearest := isValue_nearest false hw
  have hsign : decide ((n : Int) < 0) = false := decide_eq_false (by omega)
  rwa [← hsign] at hnearest

/-- A double less its whole part is what follows the point, exactly. -/
theorem IsValue.sub_floor {a : Float} {q : ℚ} (ha : IsValue a q) (hq : 0 ≤ q) :
    IsValue (a - ofInt ⌊q⌋) (Int.fract q) := by
  have hvalue := ha
  obtain ⟨x, hx, rfl⟩ := ha
  obtain ⟨hc, he⟩ := canonical_of_ofFloat? hx
  obtain ⟨n, hfloor, hwhole, hrest⟩ := exists_parts hc he
  have hfract := Int.fract_nonneg x.toRat
  rw [toRat_of_nonneg hq] at hvalue hfract ⊢
  rw [Int.fract, hfloor, Int.cast_natCast] at hfract ⊢
  refine hvalue.sub (isValue_ofNat hwhole) ?_
  rwa [abs_of_nonneg hfract]

end Marksheet.Binary64
