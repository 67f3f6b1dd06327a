import Marksheet.Proofs.Binary64.Encoding

/-!
# Marksheet.Proofs.Binary64.Rounding

How the arithmetic of doubles rounds. A result is formed with some digits and the knowledge of what
follows them, is shifted to 53 digits or to the least exponent, and is then rounded to the nearest.

* `Located`             : the digits that have been formed, and on which side of the next half the
  exact result lies.
* `Writable`            : the sizes that a finite double can have.
* `rounds_of_located`   : a rounded result is on the same side of every such size as the exact one.
* `IsValue.sub`         : so a difference that a double can hold is exact.
* `IsValue.exists_div`  : and a quotient is finite up to the largest double, on the same side of
  every other.
-/

namespace Marksheet.Binary64

open Float.Model (UnpackedFloat totalExponent)
open Float.Model.Format (binary64)
open Float.Model.UnpackedFloat

variable {q : ℚ} {m : Nat} {accuracy : Accuracy}

/-- Where `q` lies between `m` and the next whole number. -/
def Located (q : ℚ) (m : Nat) : Accuracy → Prop
  | .exact => q = m
  | .inexact .lt => m < q ∧ q < m + 1 / 2
  | .inexact .eq => q = m + 1 / 2
  | .inexact .gt => m + 1 / 2 < q ∧ q < m + 1

namespace Located

theorem le (h : Located q m accuracy) : m ≤ q := by
  cases accuracy with
  | exact => exact h.ge
  | inexact order => cases order <;> simp only [Located] at h <;> linarith

theorem lt (h : Located q m accuracy) : q < m + 1 := by
  cases accuracy with
  | exact => simp only [Located] at h; linarith
  | inexact order => cases order <;> simp only [Located] at h <;> linarith

theorem round_le (h : Located q m accuracy) {k : Nat} (hk : q ≤ k) :
    accuracy.roundToNearestEven m ≤ k := by
  have hm : m ≤ k := by exact_mod_cast h.le.trans hk
  cases accuracy with
  | exact => exact hm
  | inexact order =>
    cases order <;> simp only [Located] at h <;> simp only [Accuracy.roundToNearestEven]
    · exact hm
    · have : m < k := by
        have : (m : ℚ) < k := by linarith
        exact_mod_cast this
      omega
    · have : m < k := by
        have : (m : ℚ) < k := by linarith
        exact_mod_cast this
      omega

theorem le_round (h : Located q m accuracy) {k : Nat} (hk : k ≤ q) :
    k ≤ accuracy.roundToNearestEven m := by
  have hm : k < m + 1 := by exact_mod_cast hk.trans_lt h.lt
  cases accuracy with
  | exact => exact Nat.le_of_lt_succ hm
  | inexact order => cases order <;> simp only [Accuracy.roundToNearestEven] <;> omega

theorem shiftRightOne {e : ExtendedMantissa} (h : Located q e.mantissa e.accuracy) :
    Located (q / 2) e.shiftRightOne.mantissa e.shiftRightOne.accuracy := by
  obtain ⟨m, round, sticky⟩ := e
  have hsplit : (m : ℚ) = 2 * (m / 2 : Nat) + (m % 2 : Nat) := by
    exact_mod_cast (Nat.div_add_mod m 2).symm
  have hnn : (0 : ℚ) ≤ (m / 2 : Nat) := by positivity
  rcases Nat.mod_two_eq_zero_or_one m with hp | hp <;> rw [hp] at hsplit <;>
    cases round <;> cases sticky <;>
    simp [ExtendedMantissa.accuracy, ExtendedMantissa.shiftRightOne, hp, Located] at h hsplit ⊢ <;>
    first | linarith | exact ⟨by linarith, by linarith⟩

/-- Shifting by `n` digits divides by a power of two. -/
theorem shiftRight {e : ExtendedMantissa} (h : Located q e.mantissa e.accuracy) (n : Nat) :
    Located (q / 2 ^ n) (e >>> n).mantissa (e >>> n).accuracy := by
  induction n with
  | zero =>
    rw [pow_zero, div_one]
    exact h
  | succ n ih =>
    rw [pow_succ, ← div_div]
    exact ih.shiftRightOne

theorem ofMantissaAndAccuracy (h : Located q m accuracy) :
    Located q (ExtendedMantissa.ofMantissaAndAccuracy m accuracy).mantissa
      (ExtendedMantissa.ofMantissaAndAccuracy m accuracy).accuracy := by
  cases accuracy with
  | exact => exact h
  | inexact order => cases order <;> exact h

end Located

def target (m : Nat) (e : Int) : Int := binary64.targetExponent (totalExponent m e)

theorem target_eq (m : Nat) (e : Int) : target m e = max (m.log2 + e - 52) (-1074) := by
  have hmin : binary64.minExponent = -1074 := by decide
  have hbits : (binary64.mantissaBits : Int) = 53 := by decide
  rw [target, Float.Model.Format.targetExponent, totalExponent, hmin, hbits]
  congr 1
  ring

theorem shiftToTargetExponent_eq (m : Nat) (e : Int) (accuracy : Accuracy) :
    shiftToTargetExponent binary64 m e accuracy =
      (ExtendedMantissa.ofMantissaAndAccuracy m accuracy >>> (target m e - e).toNat,
        max (target m e) e) := by
  rw [shiftToTargetExponent, shiftToExponent, ← target]
  refine Prod.ext rfl ?_
  dsimp only
  omega

theorem mantissa_exact_shift (m n : Nat) :
    (ExtendedMantissa.ofMantissaAndAccuracy m .exact >>> n).mantissa = m / 2 ^ n := by
  induction n with
  | zero => simp; rfl
  | succ n ih =>
    rw [pow_succ, ← Nat.div_div_eq_div_mul, ← ih]
    rfl

/-- A number of these digits when a carry into the next digit is shifted out. -/
def settled (negative : Bool) (m : Nat) (e : Int) : Binary64 :=
  if m / 2 ^ (target m e - e).toNat = 0 then { negative, mantissa := 0, exponent := -1074 }
  else { negative, mantissa := m / 2 ^ (target m e - e).toNat, exponent := max (target m e) e }

/-- No digit is lost when the digits are at most one too many. -/
theorem canonical_settled (negative : Bool) {m : Nat} {e : Int} (hm : m ≤ 2 ^ 53)
    (he : -1074 ≤ e) (hn : e = -1074 ∨ 2 ^ 52 ≤ m) :
    (settled negative m e).Canonical ∧ (settled negative m e).size = m * (2 : ℚ) ^ e := by
  have ht := target_eq m e
  by_cases hfull : m = 2 ^ 53
  · have hlog : m.log2 = 53 := by
      rw [hfull]
      decide
    have hstep : target m e = e + 1 := by
      rw [ht, hlog]
      omega
    have hone : (target m e - e).toNat = 1 := by omega
    have hhalf : m / 2 ^ 1 = 2 ^ 52 := by omega
    rw [settled, hone, hhalf, if_neg (by norm_num), hstep, max_eq_left (by omega)]
    refine ⟨⟨by norm_num, by dsimp only; omega, .inr (le_refl _)⟩, ?_⟩
    rw [size, hfull, zpow_add_one₀ two_ne_zero]
    push_cast
    ring
  · have hlog : m.log2 ≤ 52 := by
      by_cases hzero : m = 0
      · rw [hzero]
        decide
      · have := (Nat.log2_lt hzero).mpr (show m < 2 ^ 53 by omega)
        omega
    have hstep : target m e ≤ e := by
      rw [ht]
      omega
    have hsame : (target m e - e).toNat = 0 := by omega
    rw [settled, hsame, pow_zero, Nat.div_one, max_eq_right hstep]
    by_cases hzero : m = 0
    · rw [if_pos hzero, hzero]
      refine ⟨⟨by norm_num, le_refl _, .inl rfl⟩, ?_⟩
      simp [size]
    · rw [if_neg hzero]
      exact ⟨⟨by dsimp only; omega, he, hn⟩, rfl⟩

theorem ofUnpacked?_roundWithAccuracy {sign : Sign} {m : Nat} {e : Int} {accuracy : Accuracy}
    (he : e ≤ target m e) :
    ofUnpacked? (roundWithAccuracy binary64 sign m e accuracy) =
      some (settled (isNegative sign)
        (ExtendedMantissa.ofMantissaAndAccuracy m accuracy >>>
          (target m e - e).toNat).roundedMantissa (target m e)) := by
  rw [roundWithAccuracy]
  simp only [shiftToTargetExponent_eq, max_eq_left he, mantissa_exact_shift, settled]
  split <;> rfl

/-! ## Rounding to the nearest double -/

/-- The size of a double that is neither infinite nor too small. -/
def Writable (w : ℚ) : Prop :=
  ∃ (digits : Nat) (exponent : Int), digits < 2 ^ 53 ∧ -1074 ≤ exponent ∧ exponent ≤ 971 ∧
    w = digits * (2 : ℚ) ^ exponent

/-- The size of `x` is on the same side of every other size as `v`, or equal to it. -/
structure RoundsTo (v : ℚ) (x : Binary64) : Prop where
  canonical : x.Canonical
  le : ∀ w, Writable w → v ≤ w → x.size ≤ w
  ge : ∀ w, Writable w → w ≤ v → w ≤ x.size

section Nearest

variable {v : ℚ} {e : Int}

theorem target_ge (m : Nat) (e : Int) : m.log2 + e - 52 ≤ target m e := by
  rw [target_eq]
  exact le_max_left _ _

theorem target_min (m : Nat) (e : Int) : -1074 ≤ target m e := by
  rw [target_eq]
  exact le_max_right _ _

/-- More than 53 digits are never left. -/
theorem le_of_located (h : Located (v / (2 : ℚ) ^ e) m accuracy) :
    v / (2 : ℚ) ^ target m e ≤ 2 ^ 53 := by
  have hp : (0 : ℚ) < 2 ^ e := by positivity
  have hm : (m : ℚ) + 1 ≤ 2 ^ (m.log2 + 1) := by exact_mod_cast Nat.lt_log2_self
  have ht := target_ge m e
  have hv : v ≤ 2 ^ (m.log2 + 1) * (2 : ℚ) ^ e := (div_le_iff₀ hp).mp (h.lt.le.trans hm)
  rw [div_le_iff₀ (by positivity)]
  calc v ≤ 2 ^ (m.log2 + 1) * (2 : ℚ) ^ e := hv
    _ = (2 : ℚ) ^ ((m.log2 : ℤ) + 1 + e) := by
        rw [zpow_add₀ two_ne_zero, zpow_add_one₀ two_ne_zero, zpow_natCast, pow_succ]
    _ ≤ (2 : ℚ) ^ (53 + target m e) := zpow_le_zpow_right₀ (by norm_num) (by omega)
    _ = 2 ^ 53 * (2 : ℚ) ^ target m e := by
        rw [zpow_add₀ two_ne_zero]
        norm_num

/-- And not fewer, unless the exponent is the least. -/
theorem le_of_target (h : Located (v / (2 : ℚ) ^ e) m accuracy) (he : e ≤ target m e)
    (ht : target m e ≠ -1074) : 2 ^ 52 * (2 : ℚ) ^ target m e ≤ v := by
  have hp : (0 : ℚ) < 2 ^ e := by positivity
  have htarget : target m e = m.log2 + e - 52 := by
    rw [target_eq] at ht ⊢
    omega
  have hlog : 52 ≤ m.log2 := by omega
  have hne : m ≠ 0 := by
    rintro rfl
    simp at hlog
  have hm : (2 : ℚ) ^ m.log2 ≤ m := by exact_mod_cast Nat.log2_self_le hne
  have hv : (m : ℚ) * 2 ^ e ≤ v := (le_div_iff₀ hp).mp h.le
  calc 2 ^ 52 * (2 : ℚ) ^ target m e = (2 : ℚ) ^ (52 + target m e) := by
        rw [zpow_add₀ two_ne_zero]
        norm_num
    _ = 2 ^ m.log2 * (2 : ℚ) ^ e := by
        rw [htarget, show 52 + ((m.log2 : ℤ) + e - 52) = m.log2 + e by ring, zpow_add₀ two_ne_zero,
          zpow_natCast]
    _ ≤ m * (2 : ℚ) ^ e := by gcongr
    _ ≤ v := hv

theorem located_target (h : Located (v / (2 : ℚ) ^ e) m accuracy) (he : e ≤ target m e) :
    Located (v / (2 : ℚ) ^ target m e)
      (ExtendedMantissa.ofMantissaAndAccuracy m accuracy >>> (target m e - e).toNat).mantissa
      (ExtendedMantissa.ofMantissaAndAccuracy m accuracy >>> (target m e - e).toNat).accuracy := by
  have hshift := h.ofMantissaAndAccuracy.shiftRight (target m e - e).toNat
  have hsplit : (2 : ℚ) ^ target m e = 2 ^ e * 2 ^ (target m e - e).toNat := by
    rw [← zpow_natCast, Int.toNat_of_nonneg (by omega), ← zpow_add₀ two_ne_zero]
    congr 1
    ring
  rwa [hsplit, ← div_div]

/-- A size is a whole number of units when its own unit is not smaller. -/
theorem exists_units {w : ℚ} {digits : Nat} {j t : Int} (h : t ≤ j)
    (hw : w = digits * (2 : ℚ) ^ j) : ∃ k : Nat, w / (2 : ℚ) ^ t = k := by
  refine ⟨digits * 2 ^ (j - t).toNat, ?_⟩
  rw [hw, mul_div_assoc, ← zpow_sub₀ two_ne_zero]
  push_cast
  rw [← zpow_natCast, Int.toNat_of_nonneg (by omega)]

/-- The doubles are whole numbers of units, or too small for a result of 53 digits. -/
theorem roundsTo_of_units {x : Binary64} {k : Nat} {t : Int} (hx : x.Canonical)
    (hsize : x.size = k * (2 : ℚ) ^ t) (hle : ∀ n : Nat, v / (2 : ℚ) ^ t ≤ n → k ≤ n)
    (hge : ∀ n : Nat, n ≤ v / (2 : ℚ) ^ t → n ≤ k)
    (hfull : t ≠ -1074 → 2 ^ 52 * (2 : ℚ) ^ t ≤ v) (hnormal : t = -1074 ∨ 2 ^ 52 ≤ k) :
    RoundsTo v x := by
  have hp : (0 : ℚ) < 2 ^ t := by positivity
  refine ⟨hx, ?_, ?_⟩
  · rintro w ⟨digits, j, hd, hj, -, hw⟩ hvw
    by_cases htj : t ≤ j
    · obtain ⟨n, hn⟩ := exists_units htj hw
      have hround : k ≤ n := hle n (by rw [← hn]; gcongr)
      rw [hsize, ← le_div_iff₀ hp, hn]
      exact_mod_cast hround
    · have hlt := digits_lt hd (show j < t by omega)
      have := hfull (by omega)
      linarith
  · rintro w ⟨digits, j, hd, hj, -, hw⟩ hwv
    by_cases htj : t ≤ j
    · obtain ⟨n, hn⟩ := exists_units htj hw
      have hround : n ≤ k := hge n (by rw [← hn]; gcongr)
      rw [hsize, ← div_le_iff₀ hp, hn]
      exact_mod_cast hround
    · have hlt := digits_lt hd (show j < t by omega)
      have hq : (2 : ℚ) ^ 52 ≤ k := by exact_mod_cast hnormal.resolve_left (by omega)
      rw [hw, hsize]
      refine hlt.le.trans ?_
      gcongr

theorem rounds_of_located (sign : Sign) (h : Located (v / (2 : ℚ) ^ e) m accuracy)
    (he : e ≤ target m e) :
    ∃ x, ofUnpacked? (roundWithAccuracy binary64 sign m e accuracy) = some x ∧
      x.negative = isNegative sign ∧ RoundsTo v x := by
  have hloc := located_target h he
  have hle := le_of_located h
  have hge := le_of_target h he
  have hmin := target_min m e
  refine ⟨_, ofUnpacked?_roundWithAccuracy he, ?_, ?_⟩
  · unfold settled
    split <;> rfl
  generalize ExtendedMantissa.ofMantissaAndAccuracy m accuracy >>> (target m e - e).toNat = em
    at hloc
  generalize target m e = t at hloc hle hge hmin
  have hp : (0 : ℚ) < 2 ^ t := by positivity
  have hfull : em.roundedMantissa ≤ 2 ^ 53 := hloc.round_le (by exact_mod_cast hle)
  have hnormal : t = -1074 ∨ 2 ^ 52 ≤ em.roundedMantissa := by
    by_cases ht : t = -1074
    · exact .inl ht
    · refine .inr (hloc.le_round ?_)
      rw [le_div_iff₀ hp]
      exact_mod_cast hge ht
  obtain ⟨hcanonical, hsize⟩ := canonical_settled (isNegative sign) hfull hmin hnormal
  exact roundsTo_of_units hcanonical hsize (fun _ => hloc.round_le) (fun _ => hloc.le_round) hge
    hnormal

end Nearest

namespace RoundsTo

variable {v w : ℚ} {x : Binary64}

theorem eq (h : RoundsTo v x) (hv : Writable v) : x.size = v :=
  le_antisymm (h.le v hv (le_refl v)) (h.ge v hv (le_refl v))

/-- What is not above a double rounds to a finite double. -/
theorem exponent_le (h : RoundsTo v x) (hw : Writable w) (hv : v ≤ w) : x.exponent ≤ 971 := by
  by_contra hx
  have hle := h.le w hw hv
  obtain ⟨digits, e, hd, -, he, rfl⟩ := hw
  have hlt := digits_lt hd (show e < x.exponent by omega)
  have hm : (2 : ℚ) ^ 52 ≤ x.mantissa := by
    exact_mod_cast h.canonical.normal.resolve_left (by omega)
  have : 2 ^ 52 * (2 : ℚ) ^ x.exponent ≤ x.size := by
    unfold size
    gcongr
  linarith

end RoundsTo

/-! ## Sums and differences -/

theorem log2_mul_two_pow {m : Nat} (h : m ≠ 0) (n : Nat) : (m * 2 ^ n).log2 = m.log2 + n := by
  induction n with
  | zero => simp
  | succ n ih =>
    rw [pow_succ, ← mul_assoc, mul_comm _ 2, Nat.log2_two_mul (by positivity), ih, add_assoc]

theorem decreaseExponent_eq (m : Nat) (e t : Int) :
    decreaseExponent m e t = (m * 2 ^ (e - t).toNat, min e t) := by
  rw [decreaseExponent, Nat.shiftLeft_eq]
  refine Prod.ext rfl ?_
  dsimp only
  omega

theorem toRat_eq_apply (sign : Sign) (m : Nat) (e : Int) :
    Binary64.toRat ⟨isNegative sign, m, e⟩ = sign.apply m * (2 : ℚ) ^ e := by
  cases sign <;> simp [toRat, size, isNegative, Sign.apply]

theorem isValue_round {sign : Sign} {m : Nat} {e : Int} (hm : m ≠ 0)
    (hw : Writable (m * (2 : ℚ) ^ e)) :
    IsValue (.ofModel (Float.Model.pack (round binary64 sign m e)))
      (sign.apply m * (2 : ℚ) ^ e) := by
  have ht := target_eq m e
  have hsame : target (m * 2 ^ (e - target m e).toNat) (min e (target m e)) = target m e := by
    rw [target_eq (m * _), log2_mul_two_pow hm]
    omega
  have hloc : Located (m * (2 : ℚ) ^ e / (2 : ℚ) ^ min e (target m e))
      (m * 2 ^ (e - target m e).toNat) .exact := by
    rw [Located, mul_div_assoc, ← zpow_sub₀ two_ne_zero]
    push_cast
    rw [← zpow_natCast]
    congr 2
    omega
  have hround : round binary64 sign m e = roundWithAccuracy binary64 sign
      (m * 2 ^ (e - target m e).toNat) (min e (target m e)) .exact := by
    rw [UnpackedFloat.round, ← target, decreaseExponent_eq]
  obtain ⟨x, hx, hneg, hnear⟩ := rounds_of_located sign hloc (by rw [hsame]; exact min_le_right _ _)
  have hsize := hnear.eq hw
  refine ⟨x, ?_, ?_⟩
  · rw [hround]
    exact ofFloat?_pack hx hnear.canonical (hnear.exponent_le hw (le_refl _))
  · rw [toRat, hsize, hneg]
    cases sign <;> simp [isNegative, Sign.apply]

theorem isValue_zero (sign : Sign) : IsValue (.ofModel (Float.Model.pack (zero sign))) 0 := by
  refine ⟨_, ofFloat?_pack rfl ⟨by norm_num, le_refl _, .inl rfl⟩ (by norm_num), toRat_zero sign⟩

theorem isValue_normalize {m e : Int} {sign : Sign} (hw : Writable (m.natAbs * (2 : ℚ) ^ e)) :
    IsValue (.ofModel (Float.Model.pack (UnpackedFloat.normalize binary64 m e sign)))
      (m * (2 : ℚ) ^ e) := by
  rcases lt_trichotomy m 0 with h | rfl | h
  · have hn : (-m).toNat = m.natAbs := by omega
    have hm : (m : ℚ) = Sign.negative.apply m.natAbs := by
      rw [Sign.apply]
      exact_mod_cast show m = -(m.natAbs : ℤ) by omega
    rw [UnpackedFloat.normalize, compare_lt_iff_lt.mpr h, hm, hn]
    exact isValue_round (by omega) hw
  · rw [UnpackedFloat.normalize, Int.cast_zero, zero_mul]
    exact isValue_zero sign
  · have hn : m.toNat = m.natAbs := by omega
    have hm : (m : ℚ) = Sign.positive.apply m.natAbs := by
      rw [Sign.apply]
      exact_mod_cast show m = (m.natAbs : ℤ) by omega
    rw [UnpackedFloat.normalize, compare_gt_iff_gt.mpr h, hm, hn]
    exact isValue_round (by omega) hw

theorem apply_shifted (sign : Sign) (m : Nat) {e t : Int} (h : t ≤ e) :
    sign.apply m * (2 : ℚ) ^ e = sign.apply (m * 2 ^ (e - t).toNat : Nat) * (2 : ℚ) ^ t := by
  have hsplit : (2 : ℚ) ^ e = 2 ^ (e - t).toNat * (2 : ℚ) ^ t := by
    rw [← zpow_natCast, Int.toNat_of_nonneg (by omega), ← zpow_add₀ two_ne_zero]
    congr 1
    ring
  cases sign <;> simp only [Sign.apply] <;> push_cast <;> rw [hsplit] <;> ring

/-- A difference that is a double is exact. -/
theorem IsValue.sub {a b : Float} {p q : ℚ} (ha : IsValue a p) (hb : IsValue b q)
    (hw : Writable |p - q|) : IsValue (a - b) (p - q) := by
  have hsub : a - b = .ofModel (Float.Model.pack
    (UnpackedFloat.sub binary64 a.toModel.unpack b.toModel.unpack)) := rfl
  obtain ⟨x, hx, rfl⟩ := ha
  obtain ⟨y, hy, rfl⟩ := hb
  have hxform := canonical_of_ofFloat? hx
  have hyform := canonical_of_ofFloat? hy
  rw [ofFloat?_eq] at hx hy
  rw [hsub]
  generalize a.toModel.unpack = u at hx
  generalize b.toModel.unpack = v at hy
  cases u with
  | infinity _ => cases hx
  | notANumber => cases hx
  | zero s =>
    cases hx
    rw [toRat_zero] at hw ⊢
    cases v with
    | infinity _ => cases hy
    | notANumber => cases hy
    | zero t =>
      cases hy
      rw [toRat_zero, sub_zero]
      cases s <;> cases t <;> exact isValue_zero _
    | finite t n f hn =>
      cases hy
      refine ⟨⟨isNegative (-t), n, f⟩, ofFloat?_pack rfl ?_ hyform.2, ?_⟩
      · exact ⟨hyform.1.mantissa, hyform.1.exponent, hyform.1.normal⟩
      · cases t <;> simp [toRat, isNegative, size]
  | finite s m e hm =>
    cases hx
    cases v with
    | infinity _ => cases hy
    | notANumber => cases hy
    | zero t =>
      cases hy
      rw [toRat_zero, sub_zero]
      exact ⟨_, ofFloat?_pack rfl hxform.1 hxform.2, rfl⟩
    | finite t n f hn =>
      cases hy
      rw [toRat_eq_apply, toRat_eq_apply] at hw ⊢
      rw [apply_shifted s m (min_le_left e f), apply_shifted t n (min_le_right e f), ← sub_mul,
        ← Int.cast_sub] at hw ⊢
      simp only [UnpackedFloat.sub, decreaseExponent_eq]
      refine isValue_normalize ?_
      rwa [abs_mul, abs_of_pos (show (0 : ℚ) < 2 ^ min e f by positivity), ← Int.cast_abs,
        Int.abs_eq_natAbs, Int.cast_natCast] at hw

/-! ## Quotients -/

theorem located_of_division (n : Nat) {d : Nat} (hd : 0 < d) :
    Located ((n : ℚ) / d) (n / d) (accuracyOfFraction (n % d) d) := by
  have hq : (0 : ℚ) < d := by exact_mod_cast hd
  have hsplit : (n : ℚ) / d = (n / d : Nat) + (n % d : Nat) / d := by
    rw [div_eq_iff hq.ne', add_mul, div_mul_cancel₀ _ hq.ne']
    exact_mod_cast (Nat.div_add_mod' n d).symm
  have hlt : ((n % d : Nat) : ℚ) / d < 1 := by
    rw [div_lt_one hq]
    exact_mod_cast Nat.mod_lt n hd
  rw [hsplit]
  generalize n % d = r at hlt
  have hnn : (0 : ℚ) ≤ r / d := by positivity
  unfold accuracyOfFraction
  by_cases hr : r = 0
  · rw [if_pos hr, hr]
    simp [Located]
  have hpos : (0 : ℚ) < r / d := by positivity
  rw [if_neg hr]
  rcases lt_trichotomy (2 * r) d with h | h | h
  · have hhalf : (r : ℚ) / d < 1 / 2 := by
      rw [div_lt_div_iff₀ hq two_pos]
      exact_mod_cast (by omega : r * 2 < 1 * d)
    rw [compare_lt_iff_lt.mpr h]
    exact ⟨by linarith, by linarith⟩
  · have hhalf : (r : ℚ) / d = 1 / 2 := by
      rw [div_eq_div_iff hq.ne' two_ne_zero]
      exact_mod_cast (by omega : r * 2 = 1 * d)
    rw [compare_eq_iff_eq.mpr h, Located, hhalf]
  · have hhalf : 1 / 2 < (r : ℚ) / d := by
      rw [div_lt_div_iff₀ two_pos hq]
      exact_mod_cast (by omega : 1 * d < r * 2)
    rw [compare_gt_iff_gt.mpr h]
    exact ⟨by linarith, by linarith⟩

/-- The quotient is formed with enough digits to be rounded. -/
theorem le_target_of_division {m n : Nat} (hm : 0 < m) (hn : 0 < n) {e f t : Int}
    (ht : t = min (e - f) (binary64.targetExponent (totalExponent m e - totalExponent n f))) :
    t ≤ target (m * 2 ^ (e - f - t).toNat / n) t := by
  have htotal : binary64.targetExponent (totalExponent m e - totalExponent n f) =
      max (m.log2 + e - (n.log2 + f) - 53) (-1074) := by
    have hmin : binary64.minExponent = -1074 := by decide
    have hbits : (binary64.mantissaBits : Int) = 53 := by decide
    rw [Float.Model.Format.targetExponent, totalExponent, totalExponent, hmin, hbits]
    congr 1
    ring
  have hmin := target_min (m * 2 ^ (e - f - t).toNat / n) t
  by_cases hsmall : t ≤ -1074
  · exact hsmall.trans hmin
  have hge := target_ge (m * 2 ^ (e - f - t).toNat / n) t
  rw [htotal] at ht
  obtain ⟨k, hk⟩ : ∃ k, m.log2 + (e - f - t).toNat = k + (n.log2 + 1) :=
    ⟨m.log2 + (e - f - t).toNat - (n.log2 + 1), by omega⟩
  have hdigits : 2 ^ k ≤ m * 2 ^ (e - f - t).toNat / n := by
    rw [Nat.le_div_iff_mul_le hn]
    calc 2 ^ k * n ≤ 2 ^ k * 2 ^ (n.log2 + 1) := Nat.mul_le_mul_left _ Nat.lt_log2_self.le
      _ = 2 ^ m.log2 * 2 ^ (e - f - t).toNat := by rw [← pow_add, ← pow_add, hk]
      _ ≤ m * 2 ^ (e - f - t).toNat := Nat.mul_le_mul_right _ (Nat.log2_self_le hm.ne')
  have hlog := (Nat.le_log2 (Nat.pos_of_ne_zero (fun h => by simp [h] at hdigits)).ne').mpr hdigits
  omega

theorem finite_of_pos {u : UnpackedFloat} {x : Binary64} (h : ofUnpacked? u = some x)
    (hx : 0 < x.toRat) : ∃ m e hm, u = .finite .positive m e hm := by
  cases u with
  | infinity _ => cases h
  | notANumber => cases h
  | zero sign =>
    cases h
    rw [toRat_zero] at hx
    exact absurd hx (lt_irrefl _)
  | finite sign m e hm =>
    cases h
    cases sign with
    | positive => exact ⟨m, e, hm, rfl⟩
    | negative =>
      have hsize := size_nonneg ⟨true, m, e⟩
      simp only [toRat, isNegative, if_true] at hx
      linarith

/-- A quotient that is not above a double is on the same side of every double, once rounded. -/
theorem IsValue.exists_div {a b : Float} {p q w : ℚ} (ha : IsValue a p) (hb : IsValue b q)
    (hp : 0 < p) (hq : 0 < q) (hw : Writable w) (hle : p / q ≤ w) :
    ∃ r, IsValue (a / b) r ∧ (∀ w, Writable w → p / q ≤ w → r ≤ w) ∧
      ∀ w, Writable w → w ≤ p / q → w ≤ r := by
  have hdiv : a / b = .ofModel (Float.Model.pack
    (UnpackedFloat.div binary64 a.toModel.unpack b.toModel.unpack)) := rfl
  obtain ⟨x, hx, rfl⟩ := ha
  obtain ⟨y, hy, rfl⟩ := hb
  rw [ofFloat?_eq] at hx hy
  rw [hdiv]
  obtain ⟨m, e, hm, hu⟩ := finite_of_pos hx hp
  obtain ⟨n, f, hn, hv⟩ := finite_of_pos hy hq
  rw [hu] at hx ⊢
  rw [hv] at hy ⊢
  cases hx
  cases hy
  rw [toRat_eq_apply, toRat_eq_apply] at hle ⊢
  simp only [Sign.apply, Int.cast_natCast] at hle ⊢
  generalize ht : min (e - f)
    (binary64.targetExponent (totalExponent m e - totalExponent n f)) = t
  have hloc : Located (m * (2 : ℚ) ^ e / (n * (2 : ℚ) ^ f) / (2 : ℚ) ^ t)
      (m * 2 ^ (e - f - t).toNat / n) (accuracyOfFraction (m * 2 ^ (e - f - t).toNat % n) n) := by
    have hsplit : m * (2 : ℚ) ^ e / (n * (2 : ℚ) ^ f) / (2 : ℚ) ^ t =
        (m * 2 ^ (e - f - t).toNat : Nat) / n := by
      have hs : (2 : ℚ) ^ (e - f - t).toNat = 2 ^ e / 2 ^ f / 2 ^ t := by
        rw [← zpow_natCast, Int.toNat_of_nonneg (by omega), zpow_sub₀ two_ne_zero,
          zpow_sub₀ two_ne_zero]
      push_cast
      rw [hs]
      field_simp
    rw [hsplit]
    exact located_of_division _ hn
  obtain ⟨x, hx, hneg, hnear⟩ :=
    rounds_of_located .positive hloc (le_target_of_division hm hn ht.symm)
  have hvalue : x.toRat = x.size := by
    rw [toRat, hneg]
    rfl
  refine ⟨x.toRat, ⟨x, ?_, rfl⟩, ?_, ?_⟩
  · refine ofFloat?_pack ?_ hnear.canonical (hnear.exponent_le hw hle)
    rw [← hx, UnpackedFloat.div, divCore, ht, Nat.shiftLeft_eq]
    rfl
  · rw [hvalue]
    exact hnear.le
  · rw [hvalue]
    exact hnear.ge

end Marksheet.Binary64
