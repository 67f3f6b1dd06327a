import Marksheet.Binary64
import Mathlib

/-!
# Marksheet.Proofs.Binary64.Encoding

What a double stands for, and how its arithmetic sees it. The arithmetic unpacks the bits into a
sign, digits and an exponent, and packs them again when it is done.

* `Binary64.ofFloat?_eq`   : the exact value is read off the unpacked form.
* `Binary64.Canonical`     : the digits and exponents that finite doubles have.
* `Binary64.ofFloat?_pack` : packing loses nothing of a number of this form that is not too large.
* `Binary64.lt_iff`        : comparing doubles compares their values.
-/

namespace Marksheet.Binary64

open Float (Model)
open Float.Model (UnpackedFloat)
open Float.Model.Format (binary64)
open Float.Model.UnpackedFloat (Sign packComponents unpackSign unpackExponent unpackMantissa)

/-! ## Bits -/

def isNegative : Sign → Bool
  | .negative => true
  | .positive => false

def ofUnpacked? : UnpackedFloat → Option Binary64
  | .finite sign mantissa exponent _ => some { negative := isNegative sign, mantissa, exponent }
  | .zero sign => some { negative := isNegative sign, mantissa := 0, exponent := -1074 }
  | .infinity _ => none
  | .notANumber => none

theorem toNat_unpackMantissa (bits : BitVec 64) :
    (@unpackMantissa binary64 bits).toNat = bits.toNat % Nat.pow 2 52 := by
  simp [unpackMantissa, BitVec.extractLsb_toNat]

theorem toNat_unpackExponent (bits : BitVec 64) :
    (@unpackExponent binary64 bits).toNat = bits.toNat / Nat.pow 2 52 % Nat.pow 2 11 := by
  simp [unpackExponent, BitVec.extractLsb_toNat, Nat.shiftRight_eq_div_pow]

theorem toNat_unpackSign (bits : BitVec 64) :
    (@unpackSign binary64 bits).toNat = bits.toNat / Nat.pow 2 63 % 2 := by
  simp [unpackSign, BitVec.extractLsb_toNat, Nat.shiftRight_eq_div_pow]

theorem toNat_append {m n : Nat} (high : BitVec m) (low : BitVec n) :
    (high ++ low).toNat = high.toNat * 2 ^ n + low.toNat := by
  rw [BitVec.toNat_append, ← Nat.shiftLeft_add_eq_or_of_lt low.isLt, Nat.shiftLeft_eq]

theorem toNat_packComponents (sign : Sign) (exponent : BitVec 11) (mantissa : BitVec 52) :
    (packComponents binary64 sign exponent mantissa).toNat =
      sign.toBitVec.toNat * Nat.pow 2 63 + (exponent.toNat * Nat.pow 2 52 + mantissa.toNat) := by
  rw [packComponents, toNat_append, toNat_append]
  norm_num
  ring

theorem isNegative_unpackSign (bits : BitVec 64) :
    isNegative (Sign.ofBitVec (@unpackSign binary64 bits)) =
      decide (Nat.pow 2 63 ≤ bits.toNat) := by
  have hlt := bits.isLt
  have hs := toNat_unpackSign bits
  by_cases h : Nat.pow 2 63 ≤ bits.toNat
  · have hne : @unpackSign binary64 bits ≠ 0#1 := by
      intro he
      rw [he] at hs
      norm_num at hs h
      omega
    simp only [Sign.ofBitVec, if_neg hne, h]
    rfl
  · have he : @unpackSign binary64 bits = 0#1 := by
      apply BitVec.eq_of_toNat_eq
      rw [hs]
      norm_num at h ⊢
      omega
    simp only [Sign.ofBitVec, if_pos he, h]
    rfl

theorem toNat_unpackExponent_eq_iff {bits : BitVec 64} (field : BitVec 11) :
    (@unpackExponent binary64 bits).toNat = field.toNat ↔ @unpackExponent binary64 bits = field :=
  BitVec.toNat_inj

theorem ofFloat?_eq (x : Float) : ofFloat? x = ofUnpacked? x.toModel.unpack := by
  have hbits : x.toBits.toNat = x.toModel.toBits.toBitVec.toNat := rfl
  unfold ofFloat? Float.Model.unpack UnpackedFloat.unpack
  rw [hbits]
  generalize x.toModel.toBits.toBitVec = bits
  have hlow := toNat_unpackMantissa bits
  have hfield := toNat_unpackExponent bits
  have hsign := isNegative_unpackSign bits
  have hones : (@unpackExponent binary64 bits).toNat = 2047 ↔
      @unpackExponent binary64 bits = -1#11 := toNat_unpackExponent_eq_iff (-1#11)
  have hzero : (@unpackExponent binary64 bits).toNat = 0 ↔
      @unpackExponent binary64 bits = 0#11 := toNat_unpackExponent_eq_iff 0#11
  have hnone : (@unpackMantissa binary64 bits).toNat = 0 ↔
      @unpackMantissa binary64 bits = 0#52 := by
    rw [← BitVec.toNat_inj]
    rfl
  dsimp only
  rw [← hlow, ← hfield, ← hsign]
  by_cases h1 : @unpackExponent binary64 bits = -1#11
  · rw [if_pos (hones.mpr h1), if_pos h1]
    split <;> rfl
  rw [if_neg (mt hones.mp h1), if_neg h1]
  by_cases h0 : @unpackExponent binary64 bits = 0#11
  · rw [if_pos (hzero.mpr h0), if_pos h0]
    split
    · rename_i h
      rw [hnone.mpr h]
      rfl
    · rw [hzero.mpr h0]
      rfl
  · rw [if_neg (mt hzero.mp h0), if_neg h0]
    simp only [ofUnpacked?, toNat_append]
    rfl

/-- The form of every finite double: 53 digits, or fewer with the least exponent. -/
structure Canonical (x : Binary64) : Prop where
  mantissa : x.mantissa < 2 ^ 53
  exponent : -1074 ≤ x.exponent
  normal : x.exponent = -1074 ∨ 2 ^ 52 ≤ x.mantissa

theorem canonical_of_ofFloat? {x : Float} {exact : Binary64} (h : ofFloat? x = some exact) :
    exact.Canonical ∧ exact.exponent ≤ 971 := by
  have hlow : x.toBits.toNat % Nat.pow 2 52 < 2 ^ 52 := Nat.mod_lt _ (by norm_num)
  have hfield : x.toBits.toNat / Nat.pow 2 52 % Nat.pow 2 11 < 2 ^ 11 := Nat.mod_lt _ (by norm_num)
  unfold ofFloat? at h
  dsimp only at h
  generalize x.toBits.toNat % Nat.pow 2 52 = low at h hlow
  generalize x.toBits.toNat / Nat.pow 2 52 % Nat.pow 2 11 = field at h hfield
  split at h
  · cases h
  split at h
  · cases h
    exact ⟨⟨by dsimp only; omega, le_refl _, .inl rfl⟩, by norm_num⟩
  · cases h
    have hp : Nat.pow 2 52 = 2 ^ 52 := rfl
    exact ⟨⟨by dsimp only; omega, by dsimp only; omega, .inr (by dsimp only; omega)⟩,
      by dsimp only; omega⟩

theorem toNat_toBitVec (sign : Sign) :
    sign.toBitVec.toNat = if isNegative sign then 1 else 0 := by
  cases sign <;> rfl

/-- What the fields of a packed number are. -/
theorem ofFloat?_of_bits {x : Float} {sign : Sign} {exponent : BitVec 11} {mantissa : BitVec 52}
    (h : x.toBits.toNat = (packComponents binary64 sign exponent mantissa).toNat) :
    ofFloat? x =
      if exponent.toNat = 2047 then none
      else if exponent.toNat = 0 then
        some { negative := isNegative sign, mantissa := mantissa.toNat, exponent := -1074 }
      else
        some { negative := isNegative sign, mantissa := 2 ^ 52 + mantissa.toNat,
               exponent := (exponent.toNat : Int) - 1075 } := by
  have hm := mantissa.isLt
  have he := exponent.isLt
  have hbits := toNat_packComponents sign exponent mantissa
  rw [← h, toNat_toBitVec] at hbits
  have hneg : decide (Nat.pow 2 63 ≤ x.toBits.toNat) = isNegative sign := by
    cases sign with
    | negative =>
      refine decide_eq_true ?_
      rw [hbits]
      exact Nat.le_add_right _ _
    | positive =>
      refine decide_eq_false ?_
      rw [hbits, show isNegative .positive = false from rfl]
      norm_num
      omega
  have hlow : x.toBits.toNat % Nat.pow 2 52 = mantissa.toNat := by
    rw [hbits]
    generalize (if isNegative sign then 1 else 0) = s
    norm_num
    omega
  have hfield : x.toBits.toNat / Nat.pow 2 52 % Nat.pow 2 11 = exponent.toNat := by
    rw [hbits]
    generalize (if isNegative sign then 1 else 0) = s
    norm_num
    omega
  unfold ofFloat?
  dsimp only
  rw [hneg, hlow, hfield]
  rfl

/-- Packing keeps a number that has the form of a double and is not too large. -/
theorem ofFloat?_pack {u : UnpackedFloat} {exact : Binary64} (h : ofUnpacked? u = some exact)
    (hc : exact.Canonical) (hf : exact.exponent ≤ 971) :
    ofFloat? (.ofModel (Model.pack u)) = some exact := by
  have hbits : ∀ v : UnpackedFloat, (Float.ofModel (Model.pack v)).toBits.toNat =
      (UnpackedFloat.pack binary64 v).toNat := fun _ => rfl
  obtain ⟨hm, he, hn⟩ := hc
  cases u with
  | infinity sign => cases h
  | notANumber => cases h
  | zero sign =>
    cases h
    exact ofFloat?_of_bits (hbits (.zero sign))
  | finite sign m e hpos =>
    cases h
    dsimp only at hm he hn hf
    have hbias : (binary64.exponentBias : Int) = 1023 := by decide
    have hdigits : binary64.mantissaBits = 53 := rfl
    have hfit : ¬ 2 ^ binary64.exponentBits ≤
        (e + binary64.exponentBias + binary64.mantissaBitsWithoutImplicit).toNat + 1 := by
      rw [hbias]
      norm_num
      omega
    have hpack := hbits (.finite sign m e hpos)
    simp only [UnpackedFloat.pack, if_neg hfit] at hpack
    by_cases hnormal : 2 ^ 52 ≤ m
    · have hlog : m.log2 + 1 = binary64.mantissaBits := by
        rw [(Nat.log2_eq_iff hpos.ne').mpr ⟨hnormal, hm⟩]
        rfl
      rw [if_pos hlog] at hpack
      rw [ofFloat?_of_bits hpack, hbias]
      simp only [BitVec.toNat_ofNat]
      rw [if_neg (by norm_num; omega), if_neg (by norm_num; omega)]
      congr 2
      · omega
      · norm_num
        omega
    · have hlog : ¬ m.log2 + 1 = binary64.mantissaBits := by
        have := (Nat.log2_lt hpos.ne').mpr (Nat.lt_of_not_le hnormal)
        omega
      rw [if_neg hlog] at hpack
      obtain rfl : e = -1074 := hn.resolve_right hnormal
      rw [ofFloat?_of_bits hpack]
      simp only [BitVec.toNat_ofNat]
      rw [if_neg (by norm_num), if_pos (by norm_num), Nat.mod_eq_of_lt (by omega)]

theorem ofFloat?_ofBits {bits : UInt64} {sign : Sign} {exponent : BitVec 11} {mantissa : BitVec 52}
    (h : bits.toNat = (packComponents binary64 sign exponent mantissa).toNat)
    (he : exponent.toNat ≠ 2047) :
    ofFloat? (Float.ofBits bits) =
      if exponent.toNat = 0 then
        some { negative := isNegative sign, mantissa := mantissa.toNat, exponent := -1074 }
      else
        some { negative := isNegative sign, mantissa := 2 ^ 52 + mantissa.toNat,
               exponent := (exponent.toNat : Int) - 1075 } := by
  have hvalid : binary64.Valid bits.toBitVec := by
    refine ⟨fun hones _ => ?_⟩
    have hbits : bits.toBitVec = packComponents binary64 sign exponent mantissa :=
      BitVec.eq_of_toNat_eq h
    rw [hbits, UnpackedFloat.unpackExponent_packComponents] at hones
    exact absurd (congrArg BitVec.toNat hones) he
  have hsame : Float.ofBits bits = .ofModel ⟨bits, hvalid⟩ :=
    Float.ofBits_toBits (.ofModel ⟨bits, hvalid⟩)
  rw [hsame, ofFloat?_of_bits (x := .ofModel ⟨bits, hvalid⟩) h, if_neg he]

/-! ## Values -/

def size (x : Binary64) : ℚ := x.mantissa * (2 : ℚ) ^ x.exponent

def toRat (x : Binary64) : ℚ := if x.negative then -x.size else x.size

theorem size_nonneg (x : Binary64) : 0 ≤ x.size := by
  unfold size
  positivity

theorem abs_toRat (x : Binary64) : |x.toRat| = x.size := by
  unfold toRat
  split
  · rw [abs_neg, abs_of_nonneg x.size_nonneg]
  · rw [abs_of_nonneg x.size_nonneg]

variable {x y : Binary64}

/-- Any 53 digits stand for less than 53 digits of which the first is a one, one place higher. -/
theorem digits_lt {digits : Nat} {i j : Int} (hd : digits < 2 ^ 53) (h : i < j) :
    digits * (2 : ℚ) ^ i < 2 ^ 52 * (2 : ℚ) ^ j := by
  have hq : (digits : ℚ) < 2 ^ 53 := by exact_mod_cast hd
  calc digits * (2 : ℚ) ^ i < 2 ^ 53 * (2 : ℚ) ^ i := by gcongr
    _ = 2 ^ 52 * (2 : ℚ) ^ (i + 1) := by
        rw [zpow_add_one₀ two_ne_zero]
        ring
    _ ≤ 2 ^ 52 * (2 : ℚ) ^ j :=
        mul_le_mul_of_nonneg_left (zpow_le_zpow_right₀ (by norm_num) h) (by norm_num)

theorem size_lt_of_exponent_lt (hx : x.Canonical) (hy : y.Canonical) (h : x.exponent < y.exponent) :
    x.size < y.size := by
  have hn : (2 : ℚ) ^ 52 ≤ y.mantissa := by
    have hxe := hx.exponent
    exact_mod_cast hy.normal.resolve_left (by omega)
  refine (digits_lt hx.mantissa h).trans_le ?_
  unfold size
  gcongr

theorem size_lt_iff (hx : x.Canonical) (hy : y.Canonical) :
    x.size < y.size ↔
      x.exponent < y.exponent ∨ x.exponent = y.exponent ∧ x.mantissa < y.mantissa := by
  rcases lt_trichotomy x.exponent y.exponent with h | h | h
  · simp [h, size_lt_of_exponent_lt hx hy h]
  · have hp : (0 : ℚ) < 2 ^ y.exponent := by positivity
    simp [size, h, mul_lt_mul_iff_left₀ hp]
  · have := size_lt_of_exponent_lt hy hx h
    simp [h.not_gt, h.ne', this.le]

theorem size_pos (h : 0 < x.mantissa) : 0 < x.size := by
  unfold size
  positivity

theorem then_eq_lt_iff (hx : x.Canonical) (hy : y.Canonical) :
    (compare x.exponent y.exponent).then (compare x.mantissa y.mantissa) = .lt ↔
      x.size < y.size := by
  rw [size_lt_iff hx hy, Ordering.then_eq_lt, compare_lt_iff_lt, compare_eq_iff_eq,
    compare_lt_iff_lt]

theorem then_eq_gt_iff (hx : x.Canonical) (hy : y.Canonical) :
    (compare x.exponent y.exponent).then (compare x.mantissa y.mantissa) = .gt ↔
      y.size < x.size := by
  rw [size_lt_iff hy hx, Ordering.then_eq_gt, compare_gt_iff_gt, compare_eq_iff_eq,
    compare_gt_iff_gt, eq_comm]

theorem toRat_zero (sign : Sign) : Binary64.toRat ⟨isNegative sign, 0, -1074⟩ = 0 := by
  simp [toRat, size]

/-- Comparing doubles compares their values. -/
theorem lt_iff {a b : Float} (ha : ofFloat? a = some x) (hb : ofFloat? b = some y) :
    a < b ↔ x.toRat < y.toRat := by
  have hx := (canonical_of_ofFloat? ha).1
  have hy := (canonical_of_ofFloat? hb).1
  have hlt : a < b ↔ a.toModel.unpack.compare b.toModel.unpack = some .lt := by
    show a.lt b = true ↔ _
    simp only [Float.lt, decide_eq_true_iff]
    exact beq_iff_eq
  rw [ofFloat?_eq] at ha hb
  rw [hlt]
  generalize a.toModel.unpack = u at ha
  generalize b.toModel.unpack = v at hb
  cases u with
  | infinity _ => cases ha
  | notANumber => cases ha
  | zero s =>
    cases ha
    cases v with
    | infinity _ => cases hb
    | notANumber => cases hb
    | zero t =>
      cases hb
      simp [UnpackedFloat.compare, toRat_zero]
    | finite t n f hn =>
      cases hb
      have hpos : 0 < (Binary64.mk (isNegative t) n f).size := size_pos hn
      rw [toRat_zero]
      cases t <;> simp [UnpackedFloat.compare, toRat, isNegative] at hpos ⊢ <;> linarith
  | finite s m e hm =>
    cases ha
    have hleft : 0 < (Binary64.mk (isNegative s) m e).size := size_pos hm
    cases v with
    | infinity _ => cases hb
    | notANumber => cases hb
    | zero t =>
      cases hb
      rw [toRat_zero]
      cases s <;> simp [UnpackedFloat.compare, toRat, isNegative] at hleft ⊢ <;> linarith
    | finite t n f hn =>
      cases hb
      have hright : 0 < (Binary64.mk (isNegative t) n f).size := size_pos hn
      cases s <;> cases t <;> simp [UnpackedFloat.compare, toRat, isNegative] at hleft hright ⊢
      · exact then_eq_gt_iff hx hy
      · linarith
      · linarith
      · exact then_eq_lt_iff hx hy

/-- The double is finite and stands for this number. -/
def IsValue (a : Float) (q : ℚ) : Prop := ∃ exact, ofFloat? a = some exact ∧ exact.toRat = q

theorem IsValue.lt_iff {a b : Float} {p q : ℚ} (ha : IsValue a p) (hb : IsValue b q) :
    a < b ↔ p < q := by
  obtain ⟨x, hx, rfl⟩ := ha
  obtain ⟨y, hy, rfl⟩ := hb
  exact Binary64.lt_iff hx hy

theorem IsValue.abs {a : Float} {q : ℚ} (h : IsValue a q) : IsValue a.abs |q| := by
  obtain ⟨x, hx, rfl⟩ := h
  have hform := canonical_of_ofFloat? hx
  have hpack : a.abs = .ofModel (Model.pack a.toModel.unpack.abs) := rfl
  rw [ofFloat?_eq] at hx
  rw [hpack, abs_toRat]
  refine ⟨{ x with negative := false }, ofFloat?_pack ?_ ⟨?_, ?_, ?_⟩ ?_, rfl⟩
  · generalize a.toModel.unpack = u at hx
    cases u <;> cases hx <;> rfl
  · exact hform.1.mantissa
  · exact hform.1.exponent
  · exact hform.1.normal
  · exact hform.2

end Marksheet.Binary64
