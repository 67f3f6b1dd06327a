import Marksheet.Proofs.Binary64.Whole
import Marksheet.Proofs.Fraction.Limits

/-!
# Marksheet.Proofs.Fraction.Expansion

The sign of the fraction that a written factor stands for. A whole double is taken as it is. Any
other is expanded in double arithmetic, which rounds, but never so that a convergent loses its sign:
the whole parts are exact, so are the remainders, and the reciprocal of a remainder below one is
rounded to at least one. Only the first reciprocal can leave the 64-bit range, and does from `2^-63`
on downwards; the convergent is then still zero.

* `exists_rest` : a remainder that is not negligible goes on with a number of at least one.
* `positive_expand` : so convergents stay positive, by induction on the steps.
* `zero_of_le`, `positive_of_lt` : the two sides of `2^-63`.
* `overflow_ofFloat` : a factor is refused only where it does not fit.
* `sign_ofFloat` : the sign of a fraction is that of its double, but zero up to `2^-63`.
-/

namespace Marksheet.Fraction

open Binary64 (IsValue Writable)

variable {rest target : Float} {q t : ℚ} {last current found : Fraction}

/-! ## One step -/

/-- Both parts are positive. -/
structure Positive (x : Fraction) : Prop where
  num : 0 < x.num
  den : 0 < x.den

theorem wholePart?_eq (h : IsValue rest q) (hq : 0 ≤ q) :
    wholePart? rest = if ⌊q⌋ ≤ largest then some ⌊q⌋ else none := by
  obtain ⟨x, hx, rfl⟩ := h
  have hnonneg := Int.floor_nonneg.mpr hq
  rw [wholePart?, hx]
  dsimp only
  rw [Binary64.truncate_of_nonneg hq]
  have hrange : InRange ⌊x.toRat⌋ ↔ ⌊x.toRat⌋ ≤ largest := by
    unfold InRange largest
    omega
  simp only [hrange]

theorem nextConvergent?_eq_some {a : Int} (h : nextConvergent? a last current = some found) :
    found = { num := a * current.num + last.num, den := a * current.den + last.den } := by
  unfold nextConvergent? at h
  split at h
  · cases h
  · cases h
    rfl

theorem Positive.next {a : Int} (hl : last.Convergent) (hc : current.Positive) (ha : 0 < a)
    (h : nextConvergent? a last current = some found) : found.Positive := by
  have hnum := Int.mul_pos ha hc.num
  have hden := Int.mul_pos ha hc.den
  have hlnum := hl.num_nonneg
  have hlden := hl.den_nonneg
  rw [nextConvergent?_eq_some h]
  exact ⟨by dsimp only; omega, by dsimp only; omega⟩

theorem isValue_one : IsValue 1 1 := by
  refine ⟨⟨false, 2 ^ 52, -52⟩, by decide +kernel, ?_⟩
  norm_num [Binary64.toRat, Binary64.size]

theorem isValue_negligible : IsValue negligible (1 / 2 ^ 63) := by
  refine ⟨⟨false, 2 ^ 52, -115⟩, by decide +kernel, ?_⟩
  norm_num [Binary64.toRat, Binary64.size]

theorem writable_one : Writable 1 :=
  ⟨1, 0, by norm_num, by norm_num, by norm_num, by norm_num⟩

theorem writable_range : Writable (2 ^ 63) :=
  ⟨1, 63, by norm_num, by norm_num, by norm_num, by norm_num⟩

/-- A remainder that is not negligible goes on with a finite number of at least one. -/
theorem exists_reciprocal (hr : IsValue rest q) (hq : 0 ≤ q)
    (hn : ¬ rest - Binary64.ofInt ⌊q⌋ < negligible) {w : ℚ} (hw : Writable w)
    (hle : 1 / Int.fract q ≤ w) :
    ∃ p, IsValue (1 / (rest - Binary64.ofInt ⌊q⌋)) p ∧ 1 ≤ p ∧ p ≤ w := by
  have hremainder := hr.sub_floor hq
  rw [hremainder.lt_iff isValue_negligible, not_lt] at hn
  have hpos : 0 < Int.fract q := lt_of_lt_of_le (by norm_num) hn
  have hlt := Int.fract_lt_one q
  obtain ⟨p, hp, hupper, hlower⟩ := isValue_one.exists_div hremainder one_pos hpos hw hle
  refine ⟨p, hp, hlower 1 writable_one ?_, hupper w hw hle⟩
  rw [le_div_iff₀ hpos]
  linarith

theorem exists_rest (hr : IsValue rest q) (hq : 0 ≤ q)
    (hn : ¬ rest - Binary64.ofInt ⌊q⌋ < negligible) :
    ∃ p, IsValue (1 / (rest - Binary64.ofInt ⌊q⌋)) p ∧ 1 ≤ p := by
  have hlow := hn
  rw [(hr.sub_floor hq).lt_iff isValue_negligible, not_lt] at hlow
  have hle : 1 / Int.fract q ≤ 2 ^ 63 := by
    rw [div_le_iff₀ (lt_of_lt_of_le (by norm_num) hlow)]
    linarith
  obtain ⟨p, hp, hone, -⟩ := exists_reciprocal hr hq hn writable_range hle
  exact ⟨p, hp, hone⟩

/-- A convergent is final, or the expansion goes on with a number of at least one. -/
theorem positive_of_step {steps : Nat} {distance : Float} (hr : IsValue rest q) (hq : 0 ≤ q)
    (hp : current.Positive)
    (hgo : ∀ {next : Float} {p : ℚ}, IsValue next p → 1 ≤ p →
      (expand target steps next last current).Positive) :
    Positive (if distance < tolerance || rest - Binary64.ofInt ⌊q⌋ < negligible then current
      else expand target steps (1 / (rest - Binary64.ofInt ⌊q⌋)) last current) := by
  split
  · exact hp
  · rename_i hstop
    rw [Bool.or_eq_true, not_or, decide_eq_true_iff, decide_eq_true_iff] at hstop
    obtain ⟨p, hvalue, hlower⟩ := exists_rest hr hq hstop.2
    exact hgo hvalue hlower

/-- Behind the first partial quotient every other is at least one, so both parts stay positive. -/
theorem positive_expand (steps : Nat) (hr : IsValue rest q) (hq : 1 ≤ q) (hl : last.Convergent)
    (hc : current.Convergent) (hp : current.Positive) :
    (expand target steps rest last current).Positive := by
  induction steps generalizing rest q last current with
  | zero => exact hp
  | succ steps ih =>
    have hnonneg : 0 ≤ q := by linarith
    rw [expand, wholePart?_eq hr hnonneg]
    split
    · exact hp
    rename_i a ha
    obtain rfl : ⌊q⌋ = a := by
      split at ha
      · exact Option.some.inj ha
      · cases ha
    have hone : 0 < ⌊q⌋ := Int.floor_pos.mpr hq
    split
    · exact hp
    rename_i found hfound
    have hnext := Positive.next hl hp hone hfound
    exact positive_of_step hr hnonneg hnext fun hvalue hlower =>
      ih hvalue hlower hc (hl.next hc hfound) hnext

/-! ## The first two steps -/

theorem nextConvergent?_first {a : Int} (ha : 0 ≤ a) (hl : a ≤ largest) :
    nextConvergent? a { num := 0, den := 1 } { num := 1, den := 0 } =
      some { num := a, den := 1 } := by
  have hfit : ¬ (a ≠ 0 ∧ (1 > largest / a ∨ 0 > largest / a ∨ a * 1 > largest - 0 ∨
      a * 0 > largest - 1)) := by
    rintro ⟨hne, h⟩
    have hquotient : 1 ≤ largest / a := (Int.le_ediv_iff_mul_le (by omega)).mpr (by omega)
    have hsub : (0 : Int) ≤ largest - 1 := by decide
    omega
  rw [nextConvergent?, if_neg hfit]
  simp

theorem nextConvergent?_second {a : Int} (ha : 0 < a) (hl : a ≤ largest) :
    nextConvergent? a { num := 1, den := 0 } { num := 0, den := 1 } =
      some { num := 1, den := a } := by
  have hfit : ¬ (a ≠ 0 ∧ (0 > largest / a ∨ 1 > largest / a ∨ a * 0 > largest - 1 ∨
      a * 1 > largest - 0)) := by
    rintro ⟨hne, h⟩
    have hquotient : 1 ≤ largest / a := (Int.le_ediv_iff_mul_le (by omega)).mpr (by omega)
    have hsub : (0 : Int) ≤ largest - 1 := by decide
    omega
  rw [nextConvergent?, if_neg hfit]
  simp

theorem convergent_zero : Convergent { num := 0, den := 1 } := by
  constructor <;> decide

theorem convergent_infinite : Convergent { num := 1, den := 0 } := by
  constructor <;> decide

/-- The first convergent is the whole part. -/
theorem expand_first (steps : Nat) (ht : IsValue target t) (hnonneg : 0 ≤ t)
    (hl : ⌊t⌋ ≤ largest) :
    expand target (steps + 1) target { num := 0, den := 1 } { num := 1, den := 0 } =
      if (Binary64.ofInt ⌊t⌋ / Binary64.ofInt 1 - target).abs < tolerance ||
        target - Binary64.ofInt ⌊t⌋ < negligible then { num := ⌊t⌋, den := 1 }
      else expand target steps (1 / (target - Binary64.ofInt ⌊t⌋)) { num := 1, den := 0 }
        { num := ⌊t⌋, den := 1 } := by
  rw [expand, wholePart?_eq ht hnonneg, if_pos hl]
  dsimp only
  rw [nextConvergent?_first (Int.floor_nonneg.mpr hnonneg) hl]

theorem positive_of_one_le (steps : Nat) (ht : IsValue target t) (hone : 1 ≤ t)
    (hl : ⌊t⌋ ≤ largest) :
    (expand target (steps + 1) target { num := 0, den := 1 } { num := 1, den := 0 }).Positive := by
  have hnonneg : 0 ≤ t := by linarith
  have hfirst : Positive { num := ⌊t⌋, den := 1 } := ⟨Int.floor_pos.mpr hone, Int.one_pos⟩
  have hconvergent := convergent_zero.next convergent_infinite
    (nextConvergent?_first hfirst.num.le hl)
  rw [expand_first steps ht hnonneg hl]
  exact positive_of_step ht hnonneg hfirst fun hvalue hlower =>
    positive_expand steps hvalue hlower convergent_infinite hconvergent hfirst

theorem isValue_error (ht : IsValue target t) (hpos : 0 < t) :
    IsValue (Binary64.ofInt 0 / Binary64.ofInt 1 - target).abs t := by
  have hzero : IsValue (Binary64.ofInt 0 / Binary64.ofInt 1) 0 := by
    refine ⟨⟨false, 0, -1074⟩, by decide +kernel, ?_⟩
    norm_num [Binary64.toRat, Binary64.size]
  obtain ⟨x, hx, hxt⟩ := id ht
  obtain ⟨hc, he⟩ := Binary64.canonical_of_ofFloat? hx
  have hw : Writable |0 - t| := by
    rw [zero_sub, abs_neg, ← hxt, Binary64.abs_toRat]
    exact Binary64.writable_size hc he
  have herror := (hzero.sub ht hw).abs
  rwa [zero_sub, abs_neg, abs_of_pos hpos] at herror

theorem isValue_tolerance : IsValue tolerance (8307674973655724 / 2 ^ 116) := by
  refine ⟨⟨false, 8307674973655724, -116⟩, by decide +kernel, ?_⟩
  norm_num [Binary64.toRat, Binary64.size]

theorem floor_eq_zero (hpos : 0 < t) (hlt : t < 1) : ⌊t⌋ = 0 := by
  rw [Int.floor_eq_zero_iff]
  exact ⟨hpos.le, hlt⟩

/-- The reciprocal of `2^-63` is the first number that does not fit. -/
theorem wholePart?_reciprocal (hr : IsValue rest (1 / 2 ^ 63)) : wholePart? (1 / rest) = none := by
  have hreciprocal : (1 : ℚ) / (1 / 2 ^ 63) = 2 ^ 63 := by norm_num
  obtain ⟨p, hp, -, hlower⟩ :=
    isValue_one.exists_div hr one_pos (by norm_num) writable_range hreciprocal.le
  have hlow : 2 ^ 63 ≤ p := hlower _ writable_range hreciprocal.ge
  have hfloor : (2 ^ 63 : ℤ) ≤ ⌊p⌋ := by
    rw [Int.le_floor]
    exact_mod_cast hlow
  rw [wholePart?_eq hp (le_trans (by norm_num) hlow), if_neg]
  unfold largest
  omega

/-- Up to `2^-63` the reciprocal is negligible or leaves the range, and zero is the answer. -/
theorem zero_of_le (steps : Nat) (ht : IsValue target t) (hpos : 0 < t) (hle : t ≤ 1 / 2 ^ 63) :
    expand target (steps + 2) target { num := 0, den := 1 } { num := 1, den := 0 } =
      { num := 0, den := 1 } := by
  have hlt : t < 1 := hle.trans_lt (by norm_num)
  have hfloor := floor_eq_zero hpos hlt
  have hfract : Int.fract t = t := by rw [Int.fract, hfloor, Int.cast_zero, sub_zero]
  have hrest := ht.sub_floor hpos.le
  rw [expand_first (steps + 1) ht hpos.le (by rw [hfloor]; decide)]
  split
  · rw [hfloor]
  rename_i hstop
  rw [Bool.or_eq_true, not_or, decide_eq_true_iff, decide_eq_true_iff] at hstop
  have hlow := hstop.2
  rw [hrest.lt_iff isValue_negligible, hfract, not_lt] at hlow
  obtain rfl : t = 1 / 2 ^ 63 := le_antisymm hle hlow
  rw [hfract] at hrest
  rw [expand, wholePart?_reciprocal hrest, hfloor]

theorem next_le (ht : IsValue target t) (hlow : 1 / 2 ^ 63 < t) : (2 ^ 52 + 1) / 2 ^ 115 ≤ t := by
  have hpos : 0 < t := lt_trans (by norm_num) hlow
  obtain ⟨x, hx, rfl⟩ := ht
  obtain ⟨hc, -⟩ := Binary64.canonical_of_ofFloat? hx
  rw [Binary64.toRat_of_nonneg hpos.le] at hlow ⊢
  have hbound : Binary64.Canonical ⟨false, 2 ^ 52, -115⟩ :=
    ⟨by norm_num, by norm_num, .inr (le_refl _)⟩
  have hnext : Binary64.Canonical ⟨false, 2 ^ 52 + 1, -115⟩ :=
    ⟨by norm_num, by norm_num, .inr (by norm_num)⟩
  have hsize : Binary64.size ⟨false, 2 ^ 52 + 1, -115⟩ = (2 ^ 52 + 1) / 2 ^ 115 := by
    norm_num [Binary64.size]
  rw [← hsize]
  refine le_of_not_gt fun hgt => ?_
  rw [Binary64.size_lt_iff hc hnext] at hgt
  have hlow' : Binary64.size ⟨false, 2 ^ 52, -115⟩ < x.size := by
    rw [show Binary64.size ⟨false, 2 ^ 52, -115⟩ = 1 / 2 ^ 63 by norm_num [Binary64.size]]
    exact hlow
  rw [Binary64.size_lt_iff hbound hc] at hlow'
  dsimp only at hgt hlow'
  omega

theorem writable_below_range : Writable (2 ^ 63 - 2 ^ 10) :=
  ⟨2 ^ 53 - 1, 10, by norm_num, by norm_num, by norm_num, by norm_num⟩

/-- Above, zero is not final, and the reciprocal fits. -/
theorem reciprocal_of_lt (ht : IsValue target t) (hlow : 1 / 2 ^ 63 < t) (hlt : t < 1) :
    ¬ (Binary64.ofInt 0 / Binary64.ofInt 1 - target).abs < tolerance ∧
      ¬ target - Binary64.ofInt 0 < negligible ∧
        ∃ p, IsValue (1 / (target - Binary64.ofInt 0)) p ∧ 1 ≤ p ∧ ⌊p⌋ ≤ largest := by
  have hpos : 0 < t := lt_trans (by norm_num) hlow
  have hfloor := floor_eq_zero hpos hlt
  have hfract : Int.fract t = t := by rw [Int.fract, hfloor, Int.cast_zero, sub_zero]
  have hremainder : ¬ target - Binary64.ofInt ⌊t⌋ < negligible := by
    rw [(ht.sub_floor hpos.le).lt_iff isValue_negligible, hfract, not_lt]
    exact hlow.le
  have hle : 1 / Int.fract t ≤ 2 ^ 63 - 2 ^ 10 := by
    rw [hfract, div_le_iff₀ hpos]
    have := next_le ht hlow
    linarith
  obtain ⟨p, hp, hone, hupper⟩ :=
    exists_reciprocal ht hpos.le hremainder writable_below_range hle
  rw [hfloor] at hp hremainder
  refine ⟨?_, hremainder, p, hp, hone, ?_⟩
  · rw [(isValue_error ht hpos).lt_iff isValue_tolerance, not_lt]
    exact le_trans (by norm_num) hlow.le
  · have : ⌊p⌋ ≤ (2 ^ 63 - 2 ^ 10 : ℤ) := by
      have : (⌊p⌋ : ℚ) ≤ 2 ^ 63 - 2 ^ 10 := (Int.floor_le p).trans hupper
      exact_mod_cast this
    unfold largest
    omega

theorem positive_of_lt (steps : Nat) (ht : IsValue target t) (hlow : 1 / 2 ^ 63 < t) (hlt : t < 1) :
    (expand target (steps + 2) target { num := 0, den := 1 } { num := 1, den := 0 }).Positive := by
  have hpos : 0 < t := lt_trans (by norm_num) hlow
  have hfloor := floor_eq_zero hpos hlt
  obtain ⟨herror, hremainder, p, hp, hone, hrange⟩ := reciprocal_of_lt ht hlow hlt
  have hnonneg : 0 ≤ p := by linarith
  have hpositive : 0 < ⌊p⌋ := Int.floor_pos.mpr hone
  have hsecond : Positive { num := 1, den := ⌊p⌋ } := ⟨Int.one_pos, hpositive⟩
  have hconvergent := convergent_infinite.next convergent_zero
    (nextConvergent?_second hpositive hrange)
  rw [expand_first (steps + 1) ht hpos.le (by rw [hfloor]; decide), hfloor, if_neg (by
    simp [herror, hremainder]), expand, wholePart?_eq hp hnonneg, if_pos hrange]
  dsimp only
  rw [nextConvergent?_second hpositive hrange]
  exact positive_of_step hp hnonneg hsecond fun hvalue hlower =>
    positive_expand steps hvalue hlower convergent_zero hconvergent hsecond

/-! ## Written factors -/

theorem expansion_positive (ht : IsValue target t) (hlow : 1 / 2 ^ 63 < t) (hl : ⌊t⌋ ≤ largest) :
    Positive
      (expand target longestExpansion target { num := 0, den := 1 } { num := 1, den := 0 }) := by
  rcases lt_or_ge t 1 with hlt | hone
  · exact positive_of_lt 28 ht hlow hlt
  · exact positive_of_one_le 29 ht hone hl

theorem approximate_eq (ht : IsValue target t) (hpos : 0 < t) (hl : ⌊t⌋ ≤ largest) :
    ∃ q : ℚ, approximate target = fitting q ∧ (t ≤ 1 / 2 ^ 63 → q = 0) ∧
      (1 / 2 ^ 63 < t → 0 < q) := by
  rcases le_or_gt t (1 / 2 ^ 63) with hle | hlow
  · have hzero := zero_of_le 28 ht hpos hle
    refine ⟨0, ?_, fun _ => rfl, fun h => absurd hle (not_le.mpr h)⟩
    rw [approximate, longestExpansion, hzero]
    exact ofPair_eq_fitting one_ne_zero (by norm_num)
  · obtain ⟨hnum, hden⟩ := expansion_positive ht hlow hl
    refine ⟨_, ofPair_eq_fitting hden.ne' rfl, fun h => absurd h (not_le.mpr hlow), fun _ => ?_⟩
    exact div_pos (by exact_mod_cast hnum) (by exact_mod_cast hden)

theorem truncate_eq {x : Binary64} {n : Nat} (h : x.size = n) :
    x.truncate = if x.negative then -(n : Int) else n := by
  have hfloor := x.floor_size
  rw [h, Int.floor_natCast] at hfloor
  rw [Binary64.truncate, ← hfloor]

theorem isValue_abs {x : Float} {exact : Binary64} (hx : Binary64.ofFloat? x = some exact)
    (hi : ¬ exact.isIntegral = true) :
    IsValue x.abs exact.size ∧ 0 < exact.size ∧ ⌊exact.size⌋ ≤ largest := by
  have hvalue : IsValue x exact.toRat := ⟨exact, hx, rfl⟩
  have habs := hvalue.abs
  rw [Binary64.abs_toRat] at habs
  refine ⟨habs, ?_, ?_⟩
  · refine lt_of_le_of_ne exact.size_nonneg fun hzero => hi ?_
    exact Binary64.isIntegral_iff.mpr ⟨0, by rw [← hzero, Nat.cast_zero]⟩
  · have hlt := Binary64.size_lt_of_not_isIntegral (Binary64.canonical_of_ofFloat? hx).1
      (by simpa using hi)
    have : ⌊exact.size⌋ < 2 ^ 53 := by
      rw [Int.floor_lt]
      exact_mod_cast hlt
    unfold largest
    omega

theorem approximate_abs {x : Float} {exact : Binary64} (hx : Binary64.ofFloat? x = some exact)
    (hi : ¬ exact.isIntegral = true) :
    ∃ q : ℚ, approximate x.abs = fitting q ∧ (exact.size ≤ 1 / 2 ^ 63 → q = 0) ∧
      (1 / 2 ^ 63 < exact.size → 0 < q) := by
  obtain ⟨hvalue, hpos, hl⟩ := isValue_abs hx hi
  exact approximate_eq hvalue hpos hl

/-- A written factor is refused only where it does not fit. -/
theorem overflow_ofFloat (x : Float) : FaultsAre (· = .overflow) (ofFloat x) := by
  unfold ofFloat
  split
  · exact .error rfl
  rename_i exact hx
  split
  · exact (overflow_inRange? _).bind fun _ => .ok _
  · rename_i hi
    obtain ⟨q, hq, -, -⟩ := approximate_abs hx hi
    rw [hq]
    exact (overflow_fitting q).bind fun _ => .ok _

/-! ## Whole doubles -/

theorem toRat_whole {exact : Binary64} (hi : exact.isIntegral = true) :
    exact.toRat = exact.truncate := by
  obtain ⟨n, hn⟩ := Binary64.isIntegral_iff.mp hi
  rw [truncate_eq hn, Binary64.toRat, hn]
  split <;> simp

/-- A whole double is taken as it is. -/
theorem ofFloat_of_whole {x : Float} {n : Int} (hx : Binary64.IsValue x n) (hn : InRange n) :
    ofFloat x = .ok (ofInt n) := by
  obtain ⟨exact, hx, hq⟩ := hx
  have hi : exact.isIntegral = true := by
    refine Binary64.isIntegral_iff.mpr ⟨n.natAbs, ?_⟩
    rw [← Binary64.abs_toRat, hq, Nat.cast_natAbs, Int.cast_abs]
  have htruncate : exact.truncate = n := by
    have hwhole := toRat_whole hi
    rw [hq] at hwhole
    exact_mod_cast hwhole.symm
  rw [ofFloat, hx]
  dsimp only
  rw [if_pos hi, htruncate, inRange?_ok hn, ok_bind]
  rfl

theorem ofFloat_nearest {n : Nat} (h : n < 2 ^ 53) :
    ofFloat (Binary64.nearest false n 1) = .ok (ofInt n) := by
  refine ofFloat_of_whole ?_ (by unfold InRange; omega)
  simpa using Binary64.isValue_nearest false (Binary64.writable_of_lt h)

/-! ## Signs -/

theorem toRat_neg (x : Fraction) : toRat { x with num := -x.num } = -x.toRat := by
  rw [toRat, toRat, Int.cast_neg, neg_div]

/-- A whole double near zero is zero. -/
theorem sign_whole {exact : Binary64} (hi : exact.isIntegral = true) :
    SignType.sign exact.toRat =
      if |exact.toRat| ≤ 1 / 2 ^ 63 then 0 else SignType.sign exact.toRat := by
  split
  · rename_i hle
    rw [toRat_whole hi] at hle ⊢
    have hlt : |exact.truncate| < 1 := by
      have hlt : |(exact.truncate : ℚ)| < 1 := hle.trans_lt (by norm_num)
      exact_mod_cast hlt
    rw [Int.abs_lt_one_iff.mp hlt, Int.cast_zero, sign_zero]
  · rfl

/-- A number that is zero or positive as the size of a double says, with the sign of the double. -/
theorem sign_signed {exact : Binary64} {q : ℚ} (hsmall : exact.size ≤ 1 / 2 ^ 63 → q = 0)
    (hlarge : 1 / 2 ^ 63 < exact.size → 0 < q) :
    SignType.sign (if exact.negative then -q else q) =
      if |exact.toRat| ≤ 1 / 2 ^ 63 then 0 else SignType.sign exact.toRat := by
  rw [Binary64.abs_toRat]
  rcases le_or_gt exact.size (1 / 2 ^ 63) with hle | hgt
  · rw [if_pos hle, hsmall hle, neg_zero, ite_self, sign_zero]
  · have hsize : 0 < exact.size := lt_trans (by norm_num) hgt
    rw [if_neg (not_le.mpr hgt), Binary64.toRat]
    split
    · rw [Left.sign_neg, Left.sign_neg, sign_pos hsize, sign_pos (hlarge hgt)]
    · rw [sign_pos hsize, sign_pos (hlarge hgt)]

/-- The fraction of a written factor is zero up to `2^-63`, and beyond has the sign of the
double. -/
theorem sign_ofFloat {x : Float} {z : Fraction} {q : ℚ} (hx : IsValue x q)
    (h : ofFloat x = .ok z) :
    SignType.sign z.toRat = if |q| ≤ 1 / 2 ^ 63 then 0 else SignType.sign q := by
  obtain ⟨exact, hx, rfl⟩ := hx
  rw [ofFloat, hx] at h
  dsimp only at h
  split at h
  · rename_i hi
    obtain ⟨whole, hw, h⟩ := ok_of_bind h
    cases h
    rw [inRange?_eq_ok hw, ofInt_eq_ofRat, toRat_ofRat, ← toRat_whole hi]
    exact sign_whole hi
  · rename_i hi
    obtain ⟨r, hr, hsmall, hlarge⟩ := approximate_abs hx hi
    obtain ⟨found, hf, h⟩ := ok_of_bind h
    cases h
    rw [hr] at hf
    obtain ⟨rfl, -⟩ := fitting_eq_ok_iff.mp hf
    rw [apply_ite toRat, toRat_neg, toRat_ofRat]
    exact sign_signed hsmall hlarge

theorem toRat_eq_zero_iff {x : Float} {z : Fraction} {q : ℚ} (hx : IsValue x q)
    (h : ofFloat x = .ok z) : z.toRat = 0 ↔ |q| ≤ 1 / 2 ^ 63 := by
  rw [← sign_eq_zero_iff, sign_ofFloat hx h]
  split
  · rename_i hle
    exact iff_of_true rfl hle
  · rename_i hgt
    refine iff_of_false (fun hzero => hgt ?_) hgt
    rw [sign_eq_zero_iff.mp hzero, abs_zero]
    norm_num

theorem sign_of_ne_zero {x : Float} {z : Fraction} {q : ℚ} (hx : IsValue x q)
    (h : ofFloat x = .ok z) (hz : z.toRat ≠ 0) : SignType.sign z.toRat = SignType.sign q := by
  rw [sign_ofFloat hx h, if_neg ((toRat_eq_zero_iff hx h).not.mp hz)]

theorem toRat_pos {x : Float} {z : Fraction} {q : ℚ} (hx : IsValue x q) (h : ofFloat x = .ok z)
    (hq : 1 / 2 ^ 63 < q) : 0 < z.toRat := by
  have hpos : 0 < q := lt_trans (by norm_num) hq
  rw [← sign_eq_one_iff, sign_ofFloat hx h, if_neg, sign_pos hpos]
  rw [abs_of_pos hpos, not_le]
  exact hq

/-- Only finite doubles stand for fractions. -/
theorem exists_value {x : Float} {z : Fraction} (h : ofFloat x = .ok z) : ∃ q, IsValue x q := by
  unfold ofFloat at h
  split at h
  · cases h
  · rename_i exact hx
    exact ⟨exact.toRat, exact, hx, rfl⟩

end Marksheet.Fraction
