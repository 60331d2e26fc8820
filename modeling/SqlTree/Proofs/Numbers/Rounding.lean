import SqlTree.Number.Binary64
import Mathlib.Data.Nat.Log
import Mathlib.Tactic.Linarith
import Mathlib.Tactic.NormNum
import Mathlib.Tactic.Positivity
import Mathlib.Tactic.Ring
import Mathlib.Tactic.FieldSimp
import Mathlib.Algebra.Order.Field.Power

/-!
Rounding to 64 bits. What a decimal is rounded to depends on its value alone, so the digits that are
found for a number round back to it however they are laid out.
-/

namespace SqlTree.Number

/-- The value of a decimal. -/
def Decimal.value (d : Decimal) : ℚ := d.digits * (10 : ℚ) ^ d.exponent

theorem Decimal.value_eq_zero_iff {d : Decimal} : d.value = 0 ↔ d.digits = 0 := by
  have hpow : (10 : ℚ) ^ d.exponent ≠ 0 := zpow_ne_zero _ (by norm_num)
  simp [value, hpow]

namespace Binary64

section Quotients

variable {a b c d : Nat}

theorem roundDiv_mul {k : Nat} (hk : 0 < k) (a b : Nat) : roundDiv (a * k) (b * k) = roundDiv a b := by
  have hlow : 2 * (a % b * k) < b * k ↔ 2 * (a % b) < b := by
    rw [← Nat.mul_assoc, Nat.mul_lt_mul_right hk]
  have hhigh : b * k < 2 * (a % b * k) ↔ b < 2 * (a % b) := by
    rw [← Nat.mul_assoc, Nat.mul_lt_mul_right hk]
  simp only [roundDiv, Nat.mul_div_mul_right _ _ hk, Nat.mul_mod_mul_right, hlow, hhigh]

/-- Quotients of one value are rounded alike. -/
theorem roundDiv_congr (hb : b ≠ 0) (hd : d ≠ 0) (h : (a : ℚ) / b = c / d) :
    roundDiv a b = roundDiv c d := by
  have hcross : a * d = c * b := by
    have hcast := (div_eq_div_iff (Nat.cast_ne_zero.mpr hb) (Nat.cast_ne_zero.mpr hd)).mp h
    exact_mod_cast hcast
  rw [← roundDiv_mul (Nat.pos_of_ne_zero hd) a b, ← roundDiv_mul (Nat.pos_of_ne_zero hb) c d,
    hcross, Nat.mul_comm b d]

theorem roundDiv_self_mul (hb : b ≠ 0) (m : Nat) : roundDiv (m * b) b = m := by
  have hpos : 0 < b := Nat.pos_of_ne_zero hb
  simp [roundDiv, Nat.mul_div_cancel m hpos, hpos]

theorem le_roundDiv (a b : Nat) : a / b ≤ roundDiv a b := by
  unfold roundDiv
  dsimp only
  split_ifs <;> omega

theorem roundDiv_le (a b : Nat) : roundDiv a b ≤ a / b + 1 := by
  unfold roundDiv
  dsimp only
  split_ifs <;> omega

/-- A power is split into a factor and a divisor by the sign of its exponent. -/
theorem pow_div_pow (base : Nat) (e : Int) :
    ((Nat.pow base e.toNat : Nat) : ℚ) / (Nat.pow base (-e).toNat : Nat) = (base : ℚ) ^ e := by
  obtain ⟨n, rfl | rfl⟩ := e.eq_nat_or_neg
  · simp
  · simp [zpow_neg]

theorem tenTo_ne_zero (e : Int) : tenTo e ≠ 0 := pow_ne_zero _ (by decide)

theorem twoTo_ne_zero (e : Int) : twoTo e ≠ 0 := pow_ne_zero _ (by decide)

theorem fraction_eq (d : Decimal) : ((fraction d).1 : ℚ) / (fraction d).2 = d.value := by
  have h := pow_div_pow 10 d.exponent
  rw [fraction, Decimal.value, ← Nat.cast_ofNat (R := ℚ), ← h, Nat.cast_mul, mul_div_assoc]
  rfl

theorem scaled_eq (num den : Nat) (q : Int) :
    ((scaled num den q).1 : ℚ) / (scaled num den q).2 = num / den / 2 ^ q := by
  have h := pow_div_pow 2 q
  have hinv : (2 : ℚ) ^ q = twoTo q / twoTo (-q) := by
    rw [← Nat.cast_ofNat (R := ℚ), ← h]
    rfl
  rw [hinv, scaled, Nat.cast_mul, Nat.cast_mul]
  field_simp

end Quotients

section Exponents

variable {x : ℚ} {q q' : Int} {num den : Nat}

/-- The value has 53 binary digits at the exponent, or fewer at the smallest one. -/
structure Fits (x : ℚ) (q : Int) : Prop where
  smallest : smallestExponent ≤ q
  upper : x < 2 ^ (q + 53)
  lower : smallestExponent < q → 2 ^ (q + 52) ≤ x

theorem Fits.le (h : Fits x q) (h' : Fits x q') : q ≤ q' := by
  by_contra hlt
  have hsmall : smallestExponent < q := by have := h'.smallest; omega
  have hpow := (zpow_lt_zpow_iff_right₀ (by norm_num : (1 : ℚ) < 2)).mp
    (lt_of_le_of_lt (h.lower hsmall) h'.upper)
  omega

theorem Fits.unique (h : Fits x q) (h' : Fits x q') : q = q' := Int.le_antisymm (h.le h') (h'.le h)

theorem log2_bounds {n : Nat} (hn : n ≠ 0) :
    (2 : ℚ) ^ (n.log2 : Int) ≤ n ∧ (n : ℚ) < 2 ^ ((n.log2 : Int) + 1) := by
  have hle : 2 ^ n.log2 ≤ n := Nat.log2_self_le hn
  have hlt : n < 2 ^ (n.log2 + 1) := Nat.lt_log2_self
  constructor
  · rw [zpow_natCast]
    exact_mod_cast hle
  · rw [← Nat.cast_succ, zpow_natCast]
    exact_mod_cast hlt

theorem log2_quotient (hnum : num ≠ 0) (hden : den ≠ 0) :
    (2 : ℚ) ^ ((num.log2 : Int) - den.log2 - 1) ≤ num / den ∧
      (num : ℚ) / den < 2 ^ ((num.log2 : Int) - den.log2 + 1) := by
  obtain ⟨hn, hn'⟩ := log2_bounds hnum
  obtain ⟨hd, hd'⟩ := log2_bounds hden
  have hpos : (0 : ℚ) < den := by exact_mod_cast Nat.pos_of_ne_zero hden
  have htwo : (2 : ℚ) ≠ 0 := by norm_num
  constructor
  · rw [le_div_iff₀ hpos]
    calc (2 : ℚ) ^ ((num.log2 : Int) - den.log2 - 1) * den
        ≤ 2 ^ ((num.log2 : Int) - den.log2 - 1) * 2 ^ ((den.log2 : Int) + 1) := by gcongr
      _ = 2 ^ (num.log2 : Int) := by rw [← zpow_add₀ htwo]; congr 1; ring
      _ ≤ num := hn
  · rw [div_lt_iff₀ hpos]
    calc (num : ℚ) < 2 ^ ((num.log2 : Int) + 1) := hn'
      _ = 2 ^ ((num.log2 : Int) - den.log2 + 1) * 2 ^ (den.log2 : Int) := by
        rw [← zpow_add₀ htwo]; congr 1; ring
      _ ≤ 2 ^ ((num.log2 : Int) - den.log2 + 1) * den := by gcongr

theorem scaled_ne_zero (hden : den ≠ 0) (q : Int) : (scaled num den q).2 ≠ 0 :=
  Nat.mul_ne_zero hden (twoTo_ne_zero q)

theorem le_scaled (hden : den ≠ 0) (q : Int) (j : Nat) :
    2 ^ j ≤ (scaled num den q).1 / (scaled num den q).2 ↔ (2 : ℚ) ^ (q + j) ≤ num / den := by
  have hk : 0 < (scaled num den q).2 := Nat.pos_of_ne_zero (scaled_ne_zero hden q)
  have hpow : (0 : ℚ) < 2 ^ q := by positivity
  have hsplit : (2 : ℚ) ^ (q + j) = 2 ^ j * 2 ^ q := by
    rw [zpow_add₀ (by norm_num), mul_comm, zpow_natCast]
  rw [Nat.le_div_iff_mul_le hk, hsplit, ← le_div_iff₀ hpow, ← scaled_eq num den q,
    le_div_iff₀ (by exact_mod_cast hk)]
  norm_cast

theorem fits_fittingExponent (hnum : num ≠ 0) (hden : den ≠ 0) :
    Fits (num / den) (fittingExponent num den) := by
  obtain ⟨hlow, hhigh⟩ := log2_quotient hnum hden
  have hmono : ∀ {e e' : Int}, e ≤ e' → (2 : ℚ) ^ e ≤ 2 ^ e' := fun h =>
    zpow_le_zpow_right₀ (by norm_num) h
  have hiff := @le_scaled num den hden
    (max ((num.log2 : Int) - den.log2 - 53) smallestExponent) 53
  unfold fittingExponent
  dsimp only
  generalize hq : max ((num.log2 : Int) - den.log2 - 53) smallestExponent = q at hiff
  split
  · next hsplit =>
    exact ⟨by omega, lt_of_lt_of_le hhigh (hmono (by omega)), fun _ =>
      le_trans (hmono (by omega)) (hiff.mp hsplit)⟩
  · next hsplit =>
    refine ⟨by omega, not_le.mp (mt hiff.mpr hsplit), fun hsmall => ?_⟩
    exact le_trans (hmono (by omega)) hlow

end Exponents

section Magnitudes

variable {d d' : Decimal}

/-- The number of digits in front of the point, or the negated number of zeros behind it. -/
def magnitude (d : Decimal) : Int := (digitCount d.digits : Int) + d.exponent

theorem digitCount_bounds {n : Nat} (hn : n ≠ 0) :
    0 < digitCount n ∧ 10 ^ (digitCount n - 1) ≤ n ∧ n < 10 ^ digitCount n := by
  have hpos : 0 < digitCount n := Nat.length_toDigits_pos
  refine ⟨hpos, ?_, (Nat.length_toDigits_le_iff (by decide) hpos).mp (Nat.le_refl _)⟩
  by_contra hlt
  by_cases hone : digitCount n - 1 = 0
  · rw [hone] at hlt
    omega
  · have hle := (Nat.length_toDigits_le_iff (b := 10) (by decide) (Nat.pos_of_ne_zero hone)).mpr
      (not_le.mp hlt)
    have hself : (Nat.toDigits 10 n).length = digitCount n := rfl
    omega

theorem magnitude_bounds (hd : d.digits ≠ 0) :
    (10 : ℚ) ^ (magnitude d - 1) ≤ d.value ∧ d.value < 10 ^ magnitude d := by
  obtain ⟨hpos, hle, hlt⟩ := digitCount_bounds hd
  have hten : (10 : ℚ) ≠ 0 := by norm_num
  have hpow : (0 : ℚ) < 10 ^ d.exponent := by positivity
  have hsplit : (10 : ℚ) ^ (magnitude d - 1) = 10 ^ (digitCount d.digits - 1) * 10 ^ d.exponent := by
    rw [← zpow_natCast, ← zpow_add₀ hten]
    congr 1
    rw [magnitude]
    omega
  constructor
  · rw [hsplit, Decimal.value]
    gcongr
    exact_mod_cast hle
  · rw [magnitude, zpow_add₀ hten, zpow_natCast, Decimal.value]
    gcongr
    exact_mod_cast hlt

theorem magnitude_le (hd : d.digits ≠ 0) (hd' : d'.digits ≠ 0) (h : d.value ≤ d'.value) :
    magnitude d ≤ magnitude d' := by
  have hpow := (zpow_lt_zpow_iff_right₀ (by norm_num : (1 : ℚ) < 10)).mp
    (lt_of_le_of_lt (le_trans (magnitude_bounds hd).1 h) (magnitude_bounds hd').2)
  omega

/-- The mantissa and the exponent that a quotient is rounded to, whatever its size. -/
def nearest (num den : Nat) : Nat × Int :=
  let q := fittingExponent num den
  let m := roundDiv (scaled num den q).1 (scaled num den q).2
  if m = twoTo 53 then (twoTo 52, q + 1) else (m, q)

theorem ofDecimal_eq (negative : Bool) (d : Decimal) : ofDecimal negative d =
    if d.digits = 0 ∨ magnitude d < -400 then .finite negative 0 smallestExponent
    else if 400 < magnitude d then .infinite negative
    else if largestExponent < (nearest (fraction d).1 (fraction d).2).2 then .infinite negative
    else .finite negative (nearest (fraction d).1 (fraction d).2).1
      (nearest (fraction d).1 (fraction d).2).2 := rfl

theorem fraction_ne_zero (hd : d.digits ≠ 0) : (fraction d).1 ≠ 0 ∧ (fraction d).2 ≠ 0 :=
  ⟨Nat.mul_ne_zero hd (tenTo_ne_zero _), tenTo_ne_zero _⟩

theorem fittingExponent_eq {num den : Nat} (hnum : num ≠ 0) (hden : den ≠ 0) {q : Int}
    (h : Fits (num / den) q) : fittingExponent num den = q :=
  (fits_fittingExponent hnum hden).unique h

/-- Decimals of one value are rounded alike. -/
theorem ofDecimal_congr (h : d.value = d'.value) (negative : Bool) :
    ofDecimal negative d = ofDecimal negative d' := by
  by_cases hzero : d.digits = 0
  · have hzero' : d'.digits = 0 := by
      rw [← Decimal.value_eq_zero_iff, ← h, Decimal.value_eq_zero_iff.mpr hzero]
    rw [ofDecimal_eq, ofDecimal_eq, if_pos (.inl hzero), if_pos (.inl hzero')]
  · have hzero' : d'.digits ≠ 0 := by
      rwa [Ne, ← Decimal.value_eq_zero_iff, ← h, Decimal.value_eq_zero_iff]
    have hmagnitude : magnitude d = magnitude d' :=
      Int.le_antisymm (magnitude_le hzero hzero' h.le) (magnitude_le hzero' hzero h.ge)
    obtain ⟨hnum, hden⟩ := fraction_ne_zero hzero
    obtain ⟨hnum', hden'⟩ := fraction_ne_zero hzero'
    have hvalue : ((fraction d).1 : ℚ) / (fraction d).2 = (fraction d').1 / (fraction d').2 := by
      rw [fraction_eq, fraction_eq, h]
    have hexponent : fittingExponent (fraction d).1 (fraction d).2 =
        fittingExponent (fraction d').1 (fraction d').2 :=
      fittingExponent_eq hnum hden (hvalue ▸ fits_fittingExponent hnum' hden')
    have hnearest : nearest (fraction d).1 (fraction d).2 =
        nearest (fraction d').1 (fraction d').2 := by
      have hround := roundDiv_congr
        (scaled_ne_zero hden (fittingExponent (fraction d').1 (fraction d').2))
        (scaled_ne_zero hden' (fittingExponent (fraction d').1 (fraction d').2))
        (by rw [scaled_eq, scaled_eq, hvalue])
      simp only [nearest, hexponent, hround]
    simp only [ofDecimal_eq, hzero, hzero', hmagnitude, hnearest]

theorem ofDecimal_negate (d : Decimal) : ofDecimal true d = (ofDecimal false d).negate := by
  simp only [ofDecimal_eq]
  split_ifs <;> rfl

end Magnitudes

section Shortest

variable {m : Nat} {q : Int}

/-- A mantissa and an exponent that a number is rounded to. -/
structure Rounded (m : Nat) (q : Int) : Prop where
  smallest : smallestExponent ≤ q
  largest : q ≤ largestExponent
  upper : m < 2 ^ 53
  lower : smallestExponent < q → 2 ^ 52 ≤ m

theorem rounded_nearest {num den : Nat} (hnum : num ≠ 0) (hden : den ≠ 0)
    (hlargest : (nearest num den).2 ≤ largestExponent) :
    Rounded (nearest num den).1 (nearest num den).2 := by
  have hfits := fits_fittingExponent hnum hden
  unfold nearest at hlargest ⊢
  dsimp only at hlargest ⊢
  generalize fittingExponent num den = e at hfits hlargest ⊢
  have hk : 0 < (scaled num den e).2 := Nat.pos_of_ne_zero (scaled_ne_zero hden e)
  have hupper : (scaled num den e).1 / (scaled num den e).2 < 2 ^ 53 :=
    not_le.mp fun h => absurd ((le_scaled hden e 53).mp h) (not_le.mpr hfits.upper)
  have hlower : smallestExponent < e → 2 ^ 52 ≤ (scaled num den e).1 / (scaled num den e).2 :=
    fun h => (le_scaled hden e 52).mpr (hfits.lower h)
  have hle := le_roundDiv (scaled num den e).1 (scaled num den e).2
  have hge := roundDiv_le (scaled num den e).1 (scaled num den e).2
  have hsmallest := hfits.smallest
  have htwo : twoTo 53 = 2 ^ 53 ∧ twoTo 52 = 2 ^ 52 := ⟨rfl, rfl⟩
  split at hlargest
  · next heq =>
    rw [if_pos heq]
    exact ⟨by omega, hlargest, Nat.pow_lt_pow_right (by decide) (by decide), fun _ => Nat.le_refl _⟩
  · next hne =>
    rw [if_neg hne]
    exact ⟨hsmallest, hlargest, by omega, fun h => Nat.le_trans (hlower h) hle⟩

/-- What is rounded to a finite number is rounded to a fitting one. -/
theorem rounded_ofDecimal {d : Decimal} {s s' : Bool} (h : ofDecimal s d = .finite s' m q) :
    Rounded m q := by
  rw [ofDecimal_eq] at h
  split at h
  · cases h
    exact ⟨Int.le_refl _, by decide, by decide, fun h => absurd h (Int.lt_irrefl _)⟩
  · next hcases =>
    rw [not_or] at hcases
    obtain ⟨hnum, hden⟩ := fraction_ne_zero hcases.1
    split at h
    · cases h
    · split at h
      · cases h
      · next hlargest =>
        cases h
        exact rounded_nearest hnum hden (not_lt.mp hlargest)

theorem exact_value (m : Nat) (q : Int) : (exact m q).value = m * (2 : ℚ) ^ q := by
  obtain ⟨n, rfl | rfl⟩ := q.eq_nat_or_neg
  · simp [exact, Decimal.value, twoTo, fiveTo]
  · have hten : (10 : ℚ) ^ n = 2 ^ n * 5 ^ n := by rw [← mul_pow]; norm_num
    simp [exact, Decimal.value, twoTo, fiveTo, zpow_neg, hten]
    field_simp

theorem Rounded.fits (h : Rounded m q) : Fits (m * (2 : ℚ) ^ q) q := by
  have hpow : (0 : ℚ) < 2 ^ q := by positivity
  have hsplit : ∀ j : Nat, (2 : ℚ) ^ (q + j) = 2 ^ j * 2 ^ q := fun j => by
    rw [zpow_add₀ (by norm_num), mul_comm, zpow_natCast]
  refine ⟨h.smallest, ?_, fun hsmall => ?_⟩
  · have hupper : (m : ℚ) < 2 ^ 53 := by exact_mod_cast h.upper
    exact (hsplit 53).symm ▸ mul_lt_mul_of_pos_right hupper hpow
  · have hlower : (2 : ℚ) ^ 52 ≤ m := by exact_mod_cast h.lower hsmall
    exact (hsplit 52).symm ▸ mul_le_mul_of_nonneg_right hlower hpow.le

theorem two_pow_lt_ten_pow : (2 : ℚ) ^ (1080 : Int) < 10 ^ (400 : Int) := by
  have htwo : (2 : ℚ) ^ (1080 : Int) = (2 ^ 27) ^ 40 := by rw [← pow_mul]; rfl
  have hten : (10 : ℚ) ^ (400 : Int) = (10 ^ 10) ^ 40 := by rw [← pow_mul]; rfl
  rw [htwo, hten]
  exact pow_lt_pow_left₀ (by norm_num) (by norm_num) (by decide)

/-- A decimal with the value of a number is rounded to it. -/
theorem ofDecimal_of_value (h : Rounded m q) (hm : m ≠ 0) {d : Decimal}
    (hd : d.value = m * (2 : ℚ) ^ q) : ofDecimal false d = .finite false m q := by
  have hpow : (0 : ℚ) < 2 ^ q := by positivity
  have hpos : (1 : ℚ) ≤ m := by exact_mod_cast Nat.one_le_iff_ne_zero.mpr hm
  have hzero : d.digits ≠ 0 := by
    rw [Ne, ← Decimal.value_eq_zero_iff, hd]
    positivity
  obtain ⟨hnum, hden⟩ := fraction_ne_zero hzero
  obtain ⟨hlow, hhigh⟩ := magnitude_bounds hzero
  have hsmall : ¬ magnitude d < -400 := by
    intro hlt
    have hten : (10 : ℚ) ^ magnitude d ≤ 10 ^ (-400 : Int) :=
      zpow_le_zpow_right₀ (by norm_num) (by omega)
    have htwo : (2 : ℚ) ^ (-1080 : Int) ≤ 2 ^ q :=
      zpow_le_zpow_right₀ (by norm_num) (le_trans (by decide) h.smallest)
    have hgap : (10 : ℚ) ^ (-400 : Int) < 2 ^ (-1080 : Int) := by
      rw [zpow_neg, zpow_neg]
      exact inv_strictAnti₀ (by positivity) two_pow_lt_ten_pow
    have hle : (2 : ℚ) ^ q ≤ d.value := hd ▸ le_mul_of_one_le_left hpow.le hpos
    exact absurd (htwo.trans hle) (not_le.mpr (hhigh.trans_le (hten.trans hgap.le)))
  have hlarge : ¬ 400 < magnitude d := by
    intro hlt
    have hten : (10 : ℚ) ^ (400 : Int) ≤ 10 ^ (magnitude d - 1) :=
      zpow_le_zpow_right₀ (by norm_num) (by omega)
    have hexponent : q + 53 ≤ 1080 := le_trans (Int.add_le_add_right h.largest 53) (by decide)
    have htwo : (2 : ℚ) ^ (q + 53) ≤ 2 ^ (1080 : Int) := zpow_le_zpow_right₀ (by norm_num) hexponent
    have hupper : d.value < 2 ^ (q + 53) := hd ▸ h.fits.upper
    exact absurd (hten.trans hlow) (not_le.mpr (hupper.trans (htwo.trans_lt two_pow_lt_ten_pow)))
  have hexponent : fittingExponent (fraction d).1 (fraction d).2 = q := by
    refine fittingExponent_eq hnum hden ?_
    rw [fraction_eq, hd]
    exact h.fits
  have hround : roundDiv (scaled (fraction d).1 (fraction d).2 q).1
      (scaled (fraction d).1 (fraction d).2 q).2 = m := by
    have hone : ((scaled (fraction d).1 (fraction d).2 q).1 : ℚ) /
        (scaled (fraction d).1 (fraction d).2 q).2 = (m : Nat) / (1 : Nat) := by
      rw [scaled_eq, fraction_eq, hd, mul_div_cancel_right₀ _ hpow.ne', Nat.cast_one, div_one]
    have hself := roundDiv_self_mul Nat.one_ne_zero m
    rwa [Nat.mul_one, ← roundDiv_congr (scaled_ne_zero hden q) Nat.one_ne_zero hone] at hself
  have htwo : m ≠ twoTo 53 := Nat.ne_of_lt h.upper
  have hnearest : nearest (fraction d).1 (fraction d).2 = (m, q) := by
    simp only [nearest, hexponent, hround, if_neg htwo]
  rw [ofDecimal_eq, if_neg (not_or.mpr ⟨hzero, hsmall⟩), if_neg hlarge, hnearest,
    if_neg (not_lt.mpr h.largest)]

theorem stripZeros_value (fuel : Nat) (d : Decimal) : (stripZeros fuel d).value = d.value := by
  induction fuel generalizing d with
  | zero => rfl
  | succ fuel ih =>
    rw [stripZeros]
    split
    · next hd =>
      have hdigits : d.digits = d.digits / 10 * 10 := by omega
      have hten : (10 : ℚ) ≠ 0 := by norm_num
      rw [ih, Decimal.value, Decimal.value, zpow_add₀ hten, zpow_one]
      conv_rhs => rw [hdigits, Nat.cast_mul]
      push_cast
      ring
    · rfl

/-- The shortest digits of a number are rounded to it. -/
theorem ofDecimal_shortest (h : Rounded m q) (hm : m ≠ 0) :
    ofDecimal false (shortest m q) = .finite false m q := by
  rw [shortest, if_neg hm]
  dsimp only
  rw [ofDecimal_congr (stripZeros_value _ _)]
  cases htried : (List.range 17).findSome? _ with
  | none => exact ofDecimal_of_value h hm (exact_value m q)
  | some d =>
    obtain ⟨n, -, hn⟩ := List.exists_of_findSome?_eq_some htried
    simpa using List.find?_some hn

end Shortest

end Binary64

end SqlTree.Number
