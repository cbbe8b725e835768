import Mathlib.Algebra.Order.Field.Power
import Mathlib.Tactic.FieldSimp
import Mathlib.Tactic.Linarith
import Mathlib.Tactic.NormNum
import Mathlib.Tactic.Positivity
import Mathlib.Tactic.Ring
import RouterShift.Decimal.Double

/-! Rounding to a double, as arithmetic on rationals. A ratio below the middle between the greatest
    double and the next power of two has a nearest double (`exists_ofRatio?`), and that is off by
    half a unit in the last place at most (`isNear_of_ofRatio?`). -/

namespace RouterShift.Decimal

theorem factor_pos {base : Nat} (hbase : 0 < base) (e : Int) : 0 < factor base e :=
  Nat.pow_pos hbase

/-- A power with a sign in its exponent is a ratio of two without. -/
theorem factor_eq {base : Nat} (hbase : 0 < base) (e : Int) :
    (factor base e : ℚ) = (base : ℚ) ^ e * factor base (-e) := by
  have hne : (base : ℚ) ≠ 0 := Nat.cast_ne_zero.2 (by omega)
  rw [factor, factor]
  simp only [Nat.pow_eq, Nat.cast_pow]
  rw [← zpow_natCast, ← zpow_natCast, ← zpow_add₀ hne]
  congr 1
  omega

namespace Double

/-- What a double stands for but for its sign. -/
def magnitude (x : Double) : ℚ := x.mantissa * 2 ^ x.exponent

/-- The bits and the exponent are within the bounds of the format. -/
structure IsRegular (x : Double) : Prop where
  mantissa_lt : x.mantissa < 2 ^ 53
  le_exponent : minExponent ≤ x.exponent
  exponent_le : x.exponent ≤ maxExponent

/-- The double is on a ratio, but for rounding: it is off by no more than half a unit in the last of 53
    bits, or half the least double. -/
structure IsNear (x : Double) (ratio : ℚ) : Prop where
  regular : x.IsRegular
  near : |x.magnitude - ratio| ≤ ratio / 2 ^ 53 + 2 ^ (minExponent - 1)

/-- Half a unit above the greatest double. -/
def overflow : ℚ := (2 ^ 53 - 1 / 2) * 2 ^ maxExponent

section
variable {num den : Nat} {e : Int}

theorem scale_pos (hden : 0 < den) : 0 < (scale num den e).2 :=
  Nat.mul_pos hden (factor_pos (by decide) e)

theorem scale_div (hden : 0 < den) :
    ((scale num den e).1 : ℚ) / (scale num den e).2 = num / den / 2 ^ e := by
  have hd : (den : ℚ) ≠ 0 := Nat.cast_ne_zero.2 (by omega)
  have htwo : (2 : ℚ) ^ e ≠ 0 := zpow_ne_zero _ (by norm_num)
  have hfactor : (factor 2 (-e) : ℚ) ≠ 0 :=
    Nat.cast_ne_zero.2 (Nat.pos_iff_ne_zero.1 (factor_pos (by decide) _))
  have heq := factor_eq (show 0 < 2 by decide) e
  simp only [scale, Nat.cast_mul, Nat.cast_ofNat] at heq ⊢
  rw [heq]
  field_simp

/-! ### To the nearest -/

/-- The rounded ratio is within a half of the ratio. -/
theorem roundRatio_near (hden : 0 < den) :
    |(roundRatio num den : ℚ) - num / den| ≤ 1 / 2 := by
  have hdiv := Nat.div_add_mod num den
  have hmod := Nat.mod_lt num hden
  have hboth : 2 * (den * roundRatio num den) ≤ 2 * num + den ∧
      2 * num ≤ 2 * (den * roundRatio num den) + den := by
    rw [roundRatio]
    split
    · omega
    split
    · rw [Nat.mul_add]
      omega
    split
    · omega
    · rw [Nat.mul_add]
      omega
  obtain ⟨hle, hge⟩ := hboth
  have hd : (0 : ℚ) < den := Nat.cast_pos.2 hden
  have hle' : (2 : ℚ) * (den * roundRatio num den) ≤ 2 * num + den := by exact_mod_cast hle
  have hge' : (2 : ℚ) * num ≤ 2 * (den * roundRatio num den) + den := by exact_mod_cast hge
  have hq : (num : ℚ) = num / den * den := by field_simp
  generalize (num : ℚ) / den = q at hq ⊢
  rw [hq] at hle' hge'
  rw [abs_le]
  constructor <;> nlinarith

theorem log2_bounds {n : Nat} (hn : 0 < n) :
    (2 : ℚ) ^ (n.log2 : Int) ≤ n ∧ (n : ℚ) < 2 ^ ((n.log2 : Int) + 1) := by
  have hle := Nat.log2_self_le (Nat.pos_iff_ne_zero.1 hn)
  have hlt : n < 2 ^ (n.log2 + 1) := Nat.lt_log2_self
  rw [← Nat.cast_succ, zpow_natCast, zpow_natCast]
  exact ⟨by exact_mod_cast hle, by exact_mod_cast hlt⟩

/-- At its exponent a ratio takes 53 bits, or fewer if that is the least exponent. -/
theorem exponentOf_spec (hnum : 0 < num) (hden : 0 < den) :
    minExponent ≤ exponentOf num den ∧ (num : ℚ) / den < 2 ^ 53 * 2 ^ exponentOf num den ∧
      (exponentOf num den = minExponent ∨ 2 ^ 52 * 2 ^ exponentOf num den ≤ (num : ℚ) / den) := by
  obtain ⟨hnum_le, hnum_lt⟩ := log2_bounds hnum
  obtain ⟨hden_le, hden_lt⟩ := log2_bounds hden
  have hd : (0 : ℚ) < den := Nat.cast_pos.2 hden
  have htwo (k : Int) : (0 : ℚ) < 2 ^ k := zpow_pos (by norm_num) k
  rw [exponentOf]
  generalize hguess : (num.log2 : Int) - (den.log2 : Int) - 53 = guess
  dsimp only
  have hlt : (num : ℚ) / den < 2 ^ (guess + 54) := by
    rw [div_lt_iff₀ hd]
    calc (num : ℚ) < 2 ^ ((num.log2 : Int) + 1) := hnum_lt
      _ = 2 ^ (guess + 54) * 2 ^ (den.log2 : Int) := by
        rw [← zpow_add₀ (by norm_num)]
        congr 1
        omega
      _ ≤ 2 ^ (guess + 54) * den := mul_le_mul_of_nonneg_left hden_le (htwo _).le
  have hge : 2 ^ (guess + 52) ≤ (num : ℚ) / den := by
    rw [le_div_iff₀ hd]
    calc (2 : ℚ) ^ (guess + 52) * den ≤ 2 ^ (guess + 52) * 2 ^ ((den.log2 : Int) + 1) :=
          mul_le_mul_of_nonneg_left hden_lt.le (htwo _).le
      _ = 2 ^ (num.log2 : Int) := by
        rw [← zpow_add₀ (by norm_num)]
        congr 1
        omega
      _ ≤ num := hnum_le
  have hfits : (scale num den guess).1 / (scale num den guess).2 < Nat.pow 2 53 ↔
      (num : ℚ) / den < 2 ^ 53 * 2 ^ guess := by
    rw [Nat.div_lt_iff_lt_mul (scale_pos hden), ← div_lt_iff₀ (htwo guess), ← scale_div hden,
      div_lt_iff₀ (Nat.cast_pos.2 (scale_pos hden))]
    exact_mod_cast Iff.rfl
  obtain ⟨e, he, hboth⟩ : ∃ e, (if (scale num den guess).1 / (scale num den guess).2 < Nat.pow 2 53
      then guess else guess + 1) = e ∧
        (num : ℚ) / den < 2 ^ 53 * 2 ^ e ∧ 2 ^ 52 * 2 ^ e ≤ (num : ℚ) / den := by
    refine ⟨_, rfl, ?_⟩
    by_cases h : (num : ℚ) / den < 2 ^ 53 * 2 ^ guess
    · rw [if_pos (hfits.2 h)]
      refine ⟨h, ?_⟩
      rwa [zpow_add₀ (by norm_num), mul_comm] at hge
    · rw [if_neg fun hlt => h (hfits.1 hlt)]
      rw [zpow_add₀ (by norm_num)] at hlt ⊢
      constructor
      · norm_num at hlt ⊢
        linarith
      · norm_num at h ⊢
        linarith
  rw [he]
  refine ⟨le_max_right _ _, ?_, ?_⟩
  · refine hboth.1.trans_le (mul_le_mul_of_nonneg_left ?_ (by norm_num))
    exact zpow_le_zpow_right₀ (by norm_num) (le_max_left _ _)
  · rcases le_total e minExponent with hle | hle
    · exact .inl (max_eq_right hle)
    · rw [max_eq_left hle]
      exact .inr hboth.2

/-- The rounded ratio at its exponent: at most one more than 53 bits take, and off by half a unit. -/
theorem roundRatio_scale (hnum : 0 < num) (hden : 0 < den) :
    roundRatio (scale num den (exponentOf num den)).1 (scale num den (exponentOf num den)).2 ≤ 2 ^ 53 ∧
      |(roundRatio (scale num den (exponentOf num den)).1 (scale num den (exponentOf num den)).2 : ℚ) -
        num / den / 2 ^ exponentOf num den| ≤ 1 / 2 := by
  have hnear := @roundRatio_near (scale num den (exponentOf num den)).1 _
    (@scale_pos num den (exponentOf num den) hden)
  rw [scale_div hden] at hnear
  refine ⟨?_, hnear⟩
  have hlt := (exponentOf_spec hnum hden).2.1
  rw [← div_lt_iff₀ (zpow_pos (by norm_num) _)] at hlt
  have hle := (abs_le.1 hnear).2
  have hlt' : (roundRatio (scale num den (exponentOf num den)).1
      (scale num den (exponentOf num den)).2 : ℚ) < ((2 ^ 53 + 1 : Nat) : ℚ) := by
    push_cast
    linarith
  exact Nat.lt_succ_iff.1 (Nat.cast_lt.1 hlt')

theorem isNear_of_ofRatio? {y : Double} (hden : 0 < den) (h : ofRatio? num den = some y) :
    y.IsNear (num / den) := by
  rcases Nat.eq_zero_or_pos num with rfl | hnum
  · cases h
    refine ⟨⟨by decide, by decide, by decide⟩, ?_⟩
    have hpos : (0 : ℚ) < 2 ^ (minExponent - 1) := zpow_pos (by norm_num) _
    simpa [magnitude, zero] using hpos.le
  obtain ⟨hle, hnear⟩ := roundRatio_scale hnum hden
  obtain ⟨hmin, -, hfull⟩ := exponentOf_spec hnum hden
  rw [ofRatio?, if_neg (by omega)] at h
  generalize exponentOf num den = e at h hle hnear hmin hfull
  dsimp only at h
  generalize roundRatio (scale num den e).1 (scale num den e).2 = m at h hle hnear
  have htwo : (0 : ℚ) < 2 ^ e := zpow_pos (by norm_num) e
  have hhalf : (2 : ℚ) ^ e / 2 ≤ num / den / 2 ^ 53 + 2 ^ (minExponent - 1) := by
    have hratio : (0 : ℚ) ≤ num / den := by positivity
    rcases hfull with rfl | hfull
    · rw [zpow_sub_one₀ (by norm_num), div_eq_mul_inv]
      have : (0 : ℚ) ≤ num / den / 2 ^ 53 := by positivity
      linarith
    · have hpos : (0 : ℚ) < 2 ^ (minExponent - 1) := zpow_pos (by norm_num) _
      have : (2 : ℚ) ^ e / 2 ≤ num / den / 2 ^ 53 := by
        rw [le_div_iff₀ (by positivity)]
        linarith
      linarith
  have hdiff : |(m : ℚ) * 2 ^ e - num / den| ≤ num / den / 2 ^ 53 + 2 ^ (minExponent - 1) := by
    refine le_trans ?_ hhalf
    have hscaled : (m : ℚ) * 2 ^ e - num / den = (m - num / den / 2 ^ e) * 2 ^ e := by
      field_simp
    rw [hscaled, abs_mul, abs_of_pos htwo]
    nlinarith
  split at h
  · next hfull =>
    dsimp only at h
    split at h
    · cases h
    · next hmax =>
      cases h
      refine ⟨⟨(by decide : Nat.pow 2 52 < 2 ^ 53), by dsimp only; omega, by dsimp only; omega⟩, ?_⟩
      have hsame : magnitude ⟨false, Nat.pow 2 52, e + 1⟩ = m * 2 ^ e := by
        rw [magnitude, hfull, zpow_add_one₀ (by norm_num)]
        norm_num
        ring
      rwa [hsame]
  · next hne =>
    dsimp only at h
    split at h
    · cases h
    · next hmax =>
      cases h
      exact ⟨⟨lt_of_le_of_ne hle hne, hmin, by dsimp only; omega⟩, hdiff⟩

/-- Only what is at least half a unit above the greatest double has no nearest one. -/
theorem exists_ofRatio? (hden : 0 < den) (h : (num : ℚ) / den < overflow) :
    ∃ y, ofRatio? num den = some y := by
  rw [overflow] at h
  rcases Nat.eq_zero_or_pos num with rfl | hnum
  · exact ⟨_, rfl⟩
  obtain ⟨hle, hnear⟩ := roundRatio_scale hnum hden
  obtain ⟨-, -, hfull⟩ := exponentOf_spec hnum hden
  rw [ofRatio?, if_neg (by omega)]
  generalize exponentOf num den = e at hle hnear hfull
  dsimp only
  generalize roundRatio (scale num den e).1 (scale num den e).2 = m at hle hnear
  have htwo (k : Int) : (0 : ℚ) < 2 ^ k := zpow_pos (by norm_num) k
  have hmax : e ≤ maxExponent := by
    rcases hfull with rfl | hfull
    · decide
    · by_contra hgt
      have hpow : (2 : ℚ) ^ (maxExponent + 1) ≤ 2 ^ e :=
        zpow_le_zpow_right₀ (by norm_num) (by omega)
      rw [zpow_add_one₀ (by norm_num)] at hpow
      have := htwo maxExponent
      linarith
  split
  · next hm =>
    -- rounding up to the next power of two happens below the greatest exponent only
    have hne : e ≠ maxExponent := by
      rintro rfl
      rw [← div_lt_iff₀ (htwo _)] at h
      have hup := (abs_le.1 hnear).2
      rw [hm] at hup
      norm_num at hup h
      linarith
    rw [if_neg (by omega)]
    exact ⟨_, rfl⟩
  · rw [if_neg (by omega)]
    exact ⟨_, rfl⟩

end

/-! ### Products and quotients -/

section
variable {x y z : Double}

theorem magnitude_nonneg (x : Double) : 0 ≤ x.magnitude :=
  mul_nonneg (Nat.cast_nonneg _) (zpow_nonneg (by norm_num) _)

/-- A product is the rounding of a ratio. -/
theorem mul?_eq (x y : Double) : ∃ num den, 0 < den ∧ x.mul? y = ofRatio? num den ∧
    (num : ℚ) / den = x.magnitude * y.magnitude := by
  refine ⟨(scale (x.mantissa * y.mantissa) 1 (-(x.exponent + y.exponent))).1,
    (scale (x.mantissa * y.mantissa) 1 (-(x.exponent + y.exponent))).2, scale_pos Nat.one_pos, rfl, ?_⟩
  rw [scale_div Nat.one_pos, zpow_neg, zpow_add₀ (by norm_num), magnitude, magnitude]
  push_cast
  field_simp

/-- A quotient is the rounding of a ratio. -/
theorem div?_eq (x : Double) (hy : 0 < y.mantissa) :
    ∃ num den, 0 < den ∧ x.div? y = ofRatio? num den ∧
      (num : ℚ) / den = x.magnitude / y.magnitude := by
  refine ⟨(scale x.mantissa y.mantissa (y.exponent - x.exponent)).1,
    (scale x.mantissa y.mantissa (y.exponent - x.exponent)).2, scale_pos hy, rfl, ?_⟩
  have hne : (y.mantissa : ℚ) ≠ 0 := Nat.cast_ne_zero.2 (by omega)
  rw [scale_div hy, zpow_sub₀ (by norm_num), magnitude, magnitude]
  field_simp

theorem isNear_of_mul? (h : x.mul? y = some z) : z.IsNear (x.magnitude * y.magnitude) := by
  obtain ⟨num, den, hden, heq, hratio⟩ := mul?_eq x y
  rw [← hratio]
  exact isNear_of_ofRatio? hden (heq ▸ h)

theorem exists_mul? (h : x.magnitude * y.magnitude < overflow) : ∃ z, x.mul? y = some z := by
  obtain ⟨num, den, hden, heq, hratio⟩ := mul?_eq x y
  rw [heq]
  exact exists_ofRatio? hden (hratio ▸ h)

theorem isNear_of_div? (hy : 0 < y.mantissa) (h : x.div? y = some z) :
    z.IsNear (x.magnitude / y.magnitude) := by
  obtain ⟨num, den, hden, heq, hratio⟩ := div?_eq x hy
  rw [← hratio]
  exact isNear_of_ofRatio? hden (heq ▸ h)

theorem exists_div? (hy : 0 < y.mantissa) (h : x.magnitude / y.magnitude < overflow) :
    ∃ z, x.div? y = some z := by
  obtain ⟨num, den, hden, heq, hratio⟩ := div?_eq x hy
  rw [heq]
  exact exists_ofRatio? hden (hratio ▸ h)

end
end Double
end RouterShift.Decimal
