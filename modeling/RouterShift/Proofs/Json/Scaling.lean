import RouterShift.Json.Number
import RouterShift.Proofs.Decimal.Double

/-! Significands scaled by powers of ten. The power, the significand and their product or quotient
    are each rounded once, so the outcome stays finite as long as the exact value keeps three and a
    half units away from the end of the range (`exists_ofParts?`). -/

namespace RouterShift.Decimal.Double

variable {x y z : Double} {ratio : ℚ}

/-! ### Rounding as a factor -/

/-- From one on, rounding is a matter of a factor. -/
theorem IsNear.bounds (h : z.IsNear ratio) (hratio : 1 ≤ ratio) :
    ratio / 2 ≤ z.magnitude ∧ z.magnitude ≤ ratio * (1 + 1 / 2 ^ 53 + 1 / 2 ^ 60) := by
  have hleast : (2 : ℚ) ^ (minExponent - 1) ≤ 1 / 2 ^ 60 := by
    calc (2 : ℚ) ^ (minExponent - 1) ≤ 2 ^ (-60 : Int) :=
          zpow_le_zpow_right₀ (by norm_num) (by decide)
      _ = 1 / 2 ^ 60 := by norm_num
  obtain ⟨hle, hge⟩ := abs_le.1 h.near
  norm_num at hleast hle hge ⊢
  constructor <;> linarith

theorem mantissa_pos_of_magnitude_pos (h : 0 < x.magnitude) : 0 < x.mantissa := by
  rw [magnitude] at h
  exact Nat.cast_pos.1 ((mul_pos_iff_of_pos_right (zpow_pos (by norm_num) _)).1 h)

theorem isZero_iff : x.isZero = true ↔ x.magnitude = 0 := by
  rw [isZero, beq_iff_eq, magnitude, mul_eq_zero, Nat.cast_eq_zero]
  exact (or_iff_left (zpow_ne_zero _ (by norm_num))).symm

/-! ### Powers of ten -/

/-- The powers of ten that are used are within range. -/
theorem ten_pow_lt_overflow {k : Nat} (hk : k ≤ 308) : (10 : ℚ) ^ k < overflow := by
  have hpow : 2 * 10 ^ 308 < (2 ^ 54 - 1) * 2 ^ 971 := by decide +kernel
  have hcast : (2 : ℚ) * 10 ^ 308 < (2 ^ 54 - 1 : Nat) * 2 ^ 971 := by
    have := Nat.cast_lt (α := ℚ).2 hpow
    rwa [Nat.cast_mul, Nat.cast_mul, Nat.cast_pow, Nat.cast_pow, Nat.cast_ofNat, Nat.cast_ofNat] at this
  have hle : (10 : ℚ) ^ k ≤ 10 ^ 308 := pow_le_pow_right₀ (by norm_num) hk
  have hmax : (2 : ℚ) ^ maxExponent = 2 ^ 971 := zpow_natCast 2 971
  rw [overflow, hmax]
  generalize (2 : ℚ) ^ 971 = unit at hcast ⊢
  generalize (10 : ℚ) ^ 308 = power at hcast hle
  norm_num at hcast ⊢
  linarith

/-- The next power is not. -/
theorem lt_ten_pow : (2 ^ 53 - 7 / 2 : ℚ) * 2 ^ maxExponent < 10 ^ 309 := by
  have hpow : 2 ^ 53 * 2 ^ 971 < 10 ^ 309 := by decide +kernel
  have hcast : (2 ^ 53 : Nat) * (2 : ℚ) ^ 971 < 10 ^ 309 := by
    have := Nat.cast_lt (α := ℚ).2 hpow
    rwa [Nat.cast_mul, Nat.cast_pow 2 971, Nat.cast_pow 10 309, Nat.cast_ofNat, Nat.cast_ofNat] at this
  have hmax : (2 : ℚ) ^ maxExponent = 2 ^ 971 := zpow_natCast 2 971
  have hunit : (0 : ℚ) < 2 ^ 971 := pow_pos (by norm_num) _
  rw [hmax]
  generalize (2 : ℚ) ^ 971 = unit at hcast hunit ⊢
  generalize (10 : ℚ) ^ 309 = power at hcast ⊢
  norm_num at hcast ⊢
  linarith

theorem isNear_of_tenTo? {k : Nat} (h : tenTo? k = some y) : y.IsNear (10 ^ k) := by
  have hnear := isNear_of_ofRatio? Nat.one_pos h
  simpa using hnear

theorem mantissa_pos_of_tenTo? {k : Nat} (h : tenTo? k = some y) : 0 < y.mantissa := by
  have hone : (1 : ℚ) ≤ 10 ^ k := one_le_pow₀ (by norm_num)
  have hle := ((isNear_of_tenTo? h).bounds hone).1
  exact mantissa_pos_of_magnitude_pos (by linarith)

theorem exists_tenTo? {k : Nat} (hk : k ≤ 308) : ∃ y, tenTo? k = some y := by
  refine exists_ofRatio? Nat.one_pos ?_
  simpa using ten_pow_lt_overflow hk

end RouterShift.Decimal.Double

namespace RouterShift.Json.Number
open Decimal (Double)
open Decimal.Double

variable {x y : Double} {e : Int}

/-! ### Scaling -/

theorem two_pow_lt_overflow : (2 : ℚ) ^ 66 < overflow := by
  have hmax : (2 : ℚ) ^ (20 : Int) ≤ 2 ^ maxExponent :=
    zpow_le_zpow_right₀ (by norm_num) (by decide)
  rw [overflow]
  norm_num at hmax ⊢
  linarith

/-- Shrinking keeps within any reasonable bound. -/
theorem exists_shrink? (n : Nat) (hx : x.magnitude ≤ 2 ^ 65) :
    ∃ y, shrink? n x = some y ∧ y.magnitude ≤ 2 ^ 65 := by
  induction n generalizing x with
  | zero => exact ⟨x, rfl, hx⟩
  | succ n ih =>
    rw [shrink?]
    split
    · exact ⟨x, rfl, hx⟩
    obtain ⟨power, hpower⟩ := exists_tenTo? (k := powerLimit) (by decide)
    have hten : (10 : ℚ) ≤ 10 ^ powerLimit := le_self_pow₀ (by norm_num) (by decide)
    have hlow := ((isNear_of_tenTo? hpower).bounds (by linarith)).1
    have hquotient : x.magnitude / power.magnitude ≤ 2 ^ 64 := by
      rw [div_le_iff₀ (by linarith)]
      norm_num at hx ⊢
      linarith
    obtain ⟨y, hy⟩ := exists_div? (mantissa_pos_of_tenTo? hpower)
      (hquotient.trans_lt (lt_trans (by norm_num) two_pow_lt_overflow))
    have hnear := (isNear_of_div? (mantissa_pos_of_tenTo? hpower) hy).near
    have hleast : (2 : ℚ) ^ (minExponent - 1) ≤ 1 := zpow_le_one_of_nonpos₀ (by norm_num) (by decide)
    have hle := (abs_le.1 hnear).2
    rw [hpower, Option.bind_some, hy, Option.bind_some]
    refine ih ?_
    norm_num at hquotient hle ⊢
    linarith

/-- A magnitude is scaled by every power of ten that keeps it clearly within range. -/
theorem exists_scaled? (hsmall : x.magnitude ≤ 2 ^ 65)
    (hlarge : 0 ≤ e → x.isZero = true ∨
      e ≤ powerLimit ∧ x.magnitude * (10 ^ e * (1 + 1 / 2 ^ 53 + 1 / 2 ^ 60)) < overflow) :
    ∃ y, scaled? x e = some y := by
  rw [scaled?]
  split
  · next he =>
    obtain ⟨k, rfl⟩ := Int.eq_ofNat_of_zero_le he
    split
    · next hle =>
      have hk : k ≤ powerLimit := Int.ofNat_le.1 hle
      obtain ⟨power, hpower⟩ := exists_tenTo? hk
      have hone : (1 : ℚ) ≤ 10 ^ k := one_le_pow₀ (by norm_num)
      have hup := ((isNear_of_tenTo? hpower).bounds hone).2
      rw [Int.toNat_natCast, hpower, Option.bind_some]
      refine exists_mul? ?_
      rcases hlarge he with hzero | ⟨-, hlt⟩
      · rw [isZero_iff.1 hzero, zero_mul]
        exact lt_trans (by norm_num) two_pow_lt_overflow
      · rw [zpow_natCast] at hlt
        exact (mul_le_mul_of_nonneg_left hup x.magnitude_nonneg).trans_lt hlt
    · next hgt =>
      rw [if_pos ((hlarge he).resolve_right fun h => hgt h.1)]
      exact ⟨x, rfl⟩
  · next he =>
    dsimp only
    generalize hpower : (-e).toNat = power
    have hrest : power - powerLimit * ((power - 1) / powerLimit) ≤ 308 := by
      rw [powerLimit]
      omega
    obtain ⟨y, hy, hbound⟩ := exists_shrink? ((power - 1) / powerLimit) hsmall
    obtain ⟨divisor, hdivisor⟩ := exists_tenTo? hrest
    have hone : (1 : ℚ) ≤ 10 ^ (power - powerLimit * ((power - 1) / powerLimit)) :=
      one_le_pow₀ (by norm_num)
    have hlow := ((isNear_of_tenTo? hdivisor).bounds hone).1
    rw [hy, Option.bind_some, hdivisor, Option.bind_some]
    refine exists_div? (mantissa_pos_of_tenTo? hdivisor) (lt_of_le_of_lt ?_ two_pow_lt_overflow)
    rw [div_le_iff₀ (by linarith)]
    norm_num at hbound ⊢
    linarith

/-- A significand of 64 bits is scaled by every power of ten that keeps it three units below what
    the greatest double is the nearest to. -/
theorem exists_ofParts? (negative : Bool) {significand : Nat} (hs : significand < Text.wordLimit)
    (h : (significand : ℚ) * 10 ^ e ≤ (2 ^ 53 - 7 / 2) * 2 ^ maxExponent) :
    ∃ y, ofParts? negative significand e = some (.real y) := by
  have hs' : (significand : ℚ) < 2 ^ 64 := by exact_mod_cast hs
  obtain ⟨x, hx⟩ : ∃ x, Double.ofRatio? significand 1 = some x := by
    refine exists_ofRatio? Nat.one_pos (lt_trans ?_ two_pow_lt_overflow)
    norm_num at hs' ⊢
    linarith
  obtain ⟨y, hy⟩ : ∃ y, scaled? x e = some y := by
    rcases Nat.eq_zero_or_pos significand with rfl | hpos
    · cases hx
      exact exists_scaled? (by simp [magnitude, zero]) fun _ => .inl rfl
    have hone : (1 : ℚ) ≤ significand := by exact_mod_cast hpos
    have hnear := isNear_of_ofRatio? Nat.one_pos hx
    rw [Nat.cast_one, div_one] at hnear
    have hup := (hnear.bounds hone).2
    refine exists_scaled? ?_ fun he => .inr ?_
    · norm_num at hup ⊢
      linarith
    · have hle : e ≤ powerLimit := by
        by_contra hgt
        have hpow : (10 : ℚ) ^ 309 ≤ 10 ^ e := by
          rw [← zpow_natCast]
          exact zpow_le_zpow_right₀ (by norm_num) (by rw [powerLimit] at hgt; omega)
        have hten : (10 : ℚ) ^ e ≤ significand * 10 ^ e :=
          le_mul_of_one_le_left (zpow_nonneg (by norm_num) e) hone
        exact absurd (hpow.trans (hten.trans h)) (not_le.2 lt_ten_pow)
      refine ⟨hle, ?_⟩
      have hunit : (0 : ℚ) < 2 ^ maxExponent := zpow_pos (by norm_num) _
      calc x.magnitude * (10 ^ e * (1 + 1 / 2 ^ 53 + 1 / 2 ^ 60))
          ≤ significand * (1 + 1 / 2 ^ 53 + 1 / 2 ^ 60) *
              (10 ^ e * (1 + 1 / 2 ^ 53 + 1 / 2 ^ 60)) :=
            mul_le_mul_of_nonneg_right hup (mul_nonneg (zpow_nonneg (by norm_num) e) (by norm_num))
        _ = significand * 10 ^ e * (1 + 1 / 2 ^ 53 + 1 / 2 ^ 60) ^ 2 := by ring
        _ ≤ (2 ^ 53 - 7 / 2) * 2 ^ maxExponent * (1 + 1 / 2 ^ 53 + 1 / 2 ^ 60) ^ 2 :=
            mul_le_mul_of_nonneg_right h (by norm_num)
        _ < overflow := by
            rw [overflow]
            norm_num
            linarith
  rw [ofParts?, hx]
  simp [hy]

/-! ### What comes of it -/

theorem isRegular_of_scaled? (hx : x.IsRegular) (h : scaled? x e = some y) : y.IsRegular := by
  rw [scaled?] at h
  split at h
  · split at h
    · obtain ⟨power, -, hy⟩ := Option.bind_eq_some_iff.1 h
      exact (isNear_of_mul? hy).regular
    · split at h
      · cases h
        exact hx
      · cases h
  · obtain ⟨z, -, h⟩ := Option.bind_eq_some_iff.1 h
    obtain ⟨power, hpower, hy⟩ := Option.bind_eq_some_iff.1 h
    exact (isNear_of_div? (mantissa_pos_of_tenTo? hpower) hy).regular

/-- A double of a text has the bits and the exponent of one. -/
theorem isRegular_of_ofParts? {negative : Bool} {significand : Nat}
    (h : ofParts? negative significand e = some (.real y)) : y.IsRegular := by
  rw [ofParts?] at h
  obtain ⟨x, hx, h⟩ := Option.bind_eq_some_iff.1 h
  obtain ⟨z, hz, h⟩ := Option.bind_eq_some_iff.1 h
  have hregular := isRegular_of_scaled? (isNear_of_ofRatio? Nat.one_pos hx).regular hz
  simp only [Option.pure_def, Option.some.injEq, Number.real.injEq] at h
  rw [← h]
  split
  · exact ⟨hregular.mantissa_lt, hregular.le_exponent, hregular.exponent_le⟩
  · exact hregular

end RouterShift.Json.Number
