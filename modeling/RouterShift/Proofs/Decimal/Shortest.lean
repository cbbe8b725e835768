import RouterShift.Decimal.Shortest
import RouterShift.Proofs.Decimal.Double

/-! The shortest decimal of a double lies between it and the middle to the next one. -/

namespace RouterShift.Decimal

/-- What a decimal stands for. -/
def Digits.value (d : Digits) : ℚ := d.digits * 10 ^ d.exponent

/-- Comparing a decimal with a binary number is comparing what they stand for. -/
theorem compareScaled_eq (a : Nat) (i : Int) (n : Nat) (j : Int) :
    compareScaled a i n j = compare ((a : ℚ) * 10 ^ i) (n * 2 ^ j) := by
  have hten := factor_eq (show 0 < 10 by decide) i
  have htwo := factor_eq (show 0 < 2 by decide) j
  have hpos : (0 : ℚ) < factor 10 (-i) * factor 2 (-j) := by
    exact_mod_cast Nat.mul_pos (factor_pos (by decide) _) (factor_pos (by decide) _)
  have hleft : ((a * factor 10 i * factor 2 (-j) : Nat) : ℚ) =
      a * 10 ^ i * (factor 10 (-i) * factor 2 (-j)) := by
    push_cast at hten ⊢
    rw [hten]
    ring
  have hright : ((n * factor 2 j * factor 10 (-i) : Nat) : ℚ) =
      n * 2 ^ j * (factor 10 (-i) * factor 2 (-j)) := by
    push_cast at htwo ⊢
    rw [htwo]
    ring
  rw [compareScaled]
  rcases lt_trichotomy ((a : ℚ) * 10 ^ i) (n * 2 ^ j) with h | h | h
  · rw [compare_lt_iff_lt.2 h, compare_lt_iff_lt, ← Nat.cast_lt (α := ℚ), hleft, hright]
    exact mul_lt_mul_of_pos_right h hpos
  · rw [compare_eq_iff_eq.2 h, compare_eq_iff_eq, ← Nat.cast_inj (R := ℚ), hleft, hright, h]
  · rw [compare_gt_iff_gt.2 h, compare_gt_iff_gt, ← Nat.cast_lt (α := ℚ), hleft, hright]
    exact mul_lt_mul_of_pos_right h hpos

namespace Double

variable {x : Double} {d : Digits}

/-- What reads back is no further away than half a unit. -/
theorem bounds_of_readsBack (h : x.readsBack d = true) :
    (4 * x.mantissa - 2 : Nat) * 2 ^ (x.exponent - 2) ≤ d.value ∧
      d.value ≤ (x.mantissa + 1 / 2) * 2 ^ x.exponent := by
  have hunit : (0 : ℚ) < 2 ^ (x.exponent - 2) := zpow_pos (by norm_num) _
  have hscaled : ((x.mantissa : ℚ) + 1 / 2) * 2 ^ x.exponent =
      (4 * x.mantissa + 2 : Nat) * 2 ^ (x.exponent - 2) := by
    rw [zpow_sub₀ (by norm_num)]
    push_cast
    ring
  simp only [readsBack, compareScaled_eq, Bool.and_eq_true, Bool.or_eq_true, beq_iff_eq,
    compare_gt_iff_gt, compare_eq_iff_eq, compare_lt_iff_lt] at h
  rw [hscaled, Digits.value]
  constructor
  · refine le_trans (mul_le_mul_of_nonneg_right (Nat.cast_le.2 ?_) hunit.le)
      (h.1.elim le_of_lt fun h => h.2.ge)
    split <;> omega
  · exact h.2.elim le_of_lt fun h => h.2.le

theorem readsBack_of_onGrid? {k : Int} (h : x.onGrid? k = some d) : x.readsBack d = true := by
  rw [onGrid?] at h
  dsimp only at h
  split at h
  · next hbelow habove =>
    split at h
    · cases h
      exact hbelow
    · cases h
      exact habove
  · next hbelow habove =>
    cases h
    exact hbelow
  · next hbelow habove =>
    cases h
    exact habove
  · cases h

/-- A decimal that reads back, or the exact value. -/
theorem shortest_cases (x : Double) : x.readsBack x.shortest = true ∨
    x.shortest = ⟨x.mantissa * factor 2 x.exponent * factor 5 (-x.exponent), min x.exponent 0⟩ := by
  unfold shortest
  dsimp only
  cases hgrid : (List.range 17).findSome? fun (n : Nat) => x.onGrid? (x.leadingExponent - (n : Int)) with
  | none => exact .inr rfl
  | some d =>
    obtain ⟨n, -, hd⟩ := List.exists_of_findSome?_eq_some hgrid
    exact .inl (readsBack_of_onGrid? hd)

theorem value_exact (x : Double) : Digits.value
    ⟨x.mantissa * factor 2 x.exponent * factor 5 (-x.exponent), min x.exponent 0⟩ = x.magnitude := by
  have htwo := factor_eq (show 0 < 2 by decide) x.exponent
  rw [Digits.value, magnitude]
  push_cast at htwo ⊢
  rw [htwo]
  rcases le_total 0 x.exponent with h | h
  · rw [min_eq_right h]
    simp [factor, Int.toNat_eq_zero.2 (Int.neg_nonpos_of_nonneg h)]
  · obtain ⟨n, hn⟩ := Int.eq_ofNat_of_zero_le (Int.neg_nonneg_of_nonpos h)
    have hexponent : x.exponent = -(n : Int) := by omega
    rw [min_eq_left h, hn, hexponent, factor, factor, Int.toNat_natCast, zpow_neg, zpow_neg,
      zpow_natCast, zpow_natCast]
    simp only [Nat.pow_eq, Nat.cast_pow, Nat.cast_ofNat]
    rw [show (10 : ℚ) = 2 * 5 by norm_num, mul_pow]
    field_simp

/-- The shortest decimal is more than nothing, and no more than half a unit above the double. -/
theorem shortest_spec (hx : 0 < x.mantissa) :
    0 < x.shortest.digits ∧ x.shortest.value ≤ (x.mantissa + 1 / 2) * 2 ^ x.exponent := by
  rcases shortest_cases x with h | h
  · obtain ⟨hle, hge⟩ := bounds_of_readsBack h
    refine ⟨Nat.pos_of_ne_zero fun hzero => ?_, hge⟩
    have hlow : (0 : ℚ) < (4 * x.mantissa - 2 : Nat) * 2 ^ (x.exponent - 2) :=
      mul_pos (Nat.cast_pos.2 (by omega)) (zpow_pos (by norm_num) _)
    rw [Digits.value, hzero, Nat.cast_zero, zero_mul] at hle
    linarith
  · have hunit : (0 : ℚ) < 2 ^ x.exponent := zpow_pos (by norm_num) _
    rw [h, value_exact, magnitude]
    refine ⟨Nat.mul_pos (Nat.mul_pos hx (factor_pos (by decide) _)) (factor_pos (by decide) _), ?_⟩
    linarith

end Double
end RouterShift.Decimal
