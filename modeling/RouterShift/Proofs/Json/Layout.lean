import Mathlib.Data.List.DropRight
import RouterShift.Proofs.Decimal.Shortest
import RouterShift.Proofs.Json.Numeral

/-! Decimals laid out as numerals. Whatever digits a decimal has, it is laid out as a well-formed
    numeral of the same value. -/

namespace RouterShift.Json.Number

open Decimal (Digits Double)

/-! ### Significant digits -/

/-- The digits of a number without the zeros at the end. -/
def significant (n : Nat) : List Char := (digitsOf n).rdropWhile (· == '0')

theorem digitsOf_eq (n : Nat) : digitsOf n = Nat.toDigits 10 n := Nat.toList_repr

section
variable {n : Nat}

theorem isDigit_of_mem_significant {c : Char} (h : c ∈ significant n) : Text.isDigit c = true := by
  have hmem := (List.rdropWhile_prefix (· == '0') (digitsOf n)).subset h
  rw [digitsOf_eq] at hmem
  exact Text.isDigit_of_mem_toDigits hmem

/-- What is left out are zeros. -/
theorem digitsOf_split (n : Nat) : digitsOf n =
    significant n ++ List.replicate ((digitsOf n).length - (significant n).length) '0' := by
  have hsplit : (digitsOf n).rdropWhile (· == '0') ++ (digitsOf n).rtakeWhile (· == '0') =
      digitsOf n := List.rdropWhile_append_rtakeWhile
  have hzeros : ∀ c ∈ (digitsOf n).rtakeWhile (· == '0'), c = '0' := fun c hc => by
    simpa using List.mem_rtakeWhile_imp hc
  have hlength := congrArg List.length hsplit
  rw [List.length_append] at hlength
  rw [List.eq_replicate_of_mem hzeros] at hsplit
  rw [significant]
  conv_lhs => rw [← hsplit]
  congr 2
  omega

theorem length_significant_le (n : Nat) : (significant n).length ≤ (digitsOf n).length :=
  (List.rdropWhile_prefix (· == '0') (digitsOf n)).length_le

theorem significant_value (n : Nat) : n = Text.valueOf (significant n) *
    10 ^ ((digitsOf n).length - (significant n).length) := by
  have hvalue : Text.valueOf (digitsOf n) = n := by
    rw [digitsOf_eq]
    exact Text.valueOf_toDigits n
  rw [digitsOf_split, Numeral.valueOf_append, Nat.ofDigitChars_replicate_zero, Nat.mul_comm] at hvalue
  exact hvalue.symm

theorem head?_significant_ne (hn : 0 < n) : (significant n).head? ≠ some '0' := by
  intro h
  obtain ⟨rest, hrest⟩ := List.rdropWhile_prefix (· == '0') (digitsOf n)
  have hhead := Text.head?_toDigits_ne hn
  rw [← digitsOf_eq, ← hrest] at hhead
  change (significant n ++ rest).head? ≠ some '0' at hhead
  rw [List.head?_append, h] at hhead
  exact hhead rfl

theorem significant_ne_nil (hn : 0 < n) : significant n ≠ [] := by
  intro h
  have hvalue := significant_value n
  rw [h, Text.valueOf, List.foldl_nil, Nat.zero_mul] at hvalue
  omega

end

/-- Digits stand for less than the power of ten that has one digit more. -/
theorem valueOf_lt {cs : List Char} (h : ∀ c ∈ cs, Text.isDigit c = true) :
    Text.valueOf cs < 10 ^ cs.length := by
  induction cs using List.reverseRecOn with
  | nil => decide
  | append_singleton cs c ih =>
    have hcs := ih fun d hd => h d (List.mem_append_left _ hd)
    have hc := h c (by simp)
    simp only [Text.isDigit, Bool.and_eq_true, decide_eq_true_eq, Char.le_def,
      UInt32.le_iff_toNat_le] at hc
    have hle : c.toNat ≤ 57 := hc.2
    rw [Numeral.valueOf_append, Nat.ofDigitChars_cons, Nat.ofDigitChars_nil, List.length_append,
      List.length_singleton, Nat.pow_succ]
    change 10 * Text.valueOf cs + (c.toNat - 48) < _
    omega

theorem valueOf_zeros_append (k : Nat) (cs : List Char) :
    Text.valueOf (List.replicate k '0' ++ cs) = Text.valueOf cs := by
  have hzeros : Text.valueOf (List.replicate k '0') = 0 :=
    Nat.ofDigitChars_replicate_zero.trans (Nat.mul_zero _)
  rw [Numeral.valueOf_append, hzeros]
  rfl

theorem valueOf_append_zeros (cs : List Char) (k : Nat) :
    Text.valueOf (cs ++ List.replicate k '0') = Text.valueOf cs * 10 ^ k := by
  rw [Numeral.valueOf_append, Nat.ofDigitChars_replicate_zero, Nat.mul_comm]

/-! ### The layout -/

/-- The exponent of the leading digit. -/
def top (d : Digits) : Int := d.exponent + (digitsOf d.digits).length - 1

/-- Digits behind a point and zeros. -/
def small (digits : List Char) (top : Int) : Numeral :=
  ⟨['0'], some (List.replicate (-top - 1).toNat '0' ++ digits), none⟩

/-- Digits with a point in them or behind them. -/
def plain (digits : List Char) (places : Nat) : Numeral :=
  ⟨digits.take places ++ List.replicate (places - digits.length) '0',
    some (if (digits.drop places).isEmpty then ['0'] else digits.drop places), none⟩

/-- One digit before the point, and an exponent. -/
def scientific (digits : List Char) (top : Int) : Numeral :=
  ⟨digits.take 1, if digits.length > 1 then some (digits.drop 1) else none,
    some (decide (top < 0), digitsOf top.natAbs)⟩

section
variable {digits : List Char} {exponent : Int} {places : Nat}

theorem small_isSound (hdigits : Numeral.IsDigits digits) (exponent : Int) :
    (small digits exponent).IsSound where
  whole := ⟨by simp [small], by simp [small, Text.isDigit]⟩
  zero _ := rfl
  fraction := by
    rintro ds ⟨⟩
    refine ⟨List.append_ne_nil_of_right_ne_nil _ hdigits.ne_nil, fun c hc => ?_⟩
    rcases List.mem_append.1 hc with hc | hc
    · rw [List.eq_of_mem_replicate hc]
      decide
    · exact hdigits.isDigit c hc
  exponent := by simp [small]

theorem small_value (hexponent : exponent < 0) : (small digits exponent).value =
    Text.valueOf digits * 10 ^ (exponent + 1 - digits.length) := by
  have hvalue : Text.valueOf (['0'] ++ (List.replicate (-exponent - 1).toNat '0' ++ digits)) =
      Text.valueOf digits := valueOf_zeros_append ((-exponent - 1).toNat + 1) digits
  simp only [Numeral.value, small, Option.getD_some, hvalue, Numeral.power, List.length_append,
    List.length_replicate]
  congr 2
  omega

theorem plain_isSound (hdigits : Numeral.IsDigits digits) (hzero : digits.head? ≠ some '0')
    (places : Nat) : (plain digits (places + 1)).IsSound where
  whole := by
    refine ⟨List.append_ne_nil_of_left_ne_nil ?_ _, fun c hc => ?_⟩
    · intro hnil
      rcases List.take_eq_nil_iff.1 hnil with h | h
      · cases h
      · exact hdigits.ne_nil h
    · rcases List.mem_append.1 hc with hc | hc
      · exact hdigits.isDigit c (List.mem_of_mem_take hc)
      · rw [List.eq_of_mem_replicate hc]
        decide
  zero h := by
    obtain ⟨c, cs, rfl⟩ := List.exists_cons_of_ne_nil hdigits.ne_nil
    exact absurd h hzero
  fraction := by
    rintro ds ⟨⟩
    split
    · exact ⟨by simp, by simp [Text.isDigit]⟩
    · next hne => exact ⟨by simpa using hne, fun c hc => hdigits.isDigit c (List.mem_of_mem_drop hc)⟩
  exponent := by simp [plain]

theorem plain_value (digits : List Char) (places : Nat) : (plain digits places).value =
    Text.valueOf digits * 10 ^ ((places : Int) - digits.length) := by
  simp only [Numeral.value, plain, Option.getD_some, Numeral.power]
  rcases Nat.lt_or_ge places digits.length with hlt | hle
  · have hdrop : (digits.drop places).isEmpty = false := by
      rw [List.isEmpty_eq_false_iff, ← List.length_pos_iff, List.length_drop]
      omega
    rw [Nat.sub_eq_zero_of_le hlt.le, List.replicate_zero, List.append_nil, hdrop,
      if_neg (by simp), List.take_append_drop, List.length_drop]
    congr 2
    omega
  · have hzeros : Text.valueOf (digits ++ List.replicate (places - digits.length) '0' ++ ['0']) =
        Text.valueOf digits * 10 ^ (places - digits.length + 1) := by
      rw [List.append_assoc, ← List.replicate_succ', valueOf_append_zeros]
    rw [List.take_of_length_le hle, List.drop_eq_nil_of_le hle, List.isEmpty_nil, if_pos rfl, hzeros,
      List.length_singleton]
    push_cast
    rw [mul_assoc, ← zpow_natCast, ← zpow_add₀ (by norm_num)]
    congr 2
    push_cast
    omega

theorem scientific_isSound (hdigits : Numeral.IsDigits digits) (exponent : Int) :
    (scientific digits exponent).IsSound := by
  obtain ⟨c, cs, rfl⟩ := List.exists_cons_of_ne_nil hdigits.ne_nil
  have htail (d : Char) (hd : d ∈ cs) : Text.isDigit d = true :=
    hdigits.isDigit d (List.mem_cons_of_mem c hd)
  refine ⟨⟨by simp [scientific], ?_⟩, fun _ => by simp [scientific], ?_, ?_⟩
  · intro d hd
    rw [List.mem_singleton.1 hd]
    exact hdigits.isDigit c List.mem_cons_self
  · intro ds hds
    obtain ⟨hpos, rfl⟩ : 0 < cs.length ∧ cs = ds := by simpa [scientific] using hds
    exact ⟨List.length_pos_iff.1 hpos, htail⟩
  · rintro e ⟨⟩
    rw [digitsOf_eq]
    exact ⟨Nat.toDigits_ne_nil, fun d hd => Text.isDigit_of_mem_toDigits hd⟩

theorem scientific_value (hne : digits ≠ []) (exponent : Int) : (scientific digits exponent).value =
    Text.valueOf digits * 10 ^ (exponent + 1 - digits.length) := by
  obtain ⟨c, cs, rfl⟩ := List.exists_cons_of_ne_nil hne
  have hfraction : (scientific (c :: cs) exponent).fraction.getD [] = cs := by
    by_cases hlong : (c :: cs).length > 1
    · simp only [scientific, if_pos hlong, Option.getD_some]
      rfl
    · cases cs with
      | nil => rfl
      | cons d cs => simp at hlong
  have hpower : Numeral.power (scientific (c :: cs) exponent).exponent = exponent := by
    simp only [scientific, Numeral.power, digitsOf_eq, Text.valueOf_toDigits, decide_eq_true_eq]
    split
    · omega
    · omega
  rw [Numeral.value, hfraction, hpower]
  simp only [scientific, List.take_succ_cons, List.take_zero, List.singleton_append,
    List.length_cons]
  congr 2
  push_cast
  omega

end

/-- The numeral that a decimal is laid out as. -/
def numeralOf (d : Digits) : Numeral :=
  if -5 ≤ top d ∧ top d ≤ 15 then
    if top d < 0 then small (significant d.digits) (top d)
    else plain (significant d.digits) ((top d).toNat + 1)
  else scientific (significant d.digits) (top d)

theorem layout_eq (d : Digits) : layout d = (numeralOf d).text := by
  have htop : d.exponent + (digitsOf d.digits).length - 1 = top d := rfl
  have hdigits : ((digitsOf d.digits).reverse.dropWhile (· == '0')).reverse =
    significant d.digits := rfl
  rw [layout, numeralOf, htop, hdigits]
  generalize significant d.digits = digits
  dsimp only
  split
  · split
    · simp [small, Numeral.text, Numeral.fractionText, Numeral.exponentText]
    · simp [plain, Numeral.text, Numeral.fractionText, Numeral.exponentText]
  · by_cases hlong : digits.length > 1
    · simp [scientific, hlong, Numeral.text, Numeral.fractionText, Numeral.exponentText]
    · simp [scientific, hlong, Numeral.text, Numeral.fractionText, Numeral.exponentText]

section
variable {d : Digits}

theorem value_eq (d : Digits) : d.value =
    Text.valueOf (significant d.digits) * 10 ^ (top d + 1 - (significant d.digits).length) := by
  have hle := length_significant_le d.digits
  have hdigits := congrArg (Nat.cast (R := ℚ)) (significant_value d.digits)
  rw [Digits.value, hdigits]
  push_cast
  rw [mul_assoc, ← zpow_natCast, ← zpow_add₀ (by norm_num), top]
  congr 2
  omega

/-- A decimal is laid out as a numeral of its value. -/
theorem numeralOf_value (hd : 0 < d.digits) : (numeralOf d).value = d.value := by
  rw [value_eq, numeralOf]
  split
  · split
    · next hneg => exact small_value hneg
    · rw [plain_value]
      congr 3
      omega
  · exact scientific_value (significant_ne_nil hd) _

theorem numeralOf_isSound (hd : 0 < d.digits) : (numeralOf d).IsSound := by
  have hdigits : Numeral.IsDigits (significant d.digits) :=
    ⟨significant_ne_nil hd, fun c hc => isDigit_of_mem_significant hc⟩
  rw [numeralOf]
  split
  · split
    · exact small_isSound hdigits _
    · exact plain_isSound hdigits (head?_significant_ne hd) _
  · exact scientific_isSound hdigits _

/-- No integer is laid out. -/
theorem numeralOf_kind (d : Digits) :
    (numeralOf d).fraction.isSome = true ∨ (numeralOf d).exponent.isSome = true := by
  rw [numeralOf]
  split
  · split
    · exact .inl rfl
    · exact .inl rfl
  · exact .inr rfl

/-- There are at most sixteen digits before the point. -/
theorem valueOf_whole_lt (hd : 0 < d.digits) : Text.valueOf (numeralOf d).whole < Text.wordLimit := by
  have hlength : (numeralOf d).whole.length ≤ 16 := by
    rw [numeralOf]
    split
    · next hplain =>
      split
      · simp [small]
      · simp [plain]
        omega
    · simp [scientific]
  have hlt := valueOf_lt (numeralOf_isSound hd).whole.isDigit
  have hle : 10 ^ (numeralOf d).whole.length ≤ 10 ^ 16 := Nat.pow_le_pow_right (by decide) hlength
  exact Nat.lt_of_lt_of_le hlt (Nat.le_trans hle (by decide))

theorem ten_pow_top_le (hd : 0 < d.digits) : (10 : ℚ) ^ top d ≤ d.value := by
  have hpos : 0 < (digitsOf d.digits).length := by
    rw [digitsOf_eq]
    exact Nat.length_toDigits_pos
  have hdigits : 10 ^ ((digitsOf d.digits).length - 1) ≤ d.digits := by
    by_contra hlt
    rw [digitsOf_eq] at hpos hlt
    rcases Nat.eq_zero_or_pos ((Nat.toDigits 10 d.digits).length - 1) with hzero | hmore
    · rw [hzero] at hlt
      omega
    · have := (Nat.length_toDigits_le_iff (by decide) hmore).2 (Nat.not_le.1 hlt)
      omega
  have hcast : (10 : ℚ) ^ ((digitsOf d.digits).length - 1) ≤ d.digits := by exact_mod_cast hdigits
  have htop : top d = ((digitsOf d.digits).length - 1 : Nat) + d.exponent := by
    rw [top]
    omega
  rw [htop, zpow_add₀ (by norm_num), zpow_natCast, Digits.value]
  exact mul_le_mul_of_nonneg_right hcast (zpow_nonneg (by norm_num) _)

/-- An exponent without a minus sign is that of a power of ten within the value. -/
theorem ten_pow_exponent_le (hd : 0 < d.digits) : ∀ e ∈ (numeralOf d).exponent,
    e.1 = true ∨ (10 : ℚ) ^ Text.valueOf e.2 ≤ d.value := by
  intro e he
  rw [numeralOf] at he
  split at he
  · split at he
    · cases he
    · cases he
  · cases he
    by_cases hneg : top d < 0
    · exact .inl (decide_eq_true hneg)
    · refine .inr ?_
      have hle := ten_pow_top_le hd
      have htop : ((top d).natAbs : Int) = top d := Int.natAbs_of_nonneg (Int.not_lt.1 hneg)
      dsimp only
      rw [digitsOf_eq, Text.valueOf_toDigits, ← zpow_natCast, htop]
      exact hle

end
end RouterShift.Json.Number
