import RouterShift.Proofs.Json.Lasting
import RouterShift.Proofs.Json.Scaling

/-! Numerals with a point or an exponent. What is written as one is read as one (`number?_text`), and
    it stands for a double as long as its value is within range (`exists_ofDigits?`): digits that
    are left out of the significand only make it smaller. -/

namespace RouterShift.Json

/-- The parts of a numeral: digits, digits behind a point, and an exponent with its sign. -/
structure Numeral where
  whole : List Char
  fraction : Option (List Char)
  exponent : Option (Bool × List Char)

namespace Numeral

def fractionText : Option (List Char) → List Char
  | none => []
  | some digits => '.' :: digits

def exponentText : Option (Bool × List Char) → List Char
  | none => []
  | some (minus, digits) => 'e' :: (if minus then '-' else '+') :: digits

def text (n : Numeral) : List Char := n.whole ++ (fractionText n.fraction ++ exponentText n.exponent)

/-- Digits, at least one. -/
structure IsDigits (cs : List Char) : Prop where
  ne_nil : cs ≠ []
  isDigit : ∀ c ∈ cs, Text.isDigit c = true

/-- The numeral is well-formed: no part of it is empty, and no zero stands in front of other
    digits. -/
structure IsSound (n : Numeral) : Prop where
  whole : IsDigits n.whole
  zero : n.whole.head? = some '0' → n.whole.length = 1
  fraction : ∀ digits ∈ n.fraction, IsDigits digits
  exponent : ∀ e ∈ n.exponent, IsDigits e.2

section
variable {rest : List Char} {n : Numeral}

/-! ### Reading a numeral -/

theorem stopsBefore_exponentText (e : Option (Bool × List Char)) (hrest : EndsLine rest) :
    Text.StopsBefore Text.isDigit (exponentText e ++ rest) := by
  cases e with
  | none => exact hrest.stopsBefore (by decide) (by decide)
  | some e =>
    intro c hc
    cases hc
    decide

theorem exponent?_exponentText {e : Option (Bool × List Char)} (he : ∀ e' ∈ e, IsDigits e'.2)
    (hrest : EndsLine rest) : exponent? (exponentText e ++ rest) = some (e, rest) := by
  cases e with
  | none => exact exponent?_of_endsLine hrest
  | some e =>
    obtain ⟨minus, digits⟩ := e
    obtain ⟨hne, hdigits⟩ := he _ rfl
    have hread := digits?_append hdigits hne hrest
    cases minus with
    | false => simp [exponentText, exponent?, hread]
    | true => simp [exponentText, exponent?, hread]

theorem fraction?_fractionText {f : Option (List Char)} {e : Option (Bool × List Char)}
    (hf : ∀ digits ∈ f, IsDigits digits) (hrest : EndsLine rest) :
    fraction? (fractionText f ++ (exponentText e ++ rest)) = some (f, exponentText e ++ rest) := by
  cases f with
  | none =>
    cases e with
    | none => exact fraction?_of_endsLine hrest
    | some e => rfl
  | some digits =>
    obtain ⟨hne, hdigits⟩ := hf _ rfl
    have hread := digits?_of_stopsBefore hdigits hne (stopsBefore_exponentText e hrest)
    rw [fractionText, List.cons_append, fraction?, hread]
    rfl

theorem stopsBefore_fractionText (f : Option (List Char)) (e : Option (Bool × List Char))
    (hrest : EndsLine rest) :
    Text.StopsBefore Text.isDigit (fractionText f ++ (exponentText e ++ rest)) := by
  cases f with
  | none => exact stopsBefore_exponentText e hrest
  | some digits =>
    intro c hc
    cases hc
    decide

/-- What is read of a numeral that was written. -/
theorem number?_text (h : n.IsSound) (negative : Bool) (hrest : EndsLine rest) :
    number? negative (n.text ++ rest) =
      some (((Number.ofDigits? negative n.whole n.fraction n.exponent).map Value.number).getD
        .illFormed, rest) := by
  have hwhole : whole? (n.whole ++ (fractionText n.fraction ++ (exponentText n.exponent ++ rest))) =
      some (n.whole, fractionText n.fraction ++ (exponentText n.exponent ++ rest)) := by
    rw [whole?, digits?_of_stopsBefore h.whole.isDigit h.whole.ne_nil
      (stopsBefore_fractionText _ _ hrest), Option.filter_some, if_pos]
    by_cases hzero : n.whole.head? = some '0'
    · simp [h.zero hzero]
    · simp [hzero]
  rw [text, List.append_assoc, List.append_assoc, number?, hwhole]
  simp [fraction?_fractionText h.fraction hrest, exponent?_exponentText h.exponent hrest]

end

/-! ### What a numeral stands for -/

/-- The exponent with its sign. -/
def power : Option (Bool × List Char) → Int
  | none => 0
  | some (minus, digits) => if minus then -(Text.valueOf digits : Int) else Text.valueOf digits

/-- The value of the digits, the point among them counting. -/
def value (n : Numeral) : ℚ :=
  Text.valueOf (n.whole ++ n.fraction.getD []) *
    10 ^ (power n.exponent - (n.fraction.getD []).length)

/-- What is absorbed of some digits is no more than their value. -/
theorem absorb_le (start : Nat) (cs : List Char) :
    (Number.absorb start cs).2 ≤ cs.length ∧ (Number.absorb start cs).1 *
      10 ^ (cs.length - (Number.absorb start cs).2) ≤ Nat.ofDigitChars 10 cs start := by
  induction cs generalizing start with
  | nil => simp [Number.absorb]
  | cons c cs ih =>
    rw [Number.absorb]
    dsimp only
    split
    · obtain ⟨hle, hvalue⟩ := ih (10 * start + Text.digitValue c)
      rw [Nat.ofDigitChars_cons, List.length_cons, Nat.add_sub_add_right]
      exact ⟨Nat.succ_le_succ hle, hvalue⟩
    · rw [Nat.ofDigitChars_eq_ofDigitChars_zero, Nat.sub_zero]
      refine ⟨Nat.zero_le _, ?_⟩
      rw [Nat.mul_comm]
      exact Nat.le_add_right _ _

theorem valueOf_append (cs ds : List Char) :
    Text.valueOf (cs ++ ds) = Nat.ofDigitChars 10 ds (Text.valueOf cs) :=
  List.foldl_append

/-- The digits behind a point that are left out of the significand make it smaller. -/
theorem absorb_value (whole digits : List Char) (p : Int) :
    ((Number.absorb (Text.valueOf whole) digits).1 : ℚ) *
        10 ^ (0 - ((Number.absorb (Text.valueOf whole) digits).2 : Int) + p) ≤
      Text.valueOf (whole ++ digits) * 10 ^ (p - digits.length) := by
  obtain ⟨htaken, hle⟩ := absorb_le (Text.valueOf whole) digits
  rw [← valueOf_append] at hle
  generalize (Number.absorb (Text.valueOf whole) digits).1 = s at hle
  generalize (Number.absorb (Text.valueOf whole) digits).2 = taken at htaken hle
  have hsplit : (0 : Int) - taken + p = (digits.length - taken : Nat) + (p - digits.length) := by
    omega
  rw [hsplit, zpow_add₀ (by norm_num), zpow_natCast, ← mul_assoc]
  refine mul_le_mul_of_nonneg_right ?_ (zpow_nonneg (by norm_num) _)
  exact_mod_cast hle

section
variable {s e : Nat} {shift : Int}

/-- An exponent that is not too large to be looked at, or has a minus sign, does no harm. -/
theorem exists_withExponent (negative minus : Bool) (hs : s < Text.wordLimit)
    (he : e < Number.exponentLimit ∨ minus = true)
    (hle : (s : ℚ) * 10 ^ (shift + if minus then -(e : Int) else e) ≤
      (2 ^ 53 - 7 / 2) * 2 ^ Decimal.Double.maxExponent) :
    ∃ y, (if e < Number.exponentLimit then
        Number.ofParts? negative s (if minus then shift - e else shift + e)
      else if s ≠ 0 && !minus then none
      else some (.real { Decimal.Double.zero with negative := negative })) = some (.real y) := by
  by_cases hlt : e < Number.exponentLimit
  · rw [if_pos hlt]
    refine Number.exists_ofParts? negative hs (le_of_eq_of_le ?_ hle)
    cases minus with
    | false => rfl
    | true => rfl
  · rw [if_neg hlt, if_neg (by simp [he.resolve_left hlt])]
    exact ⟨_, rfl⟩

end

variable {n : Numeral}

/-- The significand and the exponent of a numeral are no more than its value. -/
theorem exists_ofDigits? (negative : Bool) (hkind : n.fraction.isSome ∨ n.exponent.isSome)
    (hwhole : Text.valueOf n.whole < Text.wordLimit)
    (hexponent : ∀ e ∈ n.exponent, Text.valueOf e.2 < Number.exponentLimit ∨ e.1 = true)
    (hvalue : n.value ≤ (2 ^ 53 - 7 / 2) * 2 ^ Decimal.Double.maxExponent) :
    ∃ y, Number.ofDigits? negative n.whole n.fraction n.exponent = some (.real y) := by
  obtain ⟨whole, fraction, exponent⟩ := n
  have habsorb : Number.absorb 0 whole = (Text.valueOf whole, whole.length) := absorb_eq hwhole
  have hdropped : ((whole.length - whole.length : Nat) : Int) = 0 := by omega
  rw [value] at hvalue
  simp only [Number.ofDigits?, habsorb, hdropped]
  cases fraction with
  | none =>
    cases exponent with
    | none => simp at hkind
    | some e =>
      obtain ⟨minus, digits⟩ := e
      refine exists_withExponent negative minus hwhole (hexponent _ rfl) (le_of_eq_of_le ?_ hvalue)
      simp [power]
  | some digits =>
    have hs := Number.absorb_lt hwhole digits
    cases exponent with
    | none =>
      have hle := absorb_value whole digits 0
      rw [Int.add_zero] at hle
      exact Number.exists_ofParts? negative hs (hle.trans hvalue)
    | some e =>
      obtain ⟨minus, ds⟩ := e
      exact exists_withExponent negative minus hs (hexponent _ rfl)
        ((absorb_value whole digits _).trans hvalue)

end Numeral
end RouterShift.Json
