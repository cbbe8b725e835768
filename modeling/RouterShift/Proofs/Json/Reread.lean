import RouterShift.Proofs.Json.Layout

/-! What was read can be written and read again. An integer comes back as it was; a double is read
    from its text with one rounding more than it took to write it, so another double may come back,
    but never none: the digits of the greatest doubles, for which the bounds on rounding are too
    coarse, are read one by one (`exists_readsAs`). Hence the text of a value that was read always means
    the same objects, arrays and strings again (`exists_parse?_pretty`). -/

namespace RouterShift.Json

open Decimal (Double Digits)

namespace Number

theorem isRegular_zero (negative : Bool) : { Double.zero with negative := negative }.IsRegular :=
  ⟨(by decide : 0 < 2 ^ 53), le_refl _, (by decide : Double.minExponent ≤ Double.maxExponent)⟩

theorem isRegular_of_ofInteger? {negative : Bool} {significand : Nat} {x : Double}
    (h : ofInteger? negative significand = some (.real x)) : x.IsRegular := by
  rw [ofInteger?] at h
  split at h
  · cases h
  split at h
  · cases h
  · exact isRegular_of_ofParts? h

theorem isRegular_of_isRead {x : Double} (h : (Number.real x).IsRead) : x.IsRegular := by
  obtain ⟨negative, whole, fraction, exponent, h⟩ := h
  rcases ofDigits?_eq_some h with h | ⟨_, _, h⟩ | h
  · exact isRegular_of_ofInteger? h
  · exact isRegular_of_ofParts? h
  · cases h
    exact isRegular_zero _

/-! ### Doubles -/

/-- What the digits of a decimal are read as. -/
def reread? (negative : Bool) (d : Digits) : Option Number :=
  ofDigits? negative (numeralOf d).whole (numeralOf d).fraction (numeralOf d).exponent

/-- The three greatest doubles are too close to the end of the range for any bound on rounding. -/
theorem reread?_greatest : ∀ negative sign : Bool, ∀ k < 3,
    (reread? negative (Double.shortest ⟨sign, 2 ^ 53 - 1 - k, 971⟩)).isSome = true := by
  decide +kernel

/-- A decimal clearly within the range is read. -/
theorem exists_reread?_of_value_le {d : Digits} (hd : 0 < d.digits) (negative : Bool)
    (h : d.value ≤ (2 ^ 53 - 7 / 2) * 2 ^ Double.maxExponent) :
    ∃ n, reread? negative d = some n := by
  have hexponent : ∀ e ∈ (numeralOf d).exponent,
      Text.valueOf e.2 < exponentLimit ∨ e.1 = true := by
    intro e he
    refine (ten_pow_exponent_le hd e he).symm.imp_left fun hpow => ?_
    have hlt : (10 : ℚ) ^ Text.valueOf e.2 < 10 ^ 309 := (hpow.trans h).trans_lt Double.lt_ten_pow
    have := (pow_lt_pow_iff_right₀ (by norm_num)).1 hlt
    exact this.trans (by decide)
  rw [← numeralOf_value hd] at h
  obtain ⟨y, hy⟩ := Numeral.exists_ofDigits? negative (numeralOf_kind d) (valueOf_whole_lt hd)
    hexponent h
  exact ⟨_, hy⟩

/-- Every double can be read from its digits. -/
theorem exists_reread? {x : Double} (hx : x.IsRegular) (hpos : 0 < x.mantissa) (negative : Bool) :
    ∃ n, reread? negative x.shortest = some n := by
  obtain ⟨hdigits, hle⟩ := Double.shortest_spec hpos
  have hunit : (0 : ℚ) < 2 ^ Double.maxExponent := zpow_pos (by norm_num) _
  by_cases hvalue : x.shortest.value ≤ (2 ^ 53 - 7 / 2) * 2 ^ Double.maxExponent
  · exact exists_reread?_of_value_le hdigits negative hvalue
  have hlt := (not_le.1 hvalue).trans_le hle
  have hmantissa : (x.mantissa : ℚ) + 1 ≤ 2 ^ 53 := by exact_mod_cast hx.mantissa_lt
  have hexponent : x.exponent = Double.maxExponent := by
    by_contra hne
    have hless : x.exponent + 1 ≤ Double.maxExponent :=
      Int.add_one_le_of_lt (lt_of_le_of_ne hx.exponent_le hne)
    have hpow : (2 : ℚ) ^ (x.exponent + 1) ≤ 2 ^ Double.maxExponent :=
      zpow_le_zpow_right₀ (by norm_num) hless
    have hpos : (0 : ℚ) < 2 ^ x.exponent := zpow_pos (by norm_num) _
    rw [zpow_add_one₀ (by norm_num)] at hpow
    nlinarith
  rw [hexponent, mul_lt_mul_iff_of_pos_right hunit] at hlt
  have hgreatest : 2 ^ 53 - 4 < x.mantissa := by
    by_contra hsmall
    have hcast : (x.mantissa : ℚ) + 4 ≤ 2 ^ 53 := by
      exact_mod_cast show x.mantissa + 4 ≤ 2 ^ 53 by omega
    linarith
  obtain ⟨sign, mantissa, exponent⟩ := x
  obtain ⟨k, hk, rfl⟩ : ∃ k < 3, mantissa = 2 ^ 53 - 1 - k := by
    have := hx.mantissa_lt
    dsimp only at this hgreatest
    exact ⟨2 ^ 53 - 1 - mantissa, by omega, by omega⟩
  dsimp only at hexponent
  rw [hexponent]
  exact Option.isSome_iff_exists.1 (reread?_greatest negative sign k hk)

end Number

/-! ### Numbers in values -/

section
variable {n : Numeral} {rest : List Char}

/-- A numeral is read as a number wherever it stands. -/
theorem valueAt?_text (h : n.IsSound) : valueAt? (n.text ++ rest) = number? false (n.text ++ rest) := by
  obtain ⟨c, cs, hcs⟩ := List.exists_cons_of_ne_nil h.whole.ne_nil
  have hc : Text.isDigit c = true := h.whole.isDigit c (hcs ▸ List.mem_cons_self)
  rw [Numeral.text, hcs, List.cons_append, List.cons_append, valueAt?_digit hc]

end

/-- The numeral a double is written as, but for its sign. -/
def sizeOf (x : Double) : Numeral :=
  if x.isZero then ⟨['0'], some ['0'], none⟩ else Number.numeralOf x.shortest

theorem renderReal_eq (x : Double) :
    Number.renderReal x = if x.negative then '-' :: (sizeOf x).text else (sizeOf x).text := by
  have hsize : (if x.isZero then ['0', '.', '0'] else Number.layout x.shortest) = (sizeOf x).text := by
    rw [sizeOf]
    split
    · rfl
    · exact Number.layout_eq _
  rw [Number.renderReal, hsize]

theorem sizeOf_isSound {x : Double} : (sizeOf x).IsSound := by
  rw [sizeOf]
  split
  · exact ⟨⟨by simp, by simp [Text.isDigit]⟩, fun _ => rfl, by
      rintro ds ⟨⟩
      exact ⟨by simp, by simp [Text.isDigit]⟩, by simp⟩
  · next hne =>
    refine Number.numeralOf_isSound (Double.shortest_spec (Nat.pos_of_ne_zero fun hzero => ?_)).1
    exact hne (beq_iff_eq.2 hzero)

/-- A double is read from its text. -/
theorem exists_readsAs_real {x : Double} (hx : x.IsRegular) :
    ∃ n, ReadsAs (.number (.real x)) (.number n) := by
  obtain ⟨n, hn⟩ : ∃ n, Number.ofDigits? x.negative (sizeOf x).whole (sizeOf x).fraction
      (sizeOf x).exponent = some n := by
    by_cases hzero : x.isZero = true
    · rw [sizeOf, if_pos hzero]
      have hread : ∀ negative : Bool,
          (Number.ofDigits? negative ['0'] (some ['0']) none).isSome = true := by decide +kernel
      exact Option.isSome_iff_exists.1 (hread x.negative)
    · rw [sizeOf, if_neg hzero]
      exact Number.exists_reread? hx (Nat.pos_of_ne_zero fun h => hzero (beq_iff_eq.2 h)) _
  refine ⟨n, fun level rest hrest => ?_⟩
  have hpretty : Value.pretty level (.number (.real x)) = Number.renderReal x := by
    rw [Value.pretty, Number.render]
  rw [hpretty, renderReal_eq]
  have hread (negative : Bool) := Numeral.number?_text (sizeOf_isSound (x := x)) negative hrest
  cases hnegative : x.negative with
  | false =>
    rw [hnegative] at hn
    rw [if_neg (by simp), valueAt?_text sizeOf_isSound, hread, hn]
    rfl
  | true =>
    rw [hnegative] at hn
    rw [if_pos rfl, List.cons_append, valueAt?_minus, hread, hn]
    rfl

/-- A number that was read is read as a number again, and as itself if it is an integer. -/
theorem exists_readsAs {n : Number} (h : n.IsRead) : ∃ m, ReadsAs (.number n) (.number m) := by
  cases n with
  | integer i =>
    obtain ⟨negative, whole, fraction, exponent, hread⟩ := h
    exact ⟨_, readsBack_word (Number.isWord_of_ofDigits? hread)⟩
  | real x => exact exists_readsAs_real (Number.isRegular_of_isRead h)

/-! ### Values -/

/-- What is known of a value that was read: no object in it has a key twice, it is no deeper than
    the reader goes, and its numbers were read. -/
structure Value.Sound (depth : Nat) (v : Value) : Prop where
  settled : v.Settled
  proper : v.isProper depth = true
  read : v.HasRead

theorem sound_of_parse? {text : String} {v : Value} (h : parse? text = some v) :
    v.Sound Value.depthLimit := by
  obtain ⟨hsettled, hproper, hread⟩ := read_of_parse? h
  exact ⟨hsettled, hproper, hread⟩

namespace Value

variable {depth : Nat} {fields : Fields}

theorem sound_string (depth : Nat) (s : String) : (Value.string s).Sound depth where
  settled fields h := by cases h
  proper := rfl
  read n h := by cases h

/-- An object is sound when its keys are different and its values sound. -/
theorem sound_object : (Value.object fields).Sound depth ↔
    fields.keys.Nodup ∧ 0 < depth ∧ ∀ p ∈ fields, p.2.Sound (depth - 1) := by
  constructor
  · intro h
    obtain ⟨hdepth, hproper⟩ := isProper_object.1 h.proper
    refine ⟨h.settled fields (.self _), hdepth, fun p hp => ⟨?_, hproper p hp, ?_⟩⟩
    · exact fun inner hinner => h.settled inner (.field hinner hp)
    · exact fun n hn => h.read n (.field hn hp)
  · rintro ⟨hkeys, hdepth, hfields⟩
    refine ⟨fun inner hinner => ?_, isProper_object.2 ⟨hdepth, fun p hp => (hfields p hp).proper⟩,
      fun n hn => ?_⟩
    · rcases within_object.1 hinner with hinner | ⟨p, hp, hinner⟩
      · cases hinner
        exact hkeys
      · exact (hfields p hp).settled inner hinner
    · rcases within_object.1 hn with hn | ⟨p, hp, hn⟩
      · cases hn
      · exact (hfields p hp).read n hn

end Value

/-- The text of a sound value means that value, but for what its numbers are read as. -/
theorem exists_parse?_pretty {v : Value} (h : v.Sound Value.depthLimit) {blanks : List Char}
    (hblanks : ∀ c ∈ blanks, isBlank c = true) (hend : EndsLine blanks) :
    ∃ f, parse? (String.ofList (v.pretty 0 ++ blanks)) = some (v.mapNumbers f) := by
  have hnumbers (n : Number) : ∃ m, n.IsRead → ReadsAs (.number n) (.number m) := by
    by_cases hn : n.IsRead
    · obtain ⟨m, hm⟩ := exists_readsAs hn
      exact ⟨m, fun _ => hm⟩
    · exact ⟨n, fun h => absurd h hn⟩
  choose f hf using hnumbers
  exact ⟨f, parse?_of_readsAs h.settled h.proper (fun n hn => hf n (h.read n hn)) hblanks hend⟩

end RouterShift.Json
