import RouterShift.Json.Printer
import RouterShift.Json.Reader
import RouterShift.Proofs.Text.Cursor
import RouterShift.Proofs.Text.Number

/-! Strings and integers are read back as they were written: an escape stands for the one character
    it was made from, and the digits of an integer for its value as long as it fits 64 bits. -/

namespace RouterShift.Json

/-! ### Strings -/

theorem join?_char (c : Char) (ps : List Piece) :
    join? (.char c :: ps) = (join? ps).map (c :: ·) := rfl

theorem join?_unit {n : Nat} (h : n < 0xD800) (ps : List Piece) :
    join? (.unit n :: ps) = (join? ps).map (Char.ofNat n :: ·) := by
  rw [join?.eq_def]
  simp only [Bool.and_eq_true, decide_eq_true_eq]
  rw [if_neg (by omega), if_neg (by omega)]

theorem pieces?_letter {e c : Char} (he : escaped? e = some c) (cs : List Char) :
    pieces? ('\\' :: e :: cs) = (pieces? cs).map fun (ps, rest) => (.char c :: ps, rest) := by
  have hu : e ≠ 'u' := by
    rintro rfl
    cases he
  rw [pieces?.eq_4 _ _ fun _ _ _ _ _ h => absurd h hu, he]
  cases pieces? cs <;> rfl

theorem pieces?_unit {a b c d : Char} {n : Nat} (h : hexUnit? a b c d = some n) (cs : List Char) :
    pieces? ('\\' :: 'u' :: a :: b :: c :: d :: cs) =
      (pieces? cs).map fun (ps, rest) => (.unit n :: ps, rest) := by
  rw [pieces?, h]
  cases pieces? cs <;> rfl

theorem pieces?_char {c : Char} (hquote : c ≠ '"') (hslash : c ≠ '\\') (h : 0x20 ≤ c.toNat)
    (cs : List Char) :
    pieces? (c :: cs) = (pieces? cs).map fun (ps, rest) => (.char c :: ps, rest) := by
  rw [pieces?.eq_5 _ _ hquote (fun _ _ _ _ _ h => absurd h hslash) fun _ _ h => absurd h hslash,
    if_neg (by simp [hslash]; omega)]
  cases pieces? cs <;> rfl

theorem hexUnit?_hexDigit : ∀ n < 0x20,
    hexUnit? '0' '0' (hexDigit (n / 16)) (hexDigit (n % 16)) = some n := by
  decide

/-- A character is written as what is read as one piece, and the piece spells it. -/
theorem pieces?_escape (c : Char) : ∃ p, (∀ ps, join? (p :: ps) = (join? ps).map (c :: ·)) ∧
    ∀ cs, pieces? (escape c ++ cs) = (pieces? cs).map fun (ps, rest) => (p :: ps, rest) := by
  have hletter {e d : Char} (he : escaped? e = some d) :
      ∃ p, (∀ ps, join? (p :: ps) = (join? ps).map (d :: ·)) ∧ ∀ cs,
        pieces? (['\\', e] ++ cs) = (pieces? cs).map fun (ps, rest) => (p :: ps, rest) :=
    ⟨.char d, join?_char d, pieces?_letter he⟩
  rw [escape]
  by_cases h1 : c = '"'
  · rw [if_pos h1, h1]
    exact hletter rfl
  by_cases h2 : c = '\\'
  · rw [if_neg h1, if_pos h2, h2]
    exact hletter rfl
  by_cases h3 : c = '\x08'
  · rw [if_neg h1, if_neg h2, if_pos h3, h3]
    exact hletter rfl
  by_cases h4 : c = '\t'
  · rw [if_neg h1, if_neg h2, if_neg h3, if_pos h4, h4]
    exact hletter rfl
  by_cases h5 : c = '\n'
  · rw [if_neg h1, if_neg h2, if_neg h3, if_neg h4, if_pos h5, h5]
    exact hletter rfl
  by_cases h6 : c = '\x0c'
  · rw [if_neg h1, if_neg h2, if_neg h3, if_neg h4, if_neg h5, if_pos h6, h6]
    exact hletter rfl
  by_cases h7 : c = '\r'
  · rw [if_neg h1, if_neg h2, if_neg h3, if_neg h4, if_neg h5, if_neg h6, if_pos h7, h7]
    exact hletter rfl
  rw [if_neg h1, if_neg h2, if_neg h3, if_neg h4, if_neg h5, if_neg h6, if_neg h7]
  by_cases hcontrol : c.toNat < 0x20
  · rw [if_pos hcontrol]
    refine ⟨.unit c.toNat, fun ps => ?_, pieces?_unit (hexUnit?_hexDigit _ hcontrol)⟩
    rw [join?_unit (by omega), Char.ofNat_toNat]
  · rw [if_neg hcontrol]
    exact ⟨.char c, join?_char c, pieces?_char h1 h2 (by omega)⟩

/-- A string is read back up to its closing quote. -/
theorem pieces?_quote (cs rest : List Char) :
    ∃ ps, pieces? (cs.flatMap escape ++ '"' :: rest) = some (ps, rest) ∧ join? ps = some cs := by
  induction cs with
  | nil => exact ⟨[], rfl, rfl⟩
  | cons c cs ih =>
    obtain ⟨p, hp, hread⟩ := pieces?_escape c
    obtain ⟨ps, hps, hjoin⟩ := ih
    refine ⟨p :: ps, ?_, ?_⟩
    · rw [List.flatMap_cons, List.append_assoc, hread, hps, Option.map_some]
    · rw [hp, hjoin, Option.map_some]

/-! ### Integers -/

/-- What may stand behind a value that was written: the end of its line. -/
def EndsLine (cs : List Char) : Prop := ∀ c ∈ cs.head?, c = '\n' ∨ c = ','

section
variable {cs rest : List Char}

theorem EndsLine.stopsBefore {keep : Char → Bool} (h : EndsLine rest) (hline : keep '\n' = false)
    (hcomma : keep ',' = false) : Text.StopsBefore keep rest := by
  intro c hc
  rcases h c hc with rfl | rfl
  · exact hline
  · exact hcomma

theorem digits?_of_stopsBefore (hcs : ∀ c ∈ cs, Text.isDigit c = true) (hne : cs ≠ [])
    (hrest : Text.StopsBefore Text.isDigit rest) : digits? (cs ++ rest) = some (cs, rest) := by
  obtain ⟨htake, hdrop⟩ := Text.takeWhile_append_of_stopsBefore hrest hcs
  rw [digits?]
  simp [htake, hdrop, hne]

theorem digits?_append (hcs : ∀ c ∈ cs, Text.isDigit c = true) (hne : cs ≠ [])
    (hrest : EndsLine rest) : digits? (cs ++ rest) = some (cs, rest) :=
  digits?_of_stopsBefore hcs hne (hrest.stopsBefore (by decide) (by decide))

theorem fraction?_of_endsLine (h : EndsLine rest) : fraction? rest = some (none, rest) := by
  rw [fraction?.eq_def]
  split
  · rcases h '.' rfl with h | h
    · cases h
    · cases h
  · rfl

theorem exponent?_of_endsLine (h : EndsLine rest) : exponent? rest = some (none, rest) := by
  cases rest with
  | nil => rfl
  | cons c rest =>
    rw [exponent?.eq_def]
    rcases h c rfl with rfl | rfl
    · rfl
    · rfl

end

/-! ### Integers -/

/-- Digits are taken into the significand as long as their value fits. -/
theorem absorb_eq {cs : List Char} {start : Nat}
    (h : Nat.ofDigitChars 10 cs start < Text.wordLimit) :
    Number.absorb start cs = (Nat.ofDigitChars 10 cs start, cs.length) := by
  induction cs generalizing start with
  | nil => rfl
  | cons c cs ih =>
    rw [Nat.ofDigitChars_cons] at h ⊢
    have hle : 10 * start + (c.toNat - '0'.toNat) ≤
        Nat.ofDigitChars 10 cs (10 * start + (c.toNat - '0'.toNat)) := by
      rw [Nat.ofDigitChars_eq_ofDigitChars_zero]
      have hpos : 1 ≤ 10 ^ cs.length := Nat.one_le_pow _ _ (by omega)
      exact Nat.le_add_right_of_le (Nat.le_mul_of_pos_left _ hpos)
    rw [Number.absorb, Text.digitValue]
    dsimp only
    rw [if_pos (Nat.lt_of_le_of_lt hle h), ih h]
    rfl

/-- The digits of a number that fits are read as its value. -/
theorem number?_toDigits {n : Nat} (hn : n < Text.wordLimit) (negative : Bool) {rest : List Char}
    (hrest : EndsLine rest) :
    number? negative (Nat.toDigits 10 n ++ rest) =
      some (((Number.ofInteger? negative n).map Value.number).getD .illFormed, rest) := by
  have hdigits : digits? (Nat.toDigits 10 n ++ rest) = some (Nat.toDigits 10 n, rest) :=
    digits?_append (fun c hc => Text.isDigit_of_mem_toDigits hc) Nat.toDigits_ne_nil hrest
  have hwhole : whole? (Nat.toDigits 10 n ++ rest) = some (Nat.toDigits 10 n, rest) := by
    rw [whole?, hdigits, Option.filter_some, if_pos]
    rcases Nat.eq_zero_or_pos n with rfl | hpos
    · rfl
    · simp [Text.head?_toDigits_ne hpos]
  have habsorb : Number.absorb 0 (Nat.toDigits 10 n) = (n, (Nat.toDigits 10 n).length) := by
    rw [absorb_eq (by rwa [Nat.ofDigitChars_ten_toDigits]), Nat.ofDigitChars_ten_toDigits]
  have hvalue : Number.ofDigits? negative (Nat.toDigits 10 n) none none =
      Number.ofInteger? negative n := by
    simp [Number.ofDigits?, habsorb]
  rw [number?, hwhole]
  simp [fraction?_of_endsLine hrest, exponent?_of_endsLine hrest, hvalue]

end RouterShift.Json
