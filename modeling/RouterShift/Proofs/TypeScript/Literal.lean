import RouterShift.TypeScript.Literal

/-! What is written into a literal and what it says afterwards. Writing leaves a delimiter alone
    that has a backslash before it, and reading takes that backslash for its escape, so a text is
    read as it was written exactly when it hides no delimiter in this way. Contents without a bare
    delimiter and what they say determine each other, and only such contents are ever written
    (`escapes_align`). -/

namespace RouterShift.TypeScript.Literal

/-- A delimiter of the text counts as escaped: a backslash stands before it that no backslash
    before keeps. -/
def hidesDelimiter (delimiter : Char) : List Char → Bool
  | [] => false
  | '\\' :: c :: rest => c == delimiter || hidesDelimiter delimiter rest
  | _ :: rest => hidesDelimiter delimiter rest

/-- A delimiter of the contents has no backslash before it that keeps it. -/
def hasBareDelimiter (delimiter : Char) : List Char → Bool
  | [] => false
  | '\\' :: _ :: rest => hasBareDelimiter delimiter rest
  | c :: rest => c == delimiter || hasBareDelimiter delimiter rest

section
variable {d c : Char} {cs rest : List Char}

@[simp] theorem escape_nil : escape d [] = [] := rfl

@[simp] theorem unescape_nil : unescape d [] = [] := rfl

@[simp] theorem escape_pair : escape d ('\\' :: c :: rest) = '\\' :: c :: escape d rest := rfl

@[simp] theorem unescape_pair : unescape d ('\\' :: c :: rest) =
    if c = d then c :: unescape d rest else '\\' :: c :: unescape d rest := rfl

theorem unescape_cons (h : c ≠ '\\') : unescape d (c :: rest) = c :: unescape d rest := by
  rw [unescape]
  rintro x xs rfl
  contradiction

theorem escape_cons (h : c ≠ '\\') : escape d (c :: rest) =
    if c = d then '\\' :: c :: escape d rest else c :: escape d rest := by
  rw [escape]
  · simp [h]
  · rintro x xs rfl
    contradiction

theorem hidesDelimiter_cons (h : c ≠ '\\') :
    hidesDelimiter d (c :: rest) = hidesDelimiter d rest := by
  rw [hidesDelimiter]
  rintro x xs rfl
  contradiction

theorem hasBareDelimiter_cons (h : c ≠ '\\') :
    hasBareDelimiter d (c :: rest) = (c == d || hasBareDelimiter d rest) := by
  rw [hasBareDelimiter]
  rintro x xs rfl
  contradiction

end

/-- Texts are taken apart as the literals are: a backslash with what it keeps, or one character. -/
theorem byEscapes {P : List Char → Prop} (nil : P []) (backslash : P ['\\'])
    (pair : ∀ c rest, P rest → P ('\\' :: c :: rest))
    (one : ∀ c rest, c ≠ '\\' → P rest → P (c :: rest)) : ∀ cs, P cs
  | [] => nil
  | [c] => by
    by_cases h : c = '\\'
    · exact h ▸ backslash
    · exact one c [] h nil
  | c :: c' :: rest => by
    by_cases h : c = '\\'
    · exact h ▸ pair c' rest (byEscapes nil backslash pair one rest)
    · exact one c (c' :: rest) h (byEscapes nil backslash pair one (c' :: rest))

theorem length_unescape_escape_le (d : Char) (cs : List Char) :
    (unescape d (escape d cs)).length ≤ cs.length := by
  induction cs using byEscapes with
  | nil => exact Nat.le_refl _
  | backslash => simp [escape, unescape]
  | pair c rest ih =>
    rw [escape_pair, unescape_pair]
    split <;> simp <;> omega
  | one c rest h ih =>
    rw [escape_cons h]
    split
    · next hd => simpa [hd] using ih
    · simpa [unescape_cons h] using ih

/-- A text is read as it was written unless it hides a delimiter. -/
theorem unescape_escape_iff (d : Char) (cs : List Char) :
    unescape d (escape d cs) = cs ↔ hidesDelimiter d cs = false := by
  induction cs using byEscapes with
  | nil => simp [hidesDelimiter]
  | backslash => simp [escape, unescape, hidesDelimiter]
  | pair c rest ih =>
    rw [escape_pair, unescape_pair, hidesDelimiter, Bool.or_eq_false_iff, ← ih]
    by_cases hd : c = d
    · -- the backslash is lost, and nothing behind it makes up for that
      have hlen := length_unescape_escape_le d rest
      simp only [hd, if_true, beq_self_eq_true, Bool.true_eq_false, false_and, iff_false]
      intro h
      have := congrArg List.length h
      simp only [List.length_cons] at this
      omega
    · simp [hd]
  | one c rest h ih =>
    rw [escape_cons h, hidesDelimiter_cons h, ← ih]
    split
    · next hd => simp [hd]
    · simp [unescape_cons h]

/-- What a literal says once a text is written into it. -/
theorem value_eq_iff {l : Literal} {text : String} (h : l.raw = l.write text) :
    l.value = text ↔ hidesDelimiter l.delimiter text.toList = false := by
  rw [value, h, write, String.toList_ofList, ← String.toList_inj, String.toList_ofList,
    unescape_escape_iff]

/-- Contents are written as they were read unless they have a bare delimiter. -/
theorem escape_unescape_iff {d : Char} (hd : d ≠ '\\') (cs : List Char) :
    escape d (unescape d cs) = cs ↔ hasBareDelimiter d cs = false := by
  induction cs using byEscapes with
  | nil => simp [hasBareDelimiter]
  | backslash => simp [escape, unescape, hasBareDelimiter, hd.symm]
  | pair c rest ih =>
    rw [unescape_pair, hasBareDelimiter, ← ih]
    split
    · next hcd =>
      subst hcd
      rw [escape_cons hd, if_pos rfl]
      simp
    · rw [escape_pair]
      simp
  | one c rest h ih =>
    rw [unescape_cons h, escape_cons h, hasBareDelimiter_cons h, Bool.or_eq_false_iff, ← ih]
    split
    · next hcd =>
      -- the first character is written as a backslash
      simp [hcd, hd.symm]
    · next hcd => simp [hcd]

/-- What is written has no bare delimiter. -/
theorem hasBareDelimiter_escape {d : Char} (hd : d ≠ '\\') (cs : List Char) :
    hasBareDelimiter d (escape d cs) = false := by
  induction cs using byEscapes with
  | nil => rfl
  | backslash => simp [escape, hasBareDelimiter, hd.symm]
  | pair c rest ih => rw [escape_pair, hasBareDelimiter, ih]
  | one c rest h ih =>
    rw [escape_cons h]
    split
    · rw [hasBareDelimiter, ih]
    · next hcd => rw [hasBareDelimiter_cons h, ih, beq_false_of_ne hcd, Bool.or_false]

/-! ### Bare delimiters by their place -/

/-- Read from left to right, with a backslash keeping the character behind it, the text does not end
    in the middle of such a pair. -/
inductive IsWhole : List Char → Prop
  | nil : IsWhole []
  | pair (c : Char) {rest : List Char} : IsWhole rest → IsWhole ('\\' :: c :: rest)
  | one {c : Char} {rest : List Char} : c ≠ '\\' → IsWhole rest → IsWhole (c :: rest)

/-- The text has a delimiter that no backslash keeps. -/
def HasBare (delimiter : Char) (cs : List Char) : Prop :=
  ∃ front back, cs = front ++ delimiter :: back ∧ IsWhole front

/-- A bare delimiter is one that reading from left to right comes to. -/
theorem hasBareDelimiter_iff {d : Char} (hd : d ≠ '\\') (cs : List Char) :
    hasBareDelimiter d cs = true ↔ HasBare d cs := by
  induction cs using byEscapes with
  | nil => simp [hasBareDelimiter, HasBare]
  | backslash =>
    have hne : hasBareDelimiter d ['\\'] = false := by simp [hasBareDelimiter, hd.symm]
    refine ⟨fun h => by simp [hne] at h, ?_⟩
    rintro ⟨front, back, heq, hwhole⟩
    cases hwhole with
    | nil => exact absurd (List.cons.inj heq).1.symm hd
    | pair c => cases heq
    | one hc => exact absurd (List.cons.inj heq).1.symm hc
  | pair c rest ih =>
    rw [hasBareDelimiter, ih]
    constructor
    · rintro ⟨front, back, rfl, hwhole⟩
      exact ⟨_, back, rfl, hwhole.pair c⟩
    · rintro ⟨front, back, heq, hwhole⟩
      cases hwhole with
      | nil => exact absurd (List.cons.inj heq).1.symm hd
      | pair c' hrest => exact ⟨_, back, (List.cons.inj (List.cons.inj heq).2).2, hrest⟩
      | one hc => exact absurd (List.cons.inj heq).1.symm hc
  | one c rest hc ih =>
    rw [hasBareDelimiter_cons hc, Bool.or_eq_true, beq_iff_eq, ih]
    constructor
    · rintro (rfl | ⟨front, back, rfl, hwhole⟩)
      · exact ⟨[], rest, rfl, .nil⟩
      · exact ⟨_, back, rfl, hwhole.one hc⟩
    · rintro ⟨front, back, heq, hwhole⟩
      cases hwhole with
      | nil => exact .inl (List.cons.inj heq).1
      | pair => exact absurd (List.cons.inj heq).1 hc
      | one _ hrest => exact .inr ⟨_, back, (List.cons.inj heq).2, hrest⟩

/-- Reading and writing undo each other. Contents are written again as they were if and only if they
    have no bare delimiter; a text is read again as it was if and only if it is what some contents
    without a bare delimiter say; and whatever the text, what is written has none. -/
theorem escapes_align {d : Char} (hd : d ≠ '\\') :
    (∀ raw, escape d (unescape d raw) = raw ↔ ¬ HasBare d raw) ∧
    (∀ text, unescape d (escape d text) = text ↔ ∃ raw, ¬ HasBare d raw ∧ unescape d raw = text) ∧
    ∀ text, ¬ HasBare d (escape d text) := by
  have hbare (cs : List Char) : hasBareDelimiter d cs = false ↔ ¬ HasBare d cs := by
    rw [← hasBareDelimiter_iff hd, Bool.not_eq_true]
  have hagain (raw : List Char) : escape d (unescape d raw) = raw ↔ ¬ HasBare d raw :=
    (escape_unescape_iff hd raw).trans (hbare raw)
  have hwritten (text : List Char) : ¬ HasBare d (escape d text) :=
    (hbare _).1 (hasBareDelimiter_escape hd text)
  refine ⟨hagain, fun text => ⟨fun h => ⟨escape d text, hwritten text, h⟩, ?_⟩, hwritten⟩
  rintro ⟨raw, hraw, rfl⟩
  rw [(hagain raw).2 hraw]

/-- Backslashes in a row keep each other, whether a delimiter stands behind them or nothing. -/
theorem escapes_align_apostrophe :
    unescape '\'' "it\\'s \\\\ \\\\\\' fine\\".toList = "it's \\\\ \\\\' fine\\".toList ∧
    escape '\'' "it's \\\\ \\\\' fine\\".toList = "it\\'s \\\\ \\\\\\' fine\\".toList ∧
    unescape '\'' (escape '\'' "it's \\\\ \\\\' fine\\".toList) =
      "it's \\\\ \\\\' fine\\".toList ∧
    ¬ HasBare '\'' (escape '\'' "it's \\\\ \\\\' fine\\".toList) := by
  obtain ⟨hagain, himage, hwritten⟩ := escapes_align (d := '\'') (by decide)
  have hraw : unescape '\'' "it\\'s \\\\ \\\\\\' fine\\".toList =
      "it's \\\\ \\\\' fine\\".toList := by decide
  have hclosed : ¬ HasBare '\'' "it\\'s \\\\ \\\\\\' fine\\".toList := by
    rw [← hasBareDelimiter_iff (by decide)]
    decide
  refine ⟨hraw, ?_, (himage _).2 ⟨_, hclosed, hraw⟩, hwritten _⟩
  rw [← hraw]
  exact (hagain _).2 hclosed

/-- What a literal says, written into it again. -/
theorem write_value_iff {l : Literal} (h : l.delimiter ≠ '\\') :
    l.write l.value = l.raw ↔ hasBareDelimiter l.delimiter l.raw.toList = false := by
  rw [write, value, String.toList_ofList, ← escape_unescape_iff h, ← String.toList_inj,
    String.toList_ofList]

end RouterShift.TypeScript.Literal
