import RouterShift.Proofs.Json.Reader
import RouterShift.Proofs.Json.Scalar
import RouterShift.Proofs.Json.Value

/-! What was written is read back. A settled value is read with the same keys and strings in the same
    places, whatever the level it was written at, and with what its numbers are read as
    (`parse?_of_readsAs`); if they are integers of 64 bits it is read as itself (`parse?_pretty`). -/

namespace RouterShift.Json

/-- An integer that fits 64 bits, signed or unsigned. -/
def Number.IsWord : Number → Prop
  | .integer n => -(Nat.pow 2 63 : Nat) ≤ n ∧ n < Text.wordLimit
  | .real _ => False

/-- A value that does not change when it is written and read: settled, proper, and without any
    numbers but integers. -/
structure Value.Lasting (v : Value) : Prop where
  settled : v.Settled
  proper : v.isProper Value.depthLimit = true
  words : ∀ n, Value.Within (.number n) v → n.IsWord

/-! ### Blanks -/

section
variable {bs cs : List Char}

theorem skipBlanks_append (h : ∀ c ∈ bs, isBlank c = true) : skipBlanks (bs ++ cs) = skipBlanks cs :=
  List.dropWhile_append_of_pos h

theorem skipBlanks_cons {c : Char} (h : isBlank c = false) : skipBlanks (c :: cs) = c :: cs := by
  rw [skipBlanks, List.dropWhile_cons_of_neg (by simp [h])]

theorem isBlank_of_mem_lineAt {level : Nat} {c : Char} (h : c ∈ lineAt level) :
    isBlank c = true := by
  rcases List.mem_cons.1 h with rfl | h
  · rfl
  · rw [List.eq_of_mem_replicate h]
    rfl

theorem skipBlanks_lineAt (level : Nat) (cs : List Char) :
    skipBlanks (lineAt level ++ cs) = skipBlanks cs :=
  skipBlanks_append fun _ => isBlank_of_mem_lineAt

theorem valueAt?_lineAt (level : Nat) (cs : List Char) :
    valueAt? (lineAt level ++ cs) = valueAt? cs := by
  rw [valueAt?_eq, skipBlanks_lineAt, ← valueAt?_eq]

theorem itemsAt?_lineAt (level : Nat) (cs : List Char) :
    itemsAt? (lineAt level ++ cs) = itemsAt? cs := by
  rw [itemsAt?_eq, valueAt?_lineAt, ← itemsAt?_eq]

theorem fieldsAt?_lineAt (level : Nat) (cs : List Char) :
    fieldsAt? (lineAt level ++ cs) = fieldsAt? cs := by
  rw [fieldsAt?_eq, skipBlanks_lineAt, ← fieldsAt?_eq]

theorem endsLine_lineAt (level : Nat) (cs : List Char) : EndsLine (lineAt level ++ cs) := by
  intro c hc
  cases hc
  exact .inl rfl

end

/-! ### Containers -/

/-- A value is read as another wherever it was written. -/
def ReadsAs (v w : Value) : Prop :=
  ∀ level rest, EndsLine rest → valueAt? (v.pretty level ++ rest) = some (w, rest)

/-- A value is read back. -/
def ReadsBack (v : Value) : Prop := ReadsAs v v

theorem endsLine_prettyItems (level : Nat) (items : List Value) {rest : List Char}
    (h : EndsLine rest) : EndsLine (prettyItems level items ++ rest) := by
  cases items with
  | nil => exact h
  | cons v items =>
    intro c hc
    rw [prettyItems] at hc
    cases hc
    exact .inr rfl

theorem endsLine_prettyFields (level : Nat) (fields : Fields) {rest : List Char}
    (h : EndsLine rest) : EndsLine (prettyFields level fields ++ rest) := by
  cases fields with
  | nil => exact h
  | cons p fields =>
    intro c hc
    rw [prettyFields] at hc
    cases hc
    exact .inr rfl

section
variable {cs rest next more : List Char} {v : Value} {items : List Value} {fields : Fields}

theorem itemsAt?_last (hv : valueAt? cs = some (v, rest)) (hrest : skipBlanks rest = ']' :: more) :
    itemsAt? cs = some ([v], more) := by
  simp [itemsAt?_eq cs, hv, hrest]

theorem itemsAt?_more (hv : valueAt? cs = some (v, rest)) (hrest : skipBlanks rest = ',' :: next)
    (hnext : itemsAt? next = some (items, more)) : itemsAt? cs = some (v :: items, more) := by
  simp [itemsAt?_eq cs, hv, hrest, hnext]

/-- A key that was written, and what is behind it. -/
theorem fieldsAt?_quote (k : String) (hv : valueAt? cs = some (v, rest)) :
    fieldsAt? (quote k ++ (':' :: cs)) =
      match skipBlanks rest with
      | '\x7d' :: more => some (([(k, v)], true), more)
      | ',' :: more => (fieldsAt? more).map fun (fields, rest) =>
          (((k, v) :: fields.1, fields.2), rest)
      | _ => none := by
  obtain ⟨ps, hps, hjoin⟩ := pieces?_quote k.toList (':' :: cs)
  have hquote : skipBlanks (quote k ++ (':' :: cs)) =
      '"' :: (k.toList.flatMap escape ++ '"' :: ':' :: cs) := by
    rw [quote, List.cons_append, skipBlanks_cons (by decide), List.append_assoc]
    rfl
  have hcolon : skipBlanks (':' :: cs) = ':' :: cs := skipBlanks_cons (by decide)
  rw [fieldsAt?_eq]
  simp only [hquote, hps, hcolon, hv, hjoin, Option.bind_some, Option.getD_some,
    Option.isSome_some, String.ofList_toList]
  rfl

theorem fieldsAt?_last (k : String) (hv : valueAt? cs = some (v, rest))
    (hrest : skipBlanks rest = '\x7d' :: more) :
    fieldsAt? (quote k ++ (':' :: cs)) = some (([(k, v)], true), more) := by
  simp [fieldsAt?_quote k hv, hrest]

theorem fieldsAt?_more (k : String) (hv : valueAt? cs = some (v, rest))
    (hrest : skipBlanks rest = ',' :: next)
    (hnext : fieldsAt? next = some ((fields, true), more)) :
    fieldsAt? (quote k ++ (':' :: cs)) = some (((k, v) :: fields, true), more) := by
  simp [fieldsAt?_quote k hv, hrest, hnext]

theorem valueAt?_space : valueAt? (' ' :: cs) = valueAt? cs := by
  rw [valueAt?_eq, show skipBlanks (' ' :: cs) = skipBlanks cs from rfl, ← valueAt?_eq]

end

theorem skipBlanks_prettyItems (level : Nat) (v : Value) (items : List Value) (rest : List Char) :
    skipBlanks (prettyItems level (v :: items) ++ rest) =
      ',' :: (lineAt level ++ (v.pretty level ++ (prettyItems level items ++ rest))) := by
  rw [prettyItems, List.cons_append, skipBlanks_cons (by decide)]
  simp only [List.append_assoc]

theorem skipBlanks_prettyFields (level : Nat) (k : String) (v : Value) (fields : Fields)
    (rest : List Char) :
    skipBlanks (prettyFields level ((k, v) :: fields) ++ rest) =
      ',' :: (lineAt level ++ (quote k ++ (':' :: ' ' ::
        (v.pretty level ++ (prettyFields level fields ++ rest))))) := by
  rw [prettyFields, List.cons_append, skipBlanks_cons (by decide)]
  simp only [List.append_assoc, List.cons_append, List.nil_append]

section
variable {g : Value → Value}

theorem itemsAt?_pretty {v : Value} {items : List Value} (h : ∀ u ∈ v :: items, ReadsAs u (g u))
    (level outer : Nat) (rest : List Char) :
    itemsAt? (v.pretty level ++ (prettyItems level items ++ (lineAt outer ++ ']' :: rest))) =
      some ((v :: items).map g, rest) := by
  induction items generalizing v with
  | nil =>
    refine itemsAt?_last (h v List.mem_cons_self level _ (endsLine_lineAt _ _)) ?_
    rw [prettyItems, List.nil_append, skipBlanks_lineAt, skipBlanks_cons (by decide)]
  | cons u items ih =>
    have hend := endsLine_prettyItems level (u :: items) (endsLine_lineAt outer (']' :: rest))
    refine itemsAt?_more (h v List.mem_cons_self level _ hend) (skipBlanks_prettyItems ..) ?_
    rw [itemsAt?_lineAt]
    exact ih fun w hw => h w (List.mem_cons_of_mem v hw)

theorem fieldsAt?_pretty {k : String} {v : Value} {fields : Fields}
    (h : ∀ p ∈ (k, v) :: fields, ReadsAs p.2 (g p.2)) (level outer : Nat) (rest : List Char) :
    fieldsAt? (quote k ++ (':' :: ' ' :: (v.pretty level ++
      (prettyFields level fields ++ (lineAt outer ++ '\x7d' :: rest))))) =
      some ((((k, v) :: fields).map fun p => (p.1, g p.2), true), rest) := by
  induction fields generalizing k v with
  | nil =>
    refine fieldsAt?_last k (valueAt?_space.trans
      (h (k, v) List.mem_cons_self level _ (endsLine_lineAt _ _))) ?_
    rw [prettyFields, List.nil_append, skipBlanks_lineAt, skipBlanks_cons (by decide)]
  | cons p fields ih =>
    obtain ⟨k', v'⟩ := p
    have hend := endsLine_prettyFields level ((k', v') :: fields)
      (endsLine_lineAt outer ('\x7d' :: rest))
    refine fieldsAt?_more k (valueAt?_space.trans (h (k, v) List.mem_cons_self level _ hend))
      (skipBlanks_prettyFields ..) ?_
    rw [fieldsAt?_lineAt]
    exact ih fun w hw => h w (List.mem_cons_of_mem (k, v) hw)

end

/-! ### Values -/

/-- Where a value begins, no array ends. -/
theorem skipBlanks_ne_bracket {cs : List Char} {r : Value × List Char} (h : valueAt? cs = some r)
    (more : List Char) : skipBlanks cs ≠ ']' :: more := by
  intro hcs
  simp [valueAt?_eq cs, hcs, Text.isDigit] at h

/-- A digit begins nothing but a number. -/
theorem valueAt?_digit {c : Char} (hc : Text.isDigit c = true) (cs : List Char) :
    valueAt? (c :: cs) = number? false (c :: cs) := by
  have hne {d : Char} (hd : Text.isDigit d = false) : c ≠ d := by
    rintro rfl
    rw [hc] at hd
    cases hd
  have hblank : isBlank c = false := by
    simp [isBlank, hne (d := ' ') rfl, hne (d := '\n') rfl, hne (d := '\t') rfl,
      hne (d := '\r') rfl]
  rw [valueAt?_eq, skipBlanks_cons hblank]
  simp only [if_neg (hne (d := '"') rfl), if_neg (hne (d := '[') rfl),
    if_neg (hne (d := '\x7b') rfl), if_neg (hne (d := '-') rfl), if_pos hc]

theorem valueAt?_minus (cs : List Char) : valueAt? ('-' :: cs) = number? true cs := by
  rw [valueAt?_eq, skipBlanks_cons (by decide)]
  simp

theorem readsBack_word {n : Number} (h : n.IsWord) : ReadsBack (.number n) := by
  intro level rest hrest
  cases n with
  | real x => cases h
  | integer n =>
    cases n with
    | ofNat n =>
      have hn : n < Text.wordLimit := Int.ofNat_lt.1 h.2
      have hdigits : Value.pretty level (.number (.integer (.ofNat n))) = Nat.toDigits 10 n :=
        Nat.toList_repr
      obtain ⟨c, cs, hcs⟩ := List.exists_cons_of_ne_nil (Nat.toDigits_ne_nil (n := n) (b := 10))
      have hc : Text.isDigit c = true := Text.isDigit_of_mem_toDigits (hcs ▸ List.mem_cons_self)
      rw [hdigits, hcs, List.cons_append, valueAt?_digit hc, ← List.cons_append, ← hcs,
        number?_toDigits hn false hrest]
      rfl
    | negSucc n =>
      have hn : n + 1 ≤ Nat.pow 2 63 := Int.ofNat_le.1 (Int.neg_le_neg_iff.1 h.1)
      have hdigits : Value.pretty level (.number (.integer (.negSucc n))) =
          '-' :: Nat.toDigits 10 (n + 1) := by
        rw [← Nat.toList_repr]
        exact String.toList_append
      have hvalue : Number.ofInteger? true (n + 1) = some (.integer (.negSucc n)) := by
        rw [Number.ofInteger?, if_neg (by decide), if_pos (by simpa using hn)]
        rfl
      rw [hdigits, List.cons_append, valueAt?_minus,
        number?_toDigits (Nat.lt_of_le_of_lt hn (by decide)) true hrest, hvalue]
      rfl

section
variable {g : Value → Value}

theorem readsAs_array {items : List Value} (h : ∀ v ∈ items, ReadsAs v (g v)) :
    ReadsAs (.array items) (.array (items.map g)) := by
  intro level rest _
  cases items with
  | nil =>
    rw [valueAt?_eq, Value.pretty]
    rfl
  | cons v items =>
    have hitems := itemsAt?_pretty h (level + 1) level rest
    rw [← itemsAt?_lineAt (level + 1)] at hitems
    have hne (more : List Char) : skipBlanks (lineAt (level + 1) ++ (v.pretty (level + 1) ++
        (prettyItems (level + 1) items ++ (lineAt level ++ ']' :: rest)))) ≠ ']' :: more := by
      rw [skipBlanks_lineAt]
      have hend := endsLine_prettyItems (level + 1) items (endsLine_lineAt level (']' :: rest))
      exact skipBlanks_ne_bracket (h v List.mem_cons_self (level + 1) _ hend) more
    rw [valueAt?_eq, Value.pretty, List.cons_append, skipBlanks_cons (by decide)]
    simp only [List.append_assoc, List.cons_append, List.nil_append]
    rw [hitems]
    rfl

theorem readsAs_object {fields : Fields} (h : ∀ p ∈ fields, ReadsAs p.2 (g p.2)) :
    ReadsAs (.object fields) (.object (fields.map fun p => (p.1, g p.2))) := by
  intro level rest _
  cases fields with
  | nil =>
    rw [valueAt?_eq, Value.pretty]
    rfl
  | cons p fields =>
    obtain ⟨k, v⟩ := p
    have hfields := fieldsAt?_pretty h (level + 1) level rest
    rw [← fieldsAt?_lineAt (level + 1)] at hfields
    have hquote : skipBlanks (lineAt (level + 1) ++ (quote k ++ (':' :: ' ' ::
        (v.pretty (level + 1) ++ (prettyFields (level + 1) fields ++
          (lineAt level ++ '\x7d' :: rest)))))) = '"' :: (k.toList.flatMap escape ++ ['"'] ++
            (':' :: ' ' :: (v.pretty (level + 1) ++ (prettyFields (level + 1) fields ++
              (lineAt level ++ '\x7d' :: rest))))) := by
      rw [skipBlanks_lineAt, quote, List.cons_append, skipBlanks_cons (by decide)]
    rw [valueAt?_eq, Value.pretty, List.cons_append, skipBlanks_cons (by decide)]
    simp only [List.append_assoc, List.cons_append, List.nil_append] at hquote ⊢
    rw [hfields, hquote]
    rfl

end

theorem readsBack_string (s : String) : ReadsBack (.string s) := by
  intro level rest _
  obtain ⟨ps, hps, hjoin⟩ := pieces?_quote s.toList rest
  rw [valueAt?_eq, Value.pretty, quote, List.cons_append, skipBlanks_cons (by decide)]
  simp [hps, stringOf, hjoin]

/-- A value is read with what its numbers are read as. -/
theorem readsAs {f : Number → Number} {v : Value} {depth : Nat} (hproper : v.isProper depth = true)
    (hnumbers : ∀ n, Value.Within (.number n) v → ReadsAs (.number n) (.number (f n))) :
    ReadsAs v (v.mapNumbers f) := by
  induction v using Value.byParts generalizing depth with
  | null =>
    intro level rest _
    rw [valueAt?_eq]
    rfl
  | bool b =>
    intro level rest _
    cases b with
    | false =>
      rw [valueAt?_eq]
      rfl
    | true =>
      rw [valueAt?_eq]
      rfl
  | number n => exact hnumbers n (.self _)
  | string s => exact readsBack_string s
  | array items ih =>
    rw [Value.mapNumbers_array]
    refine readsAs_array fun v hv => ?_
    exact ih v hv ((Value.isProper_array.1 hproper).2 v hv) fun n hn => hnumbers n (.item hn hv)
  | object fields ih =>
    rw [Value.mapNumbers_object]
    refine readsAs_object fun p hp => ?_
    exact ih p hp ((Value.isProper_object.1 hproper).2 p hp) fun n hn => hnumbers n (.field hn hp)
  | illFormed => simp [Value.isProper] at hproper

/-! ### Texts -/

section
variable {v : Value} {blanks : List Char}

/-- What a text of a settled value means, with blanks or without at the end of it: the value, with
    what its numbers are read as. -/
theorem parse?_of_readsAs {f : Number → Number} (hsettled : v.Settled)
    (hproper : v.isProper Value.depthLimit = true)
    (hnumbers : ∀ n, Value.Within (.number n) v → ReadsAs (.number n) (.number (f n)))
    (hblanks : ∀ c ∈ blanks, isBlank c = true) (hend : EndsLine blanks) :
    parse? (String.ofList (v.pretty 0 ++ blanks)) = some (v.mapNumbers f) := by
  have hread := readsAs hproper hnumbers 0 blanks hend
  have hskip : skipBlanks blanks = [] := by
    have happend : skipBlanks (blanks ++ []) = skipBlanks [] := skipBlanks_append hblanks
    rwa [List.append_nil] at happend
  rw [parse?, read?_eq, String.toList_ofList, hread]
  simp [hskip, Value.isProper_mapNumbers hproper,
    Value.settle_of_settled (Value.settled_mapNumbers hsettled)]

/-- A settled value is what a text of it means when its numbers are read back. -/
theorem parse?_of_readsBack (hsettled : v.Settled) (hproper : v.isProper Value.depthLimit = true)
    (hnumbers : ∀ n, Value.Within (.number n) v → ReadsBack (.number n))
    (hblanks : ∀ c ∈ blanks, isBlank c = true) (hend : EndsLine blanks) :
    parse? (String.ofList (v.pretty 0 ++ blanks)) = some v := by
  have hsame : v.mapNumbers id = v := Value.mapNumbers_of_forall fun _ _ => rfl
  rw [parse?_of_readsAs (f := id) hsettled hproper hnumbers hblanks hend, hsame]

/-- A lasting value is what a text of it means. -/
theorem parse?_pretty (h : v.Lasting) (hblanks : ∀ c ∈ blanks, isBlank c = true)
    (hend : EndsLine blanks) : parse? (String.ofList (v.pretty 0 ++ blanks)) = some v :=
  parse?_of_readsBack h.settled h.proper (fun n hn => readsBack_word (h.words n hn)) hblanks hend

end
end RouterShift.Json
