import RouterShift.Proofs.Json.RoundTrip

/-! What was read lasts. The numbers of a value that was read are what digits are read as, an integer
    is read as one only if it fits 64 bits, and what is read is settled and no deeper than the reader
    goes (`read_of_parse?`); so a value that was read, and has no numbers but integers, is read again
    when it is written (`lasting_of_parse?`). -/

namespace RouterShift.Json

/-! ### Numbers -/

namespace Number

theorem absorb_lt {start : Nat} (h : start < Text.wordLimit) (cs : List Char) :
    (absorb start cs).1 < Text.wordLimit := by
  induction cs generalizing start with
  | nil => exact h
  | cons c cs ih =>
    rw [absorb]
    dsimp only
    split
    · rename_i hnext
      exact ih hnext
    · exact h

theorem ofParts?_ne_integer (negative : Bool) (significand : Nat) (exponent i : Int) :
    ofParts? negative significand exponent ≠ some (.integer i) := by
  intro h
  rw [ofParts?] at h
  obtain ⟨x, -, h⟩ := Option.bind_eq_some_iff.1 h
  obtain ⟨y, -, h⟩ := Option.bind_eq_some_iff.1 h
  cases h

theorem isWord_of_ofInteger? {negative : Bool} {significand : Nat}
    (h : significand < Text.wordLimit) {i : Int}
    (hi : ofInteger? negative significand = some (.integer i)) : (Number.integer i).IsWord := by
  rw [ofInteger?] at hi
  split at hi
  · cases hi
    exact ⟨by omega, Int.ofNat_lt.2 h⟩
  split at hi
  · rename_i hbound
    cases hi
    rw [Bool.and_eq_true, decide_eq_true_eq, decide_eq_true_eq] at hbound
    exact ⟨Int.neg_le_neg (Int.ofNat_le.2 hbound.2), by omega⟩
  · exact absurd hi (ofParts?_ne_integer _ _ _ _)

/-- Digits that are read are an integer, or a significand that is scaled, or zero where the exponent
    is beyond the limit. -/
theorem ofDigits?_eq_some {negative : Bool} {whole : List Char} {fraction : Option (List Char)}
    {exponent : Option (Bool × List Char)} {n : Number}
    (h : ofDigits? negative whole fraction exponent = some n) :
    ofInteger? negative (absorb 0 whole).1 = some n ∨
      (∃ significand power, ofParts? negative significand power = some n) ∨
      n = .real { Decimal.Double.zero with negative := negative } := by
  rw [ofDigits?] at h
  dsimp only at h
  cases exponent with
  | none =>
    dsimp only at h
    split at h
    · next hplain =>
      cases fraction with
      | none => exact .inl h
      | some digits => simp at hplain
    · exact .inr (.inl ⟨_, _, h⟩)
  | some e =>
    obtain ⟨minus, digits⟩ := e
    dsimp only at h
    by_cases he : Text.valueOf digits < exponentLimit
    · rw [if_pos he] at h
      exact .inr (.inl ⟨_, _, h⟩)
    · rw [if_neg he, ite_eq_iff] at h
      rcases h with ⟨-, h⟩ | ⟨-, h⟩
      · cases h
      · exact .inr (.inr (Option.some.inj h).symm)

/-- A number is read as an integer only if it fits. -/
theorem isWord_of_ofDigits? {negative : Bool} {whole : List Char} {fraction : Option (List Char)}
    {exponent : Option (Bool × List Char)} {i : Int}
    (h : ofDigits? negative whole fraction exponent = some (.integer i)) :
    (Number.integer i).IsWord := by
  rcases ofDigits?_eq_some h with h | ⟨_, _, h⟩ | h
  · exact isWord_of_ofInteger? (absorb_lt (show 0 < Text.wordLimit by decide) whole) h
  · exact absurd h (ofParts?_ne_integer _ _ _ _)
  · cases h

/-- What comes of digits that are read. -/
def IsRead (n : Number) : Prop :=
  ∃ negative whole fraction exponent, ofDigits? negative whole fraction exponent = some n

end Number

/-! ### Values -/

/-- Every number in the value was read. -/
def Value.HasRead (v : Value) : Prop := ∀ n, Value.Within (.number n) v → n.IsRead

/-- Every integer in the value fits 64 bits. -/
def Value.HasWords (v : Value) : Prop :=
  ∀ i : Int, Value.Within (.number (.integer i)) v → (Number.integer i).IsWord

theorem Value.HasRead.hasWords {v : Value} (h : v.HasRead) : v.HasWords := by
  intro i hi
  obtain ⟨negative, whole, fraction, exponent, hread⟩ := h _ hi
  exact Number.isWord_of_ofDigits? hread

theorem hasRead_number? {negative : Bool} {cs rest : List Char} {v : Value}
    (h : number? negative cs = some (v, rest)) : v.HasRead := by
  rw [number?] at h
  obtain ⟨⟨whole, r1⟩, -, h⟩ := Option.bind_eq_some_iff.1 h
  obtain ⟨⟨fraction, r2⟩, -, h⟩ := Option.bind_eq_some_iff.1 h
  obtain ⟨⟨exponent, r3⟩, -, h⟩ := Option.bind_eq_some_iff.1 h
  cases h
  intro n hn
  cases hread : Number.ofDigits? negative whole fraction exponent with
  | none => simp [hread] at hn; cases hn
  | some m =>
    simp [hread] at hn
    cases hn
    exact ⟨negative, whole, fraction, exponent, hread⟩

theorem valueAt?_short {cs rest : List Char} {v : Value} (h : valueAt? cs = some (v, rest)) :
    rest.length < cs.length := by
  obtain ⟨t, -, ht⟩ := Option.map_eq_some_iff.1 h
  cases ht
  exact t.short

theorem hasRead_array {items : List Value} (h : ∀ v ∈ items, v.HasRead) :
    (Value.array items).HasRead := by
  intro i hi
  rcases Value.within_array.1 hi with hi | ⟨v, hv, hi⟩
  · cases hi
  · exact h v hv i hi

theorem hasRead_object {fields : Fields} (h : ∀ p ∈ fields, p.2.HasRead) :
    (Value.object fields).HasRead := by
  intro i hi
  rcases Value.within_object.1 hi with hi | ⟨p, hp, hi⟩
  · cases hi
  · exact h p hp i hi

theorem hasRead_null : Value.null.HasRead := by
  intro i hi
  cases hi

theorem hasRead_bool (b : Bool) : (Value.bool b).HasRead := by
  intro i hi
  cases hi

theorem hasRead_stringOf (ps : List Piece) : (stringOf ps).HasRead := by
  intro i hi
  rw [stringOf] at hi
  split at hi
  · cases hi
  · cases hi

section
variable {cs rest : List Char} {v : Value} {items : List Value} {fields : Fields × Bool}

/-- The numbers of a value were read if that is so of all shorter texts. -/
theorem hasRead_valueAt?
    (hitems : ∀ ds items rest, ds.length < cs.length → itemsAt? ds = some (items, rest) →
      ∀ v ∈ items, v.HasRead)
    (hfields : ∀ ds fields rest, ds.length < cs.length → fieldsAt? ds = some (fields, rest) →
      ∀ p ∈ fields.1, p.2.HasRead)
    (h : valueAt? cs = some (v, rest)) : v.HasRead := by
  rw [valueAt?_eq] at h
  have hlength := length_skipBlanks_le cs
  cases hcs : skipBlanks cs with
  | nil => simp [hcs] at h
  | cons c ds =>
    rw [hcs, List.length_cons] at hlength
    simp only [hcs] at h
    split at h
    · obtain ⟨⟨ps, more⟩, -, hmore⟩ := Option.map_eq_some_iff.1 h
      cases hmore
      exact hasRead_stringOf ps
    split at h
    · split at h
      · cases h
        exact hasRead_array (by simp)
      · obtain ⟨⟨items, more⟩, hread, hmore⟩ := Option.map_eq_some_iff.1 h
        cases hmore
        exact hasRead_array (hitems ds items _ (by omega) hread)
    split at h
    · split at h
      · cases h
        exact hasRead_object (by simp)
      · obtain ⟨⟨fields, more⟩, hread, hmore⟩ := Option.map_eq_some_iff.1 h
        obtain ⟨rfl, -⟩ := Prod.mk.inj hmore
        split
        · exact hasRead_object (hfields ds fields _ (by omega) hread)
        · intro i hi
          cases hi
    split at h
    · exact hasRead_number? h
    split at h
    · exact hasRead_number? h
    split at h
    · cases h
      exact hasRead_null
    split at h
    · cases h
      exact hasRead_bool true
    split at h
    · cases h
      exact hasRead_bool false
    · cases h

theorem hasRead_itemsAt? (hvalue : ∀ v rest, valueAt? cs = some (v, rest) → v.HasRead)
    (hitems : ∀ ds items rest, ds.length < cs.length → itemsAt? ds = some (items, rest) →
      ∀ v ∈ items, v.HasRead)
    (h : itemsAt? cs = some (items, rest)) : ∀ v ∈ items, v.HasRead := by
  rw [itemsAt?_eq] at h
  obtain ⟨⟨first, next⟩, hfirst, h⟩ := Option.bind_eq_some_iff.1 h
  have hshort := valueAt?_short hfirst
  have hblanks := length_skipBlanks_le next
  dsimp only at h
  split at h
  · cases h
    intro v hv
    obtain rfl := List.mem_singleton.1 hv
    exact hvalue _ _ hfirst
  · rename_i ds hds
    obtain ⟨⟨others, more⟩, hread, hmore⟩ := Option.map_eq_some_iff.1 h
    cases hmore
    rw [hds, List.length_cons] at hblanks
    intro v hv
    rcases List.mem_cons.1 hv with rfl | hv
    · exact hvalue _ _ hfirst
    · exact hitems ds others _ (by omega) hread v hv
  · cases h

theorem hasRead_fieldsAt?
    (hvalue : ∀ ds v rest, ds.length < cs.length → valueAt? ds = some (v, rest) → v.HasRead)
    (hfields : ∀ ds fields rest, ds.length < cs.length → fieldsAt? ds = some (fields, rest) →
      ∀ p ∈ fields.1, p.2.HasRead)
    (h : fieldsAt? cs = some (fields, rest)) : ∀ p ∈ fields.1, p.2.HasRead := by
  rw [fieldsAt?_eq] at h
  have hstart := length_skipBlanks_le cs
  split at h
  · rename_i keyStart hk
    rw [hk, List.length_cons] at hstart
    obtain ⟨⟨ps, afterKey⟩, hps, h⟩ := Option.bind_eq_some_iff.1 h
    have hkey := length_pieces? hps
    have hcolon := length_skipBlanks_le afterKey
    dsimp only at h
    split at h
    · rename_i valueStart hc
      rw [hc, List.length_cons] at hcolon
      obtain ⟨⟨v, next⟩, hv, h⟩ := Option.bind_eq_some_iff.1 h
      have hshort := valueAt?_short hv
      have hblanks := length_skipBlanks_le next
      have hinner := hvalue _ _ _ (by omega) hv
      dsimp only at h
      split at h
      · cases h
        intro p hp
        obtain rfl := List.mem_singleton.1 hp
        exact hinner
      · rename_i ds hds
        obtain ⟨⟨others, more⟩, hread, hmore⟩ := Option.map_eq_some_iff.1 h
        cases hmore
        rw [hds, List.length_cons] at hblanks
        intro p hp
        rcases List.mem_cons.1 hp with rfl | hp
        · exact hinner
        · exact hfields ds others _ (by omega) hread p hp
      · cases h
    · cases h
  · cases h

end

/-- Whatever text is read, the numbers in it were read. -/
theorem hasRead_of_read (n : Nat) :
    (∀ cs v rest, cs.length < n → valueAt? cs = some (v, rest) → v.HasRead) ∧
    (∀ cs items rest, cs.length < n → itemsAt? cs = some (items, rest) → ∀ v ∈ items, v.HasRead) ∧
    (∀ cs fields rest, cs.length < n → fieldsAt? cs = some (fields, rest) →
      ∀ p ∈ fields.1, p.2.HasRead) := by
  induction n with
  | zero => exact ⟨by simp, by simp, by simp⟩
  | succ n ih =>
    obtain ⟨ihValue, ihItems, ihFields⟩ := ih
    have hvalue (cs : List Char) (v : Value) (rest : List Char) (hlt : cs.length < n + 1)
        (h : valueAt? cs = some (v, rest)) : v.HasRead :=
      hasRead_valueAt? (fun ds items rest hds => ihItems ds items rest (by omega))
        (fun ds fields rest hds => ihFields ds fields rest (by omega)) h
    refine ⟨hvalue, fun cs items rest hlt h => ?_, fun cs fields rest hlt h => ?_⟩
    · exact hasRead_itemsAt? (fun v rest => hvalue cs v rest hlt)
        (fun ds items rest hds => ihItems ds items rest (by omega)) h
    · exact hasRead_fieldsAt? (fun ds v rest hds => ihValue ds v rest (by omega))
        (fun ds fields rest hds => ihFields ds fields rest (by omega)) h

/-- What is known of a value that was read. -/
theorem read_of_parse? {text : String} {v : Value} (h : parse? text = some v) :
    v.Settled ∧ v.isProper Value.depthLimit = true ∧ v.HasRead := by
  rw [parse?, read?_eq] at h
  obtain ⟨raw, hraw, h⟩ := Option.bind_eq_some_iff.1 h
  obtain ⟨⟨u, rest⟩, hread, hu⟩ := Option.bind_eq_some_iff.1 hraw
  dsimp only at hu
  split at hu
  · cases hu
    split at h
    · rename_i hproper
      cases h
      refine ⟨Value.settled_settle _, Value.isProper_settle hproper, fun n hn => ?_⟩
      exact (hasRead_of_read _).1 _ _ _ (Nat.lt_succ_self _) hread n (Value.within_number_settle hn)
    · cases h
  · cases hu

theorem of_parse? {text : String} {v : Value} (h : parse? text = some v) :
    v.Settled ∧ v.isProper Value.depthLimit = true ∧ v.HasWords := by
  obtain ⟨hsettled, hproper, hread⟩ := read_of_parse? h
  exact ⟨hsettled, hproper, hread.hasWords⟩

/-- A value that was read lasts if it has no numbers but integers. -/
theorem lasting_of_parse? {text : String} {v : Value} (h : parse? text = some v)
    (hintegers : ∀ n, Value.Within (.number n) v → ∃ i : Int, n = .integer i) : v.Lasting := by
  obtain ⟨hsettled, hproper, hwords⟩ := of_parse? h
  refine ⟨hsettled, hproper, fun n hn => ?_⟩
  obtain ⟨i, rfl⟩ := hintegers n hn
  exact hwords i hn

end RouterShift.Json
