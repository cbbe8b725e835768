import RouterShift.Proofs.Text.Cursor
import RouterShift.Proofs.Text.Utf8
import RouterShift.Text.Blank

/-! The bytes of a text looked at one by one. A character of ASCII is its own byte and all bytes of
    any other character are beyond ASCII, so a rule that takes all of those alike finds in the bytes
    what it finds in the characters, at the byte offsets of these. -/

namespace RouterShift.Text

/-- A byte as the ASCII character that it is. A byte of another character is taken for a character
    beyond ASCII. -/
def ofByte (b : UInt8) : Char := Char.ofNat b.toNat

/-- The bytes of characters. -/
def bytes (cs : List Char) : List Char := (cs.flatMap String.utf8EncodeChar).map ofByte

/-- A class that takes all characters beyond ASCII alike. -/
def Uniform (keep : Char → Bool) : Prop :=
  ∀ c d : Char, 128 ≤ c.toNat → 128 ≤ d.toNat → keep c = keep d

@[simp] theorem bytes_nil : bytes [] = [] := rfl

theorem bytes_append (a b : List Char) : bytes (a ++ b) = bytes a ++ bytes b := by
  simp [bytes]

theorem bytes_cons (c : Char) (cs : List Char) : bytes (c :: cs) = bytes [c] ++ bytes cs :=
  bytes_append [c] cs

/-! ### One character -/

theorem bytes_ascii {c : Char} (h : c.toNat < 128) : bytes [c] = [c] := by
  have hval : c.val.toNat = c.toNat := rfl
  have hbyte : (UInt8.ofNat c.toNat).toNat = c.toNat := toNat_ofNat (by omega)
  simp [bytes, String.utf8EncodeChar, hval, show c.toNat ≤ 127 by omega, ofByte, hbyte]

theorem toNat_ofByte (b : UInt8) : (ofByte b).toNat = b.toNat := by
  have hvalid : b.toNat.isValidChar := .inl (by have := b.toNat_lt; omega)
  rw [ofByte, Char.ofNat, dif_pos hvalid]
  rfl

/-- All bytes of a character beyond ASCII are beyond ASCII. -/
theorem le_toNat_of_mem_bytes {c b : Char} (h : 128 ≤ c.toNat) (hb : b ∈ bytes [c]) :
    128 ≤ b.toNat := by
  have hvalid := toNat_valid c
  have hval : c.val.toNat = c.toNat := rfl
  simp only [bytes, List.flatMap_cons, List.flatMap_nil, List.append_nil, List.mem_map] at hb
  obtain ⟨b, hb, rfl⟩ := hb
  rw [toNat_ofByte]
  have hofNat : ∀ n : Nat, 128 ≤ n → n < 256 → 128 ≤ (UInt8.ofNat n).toNat := fun n h h' => by
    rwa [toNat_ofNat h']
  simp only [String.utf8EncodeChar, hval] at hb
  rw [if_neg (by omega)] at hb
  split at hb
  · rcases hb with _ | ⟨_, _ | ⟨_, ⟨⟩⟩⟩ <;> exact hofNat _ (by omega) (by omega)
  · split at hb
    · rcases hb with _ | ⟨_, _ | ⟨_, _ | ⟨_, ⟨⟩⟩⟩⟩ <;> exact hofNat _ (by omega) (by omega)
    · rcases hb with _ | ⟨_, _ | ⟨_, _ | ⟨_, _ | ⟨_, ⟨⟩⟩⟩⟩⟩ <;>
        exact hofNat _ (by omega) (by omega)

theorem length_bytes (cs : List Char) : (bytes cs).length = byteLength cs := by
  induction cs with
  | nil => rfl
  | cons c cs ih =>
    rw [bytes_cons, List.length_append, ih, byteLength]
    simp [bytes]

theorem bytes_singleton_ne_nil (c : Char) : bytes [c] ≠ [] := by
  intro h
  have hlength := length_bytes [c]
  have := c.utf8Size_pos
  rw [h] at hlength
  simp only [List.length_nil, byteLength] at hlength
  omega

/-- The first byte of a text that is not empty. -/
theorem exists_bytes_cons (c : Char) (cs : List Char) :
    ∃ b more, bytes (c :: cs) = b :: more ∧
      (c.toNat < 128 ∧ b = c ∧ more = bytes cs ∨ 128 ≤ c.toNat ∧ 128 ≤ b.toNat) := by
  rcases Nat.lt_or_ge c.toNat 128 with h | h
  · exact ⟨c, bytes cs, by rw [bytes_cons, bytes_ascii h]; rfl, .inl ⟨h, rfl, rfl⟩⟩
  · obtain ⟨b, more, hb⟩ := List.exists_cons_of_ne_nil (bytes_singleton_ne_nil c)
    have hle := le_toNat_of_mem_bytes h (b := b) (hb ▸ List.mem_cons_self)
    exact ⟨b, more ++ bytes cs, by rw [bytes_cons, hb]; rfl, .inr ⟨h, hle⟩⟩

/-! ### Rules -/

section
variable {keep : Char → Bool}

/-- A rule finds in all bytes of a character what it finds in the character. -/
theorem Uniform.eq_of_mem (h : Uniform keep) {b c : Char} (hb : b ∈ bytes [c]) :
    keep b = keep c := by
  rcases Nat.lt_or_ge c.toNat 128 with hlt | hge
  · rw [bytes_ascii hlt, List.mem_singleton] at hb
    rw [hb]
  · exact h b c (le_toNat_of_mem_bytes hge hb) hge

theorem takeWhile_bytes (h : Uniform keep) (cs : List Char) :
    (bytes cs).takeWhile keep = bytes (cs.takeWhile keep) := by
  induction cs with
  | nil => rfl
  | cons c cs ih =>
    rw [bytes_cons, List.takeWhile_cons]
    by_cases hc : keep c = true
    · rw [if_pos hc, List.takeWhile_append_of_pos fun b hb => by rw [h.eq_of_mem hb, hc], ih,
        ← bytes_cons]
    · obtain ⟨b, more, hb⟩ := List.exists_cons_of_ne_nil (bytes_singleton_ne_nil c)
      have hstop : ¬ keep b = true := by
        rwa [h.eq_of_mem (c := c) (by rw [hb]; exact List.mem_cons_self)]
      rw [if_neg hc, hb, List.cons_append, List.takeWhile_cons_of_neg hstop]
      rfl

theorem all_bytes (h : Uniform keep) (cs : List Char) : (bytes cs).all keep = cs.all keep := by
  induction cs with
  | nil => rfl
  | cons c cs ih =>
    have hone : (bytes [c]).all keep = keep c := by
      obtain ⟨b, more, hb⟩ := List.exists_cons_of_ne_nil (bytes_singleton_ne_nil c)
      cases hc : keep c with
      | true => exact List.all_eq_true.2 fun b hb => by rw [h.eq_of_mem hb, hc]
      | false =>
        rw [hb, List.all_cons, h.eq_of_mem (c := c) (by rw [hb]; exact List.mem_cons_self), hc]
        rfl
    rw [bytes_cons, List.all_append, hone, ih, List.all_cons]

end

/-- An ASCII text starts the bytes of what it starts. -/
theorem isPrefixOf_bytes {start : List Char} (h : ∀ c ∈ start, c.toNat < 128) (cs : List Char) :
    start.isPrefixOf (bytes cs) = start.isPrefixOf cs := by
  induction start generalizing cs with
  | nil => simp
  | cons a start ih =>
    cases cs with
    | nil => rfl
    | cons c cs =>
      have ha := h a List.mem_cons_self
      obtain ⟨b, more, hb, ⟨-, rfl, rfl⟩ | ⟨hc, hb'⟩⟩ := exists_bytes_cons c cs
      · rw [hb, List.isPrefixOf_cons_cons, List.isPrefixOf_cons_cons, ih fun c hc => h c (.tail a hc)]
      · have h1 : (a == b) = false := by
          rw [beq_eq_false_iff_ne]; rintro rfl; omega
        have h2 : (a == c) = false := by
          rw [beq_eq_false_iff_ne]; rintro rfl; omega
        rw [hb, List.isPrefixOf_cons_cons, List.isPrefixOf_cons_cons, h1, h2]
        rfl

/-- An ASCII character comes first in a text when it comes first in its bytes. -/
theorem head?_bytes {a : Char} (ha : a.toNat < 128) (cs : List Char) :
    (bytes cs).head? = some a ↔ cs.head? = some a := by
  cases cs with
  | nil => simp
  | cons c cs =>
    obtain ⟨b, more, hb, ⟨-, rfl, -⟩ | ⟨hc, hb'⟩⟩ := exists_bytes_cons c cs
    · rw [hb]; rfl
    · have h1 : b ≠ a := by rintro rfl; omega
      have h2 : c ≠ a := by rintro rfl; omega
      simp [hb, h1, h2]

/-! ### Classes -/

theorem uniform_of {keep : Char → Bool} {b : Bool}
    (h : ∀ c : Char, 128 ≤ c.toNat → keep c = b) : Uniform keep := fun c d hc hd => by
  rw [h c hc, h d hd]

theorem beq_ascii {c a : Char} (hc : 128 ≤ c.toNat) (ha : a.toNat < 128) : (c == a) = false := by
  rw [beq_eq_false_iff_ne]
  rintro rfl
  omega

theorem not_le_ascii {c a : Char} (hc : 128 ≤ c.toNat) (ha : a.toNat < 128) : ¬ c ≤ a := by
  rw [Char.le_def, UInt32.le_iff_toNat_le]
  exact fun h => absurd (Nat.le_trans hc h) (Nat.not_le.2 ha)

theorem uniform_ne {a : Char} (ha : a.toNat < 128) : Uniform (· != a) :=
  uniform_of (b := true) fun c hc => by simp only [bne, beq_ascii hc ha, Bool.not_false]

theorem isAsciiBlank_beyond {c : Char} (hc : 128 ≤ c.toNat) : isAsciiBlank c = false := by
  simp [isAsciiBlank, beq_ascii hc]

theorem uniform_isAsciiBlank : Uniform isAsciiBlank := uniform_of fun _ => isAsciiBlank_beyond

end RouterShift.Text
