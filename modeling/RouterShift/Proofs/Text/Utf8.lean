import Mathlib.Algebra.Group.Nat.Defs
import RouterShift.Disk.Entry

/-! Texts come back from their bytes. A character is read back from its own bytes whatever follows
    them (`units_utf8EncodeChar`), one case for each number of bytes. And the bytes keep the order:
    a lesser text has lesser bytes (`toUTF8_lt`). -/

namespace RouterShift.Text

/-! ### The bytes of a text -/

theorem toList_loop_eq (bytes : ByteArray) (i : Nat) (done : List UInt8) :
    ByteArray.toList.loop bytes i done = done.reverse ++ bytes.data.toList.drop i := by
  induction i, done using ByteArray.toList.loop.induct bytes with
  | case1 i done hlt ih =>
    have hget : bytes.get! i = bytes.data.toList.get ⟨i, by simpa using hlt⟩ := by
      simp [ByteArray.get!, getElem!_pos, hlt]
    have hdrop : bytes.data.toList.drop i = bytes.get! i :: bytes.data.toList.drop (i + 1) := by
      rw [List.drop_eq_getElem_cons (by simpa using hlt), hget, List.get_eq_getElem]
    rw [ByteArray.toList.loop, if_pos hlt, ih, hdrop]
    simp
  | case2 i done hge =>
    rw [ByteArray.toList.loop, if_neg hge, List.drop_eq_nil_of_le (by simpa using hge),
      List.append_nil]

/-- The bytes of a text are those of its characters. -/
theorem toList_toUTF8 (s : String) : s.toUTF8.toList = s.toList.flatMap String.utf8EncodeChar := by
  rw [ByteArray.toList, toList_loop_eq, String.toUTF8_eq_toByteArray, ← String.utf8Encode_toList,
    List.utf8Encode, List.toList_data_toByteArray]
  rfl

/-! ### One character -/

theorem toNat_ofNat {n : Nat} (h : n < 256) : (UInt8.ofNat n).toNat = n := by
  rw [UInt8.toNat_ofNat', Nat.mod_eq_of_lt h]

/-- The numbers of characters: no surrogate is among them. -/
theorem toNat_valid (c : Char) :
    c.toNat < 0xD800 ∨ 0xDFFF < c.toNat ∧ c.toNat < 0x110000 := by
  rcases c.valid with h | h
  · exact .inl h
  · exact .inr h

/-- A byte behind the first of a character, with six bits of its number. -/
def follower (n : Nat) : UInt8 := UInt8.ofNat (n % 64 + 0x80)

@[simp] theorem toNat_follower (n : Nat) : (follower n).toNat = n % 64 + 0x80 :=
  toNat_ofNat (by omega)

theorem follower_bounds (n : Nat) : 0x80 ≤ follower n ∧ follower n ≤ 0xBF := by
  constructor
  · simp [UInt8.le_iff_toNat_le]
  · simp [UInt8.le_iff_toNat_le]
    omega

/-- Followers are taken as long as some are due; the first may have bounds of its own. -/
theorem followRun_followers {low high : UInt8} {n : Nat} (hlow : low ≤ follower n)
    (hhigh : follower n ≤ high) (ns : List Nat) (rest : List UInt8) :
    followRun (ns.length + 1) low high (follower n :: (ns.map follower ++ rest)) =
      follower n :: ns.map follower := by
  induction ns generalizing low high n with
  | nil => simp [followRun, hlow, hhigh]
  | cons m ns ih =>
    have hm := follower_bounds m
    rw [List.length_cons, followRun, List.map_cons, List.cons_append, ih hm.1 hm.2]
    simp [hlow, hhigh]

/-- A first byte with all of its followers is a character, whatever comes behind them. -/
theorem units_followers {lead : UInt8} {f : Followers} {n : Nat} (ns : List Nat)
    (hlead : 0x80 ≤ lead.toNat) (hf : followers? lead = some f) (hcount : f.count = ns.length + 1)
    (hlow : f.low ≤ follower n) (hhigh : follower n ≤ f.high) {c : Char}
    (hc : assemble lead (follower n :: ns.map follower) = c) (rest : List UInt8) :
    units (lead :: follower n :: (ns.map follower ++ rest)) = some c :: units rest := by
  have hrun := followRun_followers hlow hhigh ns rest
  rw [units, if_neg (by rw [UInt8.lt_iff_toNat_lt]; exact Nat.not_lt.2 hlead)]
  simp only [hf, hcount, hrun, List.length_cons, List.length_map, if_pos, hc, List.drop_succ_cons]
  rw [List.drop_append, List.drop_of_length_le (by simp), List.length_map, Nat.sub_self]
  rfl

/-- What follows a first byte, by its number. -/
theorem followers?_eq (lead : UInt8) : followers? lead =
    if 0xC2 ≤ lead.toNat ∧ lead.toNat ≤ 0xDF then some ⟨1, 0x80, 0xBF⟩
    else if lead.toNat = 0xE0 then some ⟨2, 0xA0, 0xBF⟩
    else if lead.toNat = 0xED then some ⟨2, 0x80, 0x9F⟩
    else if 0xE1 ≤ lead.toNat ∧ lead.toNat ≤ 0xEF then some ⟨2, 0x80, 0xBF⟩
    else if lead.toNat = 0xF0 then some ⟨3, 0x90, 0xBF⟩
    else if lead.toNat = 0xF4 then some ⟨3, 0x80, 0x8F⟩
    else if 0xF1 ≤ lead.toNat ∧ lead.toNat ≤ 0xF3 then some ⟨3, 0x80, 0xBF⟩
    else none := by
  simp only [followers?, Bool.and_eq_true, decide_eq_true_eq, UInt8.le_iff_toNat_le, beq_iff_eq,
    ← UInt8.toNat_inj]
  rfl

section
variable {c : Char} (rest : List UInt8)

theorem units_one (h : c.toNat ≤ 0x7F) : units (UInt8.ofNat c.toNat :: rest) = some c :: units rest := by
  have hlead : (UInt8.ofNat c.toNat).toNat = c.toNat := toNat_ofNat (by omega)
  rw [units, if_pos (by rw [UInt8.lt_iff_toNat_lt, hlead]; exact Nat.lt_succ_of_le h), hlead,
    Char.ofNat_toNat]

theorem units_two (h : 0x7F < c.toNat) (h' : c.toNat ≤ 0x7FF) :
    units (UInt8.ofNat (c.toNat / 64 + 0xC0) :: follower c.toNat :: rest) =
      some c :: units rest := by
  have hlead : (UInt8.ofNat (c.toNat / 64 + 0xC0)).toNat = c.toNat / 64 + 0xC0 :=
    toNat_ofNat (by omega)
  have hbounds := follower_bounds c.toNat
  have hf : followers? (UInt8.ofNat (c.toNat / 64 + 0xC0)) = some ⟨1, 0x80, 0xBF⟩ := by
    rw [followers?_eq, hlead, if_pos (by omega)]
  refine units_followers [] (by omega) hf rfl hbounds.1 hbounds.2 ?_ rest
  simp only [assemble, List.length_cons, List.length_nil, List.map_nil, List.foldl_cons,
    List.foldl_nil, hlead, toNat_follower]
  rw [show (c.toNat / 64 + 0xC0 - 0xC0) * 64 + (c.toNat % 64 + 0x80 - 0x80) = c.toNat by omega,
    Char.ofNat_toNat]

theorem units_three (h : 0x7FF < c.toNat) (h' : c.toNat ≤ 0xFFFF) :
    units (UInt8.ofNat (c.toNat / 4096 + 0xE0) :: follower (c.toNat / 64) :: follower c.toNat ::
      rest) = some c :: units rest := by
  have hlead : (UInt8.ofNat (c.toNat / 4096 + 0xE0)).toNat = c.toNat / 4096 + 0xE0 :=
    toNat_ofNat (by omega)
  have hvalid := toNat_valid c
  have hbounds := follower_bounds (c.toNat / 64)
  obtain ⟨f, hf, hcount, hlow, hhigh⟩ : ∃ f, followers? (UInt8.ofNat (c.toNat / 4096 + 0xE0)) = some f ∧
      f.count = 2 ∧ f.low ≤ follower (c.toNat / 64) ∧ follower (c.toNat / 64) ≤ f.high := by
    rw [followers?_eq, hlead, if_neg (by omega)]
    rcases Nat.eq_zero_or_pos (c.toNat / 4096) with h0 | hpos
    · -- an overlong form would follow with less than `0xA0`
      refine ⟨_, if_pos (by omega), rfl, ?_, hbounds.2⟩
      simp [UInt8.le_iff_toNat_le]
      omega
    · rw [if_neg (by omega)]
      by_cases hd : c.toNat / 4096 = 13
      · -- a surrogate would follow with more than `0x9F`
        refine ⟨_, if_pos (by omega), rfl, hbounds.1, ?_⟩
        simp [UInt8.le_iff_toNat_le]
        omega
      · exact ⟨_, by rw [if_neg (by omega), if_pos (by omega)], rfl, hbounds⟩
  refine units_followers [c.toNat] (by omega) hf hcount hlow hhigh ?_ rest
  simp only [assemble, List.length_cons, List.length_nil, List.map_cons, List.map_nil,
    List.foldl_cons, List.foldl_nil, hlead, toNat_follower]
  rw [show ((c.toNat / 4096 + 0xE0 - 0xE0) * 64 + (c.toNat / 64 % 64 + 0x80 - 0x80)) * 64 +
    (c.toNat % 64 + 0x80 - 0x80) = c.toNat by omega, Char.ofNat_toNat]

theorem units_four (h : 0xFFFF < c.toNat) :
    units (UInt8.ofNat (c.toNat / 262144 + 0xF0) :: follower (c.toNat / 4096) ::
      follower (c.toNat / 64) :: follower c.toNat :: rest) = some c :: units rest := by
  have hvalid := toNat_valid c
  have hlead : (UInt8.ofNat (c.toNat / 262144 + 0xF0)).toNat = c.toNat / 262144 + 0xF0 :=
    toNat_ofNat (by omega)
  have hbounds := follower_bounds (c.toNat / 4096)
  obtain ⟨f, hf, hcount, hlow, hhigh⟩ : ∃ f, followers? (UInt8.ofNat (c.toNat / 262144 + 0xF0)) = some f ∧
      f.count = 3 ∧ f.low ≤ follower (c.toNat / 4096) ∧ follower (c.toNat / 4096) ≤ f.high := by
    rw [followers?_eq, hlead, if_neg (by omega), if_neg (by omega), if_neg (by omega), if_neg (by omega)]
    rcases Nat.eq_zero_or_pos (c.toNat / 262144) with h0 | hpos
    · -- an overlong form would follow with less than `0x90`
      refine ⟨_, if_pos (by omega), rfl, ?_, hbounds.2⟩
      simp [UInt8.le_iff_toNat_le]
      omega
    · rw [if_neg (by omega)]
      by_cases hd : c.toNat / 262144 = 4
      · -- what lies beyond the last character would follow with more than `0x8F`
        refine ⟨_, if_pos (by omega), rfl, hbounds.1, ?_⟩
        simp [UInt8.le_iff_toNat_le]
        omega
      · exact ⟨_, by rw [if_neg (by omega), if_pos (by omega)], rfl, hbounds⟩
  refine units_followers [c.toNat / 64, c.toNat] (by omega) hf hcount hlow hhigh ?_ rest
  simp only [assemble, List.length_cons, List.length_nil, List.map_cons, List.map_nil,
    List.foldl_cons, List.foldl_nil, hlead, toNat_follower]
  rw [show (((c.toNat / 262144 + 0xF0 - 0xF0) * 64 + (c.toNat / 4096 % 64 + 0x80 - 0x80)) * 64 +
    (c.toNat / 64 % 64 + 0x80 - 0x80)) * 64 + (c.toNat % 64 + 0x80 - 0x80) = c.toNat by omega,
    Char.ofNat_toNat]

end

/-- A character is read back from its bytes. -/
theorem units_utf8EncodeChar (c : Char) (rest : List UInt8) :
    units (String.utf8EncodeChar c ++ rest) = some c :: units rest := by
  have hvalid := toNat_valid c
  have hval : c.val.toNat = c.toNat := rfl
  simp only [String.utf8EncodeChar, hval]
  by_cases h1 : c.toNat ≤ 0x7F
  · rw [if_pos h1]
    exact units_one rest h1
  by_cases h2 : c.toNat ≤ 0x7FF
  · rw [if_neg h1, if_pos h2, Nat.mod_eq_of_lt (by omega)]
    exact units_two rest (by omega) h2
  by_cases h3 : c.toNat ≤ 0xFFFF
  · rw [if_neg h1, if_neg h2, if_pos h3, Nat.mod_eq_of_lt (by omega)]
    exact units_three rest (by omega) h3
  · rw [if_neg h1, if_neg h2, if_neg h3, Nat.mod_eq_of_lt (by omega)]
    exact units_four rest (by omega)

/-! ### Texts -/

theorem units_flatMap (cs : List Char) :
    units (cs.flatMap String.utf8EncodeChar) = cs.map some := by
  induction cs with
  | nil => rw [List.flatMap_nil, units, List.map_nil]
  | cons c cs ih => rw [List.flatMap_cons, units_utf8EncodeChar, ih, List.map_cons]

/-- A text comes back from its bytes. -/
theorem ofUtf8?_toUTF8 (s : String) : ofUtf8? s.toUTF8.toList = some s := by
  have hmap (cs : List Char) : (cs.map some).mapM id = some cs := by
    induction cs with
    | nil => rfl
    | cons c cs ih => simp [List.mapM_cons, ih]
  rw [ofUtf8?, toList_toUTF8, units_flatMap, hmap, Option.map_some, String.ofList_toList]

/-! ### The order of texts -/

/-- A number over several bytes: six bits in each behind the first, which is marked by what is added
    to it. -/
def spell (mark : Nat) : Nat → Nat → List UInt8
  | 0, n => [UInt8.ofNat (n + mark)]
  | k + 1, n => spell mark k (n / 64) ++ [follower n]

theorem utf8EncodeChar_eq_spell (c : Char) :
    c.toNat ≤ 0x7F ∧ String.utf8EncodeChar c = spell 0 0 c.toNat ∨
    0x7F < c.toNat ∧ c.toNat ≤ 0x7FF ∧ String.utf8EncodeChar c = spell 0xC0 1 c.toNat ∨
    0x7FF < c.toNat ∧ c.toNat ≤ 0xFFFF ∧ String.utf8EncodeChar c = spell 0xE0 2 c.toNat ∨
    0xFFFF < c.toNat ∧ String.utf8EncodeChar c = spell 0xF0 3 c.toNat := by
  have hvalid := toNat_valid c
  have hval : c.val.toNat = c.toNat := rfl
  simp only [String.utf8EncodeChar, hval, spell, Nat.div_div_eq_div_mul]
  by_cases h1 : c.toNat ≤ 0x7F
  · exact .inl ⟨h1, if_pos h1⟩
  by_cases h2 : c.toNat ≤ 0x7FF
  · rw [if_neg h1, if_pos h2, Nat.mod_eq_of_lt (by omega)]
    exact .inr (.inl ⟨by omega, h2, rfl⟩)
  by_cases h3 : c.toNat ≤ 0xFFFF
  · rw [if_neg h1, if_neg h2, if_pos h3, Nat.mod_eq_of_lt (by omega)]
    exact .inr (.inr (.inl ⟨by omega, h3, rfl⟩))
  · rw [if_neg h1, if_neg h2, if_neg h3, Nat.mod_eq_of_lt (by omega)]
    exact .inr (.inr (.inr ⟨by omega, rfl⟩))

section
variable {mark mark' k k' m n : Nat}

theorem exists_spell_eq (mark k n : Nat) :
    ∃ rest, spell mark k n = UInt8.ofNat (n / 64 ^ k + mark) :: rest := by
  induction k generalizing n with
  | zero => exact ⟨[], by rw [spell, Nat.pow_zero, Nat.div_one]⟩
  | succ k ih =>
    obtain ⟨rest, hrest⟩ := ih (n / 64)
    refine ⟨rest ++ [follower n], ?_⟩
    rw [spell, hrest, Nat.div_div_eq_div_mul, ← Nat.pow_succ', List.cons_append]

/-- A lesser first byte decides, whatever stands behind it. -/
theorem spell_lt_of_lead (h : m / 64 ^ k + mark < n / 64 ^ k' + mark') (hn : n / 64 ^ k' + mark' < 256)
    (as bs : List UInt8) : spell mark k m ++ as < spell mark' k' n ++ bs := by
  obtain ⟨rest, hm⟩ := exists_spell_eq mark k m
  obtain ⟨rest', hn'⟩ := exists_spell_eq mark' k' n
  rw [hm, hn', List.cons_append, List.cons_append, List.cons_lt_cons_iff, UInt8.lt_iff_toNat_lt,
    toNat_ofNat (by omega), toNat_ofNat hn]
  exact .inl h

/-- Among numbers over as many bytes the lesser one is less by the first byte that differs. -/
theorem spell_lt (h : m < n) (hn : n / 64 ^ k + mark < 256) (as bs : List UInt8) :
    spell mark k m ++ as < spell mark k n ++ bs := by
  induction k generalizing m n as bs with
  | zero =>
    rw [Nat.pow_zero, Nat.div_one] at hn
    exact spell_lt_of_lead (by simpa using h) (by simpa using hn) as bs
  | succ k ih =>
    rw [Nat.pow_succ', ← Nat.div_div_eq_div_mul] at hn
    rw [spell, spell, List.append_assoc, List.append_assoc]
    rcases Nat.lt_or_eq_of_le (Nat.div_le_div_right (c := 64) (Nat.le_of_lt h)) with hlt | heq
    · exact ih hlt hn _ _
    · rw [heq]
      refine List.append_left_lt (List.cons_lt_cons_iff.2 (.inl ?_))
      rw [UInt8.lt_iff_toNat_lt, toNat_follower, toNat_follower]
      omega

end

/-- The bytes of a lesser character are less, whatever stands behind them. -/
theorem utf8EncodeChar_lt {c d : Char} (h : c.toNat < d.toNat) (as bs : List UInt8) :
    String.utf8EncodeChar c ++ as < String.utf8EncodeChar d ++ bs := by
  have hvalid := toNat_valid d
  -- with as many bytes the numbers decide, with fewer the marks of the first bytes
  rcases utf8EncodeChar_eq_spell c with ⟨hc, heq⟩ | ⟨hc, hc', heq⟩ | ⟨hc, hc', heq⟩ | ⟨hc, heq⟩ <;>
    rcases utf8EncodeChar_eq_spell d with ⟨hd, heq'⟩ | ⟨hd, hd', heq'⟩ | ⟨hd, hd', heq'⟩ | ⟨hd, heq'⟩ <;>
      rw [heq, heq'] <;>
        first
        | exact spell_lt h (by omega) as bs
        | exact spell_lt_of_lead (by omega) (by omega) as bs

theorem flatMap_utf8EncodeChar_lt {cs ds : List Char} (h : cs < ds) :
    cs.flatMap String.utf8EncodeChar < ds.flatMap String.utf8EncodeChar := by
  induction cs generalizing ds with
  | nil =>
    cases ds with
    | nil => exact absurd h (List.not_lt_nil _)
    | cons d ds =>
      obtain ⟨b, bs, hb⟩ := List.exists_cons_of_ne_nil (String.utf8EncodeChar_ne_nil (c := d))
      rw [List.flatMap_nil, List.flatMap_cons, hb, List.cons_append]
      exact List.nil_lt_cons _ _
  | cons c cs ih =>
    cases ds with
    | nil => exact absurd h (List.not_lt_nil _)
    | cons d ds =>
      rw [List.flatMap_cons, List.flatMap_cons]
      rcases List.cons_lt_cons_iff.1 h with hlt | ⟨rfl, hlt⟩
      · exact utf8EncodeChar_lt hlt _ _
      · exact List.append_left_lt (ih hlt)

/-- Texts are in the order of their bytes. -/
theorem toUTF8_lt {s t : String} (h : s < t) : s.toUTF8.toList < t.toUTF8.toList := by
  rw [toList_toUTF8, toList_toUTF8]
  exact flatMap_utf8EncodeChar_lt h

end RouterShift.Text
