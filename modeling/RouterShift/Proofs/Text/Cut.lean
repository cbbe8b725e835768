import Mathlib.Data.List.Basic
import RouterShift.Text.Cut

/-! Byte offsets and the parts of a text. An offset is a boundary exactly when some part of the text
    in front of it takes that many bytes, and that part is unique, so cutting at a byte offset and
    taking a text apart are the same thing (`cutAt?_eq_some`, `slice?_eq_some`). -/

namespace RouterShift.Text

theorem byteLength_append : ∀ a b : List Char, byteLength (a ++ b) = byteLength a + byteLength b
  | [], b => by simp [byteLength]
  | c :: a, b => by
    rw [List.cons_append, byteLength, byteLength, byteLength_append a b]; omega

theorem byteLength_pos {cs : List Char} (h : cs ≠ []) : 0 < byteLength cs := by
  obtain ⟨c, cs, rfl⟩ := List.exists_cons_of_ne_nil h
  have := c.utf8Size_pos
  rw [byteLength]; omega

theorem byteLength_eq_zero {cs : List Char} : byteLength cs = 0 ↔ cs = [] := by
  constructor
  · intro h
    by_contra hne
    have := byteLength_pos hne
    omega
  · rintro rfl; rfl

/-- Of two beginnings of one text the shorter one begins the longer one. -/
theorem prefix_of_byteLength_le : ∀ {a b a' b' : List Char}, a ++ b = a' ++ b' →
    byteLength a ≤ byteLength a' → ∃ m, a' = a ++ m ∧ b = m ++ b'
  | [], _, a', _, h, _ => ⟨a', rfl, h⟩
  | c :: a, b, [], b', _, hle => by
    have := byteLength_pos (List.cons_ne_nil c a)
    rw [byteLength.eq_1] at hle
    omega
  | c :: a, b, d :: a', b', h, hle => by
    rw [List.cons_append, List.cons_append, List.cons.injEq] at h
    obtain ⟨rfl, h⟩ := h
    rw [byteLength, byteLength] at hle
    obtain ⟨m, rfl, hb⟩ := prefix_of_byteLength_le h (by omega)
    exact ⟨m, rfl, hb⟩

theorem append_inj_of_byteLength {a b a' b' : List Char} (h : a ++ b = a' ++ b')
    (hl : byteLength a = byteLength a') : a = a' ∧ b = b' := by
  obtain ⟨m, rfl, rfl⟩ := prefix_of_byteLength_le h (Nat.le_of_eq hl)
  have hm : byteLength m = 0 := by rw [byteLength_append] at hl; omega
  rw [byteLength_eq_zero] at hm
  subst hm
  exact ⟨(List.append_nil a).symm, rfl⟩

/-! ### Cutting -/

theorem cutAt?_append : ∀ a b : List Char, cutAt? (a ++ b) (byteLength a) = some (a, b)
  | [], b => by simp [byteLength, cutAt?]
  | c :: a, b => by
    have hc := c.utf8Size_pos
    obtain ⟨n, hn⟩ : ∃ n, byteLength (c :: a) = n + 1 := by
      refine ⟨c.utf8Size + byteLength a - 1, ?_⟩
      rw [byteLength]; omega
    rw [List.cons_append, hn, cutAt?, ← hn, byteLength, if_pos (by omega),
      Nat.add_sub_cancel_left, cutAt?_append a b]
    rfl

theorem append_of_cutAt? : ∀ {cs : List Char} {n : Nat} {a b : List Char},
    cutAt? cs n = some (a, b) → cs = a ++ b ∧ byteLength a = n
  | cs, 0, a, b, h => by
    rw [cutAt?, Option.some.injEq, Prod.mk.injEq] at h
    obtain ⟨rfl, rfl⟩ := h
    exact ⟨rfl, rfl⟩
  | [], n + 1, a, b, h => by simp [cutAt?] at h
  | c :: cs, n + 1, a, b, h => by
    rw [cutAt?] at h
    split at h
    · simp only [Option.map_eq_some_iff, Prod.exists, Prod.mk.injEq] at h
      obtain ⟨front, back, hcut, rfl, rfl⟩ := h
      obtain ⟨rfl, hl⟩ := append_of_cutAt? hcut
      refine ⟨rfl, ?_⟩
      rw [byteLength]; omega
    · cases h

theorem cutAt?_eq_some {cs : List Char} {n : Nat} {a b : List Char} :
    cutAt? cs n = some (a, b) ↔ cs = a ++ b ∧ byteLength a = n := by
  constructor
  · exact append_of_cutAt?
  · rintro ⟨rfl, rfl⟩
    exact cutAt?_append a b

theorem isBoundary_iff {cs : List Char} {n : Nat} :
    isBoundary cs n = true ↔ ∃ a b, cs = a ++ b ∧ byteLength a = n := by
  rw [isBoundary, Option.isSome_iff_exists]
  constructor
  · rintro ⟨⟨a, b⟩, h⟩
    exact ⟨a, b, append_of_cutAt? h⟩
  · rintro ⟨a, b, h⟩
    exact ⟨(a, b), cutAt?_eq_some.2 h⟩

theorem slice?_eq_some {cs part : List Char} {start stop : Nat} :
    slice? cs start stop = some part ↔
      ∃ a b, cs = a ++ part ++ b ∧ byteLength a = start ∧ start + byteLength part = stop := by
  constructor
  · intro h
    simp only [slice?] at h
    split at h
    · simp only [Option.bind_eq_bind, Option.bind_eq_some_iff, Prod.exists, Option.pure_def,
        Option.some.injEq] at h
      obtain ⟨front, b, hcut, a, p, hcut', rfl⟩ := h
      obtain ⟨rfl, hl⟩ := append_of_cutAt? hcut
      obtain ⟨rfl, hl'⟩ := append_of_cutAt? hcut'
      rw [byteLength_append] at hl
      exact ⟨a, b, rfl, hl', by omega⟩
    · cases h
  · rintro ⟨a, b, rfl, rfl, rfl⟩
    have hcut : cutAt? (a ++ part ++ b) (byteLength a + byteLength part) = some (a ++ part, b) := by
      rw [← byteLength_append]; exact cutAt?_append _ b
    rw [slice?, if_pos (Nat.le_add_right _ _), hcut]
    simp only [Option.bind_eq_bind, Option.bind_some, cutAt?_append, Option.pure_def]

/-- Neighbouring slices make one slice. -/
theorem slice?_trans {cs p q : List Char} {i j k : Nat} (hp : slice? cs i j = some p)
    (hq : slice? cs j k = some q) : slice? cs i k = some (p ++ q) := by
  rw [slice?_eq_some] at hp hq ⊢
  obtain ⟨a, b, rfl, rfl, rfl⟩ := hp
  obtain ⟨a', b', heq, hl, rfl⟩ := hq
  rw [List.append_assoc a'] at heq
  obtain ⟨-, rfl⟩ := append_inj_of_byteLength heq (by rw [byteLength_append, hl])
  refine ⟨a, b', ?_, rfl, ?_⟩
  · simp only [List.append_assoc]
  · rw [byteLength_append]; omega

/-! ### Searching -/

theorem afterStart?_eq_none {p cs : List Char} :
    afterStart? p cs = none ↔ ∀ rest, cs ≠ p ++ rest := by
  rw [Option.eq_none_iff_forall_ne_some]
  exact forall_congr' fun rest => not_congr afterStart?_eq_some

theorem beforeEnd?_eq_some {ending cs front : List Char} :
    beforeEnd? ending cs = some front ↔ cs = front ++ ending := by
  rw [beforeEnd?, Option.map_eq_some_iff]
  constructor
  · rintro ⟨rest, hrest, rfl⟩
    have heq := congrArg List.reverse (afterStart?_eq_some.1 hrest)
    rwa [List.reverse_append, List.reverse_reverse, List.reverse_reverse] at heq
  · rintro rfl
    exact ⟨front.reverse, afterStart?_eq_some.2 List.reverse_append, List.reverse_reverse _⟩

theorem cutFirst?_append_self (p rest : List Char) : cutFirst? p (p ++ rest) = some ([], rest) := by
  cases hcs : p ++ rest with
  | nil =>
    obtain ⟨rfl, rfl⟩ := List.append_eq_nil_iff.1 hcs
    rfl
  | cons c cs =>
    rw [cutFirst?, ← hcs, afterStart?_eq_some.2 rfl]

/-- Whether an occurrence is the first one is decided by the text up to its end. -/
theorem cutFirst?_append {p : List Char} : ∀ {front : List Char} (rest : List Char),
    cutFirst? p (front ++ p ++ rest) = some (front, rest) ↔
      cutFirst? p (front ++ p) = some (front, [])
  | [], rest => by
    rw [List.nil_append, cutFirst?_append_self]
    have := cutFirst?_append_self p []
    rw [List.append_nil] at this
    simp only [this]
  | c :: front, rest => by
    have hstart : afterStart? p (c :: (front ++ p ++ rest)) = none ↔
        afterStart? p (c :: (front ++ p)) = none := by
      rw [afterStart?_eq_none, afterStart?_eq_none]
      constructor
      · intro h r hr
        refine h (r ++ rest) ?_
        rw [← List.append_assoc, ← hr]; simp
      · intro h r hr
        -- the occurrence is no longer than what is there without `rest`
        obtain ⟨m, hm⟩ : p <+: c :: (front ++ p) := by
          refine List.prefix_of_prefix_length_le ⟨r, hr.symm⟩ ⟨rest, by simp⟩ ?_
          simp; omega
        exact h m hm.symm
    have ih := @cutFirst?_append p front rest
    simp only [List.cons_append, cutFirst?]
    cases h1 : afterStart? p (c :: (front ++ p ++ rest)) with
    | some r =>
      cases h2 : afterStart? p (c :: (front ++ p)) with
      | some r' => simp
      | none => rw [hstart.2 h2] at h1; cases h1
    | none =>
      rw [hstart.1 h1]
      simp only [Option.map_eq_some_iff, Prod.exists, Prod.mk.injEq, List.cons.injEq, true_and]
      constructor
      · rintro ⟨a, b, h, rfl, rfl⟩; exact ⟨_, _, ih.1 h, rfl, rfl⟩
      · rintro ⟨a, b, h, rfl, rfl⟩; exact ⟨_, _, ih.2 h, rfl, rfl⟩

theorem append_of_cutFirst? {p : List Char} : ∀ {cs front rest : List Char},
    cutFirst? p cs = some (front, rest) → cs = front ++ p ++ rest
  | [], front, rest, h => by
    rw [cutFirst?] at h
    split at h
    · next hp =>
      cases h
      rw [List.isEmpty_iff.1 hp]; rfl
    · cases h
  | c :: cs, front, rest, h => by
    rw [cutFirst?] at h
    split at h
    · next r hr =>
      cases h
      exact afterStart?_eq_some.1 hr
    · simp only [Option.map_eq_some_iff, Prod.exists, Prod.mk.injEq] at h
      obtain ⟨a, b, hab, rfl, rfl⟩ := h
      rw [append_of_cutFirst? hab]; rfl

theorem cutFirst?_eq_some {p cs front rest : List Char} :
    cutFirst? p cs = some (front, rest) ↔
      cs = front ++ p ++ rest ∧ cutFirst? p (front ++ p) = some (front, []) := by
  constructor
  · intro h
    obtain rfl := append_of_cutFirst? h
    exact ⟨rfl, (cutFirst?_append rest).1 h⟩
  · rintro ⟨rfl, h⟩
    exact (cutFirst?_append rest).2 h

/-- An occurrence at the end of a text is the first one when no part of what precedes it starts
    another. -/
theorem cutFirst?_self_iff {p front : List Char} :
    cutFirst? p (front ++ p) = some (front, []) ↔
      ∀ a b, front = a ++ b → b ≠ [] → ¬ p <+: b ++ p := by
  induction front with
  | nil =>
    have hself := cutFirst?_append_self p []
    rw [List.append_nil] at hself
    refine iff_of_true hself fun a b hab hb => ?_
    exact absurd (List.append_eq_nil_iff.1 hab.symm).2 hb
  | cons c front ih =>
    rw [List.cons_append, cutFirst?]
    constructor
    · intro h a b hab hb hstart
      split at h
      · cases h
      · next hnone =>
        obtain ⟨⟨front', rest⟩, hcut, heq⟩ := Option.map_eq_some_iff.1 h
        obtain ⟨⟨-, rfl⟩, rfl⟩ : (c = c ∧ front' = front) ∧ rest = [] := by simpa using heq
        cases a with
        | nil =>
          obtain ⟨rest, hrest⟩ := hstart
          rw [List.nil_append] at hab
          rw [← hab, List.cons_append] at hrest
          exact afterStart?_eq_none.1 hnone rest hrest.symm
        | cons d a => exact ih.1 hcut a b (List.cons.inj hab).2 hb hstart
    · intro h
      have hnone : afterStart? p (c :: (front ++ p)) = none := by
        refine afterStart?_eq_none.2 fun rest hrest => ?_
        exact h [] (c :: front) rfl (List.cons_ne_nil c front) ⟨rest, hrest.symm⟩
      have hrest := ih.2 fun a b hab => h (c :: a) b (congrArg (c :: ·) hab)
      rw [hnone]
      simp [hrest]

/-- A text in which a pattern is not found is one in which it does not stand. -/
theorem cutFirst?_eq_none {p cs : List Char} : cutFirst? p cs = none ↔ ¬ p <:+: cs := by
  constructor
  · rintro h ⟨a, b, rfl⟩
    rw [List.append_assoc] at h
    induction a with
    | nil =>
      rw [List.nil_append, cutFirst?_append_self] at h
      cases h
    | cons c a ih =>
      rw [List.cons_append, cutFirst?] at h
      split at h
      · cases h
      · exact ih (Option.map_eq_none_iff.1 h)
  · intro h
    cases hcut : cutFirst? p cs with
    | none => rfl
    | some found => exact absurd ⟨_, _, (append_of_cutFirst? hcut).symm⟩ h

theorem mentions_iff {p cs : List Char} : mentions p cs = true ↔ p <:+: cs := by
  rw [mentions, Option.isSome_iff_ne_none, ne_eq, cutFirst?_eq_none, not_not]

/-- No end of a pattern begins it, so no two of its occurrences overlap. -/
def Unbordered (p : List Char) : Prop := ∀ n < p.length, 0 < n → ¬ p.drop n <+: p

instance (p : List Char) : Decidable (Unbordered p) :=
  inferInstanceAs (Decidable (∀ n < p.length, 0 < n → ¬ p.drop n <+: p))

/-- Behind a text without it such a pattern stands for the first time. -/
theorem Unbordered.cutFirst?_append {p front : List Char} (h : Unbordered p)
    (hfront : ¬ p <:+: front) (rest : List Char) :
    cutFirst? p (front ++ p ++ rest) = some (front, rest) := by
  rw [Text.cutFirst?_append, cutFirst?_self_iff]
  rintro a b rfl hb hstart
  by_cases hle : p.length ≤ b.length
  · have hin : p <+: b := List.prefix_of_prefix_length_le hstart (List.prefix_append b p) hle
    exact hfront (hin.isInfix.trans (List.suffix_append a b).isInfix)
  · -- the occurrence ends inside the pattern behind it
    obtain ⟨d, rfl⟩ : b <+: p :=
      List.prefix_of_prefix_length_le (List.prefix_append b p) hstart (by omega)
    have hd : d <+: b ++ d := (List.prefix_append_right_inj b).1 hstart
    have hpos := List.length_pos_iff.2 hb
    refine h b.length (Nat.lt_of_not_le hle) hpos ?_
    rwa [List.drop_left]

theorem cutFirst?_singleton {c : Char} : ∀ {cs : List Char} (rest : List Char), c ∉ cs →
    cutFirst? [c] (cs ++ c :: rest) = some (cs, rest)
  | [], rest, _ => cutFirst?_append_self [c] rest
  | d :: cs, rest, h => by
    obtain ⟨hne, hcs⟩ := List.ne_and_not_mem_of_not_mem_cons h
    have hstart : afterStart? [c] (d :: (cs ++ c :: rest)) = none := by
      simp [afterStart?, hne]
    rw [List.cons_append, cutFirst?, hstart, cutFirst?_singleton rest hcs]
    rfl

theorem not_mem_of_cutFirst?_singleton {c : Char} : ∀ {cs front rest : List Char},
    cutFirst? [c] cs = some (front, rest) → c ∉ front
  | [], front, rest, h => by cases h
  | d :: cs, front, rest, h => by
    rw [cutFirst?] at h
    split at h
    · cases h
      exact List.not_mem_nil
    · next hstart =>
      simp only [Option.map_eq_some_iff, Prod.exists, Prod.mk.injEq] at h
      obtain ⟨a, b, hab, rfl, rfl⟩ := h
      refine List.not_mem_cons_of_ne_of_not_mem ?_ (not_mem_of_cutFirst?_singleton hab)
      rintro rfl
      exact afterStart?_eq_none.1 hstart cs rfl

end RouterShift.Text
