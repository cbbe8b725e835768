import RouterShift.Package.Name
import RouterShift.Proofs.Text.Cut

/-! Replacing the name of a package twice. -/

namespace RouterShift.PackageName
open Text (cutFirst? afterStart? cutFirst?_eq_some cutFirst?_self_iff)

variable {old new lead front after before cs : List Char} {moved : Option (List Char)}

/-! ### From one occurrence to the next -/

/-- A text that the old name does not stand in stays. -/
theorem replaceFrom_of_none (h : cutFirst? old cs = none) :
    replaceFrom old new moved before cs = cs := by
  induction cs generalizing before with
  | nil => rw [replaceFrom]
  | cons c cs ih =>
    rw [cutFirst?] at h
    rw [replaceFrom]
    cases hstart : afterStart? old (c :: cs) with
    | some after => rw [hstart] at h; cases h
    | none =>
      rw [hstart] at h
      rw [ih (Option.map_eq_none_iff.1 h)]

/-- The name at its first occurrence, and the rest of the text behind that. -/
theorem replaceFrom_of_some (hne : old ≠ []) (h : cutFirst? old cs = some (front, after)) :
    replaceFrom old new moved before cs = front ++
      ((if moved.any fun l => l.reverse.isPrefixOf (front.reverse ++ before) then old else new) ++
        replaceFrom old new moved (old.reverse ++ (front.reverse ++ before)) after) := by
  induction cs generalizing before front with
  | nil =>
    rw [cutFirst?, if_neg (by simpa using hne)] at h
    cases h
  | cons c cs ih =>
    rw [cutFirst?] at h
    rw [replaceFrom]
    cases hstart : afterStart? old (c :: cs) with
    | some rest =>
      rw [hstart] at h
      cases h
      simp only [dif_neg hne]
      rfl
    | none =>
      rw [hstart] at h
      obtain ⟨⟨front', after'⟩, hcut, heq⟩ := Option.map_eq_some_iff.1 h
      cases heq
      simp [ih hcut]

/-! ### Names without a scope -/

section
variable {scope back back' : List Char}

/-- The text with a name put into a scope wherever it is not in it already. -/
def prefixed (scope old before cs : List Char) : List Char :=
  replaceFrom old (scope ++ old) (some scope) before cs

/-- The scope ends where the name stands. -/
def IsLed (scope front before : List Char) : Prop := scope.reverse <+: front.reverse ++ before

theorem prefixed_of_led (hne : old ≠ []) (h : cutFirst? old cs = some (front, after))
    (hled : IsLed scope front before) : prefixed scope old before cs =
      front ++ (old ++ prefixed scope old (old.reverse ++ (front.reverse ++ before)) after) := by
  rw [prefixed, replaceFrom_of_some hne h, Option.any_some,
    if_pos (List.isPrefixOf_iff_prefix.2 hled)]
  rfl

theorem prefixed_of_not_led (hne : old ≠ []) (h : cutFirst? old cs = some (front, after))
    (hled : ¬ IsLed scope front before) : prefixed scope old before cs =
      front ++ (scope ++ (old ++
        prefixed scope old (old.reverse ++ (front.reverse ++ before)) after)) := by
  rw [prefixed, replaceFrom_of_some hne h, Option.any_some,
    if_neg fun h => hled (List.isPrefixOf_iff_prefix.1 h), List.append_assoc]
  rfl

theorem length_le_prefixed (hne : old ≠ []) (before cs : List Char) :
    cs.length ≤ (prefixed scope old before cs).length := by
  induction hn : cs.length using Nat.strongRecOn generalizing before cs with
  | ind n ih =>
    cases hcut : cutFirst? old cs with
    | none =>
      rw [prefixed, replaceFrom_of_none hcut]
      exact Nat.le_of_eq hn.symm
    | some found =>
      obtain ⟨front, after⟩ := found
      have hlength := Text.length_of_cutFirst? hcut
      have hpos := List.length_pos_iff.2 hne
      have hafter := ih after.length (by omega) (old.reverse ++ (front.reverse ++ before)) after rfl
      by_cases hled : IsLed scope front before
      · rw [prefixed_of_led hne hcut hled]
        simp only [List.length_append]
        omega
      · rw [prefixed_of_not_led hne hcut hled]
        simp only [List.length_append]
        omega

/-- In a text that stays the first name is in the scope. -/
theorem isLed_of_prefixed_eq (hne : old ≠ []) (hscope : scope ≠ [])
    (h : prefixed scope old before cs = cs) (hcut : cutFirst? old cs = some (front, after)) :
    IsLed scope front before := by
  by_contra hled
  have hlength := congrArg List.length h
  have hcs := Text.length_of_cutFirst? hcut
  have hpos := List.length_pos_iff.2 hscope
  have hafter : after.length ≤
      (prefixed scope old (old.reverse ++ (front.reverse ++ before)) after).length :=
    length_le_prefixed hne _ _
  rw [prefixed_of_not_led hne hcut hled] at hlength
  simp only [List.length_append] at hlength
  omega

theorem not_isLed_nil (hscope : scope ≠ []) : ¬ IsLed scope [] [] := fun h =>
  hscope (List.reverse_eq_nil_iff.1 (List.prefix_nil.1 h))

/-- The text is the same after a second time. -/
def IsPrefixedOnce (scope old cs : List Char) : Prop :=
  prefixed scope old [] (prefixed scope old [] cs) = prefixed scope old [] cs

/-- The name begins nowhere in the scope, not even to go on behind it. -/
theorem cutFirst?_scope (hne : old ≠ []) (hscope : scope ≠ []) (h : IsPrefixedOnce scope old old) :
    cutFirst? old (scope ++ old) = some (scope, []) := by
  have hself : cutFirst? old old = some ([], []) := by
    have := Text.cutFirst?_append_self old []
    rwa [List.append_nil] at this
  have hold : prefixed scope old [] old = scope ++ old := by
    rw [prefixed_of_not_led hne hself (not_isLed_nil hscope), prefixed, replaceFrom]
    simp
  rw [IsPrefixedOnce, hold] at h
  cases hcut : cutFirst? old (scope ++ old) with
  | none => exact absurd (List.suffix_append scope old).isInfix (Text.cutFirst?_eq_none.1 hcut)
  | some found =>
    obtain ⟨front, after⟩ := found
    have hled := (isLed_of_prefixed_eq hne hscope h hcut).length_le
    have heq := Text.append_of_cutFirst? hcut
    have hlength := congrArg List.length heq
    simp only [List.length_append, List.length_reverse, List.length_nil] at hled hlength
    obtain rfl : after = [] := List.eq_nil_of_length_eq_zero (by omega)
    rw [List.append_nil] at heq
    rw [List.append_cancel_right heq]

/-- A part of the name in front of the scope does not begin a name that is completed by the scope
    and what is in it. -/
theorem not_prefix_scope (hne : old ≠ []) (hscope : scope ≠ []) {part : List Char}
    (h : IsPrefixedOnce scope old (part ++ old)) (hcut : cutFirst? old (part ++ old) = some (part, []))
    (hled : ¬ IsLed scope part []) : ¬ old <+: part ++ (scope ++ old) := by
  rintro ⟨rest, hrest⟩
  have hout : prefixed scope old [] (part ++ old) = part ++ (scope ++ old) := by
    rw [prefixed_of_not_led hne hcut hled, prefixed, replaceFrom]
    simp
  rw [IsPrefixedOnce, hout] at h
  have hcut' : cutFirst? old (part ++ (scope ++ old)) = some ([], rest) := by
    rw [← hrest, Text.cutFirst?_append_self]
  exact not_isLed_nil hscope (isLed_of_prefixed_eq hne hscope h hcut')

/-- Whatever ends in the scope before the first time does so before the second. -/
def Keeps (scope before before' : List Char) : Prop :=
  ∀ more, scope.reverse <+: more ++ before → scope.reverse <+: more ++ before'

/-- The scope is too short to begin in front of the name, which does not stand in it. -/
theorem Keeps.behind (hne : old ≠ []) (hscope : cutFirst? old (scope ++ old) = some (scope, []))
    (before before' : List Char) : Keeps scope (old.reverse ++ before) (old.reverse ++ before') := by
  intro more h
  rw [← List.append_assoc] at h ⊢
  by_cases hle : scope.length ≤ (more ++ old.reverse).length
  · refine List.IsPrefix.trans ?_ (List.prefix_append _ before')
    exact List.prefix_of_prefix_length_le h (List.prefix_append _ _) (by simpa using hle)
  · obtain ⟨rest, hrest⟩ : more ++ old.reverse <+: scope.reverse :=
      List.prefix_of_prefix_length_le (List.prefix_append _ _) h (by simp at hle ⊢; omega)
    have hwhole : scope = rest.reverse ++ (old ++ more.reverse) := by
      rw [← scope.reverse_reverse, ← hrest]
      simp
    refine absurd ?_ (cutFirst?_self_iff.1 hscope rest.reverse _ hwhole (by simp [hne]))
    rw [List.append_assoc]
    exact List.prefix_append _ _

/-- A first occurrence stays the first one when the scope is put in front of it. -/
theorem cutFirst?_prefixed (hne : old ≠ []) (hscope : scope ≠ [])
    (hjoins : ∀ x y, x ++ y = old → IsPrefixedOnce scope old (x ++ old)) (rest : List Char)
    (hcut : cutFirst? old (front ++ old) = some (front, [])) (hled : ¬ IsLed scope front before) :
    cutFirst? old (front ++ (scope ++ (old ++ rest))) = some (front ++ scope, rest) := by
  have hassoc : front ++ (scope ++ (old ++ rest)) = front ++ scope ++ old ++ rest := by simp
  rw [hassoc, Text.cutFirst?_append, cutFirst?_self_iff]
  have hstart := cutFirst?_self_iff.1 (cutFirst?_scope hne hscope (hjoins [] old rfl))
  intro a b hab hb hprefix
  rcases List.append_eq_append_iff.1 hab with ⟨mid, rfl, rfl⟩ | ⟨mid, rfl, rfl⟩
  · exact hstart mid b rfl hb hprefix
  -- the occurrence begins in front of the scope, with a part of the name
  · rw [List.append_assoc] at hprefix
    have hmid := cutFirst?_self_iff.1 hcut a mid rfl
    by_cases hnil : mid = []
    · rw [hnil, List.nil_append] at hprefix hb
      exact hstart [] scope rfl hb hprefix
    have hlt : mid.length < old.length := by
      by_contra hge
      refine hmid hnil (List.IsPrefix.trans ?_ (List.prefix_append mid old))
      exact List.prefix_of_prefix_length_le hprefix (List.prefix_append _ _) (by omega)
    obtain ⟨y, hy⟩ : mid <+: old :=
      List.prefix_of_prefix_length_le (List.prefix_append _ _) hprefix (by omega)
    refine not_prefix_scope hne hscope (hjoins mid y hy) (cutFirst?_self_iff.2 ?_) ?_ hprefix
    · intro c d hcd hd
      exact cutFirst?_self_iff.1 hcut (a ++ c) d (by rw [hcd, List.append_assoc]) hd
    · intro h
      refine hled (List.IsPrefix.trans h ?_)
      rw [List.append_nil, List.reverse_append, List.append_assoc]
      exact List.prefix_append _ _

theorem prefixed_twice (hne : old ≠ []) (hscope : scope ≠ [])
    (hjoins : ∀ x y, x ++ y = old → IsPrefixedOnce scope old (x ++ old)) (cs : List Char)
    {before before' : List Char} (hkeeps : Keeps scope before before') :
    prefixed scope old before' (prefixed scope old before cs) = prefixed scope old before cs := by
  induction hn : cs.length using Nat.strongRecOn generalizing before before' cs with
  | ind n ih =>
    cases hcut : cutFirst? old cs with
    | none => rw [prefixed, prefixed, replaceFrom_of_none hcut, replaceFrom_of_none hcut]
    | some found =>
      obtain ⟨front, after⟩ := found
      have hlength := Text.length_of_cutFirst? hcut
      have hpos := List.length_pos_iff.2 hne
      have hfirst := (cutFirst?_eq_some.1 hcut).2
      by_cases hled : IsLed scope front before
      · have hkeeps' : Keeps scope (old.reverse ++ (front.reverse ++ before))
            (old.reverse ++ (front.reverse ++ before')) := fun more h => by
          have := hkeeps (more ++ (old.reverse ++ front.reverse))
          simp only [List.append_assoc] at this
          exact this h
        have hagain := (Text.cutFirst?_append (prefixed scope old
          (old.reverse ++ (front.reverse ++ before)) after)).2 hfirst
        rw [List.append_assoc] at hagain
        rw [prefixed_of_led hne hcut hled, prefixed_of_led hne hagain (hkeeps _ hled),
          ih after.length (by omega) after hkeeps' rfl]
      · have hkeeps' : Keeps scope (old.reverse ++ (front.reverse ++ before))
            (old.reverse ++ ((front ++ scope).reverse ++ before')) :=
          .behind hne (cutFirst?_scope hne hscope (hjoins [] old rfl)) _ _
        have hagain := cutFirst?_prefixed hne hscope hjoins (prefixed scope old
            (old.reverse ++ (front.reverse ++ before)) after) hfirst hled
        have hled' : IsLed scope (front ++ scope) before' := by
          rw [IsLed, List.reverse_append, List.append_assoc]
          exact List.prefix_append _ _
        rw [prefixed_of_not_led hne hcut hled, prefixed_of_led hne hagain hled',
          ih after.length (by omega) after hkeeps' rfl]
        simp only [List.append_assoc]

end

/-! ### Names with a scope -/

section
variable {p q u : List Char}

/-- No slash has more behind it than the first one. -/
theorem length_le_of_slash {a b : List Char} (hp : '/' ∉ p) (h : p ++ '/' :: u = a ++ '/' :: b) :
    b.length ≤ u.length := by
  rcases List.append_eq_append_iff.1 h with ⟨mid, -, hmid⟩ | ⟨mid, rfl, hmid⟩
  · have := congrArg List.length hmid
    simp only [List.length_append, List.length_cons] at this
    omega
  · cases mid with
    | nil =>
      cases hmid
      exact Nat.le_refl _
    | cons c mid =>
      cases hmid
      exact absurd (List.mem_append_right a List.mem_cons_self) hp

theorem eq_of_slash {a b : List Char} (hp : '/' ∉ p) (hq : '/' ∉ q)
    (h : p ++ '/' :: a = q ++ '/' :: b) : p = q := by
  have hle := length_le_of_slash hp h
  have hge := length_le_of_slash hq h.symm
  exact (List.append_inj' h (congrArg (· + 1) (Nat.le_antisymm hge hle))).1

/-- The text with one name put in the place of another. -/
def exchanged (old new before cs : List Char) : List Char := replaceFrom old new none before cs

theorem exchanged_of_some (hne : old ≠ []) (h : cutFirst? old cs = some (front, after)) :
    exchanged old new before cs =
      front ++ (new ++ exchanged old new (old.reverse ++ (front.reverse ++ before)) after) := by
  rw [exchanged, replaceFrom_of_some hne h]
  rfl

/-- The text is the same after a second time. -/
def IsExchangedOnce (old new cs : List Char) : Prop :=
  exchanged old new [] (exchanged old new [] cs) = exchanged old new [] cs

/-- Names under one scope or another. -/
structure Scoped (p q u old new : List Char) : Prop where
  old_eq : old = p ++ '/' :: u
  new_eq : new = q ++ '/' :: u
  notMem_old : '/' ∉ p
  notMem_new : '/' ∉ q
  scopes_ne : p ≠ q

namespace Scoped

variable (h : Scoped p q u old new)
include h

theorem old_ne_nil : old ≠ [] := by
  rw [h.old_eq]
  simp

/-- The old name does not stand in a text that stays. -/
theorem not_infix_of_eq (hcs : exchanged old new before cs = cs) : ¬ old <:+: cs := by
  rw [← Text.cutFirst?_eq_none]
  cases hcut : cutFirst? old cs with
  | none => rfl
  | some found =>
    obtain ⟨front, after⟩ := found
    have heq := Text.append_of_cutFirst? hcut
    rw [exchanged_of_some h.old_ne_nil hcut] at hcs
    rw [heq, List.append_assoc, List.append_cancel_left_eq, h.old_eq, h.new_eq, List.append_assoc,
      List.append_assoc, List.cons_append, List.cons_append] at hcs
    exact absurd (eq_of_slash h.notMem_new h.notMem_old hcs).symm h.scopes_ne

/-- The new name goes no further than to the end of the old one, wherever it stands in it. -/
theorem eq_nil_of_append {a y : List Char} (hold : old = a ++ (new ++ y)) : y = [] := by
  rw [h.old_eq, h.new_eq, List.append_assoc, ← List.append_assoc a, List.cons_append] at hold
  have hle := length_le_of_slash h.notMem_old hold
  rw [List.length_append] at hle
  exact List.eq_nil_of_length_eq_zero (by omega)

theorem exchanged_append_old {part : List Char}
    (hcut : cutFirst? old (part ++ old) = some (part, [])) :
    exchanged old new [] (part ++ old) = part ++ new := by
  rw [exchanged_of_some h.old_ne_nil hcut, exchanged, replaceFrom, List.append_nil]

theorem not_infix_front (hfirst : cutFirst? old (front ++ old) = some (front, [])) :
    ¬ old <:+: front := by
  rintro ⟨a, b, hab⟩
  refine cutFirst?_self_iff.1 hfirst a (old ++ b) (by rw [← hab, List.append_assoc]) ?_ ?_
  · exact List.append_ne_nil_of_left_ne_nil h.old_ne_nil b
  · rw [List.append_assoc]
    exact List.prefix_append _ _

section
variable (hjoins : ∀ x y, x ++ y = old →
  IsExchangedOnce old new (x ++ old) ∧ IsExchangedOnce old new (old ++ y))
include hjoins

theorem not_infix_new : ¬ old <:+: new := by
  have hself : cutFirst? old ([] ++ old) = some ([], []) := by
    have := Text.cutFirst?_append_self old []
    rwa [List.append_nil] at this
  have hnew := h.not_infix_of_eq (hjoins [] old rfl).1
  rwa [h.exchanged_append_old hself] at hnew

/-- The old name does not begin in the new one to end behind it. -/
theorem not_infix_new_append {out : List Char} (hout : ¬ old <:+: out) : ¬ old <:+: new ++ out := by
  rw [List.infix_append_iff]
  rintro (hold | hold | ⟨b, y, rfl, hb, hy⟩)
  · exact h.not_infix_new hjoins hold
  · exact hout hold
  by_cases hnil : b = []
  · rw [hnil] at hout
    exact hout hy.isInfix
  have hpos := List.length_pos_iff.2 hnil
  have hshort : ¬ (b ++ y) <:+: y := fun hold => by
    have := hold.length_le
    rw [List.length_append] at this
    omega
  have hy' := h.not_infix_of_eq (hjoins b y rfl).2
  rw [exchanged_of_some h.old_ne_nil (Text.cutFirst?_append_self (b ++ y) y), exchanged,
    replaceFrom_of_none (Text.cutFirst?_eq_none.2 hshort), List.nil_append] at hy'
  obtain ⟨w, rfl⟩ := hb
  exact hy' ⟨w, [], by simp⟩

/-- The old name does not begin in front of its first occurrence to end behind that. -/
theorem not_infix_append {out : List Char} (hfirst : cutFirst? old (front ++ old) = some (front, []))
    (hout : ¬ old <:+: out) : ¬ old <:+: front ++ (new ++ out) := by
  rw [List.infix_append_iff]
  rintro (hold | hold | ⟨a, r, har, ⟨f, rfl⟩, hr⟩)
  · exact h.not_infix_front hfirst hold
  · exact h.not_infix_new_append hjoins hout hold
  by_cases hle : r.length ≤ new.length
  · obtain ⟨s, rfl⟩ := List.prefix_of_prefix_length_le hr (List.prefix_append new out) hle
    have hcut : cutFirst? old (a ++ old) = some (a, []) := cutFirst?_self_iff.2 fun c d hcd =>
      cutFirst?_self_iff.1 hfirst (f ++ c) d (by rw [hcd, List.append_assoc])
    have ha := h.not_infix_of_eq (hjoins a r har.symm).1
    rw [h.exchanged_append_old hcut] at ha
    exact ha ⟨[], s, by rw [har]; simp⟩
  · obtain ⟨y, rfl⟩ : new <+: r :=
      List.prefix_of_prefix_length_le (List.prefix_append new out) hr (by omega)
    rw [h.eq_nil_of_append har, List.append_nil] at hle
    exact hle (Nat.le_refl _)

/-- After one time the old name stands nowhere. -/
theorem not_infix_exchanged (before cs : List Char) : ¬ old <:+: exchanged old new before cs := by
  induction hn : cs.length using Nat.strongRecOn generalizing before cs with
  | ind n ih =>
    cases hcut : cutFirst? old cs with
    | none =>
      rw [exchanged, replaceFrom_of_none hcut]
      exact Text.cutFirst?_eq_none.1 hcut
    | some found =>
      obtain ⟨front, after⟩ := found
      have hlength := Text.length_of_cutFirst? hcut
      have hpos := List.length_pos_iff.2 h.old_ne_nil
      rw [exchanged_of_some h.old_ne_nil hcut]
      exact h.not_infix_append hjoins (cutFirst?_eq_some.1 hcut).2
        (ih after.length (by omega) (old.reverse ++ (front.reverse ++ before)) after rfl)

theorem exchanged_twice (before before' cs : List Char) :
    exchanged old new before' (exchanged old new before cs) = exchanged old new before cs :=
  replaceFrom_of_none (Text.cutFirst?_eq_none.2 (h.not_infix_exchanged hjoins before cs))

end

end Scoped
end

end RouterShift.PackageName
