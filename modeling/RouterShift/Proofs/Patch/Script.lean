import RouterShift.Patch.Compaction

/-! What an edit script stands for. However a script is cut at the middle of a path, and wherever
    its edits are moved, it leads from the old sequence to the new one, and it keeps no empty run of
    items between two edits. -/

namespace RouterShift.Patch

variable {α : Type}

/-- A kept run in a script has items. -/
def Block.Solid (b : Block α) : Prop := b ≠ .equal []

/-- A script that leads from one sequence to another. -/
structure Leads (blocks : List (Block α)) (old new : List α) : Prop where
  old_eq : blocks.flatMap Block.old = old
  new_eq : blocks.flatMap Block.new = new
  solid : ∀ b ∈ blocks, b.Solid

namespace Leads

theorem nil : Leads ([] : List (Block α)) [] [] := ⟨rfl, rfl, by simp⟩

theorem append {bs cs : List (Block α)} {old new old' new' : List α} (h : Leads bs old new)
    (h' : Leads cs old' new') : Leads (bs ++ cs) (old ++ old') (new ++ new') where
  old_eq := by rw [List.flatMap_append, h.old_eq, h'.old_eq]
  new_eq := by rw [List.flatMap_append, h.new_eq, h'.new_eq]
  solid b hb := (List.mem_append.1 hb).elim (h.solid b) (h'.solid b)

/-- A part of a script may give way to another part for the same items. -/
theorem replace {front bs cs rear : List (Block α)} {old new : List α}
    (h : Leads (front ++ bs ++ rear) old new)
    (hold : cs.flatMap Block.old = bs.flatMap Block.old)
    (hnew : cs.flatMap Block.new = bs.flatMap Block.new) (hsolid : ∀ b ∈ cs, b.Solid) :
    Leads (front ++ cs ++ rear) old new where
  old_eq := by simpa only [List.flatMap_append, hold] using h.old_eq
  new_eq := by simpa only [List.flatMap_append, hnew] using h.new_eq
  solid b hb := by
    rcases List.mem_append.1 hb with hb | hb
    · rcases List.mem_append.1 hb with hb | hb
      · exact h.solid b (List.mem_append_left _ (List.mem_append_left _ hb))
      · exact hsolid b hb
    · exact h.solid b (List.mem_append_right _ hb)

end Leads

/-! ### Common beginnings and endings -/

section Common

variable [DecidableEq α]

theorem commonStart_append : ∀ a b : List α,
    commonStart a b ++ a.drop (commonStart a b).length = a ∧
      commonStart a b ++ b.drop (commonStart a b).length = b
  | [], b => by simp [commonStart]
  | x :: a, [] => by simp [commonStart]
  | x :: a, y :: b => by
    by_cases h : x = y
    · subst h
      simpa [commonStart] using commonStart_append a b
    · simp [commonStart, h]

theorem append_commonEnd (a b : List α) :
    a.take (a.length - (commonEnd a b).length) ++ commonEnd a b = a ∧
      b.take (b.length - (commonEnd a b).length) ++ commonEnd a b = b := by
  obtain ⟨ha, hb⟩ := commonStart_append a.reverse b.reverse
  constructor
  · simpa [commonEnd, List.drop_reverse] using congrArg List.reverse ha
  · simpa [commonEnd, List.drop_reverse] using congrArg List.reverse hb

end Common

/-! ### Scripts -/

theorem leads_equal (items : List α) : Leads (block .equal items) items items := by
  cases items with
  | nil => exact .nil
  | cons a items =>
    constructor <;> simp [block, Block.old, Block.new, Block.Solid]

/-- Everything deleted and everything inserted. -/
theorem leads_replace (old new : List α) : Leads (block .delete old ++ block .insert new) old new := by
  have hdelete : Leads (block .delete old) old [] := by
    cases old with
    | nil => exact .nil
    | cons a old => constructor <;> simp [block, Block.old, Block.new, Block.Solid]
  have hinsert : Leads (block .insert new) [] new := by
    cases new with
    | nil => exact .nil
    | cons a new => constructor <;> simp [block, Block.old, Block.new, Block.Solid]
  simpa using hdelete.append hinsert

theorem leads_script [DecidableEq α] (old new : List α) : Leads (script old new) old new := by
  fun_induction script old new with
  | case1 old new start old' new' rear a b ihfront ihrear =>
    obtain ⟨hold, hnew⟩ := commonStart_append old new
    obtain ⟨hold', hnew'⟩ := append_commonEnd old' new'
    have hbetween : ∀ blocks, Leads blocks a b →
        Leads (block .equal start ++ blocks ++ block .equal rear) old new := by
      intro blocks h
      have := ((leads_equal start).append h).append (leads_equal rear)
      rwa [List.append_assoc start a, List.append_assoc start b, hold', hnew', hold, hnew] at this
    apply hbetween
    split
    · exact leads_replace a b
    · rename_i x y _
      dsimp only
      split
      · exact leads_replace a b
      · split
        · rename_i hin
          simpa only [List.take_append_drop] using (ihfront x y hin).append (ihrear x y hin)
        · exact leads_replace a b

/-! ### Moving edits -/

@[simp]
theorem flatMap_old_keepInFront (items : List α) (bs : List (Block α)) :
    (keepInFront items bs).flatMap Block.old = items ++ bs.flatMap Block.old := by
  unfold keepInFront; split <;> simp [Block.old]

@[simp]
theorem flatMap_new_keepInFront (items : List α) (bs : List (Block α)) :
    (keepInFront items bs).flatMap Block.new = items ++ bs.flatMap Block.new := by
  unfold keepInFront; split <;> simp [Block.new]

theorem solid_keepInFront {items : List α} {bs : List (Block α)} (hne : items ≠ [])
    (h : ∀ b ∈ bs, b.Solid) : ∀ b ∈ keepInFront items bs, b.Solid := by
  unfold keepInFront
  split <;> simp_all [Block.Solid]

@[simp]
theorem flatMap_old_keepBehind (items : List α) (bs : List (Block α)) :
    (keepBehind items bs).reverse.flatMap Block.old = bs.reverse.flatMap Block.old ++ items := by
  unfold keepBehind; split <;> simp [Block.old]

@[simp]
theorem flatMap_new_keepBehind (items : List α) (bs : List (Block α)) :
    (keepBehind items bs).reverse.flatMap Block.new = bs.reverse.flatMap Block.new ++ items := by
  unfold keepBehind; split <;> simp [Block.new]

theorem solid_keepBehind {items : List α} {bs : List (Block α)} (hne : items ≠ [])
    (h : ∀ b ∈ bs, b.Solid) : ∀ b ∈ keepBehind items bs, b.Solid := by
  unfold keepBehind
  split <;> simp_all [Block.Solid]

/-- A script with one of its edits singled out. -/
def Place.blocks (kind : Kind) (p : Place α) : List (Block α) :=
  p.before.reverse ++ kind.block p.items :: p.after

theorem solid_block (kind : Kind) (items : List α) : (kind.block items).Solid := by
  cases kind <;> simp [Kind.block, Block.Solid]

theorem Place.leads_iff {kind : Kind} {p : Place α} {old new : List α} :
    Leads (p.blocks kind) old new ↔
      (p.before.reverse.flatMap Block.old ++ (kind.block p.items).old ++ p.after.flatMap Block.old
          = old ∧
        p.before.reverse.flatMap Block.new ++ (kind.block p.items).new ++ p.after.flatMap Block.new
          = new) ∧
      (∀ b ∈ p.before, b.Solid) ∧ ∀ b ∈ p.after, b.Solid := by
  constructor
  · rintro ⟨hold, hnew, hsolid⟩
    simp_all [Place.blocks]
  · rintro ⟨⟨hold, hnew⟩, hbefore, hafter⟩
    refine ⟨by simpa [Place.blocks] using hold, by simpa [Place.blocks] using hnew, ?_⟩
    have := solid_block kind p.items
    simp_all [Place.blocks, or_imp]

variable [DecidableEq α]

omit [DecidableEq α] in
/-- Kept items in front of an edit that ends as they do: what they share may stand behind it. -/
theorem leads_up {kind : Kind} {rest after : List (Block α)} {l shared items old new : List α}
    (hne : shared ≠ [])
    (h : Leads (Place.blocks kind ⟨.equal (l ++ shared) :: rest, items ++ shared, after⟩) old new) :
    Leads (Place.blocks kind ⟨block .equal l ++ rest, shared ++ items, keepInFront shared after⟩)
      old new := by
  rw [Place.leads_iff] at h ⊢
  obtain ⟨heq, hbefore, hafter⟩ := h
  refine ⟨?_, ?_, solid_keepInFront hne hafter⟩
  · cases kind <;> cases l <;> simpa [block, Kind.block, Block.old, Block.new] using heq
  · cases l <;> simp_all [block, Block.Solid]

omit [DecidableEq α] in
/-- Kept items behind an edit that starts as they do: what they share may stand in front of it. -/
theorem leads_down {kind : Kind} {before rest : List (Block α)} {l shared items old new : List α}
    (hne : shared ≠ [])
    (h : Leads (Place.blocks kind ⟨before, shared ++ items, .equal (shared ++ l) :: rest⟩) old new) :
    Leads (Place.blocks kind ⟨keepBehind shared before, items ++ shared, block .equal l ++ rest⟩)
      old new := by
  rw [Place.leads_iff] at h ⊢
  obtain ⟨heq, hbefore, hafter⟩ := h
  refine ⟨?_, solid_keepBehind hne hbefore, ?_⟩
  · cases kind <;> cases l <;> simpa [block, Kind.block, Block.old, Block.new] using heq
  · cases l <;> simp_all [block, Block.Solid]

omit [DecidableEq α] in
/-- Edits of one kind that stand together are one edit. -/
theorem leads_merge {kind : Kind} {front rear : List (Block α)} {l items old new : List α}
    (h : Leads (front ++ kind.block l :: kind.block items :: rear) old new) :
    Leads (front ++ kind.block (l ++ items) :: rear) old new := by
  have hpair : Leads (front ++ [kind.block l, kind.block items] ++ rear) old new := by simpa using h
  have hone : Leads (front ++ [kind.block (l ++ items)] ++ rear) old new :=
    hpair.replace (by cases kind <;> simp [Kind.block, Block.old])
      (by cases kind <;> simp [Kind.block, Block.new])
      (by simpa using solid_block kind (l ++ items))
  simpa using hone

omit [DecidableEq α] in
/-- Edits of different kinds may change places. -/
theorem leads_swap {front rear : List (Block α)} {deleted inserted old new : List α} :
    Leads (front ++ .delete deleted :: .insert inserted :: rear) old new ↔
      Leads (front ++ .insert inserted :: .delete deleted :: rear) old new := by
  constructor <;> rintro ⟨hold, hnew, hsolid⟩ <;>
    constructor <;> simp_all [Block.old, Block.new, or_imp]

theorem leads_moveUp {kind : Kind} {before : List (Block α)} {items : List α}
    {after : List (Block α)} {old new : List α}
    (h : Leads (Place.blocks kind ⟨before, items, after⟩) old new) :
    Leads ((moveUp kind before items after).blocks kind) old new := by
  fun_induction moveUp kind before items after with
  | case1 | case3 => exact h
  | case2 items after rest _ _ ih =>
    exact absurd rfl (h.solid (.equal []) (by simp [Place.blocks]))
  | case4 items after l rest shared hne l' items' after' hl ih
  | case5 items after l rest shared hne l' items' after' hl ih =>
    have hcut := append_commonEnd items l
    have := leads_up (l := l') hne (by rwa [hcut.1, hcut.2])
    exact ih (by simpa [hl, block] using this)
  | case6 items after l rest hkind ih
  | case8 items after l rest hkind ih =>
    subst hkind
    exact ih (leads_merge (by simpa [Place.blocks, Kind.block] using h))
  | case7 items after l rest hkind ih =>
    obtain rfl : kind = .insert := by cases kind <;> simp_all
    exact ih (leads_swap.1 (by simpa [Place.blocks, Kind.block] using h))
  | case9 items after l rest hkind ih =>
    obtain rfl : kind = .delete := by cases kind <;> simp_all
    exact ih (leads_swap.2 (by simpa [Place.blocks, Kind.block] using h))

theorem leads_moveDown {kind : Kind} {before : List (Block α)} {items : List α}
    {after : List (Block α)} {old new : List α}
    (h : Leads (Place.blocks kind ⟨before, items, after⟩) old new) :
    Leads ((moveDown kind before items after).blocks kind) old new := by
  fun_induction moveDown kind before items after with
  | case1 | case3 => exact h
  | case2 before items rest _ _ ih =>
    exact absurd rfl (h.solid (.equal []) (by simp [Place.blocks]))
  | case4 before items l rest shared hne l' items' before' hl ih
  | case5 before items l rest shared hne l' items' before' hl ih =>
    have hcut := commonStart_append items l
    have := leads_down (l := l') hne (by rwa [hcut.1, hcut.2])
    exact ih (by simpa [hl, block] using this)
  | case6 before items l rest hkind ih
  | case8 before items l rest hkind ih =>
    subst hkind
    exact ih (leads_merge h)
  | case7 before items l rest hkind ih =>
    obtain rfl : kind = .insert := by cases kind <;> simp_all
    exact ih (by simpa [Place.blocks, Kind.block] using leads_swap.2 h)
  | case9 before items l rest hkind ih =>
    obtain rfl : kind = .delete := by cases kind <;> simp_all
    exact ih (by simpa [Place.blocks, Kind.block] using leads_swap.1 h)

/-! ### Compacting -/

theorem leads_compactFrom {kind : Kind} {steps : Nat} {before after : List (Block α)}
    {old new : List α} (h : Leads (before.reverse ++ after) old new) :
    Leads (compactFrom kind steps before after) old new := by
  fun_induction compactFrom kind steps before after with
  | case1 => exact h
  | case2 => simpa using h
  | case3 steps before b rest hkind up down ih =>
    have hb : b = kind.block b.items := by
      cases b <;> simp_all [Block.kind?] <;> subst hkind <;> rfl
    have hup : Leads (up.blocks kind) old new :=
      leads_moveUp (by simpa only [Place.blocks, ← hb] using h)
    have hdown : Leads (down.blocks kind) old new := leads_moveDown hup
    exact ih (by simpa [Place.blocks] using hdown)
  | case4 steps before b rest hkind ih => exact ih (by simpa using h)

theorem leads_compact {blocks : List (Block α)} {old new : List α} (h : Leads blocks old new) :
    Leads (compact blocks) old new :=
  leads_compactFrom (leads_compactFrom h)

end RouterShift.Patch
