import RouterShift.Grammar.Tree

/-! Trees whose parts nest: each child stands within its parent, behind the children before it
    (`Within`). Of two nodes of such trees one is in the other, or they stand apart
    (`nested_or_apart`). -/

namespace RouterShift

/-- The span has its start and its end between two places. -/
def Span.Between (lo hi : Nat) (s : Span) : Prop := lo ≤ s.start ∧ s.start ≤ s.stop ∧ s.stop ≤ hi

theorem Span.Between.trans {s t : Span} {lo hi : Nat} (h : s.Between t.start t.stop)
    (ht : t.Between lo hi) : s.Between lo hi :=
  ⟨Nat.le_trans ht.1 h.1, h.2.1, Nat.le_trans h.2.2 ht.2.2⟩

/-- One of the spans ends before the other one begins. -/
def Span.Apart (s t : Span) : Prop := s.stop ≤ t.start ∨ t.stop ≤ s.start

theorem Span.Apart.symm {s t : Span} (h : s.Apart t) : t.Apart s := Or.symm h

theorem Span.Apart.inside {s t u : Span} (h : s.Apart t) (hu : u.Between s.start s.stop) :
    u.Apart t := by
  obtain ⟨h1, h2, h3⟩ := hu
  rcases h with h | h
  · exact .inl (Nat.le_trans h3 h)
  · exact .inr (Nat.le_trans h h1)

theorem Span.Apart.between {s t x y : Span} (h : s.Apart t) (hx : x.Between s.start s.stop)
    (hy : y.Between t.start t.stop) : x.Apart y :=
  ((h.inside hx).symm.inside hy).symm

namespace Grammar.Tree

variable {κ : Type} {t u v c : Tree κ} {ts us : List (Tree κ)} {lo mid hi : Nat}

/-! ### The nodes of a tree -/

theorem subtrees_eq : ∀ t : Tree κ, t.subtrees = t :: subtreesAmong t.children
  | node _ _ _ => rfl

theorem subtreesAmong_append : subtreesAmong (ts ++ us) = subtreesAmong ts ++ subtreesAmong us := by
  induction ts with
  | nil => rfl
  | cons t ts ih => rw [List.cons_append, subtreesAmong, ih, subtreesAmong, List.append_assoc]

theorem mem_subtreesAmong : u ∈ subtreesAmong ts ↔ ∃ t ∈ ts, u ∈ t.subtrees := by
  induction ts with
  | nil => simp [subtreesAmong]
  | cons t ts ih => simp [subtreesAmong, ih]

theorem mem_subtrees : u ∈ t.subtrees ↔ u = t ∨ u ∈ subtreesAmong t.children := by
  rw [subtrees_eq, List.mem_cons]

theorem self_mem_subtrees (t : Tree κ) : t ∈ t.subtrees := mem_subtrees.2 (.inl rfl)

theorem subset_subtreesAmong (h : t ∈ ts) : t ∈ subtreesAmong ts :=
  mem_subtreesAmong.2 ⟨t, h, t.self_mem_subtrees⟩

theorem child_mem_subtrees (h : c ∈ t.children) : c ∈ t.subtrees :=
  mem_subtrees.2 (.inr (subset_subtreesAmong h))

theorem sizeOf_lt_of_mem_children (h : c ∈ t.children) : sizeOf c < sizeOf t := by
  cases t with
  | node label span children =>
    have hlt : sizeOf c < sizeOf children := List.sizeOf_lt_of_mem h
    simp only [node.sizeOf_spec]
    omega

/-- What holds of a tree whenever it holds of its children holds of every tree. -/
theorem byChildren {P : Tree κ → Prop} (h : ∀ t, (∀ c ∈ t.children, P c) → P t) (t : Tree κ) :
    P t :=
  h t fun c hc =>
    have := sizeOf_lt_of_mem_children hc
    byChildren h c
termination_by sizeOf t

theorem subtrees_trans (h : u ∈ t.subtrees) (hv : v ∈ u.subtrees) : v ∈ t.subtrees := by
  induction t using byChildren with
  | h t ih =>
    rcases mem_subtrees.1 h with rfl | h
    · exact hv
    · obtain ⟨c, hc, h⟩ := mem_subtreesAmong.1 h
      exact mem_subtrees.2 (.inr (mem_subtreesAmong.2 ⟨c, hc, ih c hc h⟩))

theorem subtreesAmong_trans (h : u ∈ subtreesAmong ts) (hv : v ∈ u.subtrees) :
    v ∈ subtreesAmong ts := by
  obtain ⟨t, ht, h⟩ := mem_subtreesAmong.1 h
  exact mem_subtreesAmong.2 ⟨t, ht, subtrees_trans h hv⟩

theorem child_mem_subtreesAmong (h : t ∈ subtreesAmong ts) (hc : c ∈ t.children) :
    c ∈ subtreesAmong ts :=
  subtreesAmong_trans h (child_mem_subtrees hc)

theorem sizeOf_le_of_mem_subtrees (h : u ∈ t.subtrees) : sizeOf u ≤ sizeOf t := by
  induction t using byChildren with
  | h t ih =>
    rcases mem_subtrees.1 h with rfl | h
    · exact Nat.le_refl _
    · obtain ⟨c, hc, h⟩ := mem_subtreesAmong.1 h
      exact Nat.le_trans (ih c hc h) (Nat.le_of_lt (sizeOf_lt_of_mem_children hc))

/-- No tree is in a tree that is in it. -/
theorem not_mem_subtrees_of_mem_children (h : u ∈ subtreesAmong t.children) : t ∉ u.subtrees := by
  intro ht
  obtain ⟨c, hc, h⟩ := mem_subtreesAmong.1 h
  have hlt := sizeOf_lt_of_mem_children hc
  have hle := sizeOf_le_of_mem_subtrees h
  have hle' := sizeOf_le_of_mem_subtrees ht
  omega

/-! ### Where they stand -/

mutual
/-- A tree stands between two places, and the parts in it stand between its own ends. -/
def Within (lo hi : Nat) : Tree κ → Prop
  | .node _ span children => span.Between lo hi ∧ AmongWithin span.start span.stop children

/-- Trees stand between two places, each behind the one before. -/
def AmongWithin (lo hi : Nat) : List (Tree κ) → Prop
  | [] => lo ≤ hi
  | t :: rest => Within lo hi t ∧ AmongWithin t.span.stop hi rest
end

theorem Within.between (h : t.Within lo hi) : t.span.Between lo hi := by
  cases t
  exact h.1

theorem Within.inside (h : t.Within lo hi) :
    AmongWithin t.span.start t.span.stop t.children := by
  cases t
  exact h.2

theorem AmongWithin.le (h : AmongWithin lo hi ts) : lo ≤ hi := by
  cases ts with
  | nil => exact h
  | cons t rest =>
    obtain ⟨h1, h2, h3⟩ := h.1.between
    omega

theorem Within.mono {lo' hi' : Nat} (h : t.Within lo hi) (hlo : lo' ≤ lo) (hhi : hi ≤ hi') :
    t.Within lo' hi' := by
  cases t
  obtain ⟨⟨h1, h2, h3⟩, hinside⟩ := h
  exact ⟨⟨Nat.le_trans hlo h1, h2, Nat.le_trans h3 hhi⟩, hinside⟩

theorem AmongWithin.append (hts : AmongWithin lo mid ts) (hus : AmongWithin mid hi us) :
    AmongWithin lo hi (ts ++ us) := by
  induction ts generalizing lo with
  | nil =>
    cases us with
    | nil => exact Nat.le_trans hts hus
    | cons u us => exact ⟨hus.1.mono hts (Nat.le_refl hi), hus.2⟩
  | cons t ts ih => exact ⟨hts.1.mono (Nat.le_refl lo) hus.le, ih hts.2⟩

theorem AmongWithin.mem (h : AmongWithin lo hi ts) (ht : t ∈ ts) : t.Within lo hi := by
  induction ts generalizing lo with
  | nil => cases ht
  | cons s ts ih =>
    rcases List.mem_cons.1 ht with rfl | ht
    · exact h.1
    · obtain ⟨h1, h2, h3⟩ := h.1.between
      exact (ih h.2 ht).mono (Nat.le_trans h1 h2) (Nat.le_refl hi)

theorem AmongWithin.pairwise (h : AmongWithin lo hi ts) :
    ts.Pairwise fun t u => t.span.stop ≤ u.span.start := by
  induction ts generalizing lo with
  | nil => exact .nil
  | cons t ts ih => exact .cons (fun u hu => (h.2.mem hu).between.1) (ih h.2)

theorem Within.child (h : t.Within lo hi) (hc : c ∈ t.children) :
    c.Within t.span.start t.span.stop := h.inside.mem hc

/-- All nodes of a tree stand where the tree stands. -/
theorem Within.of_mem (h : t.Within lo hi) (hu : u ∈ t.subtrees) :
    u.Within t.span.start t.span.stop := by
  induction t using byChildren generalizing lo hi with
  | h t ih =>
    rcases mem_subtrees.1 hu with rfl | hu
    · cases u
      exact ⟨⟨Nat.le_refl _, h.1.2.1, Nat.le_refl _⟩, h.2⟩
    · obtain ⟨c, hc, hu⟩ := mem_subtreesAmong.1 hu
      have hchild := h.child hc
      exact (ih c hc hchild hu).mono hchild.between.1 hchild.between.2.2

theorem AmongWithin.of_mem (h : AmongWithin lo hi ts) (hu : u ∈ subtreesAmong ts) :
    u.Within lo hi := by
  obtain ⟨t, ht, hu⟩ := mem_subtreesAmong.1 hu
  have ht := h.mem ht
  exact (ht.of_mem hu).mono ht.between.1 ht.between.2.2

/-- Two of several trees are the same, or they stand apart. -/
theorem AmongWithin.eq_or_apart (h : AmongWithin lo hi ts) (ht : t ∈ ts) (hu : u ∈ ts) :
    t = u ∨ t.span.Apart u.span := by
  have hp := h.pairwise
  induction ts generalizing lo with
  | nil => cases ht
  | cons s ts ih =>
    obtain ⟨hs, hrest⟩ := List.pairwise_cons.1 hp
    rcases List.mem_cons.1 ht with heq | ht <;> rcases List.mem_cons.1 hu with heq' | hu
    · exact .inl (heq.trans heq'.symm)
    · exact .inr (.inl (heq ▸ hs u hu))
    · exact .inr (.inr (heq' ▸ hs t ht))
    · exact ih h.2 ht hu hrest

/-- Of two nodes one is in the other, or they stand apart. -/
theorem Within.nested_or_apart (h : t.Within lo hi) (hu : u ∈ t.subtrees) (hv : v ∈ t.subtrees) :
    u.span.Apart v.span ∨ u ∈ v.subtrees ∨ v ∈ u.subtrees := by
  induction t using byChildren generalizing lo hi with
  | h t ih =>
    rcases mem_subtrees.1 hu with rfl | hu
    · exact .inr (.inr hv)
    rcases mem_subtrees.1 hv with rfl | hv
    · exact .inr (.inl (mem_subtrees.2 (.inr hu)))
    obtain ⟨c, hc, hu⟩ := mem_subtreesAmong.1 hu
    obtain ⟨d, hd, hv⟩ := mem_subtreesAmong.1 hv
    rcases h.inside.eq_or_apart hc hd with rfl | hapart
    · exact ih c hc (h.child hc) hu hv
    · exact .inl (hapart.between ((h.child hc).of_mem hu).between ((h.child hd).of_mem hv).between)

theorem AmongWithin.nested_or_apart (h : AmongWithin lo hi ts) (hu : u ∈ subtreesAmong ts)
    (hv : v ∈ subtreesAmong ts) : u.span.Apart v.span ∨ u ∈ v.subtrees ∨ v ∈ u.subtrees := by
  obtain ⟨t, ht, hu⟩ := mem_subtreesAmong.1 hu
  obtain ⟨t', ht', hv⟩ := mem_subtreesAmong.1 hv
  rcases h.eq_or_apart ht ht' with rfl | hapart
  · exact (h.mem ht).nested_or_apart hu hv
  · exact .inl (hapart.between ((h.mem ht).of_mem hu).between ((h.mem ht').of_mem hv).between)

/-- Of two nodes in their order the second one stands behind the first, or is in it. -/
def Follows (u v : Tree κ) : Prop :=
  u.span.stop ≤ v.span.start ∨ v ∈ subtreesAmong u.children

theorem AmongWithin.pairwise_follows (h : AmongWithin lo hi ts)
    (hts : ∀ t ∈ ts, t.subtrees.Pairwise Follows) : (subtreesAmong ts).Pairwise Follows := by
  induction ts generalizing lo with
  | nil => exact .nil
  | cons t ts ih =>
    obtain ⟨ht, hts⟩ := List.forall_mem_cons.1 hts
    refine List.pairwise_append.2 ⟨ht, ih h.2 hts, fun u hu v hv => .inl ?_⟩
    exact Nat.le_trans (h.1.of_mem hu).between.2.2 (h.2.of_mem hv).between.1

theorem Within.pairwise_subtrees (h : t.Within lo hi) : t.subtrees.Pairwise Follows := by
  induction t using byChildren generalizing lo hi with
  | h t ih =>
    rw [subtrees_eq]
    refine List.pairwise_cons.2 ⟨fun u hu => .inr hu, h.inside.pairwise_follows fun c hc => ?_⟩
    exact ih c hc (h.child hc)

theorem AmongWithin.pairwise_subtrees (h : AmongWithin lo hi ts) :
    (subtreesAmong ts).Pairwise Follows :=
  h.pairwise_follows fun _ ht => (h.mem ht).pairwise_subtrees

end Grammar.Tree
end RouterShift
