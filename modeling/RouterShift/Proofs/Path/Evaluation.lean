import Mathlib.Logic.Relation
import RouterShift.Proofs.Path.Components

/-! Lexical evaluation. What a path names without looking at any disk is found by striking out, one
    at a time and in any order: a `.`, a name with the `..` behind it, a `..` behind the root
    (`Cancels`). A list where nothing is left to strike out is a root or a run of `..`, and names
    behind it (`IsCanonical`). The stack machine that evaluates components gets there, and it is the
    one canonical list that can be got to (`evaluates_iff`), so a normalized path has just these
    components and is normalized already (`normalize_normalize`). -/

namespace RouterShift

namespace Path

/-! ### Striking out -/

/-- One step of lexical evaluation, wherever in the list it is made. -/
inductive Cancels : List Component → List Component → Prop
  | here (front back : List Component) : Cancels (front ++ .here :: back) (front ++ back)
  | name (front back : List Component) (s : String) :
      Cancels (front ++ .name s :: .parent :: back) (front ++ back)
  | root (front back : List Component) :
      Cancels (front ++ .root :: .parent :: back) (front ++ .root :: back)

/-- Any number of steps. -/
def Evaluates : List Component → List Component → Prop := Relation.ReflTransGen Cancels

/-- Nothing to strike out is left: no `.`, and `..` only in a run at the start of a relative list. -/
def IsCanonical (cs : List Component) : Prop :=
  ∃ names : List String, cs = .root :: names.map .name ∨
    ∃ n : ℕ, cs = List.replicate n .parent ++ names.map .name

variable {a b cs ds done : List Component} {c : Component} {s : String}

/-- Components struck out in one step are none to the stack machine. -/
theorem evaluate_of_cancels (h : Cancels cs ds) : evaluate cs = evaluate ds := by
  rw [evaluate, evaluate]
  cases h <;> simp [List.foldl_append, evaluateStep]

theorem evaluate_of_evaluates (h : Evaluates cs ds) : evaluate cs = evaluate ds := by
  induction h with
  | refl => rfl
  | tail _ hstep ih => rw [ih, evaluate_of_cancels hstep]

/-- What the machine does with the next component can be done by striking out. -/
theorem evaluates_step (done : List Component) (c : Component) (cs : List Component) :
    Evaluates (done.reverse ++ c :: cs) ((evaluateStep done c).reverse ++ cs) := by
  have hkept : Evaluates (done.reverse ++ c :: cs) ((c :: done).reverse ++ cs) := by
    rw [List.reverse_cons, List.append_assoc, List.singleton_append]
    exact .refl
  cases c with
  | here => exact .single (.here _ _)
  | root => exact hkept
  | name s => exact hkept
  | parent =>
    rcases done with - | ⟨d, done⟩
    · exact hkept
    · cases d with
      | name s =>
        rw [List.reverse_cons, List.append_assoc]
        exact .single (.name _ _ s)
      | root =>
        rw [evaluateStep, List.reverse_cons, List.append_assoc, List.append_assoc]
        exact .single (.root _ _)
      | here => exact hkept
      | parent => exact hkept

theorem evaluates_foldl (done cs : List Component) :
    Evaluates (done.reverse ++ cs) (cs.foldl evaluateStep done).reverse := by
  induction cs generalizing done with
  | nil => rw [List.append_nil]; exact .refl
  | cons c cs ih => exact (evaluates_step done c cs).trans (ih (evaluateStep done c))

/-- The machine ends where striking out can end. -/
theorem evaluates_evaluate (cs : List Component) : Evaluates cs (evaluate cs) :=
  evaluates_foldl [] cs

/-! ### Canonical lists -/

theorem isCanonical_nil : IsCanonical [] := ⟨[], .inr ⟨0, rfl⟩⟩

theorem IsCanonical.append_name (h : IsCanonical cs) (s : String) :
    IsCanonical (cs ++ [.name s]) := by
  obtain ⟨names, rfl | ⟨n, rfl⟩⟩ := h
  · exact ⟨names ++ [s], .inl (by simp)⟩
  · exact ⟨names ++ [s], .inr ⟨n, by simp⟩⟩

theorem IsCanonical.of_append_name (h : IsCanonical (cs ++ [.name s])) : IsCanonical cs := by
  obtain ⟨names, h | ⟨n, h⟩⟩ := h
  all_goals
    rcases List.eq_nil_or_concat names with rfl | ⟨front, last, rfl⟩
  · cases cs <;> simp at h
  · refine ⟨front, .inl ?_⟩
    rw [List.concat_eq_append, List.map_append, List.map_singleton, ← List.cons_append] at h
    exact (List.append_inj' h rfl).1
  · -- a run of `..` has no name at its end
    have hmem : Component.name s ∈ List.replicate n .parent := by
      rw [List.map_nil, List.append_nil] at h
      rw [← h]
      simp
    cases (List.eq_of_mem_replicate hmem)
  · refine ⟨front, .inr ⟨n, ?_⟩⟩
    rw [List.concat_eq_append, List.map_append, List.map_singleton, ← List.append_assoc] at h
    exact (List.append_inj' h rfl).1

/-- What is canonical and does not end in a name is the root or a run of `..`. -/
theorem IsCanonical.eq_or_eq_replicate (h : IsCanonical cs)
    (hlast : ∀ s, cs.getLast? ≠ some (.name s)) : cs = [.root] ∨ ∃ n, cs = List.replicate n .parent := by
  obtain ⟨names, rfl | ⟨n, rfl⟩⟩ := h
  all_goals
    rcases List.eq_nil_or_concat names with rfl | ⟨front, last, rfl⟩
  · exact .inl rfl
  · refine absurd ?_ (hlast last)
    rw [List.concat_eq_append, List.map_append, List.map_singleton, ← List.cons_append]
    exact List.getLast?_concat
  · exact .inr ⟨n, by simp⟩
  · refine absurd ?_ (hlast last)
    rw [List.concat_eq_append, List.map_append, List.map_singleton, ← List.append_assoc]
    exact List.getLast?_concat

/-- The stack of the machine stays canonical, when a root only comes to an empty one. -/
theorem isCanonical_evaluateStep (h : IsCanonical done.reverse) (hc : c = .root → done = []) :
    IsCanonical (evaluateStep done c).reverse := by
  cases c with
  | here => exact h
  | root =>
    rw [hc rfl]
    exact ⟨[], .inl rfl⟩
  | name s =>
    rw [evaluateStep, List.reverse_cons]
    · exact h.append_name s
    all_goals simp
  | parent =>
    unfold evaluateStep
    dsimp only
    split
    · next s done =>
      rw [List.reverse_cons] at h
      exact h.of_append_name
    · exact h
    · next hname hroot =>
      have hlast : ∀ s, done.reverse.getLast? ≠ some (.name s) := by
        intro s hs
        rw [List.getLast?_reverse] at hs
        obtain ⟨rest, rfl⟩ := List.head?_eq_some_iff.1 hs
        exact hname s rest rfl
      rcases h.eq_or_eq_replicate hlast with h | ⟨n, h⟩
      · refine absurd ?_ (hroot [])
        rw [← List.reverse_reverse done, h]
        rfl
      · refine ⟨[], .inr ⟨n + 1, ?_⟩⟩
        rw [List.reverse_cons, h, List.map_nil, List.append_nil, ← List.replicate_succ']

theorem isCanonical_foldl (h : IsCanonical done.reverse) (hcs : .root ∉ cs) :
    IsCanonical (cs.foldl evaluateStep done).reverse := by
  induction cs generalizing done with
  | nil => exact h
  | cons c cs ih =>
    rw [List.mem_cons, not_or] at hcs
    exact ih (isCanonical_evaluateStep h fun hc => absurd hc.symm hcs.1) hcs.2

/-- A list with a root at most at its start is evaluated to a canonical one. -/
theorem isCanonical_evaluate (h : .root ∉ cs.tail) : IsCanonical (evaluate cs) := by
  cases cs with
  | nil => exact isCanonical_nil
  | cons c cs =>
    have hfirst : IsCanonical (evaluateStep [] c).reverse :=
      isCanonical_evaluateStep isCanonical_nil fun _ => rfl
    rw [evaluate, List.foldl_cons]
    exact isCanonical_foldl hfirst h

theorem foldl_evaluateStep_name (names : List String) (done : List Component) :
    (names.map Component.name).foldl evaluateStep done = (names.map .name).reverse ++ done := by
  induction names generalizing done with
  | nil => rfl
  | cons s names ih => simp [evaluateStep, ih]

theorem foldl_evaluateStep_parent (n m : ℕ) :
    (List.replicate n Component.parent).foldl evaluateStep (List.replicate m .parent) =
      List.replicate (m + n) .parent := by
  induction n generalizing m with
  | zero => rfl
  | succ n ih =>
    have hstep : evaluateStep (List.replicate m .parent) .parent = List.replicate (m + 1) .parent := by
      cases m <;> rfl
    rw [List.replicate_succ, List.foldl_cons, hstep, ih, Nat.add_right_comm, Nat.add_assoc]

/-- A canonical list is evaluated already. -/
theorem evaluate_of_isCanonical (h : IsCanonical cs) : evaluate cs = cs := by
  obtain ⟨names, rfl | ⟨n, rfl⟩⟩ := h
  · rw [evaluate, List.foldl_cons, foldl_evaluateStep_name]
    simp [evaluateStep]
  · rw [evaluate, List.foldl_append, foldl_evaluateStep_name]
    have hparents := foldl_evaluateStep_parent n 0
    rw [List.replicate_zero, Nat.zero_add] at hparents
    rw [hparents, List.reverse_append, List.reverse_reverse, List.reverse_replicate]

/-- Striking out leads to one canonical list, whatever is struck out first. -/
theorem evaluates_iff (hds : IsCanonical ds) : Evaluates cs ds ↔ ds = evaluate cs := by
  constructor
  · intro h
    rw [evaluate_of_evaluates h, evaluate_of_isCanonical hds]
  · rintro rfl
    exact evaluates_evaluate cs

theorem evaluate_congr_append (h : evaluate a = evaluate b) (cs : List Component) :
    evaluate (a ++ cs) = evaluate (b ++ cs) := by
  rw [evaluate, evaluate, List.reverse_inj] at h
  rw [evaluate, evaluate, List.foldl_append, List.foldl_append, h]

/-- Where every `.` is left out to begin with, the same is found. -/
theorem foldl_filter_here (done cs : List Component) :
    (cs.filter (· ≠ .here)).foldl evaluateStep done = cs.foldl evaluateStep done := by
  induction cs generalizing done with
  | nil => rfl
  | cons c cs ih =>
    by_cases hc : c = .here
    · subst hc
      exact ih done
    · rw [List.filter_cons_of_pos (by simpa using hc)]
      exact ih _

theorem evaluate_filter_here (cs : List Component) :
    evaluate (cs.filter (· ≠ .here)) = evaluate cs := by
  rw [evaluate, foldl_filter_here, evaluate]

/-- Evaluation makes up no component. -/
theorem mem_of_mem_evaluate (h : c ∈ evaluate cs) : c ∈ cs := by
  have hcancel : ∀ {cs ds : List Component}, Cancels cs ds → ∀ c ∈ ds, c ∈ cs := by
    intro cs ds h
    cases h <;> simp only [List.mem_append, List.mem_cons] <;> tauto
  have hrun : ∀ ds, Evaluates cs ds → ∀ c ∈ ds, c ∈ cs := by
    intro ds h
    induction h with
    | refl => exact fun _ hc => hc
    | tail _ hstep ih => exact fun c hc => ih c (hcancel hstep c hc)
  exact hrun _ (evaluates_evaluate cs) c h

/-! ### Parents and joined paths -/

/-- Lists that differ only in where `.` stands evaluate to the same, whatever follows. -/
theorem evaluate_append_congr (h : a.filter (· ≠ .here) = b.filter (· ≠ .here))
    (cs : List Component) : evaluate (a ++ cs) = evaluate (b ++ cs) :=
  evaluate_congr_append (by rw [← evaluate_filter_here a, h, evaluate_filter_here]) cs

theorem filter_here_of_sublist_named {text : List Char} (h : cs.Sublist (named text)) :
    cs.filter (· ≠ .here) = cs := by
  refine List.filter_eq_self.2 fun c hc => ?_
  rcases of_mem_named (h.subset hc) with rfl | ⟨s, rfl⟩ <;> rfl

/-- A relative path has a `.` at most at its start. -/
theorem components_of_relative {p : Path} (hp : p.isAbsolute = false) :
    p.components = .here :: named p.text.toList ∨ p.components = named p.text.toList := by
  rcases components_cases p with h | h
  · obtain ⟨text, htext, -⟩ := eq_slash_of_components h
    rw [← Bool.not_eq_true, isAbsolute_iff, htext] at hp
    exact absurd rfl hp
  · exact h

theorem filter_here_components {p : Path} (hp : p.isAbsolute = false) :
    p.components.filter (· ≠ .here) = named p.text.toList := by
  have hnamed := filter_here_of_sublist_named (List.Sublist.refl (named p.text.toList))
  rcases components_of_relative hp with h | h
  · rw [h, List.filter_cons_of_neg (by simp), hnamed]
  · rw [h, hnamed]

theorem filter_here_dropLast {p : Path} (hp : p.isAbsolute = false) :
    p.components.dropLast.filter (· ≠ .here) = (named p.text.toList).dropLast := by
  have hnamed := filter_here_of_sublist_named (List.dropLast_sublist (named p.text.toList))
  rcases components_of_relative hp with h | h
  · rw [h]
    cases hcs : named p.text.toList with
    | nil => rfl
    | cons c cs =>
      rw [hcs] at hnamed
      rw [List.dropLast_cons_of_ne_nil (List.cons_ne_nil c cs), List.filter_cons_of_neg (by simp),
        hnamed]
  · rw [h, hnamed]

/-- The parent evaluates to what the path evaluates to without its last component. -/
theorem evaluate_parent? {p d : Path} (h : p.parent? = some d) (cs : List Component) :
    evaluate (d.components ++ cs) = evaluate (p.components.dropLast ++ cs) := by
  by_cases hp : p.isAbsolute = true
  · obtain ⟨text, htext⟩ := List.head?_eq_some_iff.1 ((isAbsolute_iff p).1 hp)
    have hcs : p.components = .root :: named text := by
      rw [components, htext, componentsOf_slash]
    obtain ⟨hne, hd⟩ := components_parent? hcs h
    rw [hd, hcs, List.dropLast_cons_of_ne_nil hne]
  · obtain ⟨hd, hnamed⟩ := relative_parent? (Bool.not_eq_true _ ▸ hp) h
    refine evaluate_append_congr ?_ cs
    rw [filter_here_components hd, filter_here_dropLast (Bool.not_eq_true _ ▸ hp), hnamed]

/-- A path without a parent has no component before its last. -/
theorem dropLast_components_of_parent? {p : Path} (h : p.parent? = none) :
    p.components.dropLast = [] := by
  unfold parent? at h
  dsimp only at h
  split at h
  · next hlast =>
    rw [List.getLast?_eq_none_iff.1 hlast]
    rfl
  · next hlast =>
    -- the root is last only when it is first as well
    obtain ⟨front, hfront⟩ := List.getLast?_eq_some_iff.1 hlast
    rcases front with - | ⟨c, front⟩
    · rw [hfront]
      rfl
    · refine absurd ?_ (root_notMem_tail_components p)
      rw [hfront]
      simp
  · split at h <;> cases h

theorem filter_here_componentsOf {text : List Char} (h : text.head? ≠ some '/') :
    (componentsOf text).filter (· ≠ .here) = named text := by
  have htext : (String.ofList text).toList = text := String.toList_ofList
  have hrelative : (⟨String.ofList text⟩ : Path).isAbsolute = false := by
    rw [← Bool.not_eq_true, isAbsolute_iff, htext]
    exact h
  have hfilter := filter_here_components hrelative
  rwa [components, htext] at hfilter

theorem evaluate_append_componentsOf {text : List Char} (h : text.head? ≠ some '/')
    (cs : List Component) : evaluate (cs ++ componentsOf text) = evaluate (cs ++ named text) := by
  rw [← evaluate_filter_here, List.filter_append, ← evaluate_filter_here (cs ++ named text),
    List.filter_append, filter_here_componentsOf h,
    filter_here_of_sublist_named (List.Sublist.refl _)]

/-- A relative text joined to a path is evaluated behind the components of the path. -/
theorem evaluate_join (d : Path) {url : String} (h : url.toList.head? ≠ some '/') :
    evaluate (d.join url).components = evaluate (d.components ++ componentsOf url.toList) := by
  by_cases hd : d.text.toList = []
  · have hnone : d.components = [] := by
      rw [components, hd]
      rfl
    rw [join_eq_of_text_eq hd, hnone, List.nil_append, components]
  · rw [components_join_of_ne hd h, evaluate_append_componentsOf h]

/-! ### Normalized paths -/

/-- The normalized path names what the components of the path evaluate to. -/
theorem components_normalize (p : Path) : p.normalize.components = evaluate p.components := by
  refine components_ofComponents ?_ ?_
  · exact fun c hc => isSpelled_of_mem_components (mem_of_mem_evaluate hc)
  · obtain ⟨names, h | ⟨n, h⟩⟩ := isCanonical_evaluate (root_notMem_tail_components p)
    all_goals
      intro c hc
      rw [h] at hc
    · obtain ⟨s, -, rfl⟩ := List.mem_map.1 hc
      exact .inr ⟨s, rfl⟩
    · rcases List.mem_append.1 (List.mem_of_mem_tail hc) with hc | hc
      · exact .inl (List.eq_of_mem_replicate hc)
      · obtain ⟨s, -, rfl⟩ := List.mem_map.1 hc
        exact .inr ⟨s, rfl⟩

theorem isCanonical_normalize (p : Path) : IsCanonical p.normalize.components := by
  rw [components_normalize]
  exact isCanonical_evaluate (root_notMem_tail_components p)

/-- A normalized path is left as it is, in its spelling. -/
theorem normalize_normalize (p : Path) : p.normalize.normalize = p.normalize := by
  rw [normalize, evaluate_of_isCanonical (isCanonical_normalize p), components_normalize, normalize]

/-- Paths that evaluate to the same components are normalized to one text. -/
theorem normalize_eq_normalize_iff (p q : Path) :
    p.normalize = q.normalize ↔ evaluate p.components = evaluate q.components := by
  constructor
  · intro h
    rw [← components_normalize, h, components_normalize]
  · intro h
    rw [normalize, normalize, h]

end Path
end RouterShift
