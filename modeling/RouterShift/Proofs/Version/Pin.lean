import RouterShift.Proofs.Version.Range

/-! A version taken for a range. It admits the versions with its numbers and its pre-release, unless
    one of its identifiers is a single `x`: that one is taken for a wildcard, what comes out is no
    requirement, and no version is admitted at all (`admits_pin`). -/

namespace RouterShift.Range
open Text (StopsBefore isDigit)
open Version (triple)

variable {cs rest : List Char} {a v : Version}

/-! ### A version with a wildcard in it -/

/-- A text is gone through from one dot to the next. -/
theorem dots_induction {motive : List Char → Prop} (last : ∀ cs, '.' ∉ cs → motive cs)
    (more : ∀ front rest, '.' ∉ front → motive rest → motive (front ++ '.' :: rest)) :
    ∀ cs, motive cs := by
  intro cs
  rw [← Text.intercalate_splitAt '.' cs]
  have hpieces : ∀ piece ∈ Text.splitAt (· == '.') cs, '.' ∉ piece := fun piece hpiece hdot => by
    cases Text.of_mem_splitAt hpiece '.' hdot
  revert hpieces
  generalize Text.splitAt (· == '.') cs = pieces
  intro hpieces
  induction pieces with
  | nil => exact last [] List.not_mem_nil
  | cons piece pieces ih =>
    have hpiece := hpieces piece List.mem_cons_self
    cases pieces with
    | nil =>
      rw [List.intercalate_singleton]
      exact last piece hpiece
    | cons next pieces =>
      rw [List.intercalate_cons_cons, List.append_assoc]
      exact more piece _ hpiece (ih fun x hx => hpieces x (List.mem_cons_of_mem _ hx))

theorem splitAt_of_notMem (h : '.' ∉ cs) : Text.splitAt (· == '.') cs = [cs] :=
  Text.splitAt_of_forall fun _ hd => beq_eq_false_iff_ne.2 fun hdot => h (hdot ▸ hd)

theorem starred_last (h : '.' ∉ cs) : starred cs = star cs := by
  rw [starred, splitAt_of_notMem h, List.map_singleton, List.intercalate_singleton]

theorem starred_append (h : '.' ∉ cs) (rest : List Char) :
    starred (cs ++ '.' :: rest) = star cs ++ '.' :: starred rest := by
  have hne : (Text.splitAt (· == '.') rest).map star ≠ [] := by
    rw [Text.splitAt_eq_splitOnP, ne_eq, List.map_eq_nil_iff]
    exact List.splitOnP_ne_nil _ rest
  obtain ⟨piece, pieces, hpieces⟩ := List.exists_cons_of_ne_nil hne
  rw [starred, starred, Text.splitAt_append rfl, splitAt_of_notMem h, List.map_append, hpieces,
    List.map_singleton, List.singleton_append, List.intercalate_cons_cons, List.append_assoc]
  rfl

theorem unstarred_last (h : '.' ∉ cs) : Unstarred cs ↔ cs ≠ ['x'] ∧ cs ≠ ['X'] := by
  rw [Unstarred, splitAt_of_notMem h, List.forall_mem_singleton]

theorem unstarred_append (h : '.' ∉ cs) :
    Unstarred (cs ++ '.' :: rest) ↔ (cs ≠ ['x'] ∧ cs ≠ ['X']) ∧ Unstarred rest := by
  rw [Unstarred, Text.splitAt_append rfl, splitAt_of_notMem h, List.singleton_append,
    List.forall_mem_cons, Unstarred]

theorem mem_star {part : List Char} {d : Char} (h : d ∈ star part) : d ∈ part ∨ d = '*' := by
  rw [star] at h
  split at h
  · exact .inr (List.mem_singleton.1 h)
  · exact .inl h

theorem star_of_not {part : List Char} (h : ¬ (part ≠ ['x'] ∧ part ≠ ['X'])) :
    star part = ['*'] := by
  have hpart : part = ['x'] ∨ part = ['X'] := by tauto
  rcases hpart with rfl | rfl
  · rfl
  · rfl

theorem mem_starred {d : Char} (h : d ∈ starred cs) : d ∈ cs ∨ d = '*' := by
  induction cs using dots_induction with
  | last cs hcs => exact mem_star (starred_last hcs ▸ h)
  | more front rest hfront ih =>
    rw [starred_append hfront, List.mem_append, List.mem_cons] at h
    rw [List.mem_append, List.mem_cons]
    rcases h with h | h | h
    · exact (mem_star h).imp_left .inl
    · exact .inl (.inr (.inl h))
    · exact (ih h).imp_left fun h => .inr (.inr h)

theorem star_mem_starred (h : ¬ Unstarred cs) : '*' ∈ starred cs := by
  induction cs using dots_induction with
  | last cs hcs =>
    rw [unstarred_last hcs] at h
    rw [starred_last hcs, star_of_not h]
    exact List.mem_cons_self
  | more front rest hfront ih =>
    rw [unstarred_append hfront, not_and_or] at h
    rw [starred_append hfront]
    rcases h with h | h
    · rw [star_of_not h]
      exact List.mem_append_left _ List.mem_cons_self
    · exact List.mem_append_right _ (List.mem_cons_of_mem _ (ih h))

/-- A number, and what stands behind it up to the next dot, is no wildcard. -/
theorem star_numeral {c : List Char} {n : Nat} (h : Version.Numeral c n) (rest : List Char) :
    star (c ++ rest) = c ++ rest := by
  obtain ⟨d, c, rfl⟩ := List.exists_cons_of_ne_nil h.ne_nil
  have hd := h.digits d List.mem_cons_self
  refine star_eq_self ⟨?_, ?_⟩
  · intro heq
    exact Version.ne_of_isDigit hd rfl (List.cons.inj heq).1
  · intro heq
    exact Version.ne_of_isDigit hd rfl (List.cons.inj heq).1

/-- Numbers are no wildcards, so what changes stands behind them. -/
theorem starred_triple {a b c tail : List Char} {major minor patch : Nat}
    (h : Version.Numerals a b c major minor patch) (htail : StopsBefore isDigit tail) :
    ∃ tail', starred (triple a b c tail) = triple a b c tail' ∧ StopsBefore isDigit tail' ∧
      ∀ d ∈ tail', d ∈ tail ∨ d = '*' := by
  have hdot {cs : List Char} {n : Nat} (hcs : Version.Numeral cs n) : '.' ∉ cs := hcs.notMem rfl
  have hstar {cs : List Char} {n : Nat} (hcs : Version.Numeral cs n) : star cs = cs := by
    have hcs' := star_numeral hcs []
    rwa [List.append_nil] at hcs'
  suffices hpatch : ∃ tail', starred (c ++ tail) = c ++ tail' ∧ StopsBefore isDigit tail' ∧
      ∀ d ∈ tail', d ∈ tail ∨ d = '*' by
    obtain ⟨tail', heq, htail'⟩ := hpatch
    refine ⟨tail', ?_, htail'⟩
    rw [triple, starred_append (hdot h.major), starred_append (hdot h.minor), hstar h.major,
      hstar h.minor, heq]
    rfl
  clear hstar
  cases tail using dots_induction with
  | last tail hnone =>
    refine ⟨tail, ?_, htail, fun d hd => .inl hd⟩
    rw [starred_last, star_numeral h.patch]
    simp [hdot h.patch, hnone]
  | more front rest hfront =>
    refine ⟨front ++ '.' :: starred rest, ?_, ?_, ?_⟩
    · rw [← List.append_assoc, starred_append, star_numeral h.patch, List.append_assoc]
      simp [hdot h.patch, hfront]
    · cases front with
      | nil => exact Text.stopsBefore_cons rfl
      | cons d front => exact Text.stopsBefore_cons (htail d rfl)
    · intro d hd
      rw [List.mem_append, List.mem_cons] at hd ⊢
      rcases hd with hd | hd | hd
      · exact .inl (.inl hd)
      · exact .inl (.inr (.inl hd))
      · exact (mem_starred hd).imp_left fun h => .inr (.inr h)

/-- No requirement is read from a version with a wildcard in it. -/
theorem ofChars?_starred (h : Version.ofChars? cs = some a) (hstar : ¬ Unstarred cs) :
    Requirement.ofChars? (starred cs) = none := by
  obtain ⟨x, y, z, tail, cs', rfl, hnumerals, hstop, -⟩ := Version.exists_triple h
  obtain ⟨tail', heq, hstop', hchars⟩ := starred_triple hnumerals hstop
  have hmem : '*' ∈ tail' := by
    have hmem := star_mem_starred hstar
    rw [heq, Version.mem_triple] at hmem
    rcases hmem with (hd | hd | hd) | hd | hd
    · exact absurd hd (hnumerals.major.notMem rfl)
    · exact absurd hd (hnumerals.minor.notMem rfl)
    · exact absurd hd (hnumerals.patch.notMem rfl)
    · cases hd
    · exact hd
  have hcomma : ',' ∉ tail' := by
    intro hin
    have htail := (hchars ',' hin).resolve_right (by decide)
    cases Version.isVersionChar_of_mem h (Version.mem_triple.2 (.inr (.inr htail)))
  rw [heq, Requirement.ofChars?_triple hnumerals, Option.map_eq_none_iff, Requirement.limit,
    Requirement.comparators?]
  cases hread : Comparator.read? (triple x y z tail') with
  | none => rfl
  | some found =>
    obtain ⟨run, spaces, htail', hrun, hspaces⟩ :=
      Comparator.of_read?_triple hnumerals hstop' hread
    obtain ⟨comparator, rest⟩ := found
    rw [htail', List.mem_append, List.mem_append] at hmem hcomma
    rcases hmem with hmem | hmem | hmem
    · cases hrun _ hmem
    · cases hspaces _ hmem
    · -- the wildcard is left over, and what is left over does not start with a comma
      cases rest with
      | nil => cases hmem
      | cons d rest =>
        have hd : d ≠ ',' := by
          rintro rfl
          exact hcomma (.inr (.inr List.mem_cons_self))
        simp [hd]

/-! ### A version without one -/

/-- The comparator that asks for just this version. -/
def pin (a : Version) : Comparator := ⟨.exact, a.major, some a.minor, some a.patch, a.pre⟩

theorem ofChars?_pin (h : Version.ofChars? cs = some a) :
    Requirement.ofChars? ('=' :: cs) = some ⟨[pin a]⟩ := by
  obtain ⟨x, y, z, tail, cs', rfl, hnumerals, htail, hpre, hbuild⟩ := Version.exists_triple h
  have hread : Comparator.read? ('=' :: triple x y z tail) = some (pin a, []) := by
    have hread := Comparator.read?_triple (some .exact) hnumerals htail
    simp only [hpre, hbuild, Option.bind_some] at hread
    exact hread
  have hone : Requirement.comparators? Requirement.limit ('=' :: triple x y z tail) =
      some [pin a] := by
    rw [Requirement.limit, Requirement.comparators?, hread]
    rfl
  have hspaces : ('=' :: triple x y z tail).dropWhile (· == ' ') = '=' :: triple x y z tail :=
    List.dropWhile_cons_of_neg (by decide)
  have hwildcard : Comparator.afterWildcard? ('=' :: triple x y z tail) = none := rfl
  simp only [Requirement.ofChars?, hspaces, hwildcard, hone, Option.map_some]

theorem admits_pin_iff : (⟨[pin a]⟩ : Requirement).admits v = true ↔
    a.major = v.major ∧ a.minor = v.minor ∧ a.patch = v.patch ∧ a.pre = v.pre := by
  have hexact : (pin a).admits v = true ↔
      a.major = v.major ∧ a.minor = v.minor ∧ a.patch = v.patch ∧ a.pre = v.pre := by
    simp only [Comparator.admits, pin, Comparator.admitsExact, Option.all_some, Bool.and_eq_true,
      beq_iff_eq, and_assoc]
    rw [eq_comm, @eq_comm _ v.minor, @eq_comm _ v.patch, @eq_comm _ v.pre]
  simp only [Requirement.admits, List.all_cons, List.all_nil, List.any_cons, List.any_nil,
    Bool.and_true, Bool.or_false, Bool.and_eq_true, hexact]
  refine and_iff_left_of_imp ?_
  rintro ⟨hmajor, hminor, hpatch, hpre⟩
  -- a pin of a pre-release names it
  cases hempty : v.pre.isEmpty
  · simp [Comparator.namesPreOf, pin, hmajor, hminor, hpatch, hpre, hempty]
  · rfl

/-- A version is an alternative of one comparator. -/
theorem requirement?_version (h : Version.ofChars? cs = some a) :
    requirement? cs = Requirement.ofChars? (comparatorText cs) := by
  have hblank : ∀ d ∈ cs, Text.isBlank d = false := fun d hd =>
    Version.isBlank_of_isVersionChar (Version.isVersionChar_of_mem h hd)
  have hdot : '.' ∈ cs := by
    obtain ⟨x, y, z, tail, cs', rfl, -⟩ := Version.exists_triple h
    exact Version.mem_triple.2 (.inr (.inl rfl))
  have hcut : Text.cutFirst? [' ', '-', ' '] (Text.trim Text.isBlank cs) = none := by
    refine Text.cutFirst?_eq_none_of_notMem (c := ' ') (by decide) ?_
    rw [Text.trim_of_forall hblank]
    intro hspace
    cases hblank ' ' hspace
  rw [requirement?_of_dot hdot hcut, Text.words_of_forall (List.ne_nil_of_mem hdot) hblank,
    joinOperators_word [] hdot, List.nil_append, joinOperators, List.map_singleton,
    List.intercalate_singleton]

theorem comparatorText_version (h : Version.ofChars? cs = some a) (hplain : Unstarred cs) :
    comparatorText cs = '=' :: cs := by
  obtain ⟨x, y, z, tail, cs', rfl, hnumerals, -⟩ := Version.exists_triple h
  have hstar : '*' ∉ tail := fun hmem => by
    cases Version.isVersionChar_of_mem h (Version.mem_triple.2 (.inr (.inr hmem)))
  exact comparatorText_triple none false hnumerals hplain hstar

theorem comparatorText_starred (h : Version.ofChars? cs = some a) (hstar : ¬ Unstarred cs) :
    comparatorText cs = starred cs := by
  obtain ⟨x, y, z, tail, cs', rfl, hnumerals, -⟩ := Version.exists_triple h
  have hcontains : (starred (triple x y z tail)).contains '*' = true := by
    rw [List.contains_eq_mem, decide_eq_true_eq]
    exact star_mem_starred hstar
  have hop : Comparator.sign none ++ (mark false ++ triple x y z tail) = triple x y z tail := rfl
  rw [← hop, comparatorText_eq none false hnumerals]
  simp only [hcontains]
  rfl

theorem requirements_version {text : String} (h : Version.ofChars? text.toList = some a) :
    requirements text = (requirement? text.toList).toList := by
  have hpipe : '|' ∉ text.toList := fun hmem => by
    cases Version.isVersionChar_of_mem h hmem
  rw [requirements, Text.splitOn_of_notMem List.mem_cons_self hpipe]
  cases hreq : requirement? text.toList with
  | none => simp [hreq]
  | some requirement => simp [hreq]

/-- A pin admits a version if and only if no identifier of the pin is a single `x` and both have the
    same numbers and the same pre-release. -/
theorem admits_pin {range text : String} (hrange : Version.ofChars? range.toList = some a)
    (htext : Version.ofChars? text.toList = some v) :
    admits range text = true ↔
      (∀ part ∈ Text.splitAt (· == '.') range.toList, part ≠ ['x'] ∧ part ≠ ['X']) ∧
        a.major = v.major ∧ a.minor = v.minor ∧ a.patch = v.patch ∧ a.pre = v.pre := by
  rw [admits, Version.parse?_of_ofChars? htext, requirements_version hrange,
    requirement?_version hrange, ← Unstarred]
  by_cases hplain : Unstarred range.toList
  · rw [comparatorText_version hrange hplain, ofChars?_pin hrange, and_iff_right hplain]
    simp only [Option.toList_some, List.any_cons, List.any_nil, Bool.or_false]
    exact admits_pin_iff
  · rw [comparatorText_starred hrange hplain, ofChars?_starred hrange hplain]
    simp [hplain]

theorem admits_pin_beta : admits "1.2.3-beta.2+x86" "1.2.3-beta.2" = true := by
  have hrange : Version.ofChars? "1.2.3-beta.2+x86".toList =
      some ⟨1, 2, 3, [.word "beta", .number 2], ["x86"]⟩ := by decide
  have htext : Version.ofChars? "1.2.3-beta.2".toList =
      some ⟨1, 2, 3, [.word "beta", .number 2], []⟩ := by decide
  exact (admits_pin hrange htext).2 (by decide)

/-- A version that, as a pin, does not admit itself. -/
theorem not_admits_pin_x :
    Version.ofChars? "1.0.0-a.x".toList = some ⟨1, 0, 0, [.word "a", .word "x"], []⟩ ∧
      admits "1.0.0-a.x" "1.0.0-a.x" = false := by decide +kernel

end RouterShift.Range
