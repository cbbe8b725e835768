import Mathlib.Data.List.Forall2
import RouterShift.Proofs.Chain
import RouterShift.Proofs.TypeScript.Edited
import RouterShift.Proofs.TypeScript.Standing

/-! Inline templates through the changes of a file. A changed file is read again, and nothing but the
    grammar decides what is found then; `FoundAgain` says that it is the same components, with their
    templates where the change has moved them. Under it, templates that are put into a file one after
    another end up so: each literal says what was put last into the component whose name leads to
    it, and a literal that no name leads to is as it was (`spliceAll_matches`). -/

namespace RouterShift.TypeScript

open Text Edit

/-! ### Components that are found again -/

/-- A component and what has become of it: its name is the same, and its inline template, if it has
    one, is related to the new one. -/
structure Component.Matches (R : Literal → Literal → Prop) (c c' : Component) : Prop where
  className : c'.className = c.className
  without : c.inline? = none → c'.inline? = none
  inline : ∀ l, c.inline? = some l → ∃ l', c'.inline? = some l' ∧ R l l'

/-- The name of a component, and where its inline template is found. -/
def Component.mark (found : Span → Option Span) (c : Component) : String × Option (Option Span) :=
  (c.className, c.inline?.map fun l => found l.span)

/-- The same components are found in a file as in another one: their names are the same, one by one,
    and their inline templates stand where `found` takes the old spans. -/
def FoundAgain [Reader] (found : Span → Option Span) (before after : SourceFile) : Prop :=
  after.components.map (·.mark some) = before.components.map (·.mark found)

instance [Reader] (found : Span → Option Span) (before after : SourceFile) :
    Decidable (FoundAgain found before after) :=
  inferInstanceAs (Decidable (_ = _))

section
variable {R S T : Literal → Literal → Prop} {as bs cs : List Component}

/-- What has become of a component in two steps; only its own literal is asked about. -/
theorem Component.Matches.trans {a b c : Component} (hab : a.Matches R b) (hbc : b.Matches S c)
    (h : ∀ l, a.inline? = some l → ∀ l' l'', R l l' → S l' l'' → T l l'') : a.Matches T c where
  className := hbc.className.trans hab.className
  without hnone := hbc.without (hab.without hnone)
  inline l hl := by
    obtain ⟨l', hl', hR⟩ := hab.inline l hl
    obtain ⟨l'', hl'', hS⟩ := hbc.inline l' hl'
    exact ⟨l'', hl'', h l hl l' l'' hR hS⟩

theorem matches_trans (hab : List.Forall₂ (Component.Matches R) as bs)
    (hbc : List.Forall₂ (Component.Matches S) bs cs)
    (h : ∀ c ∈ as, ∀ l, c.inline? = some l → ∀ l' l'', R l l' → S l' l'' → T l l'') :
    List.Forall₂ (Component.Matches T) as cs := by
  induction hab generalizing cs with
  | nil =>
    cases hbc
    exact .nil
  | cons hc _ ih =>
    cases hbc with
    | cons hc' hrest =>
      refine .cons (hc.trans hc' (h _ List.mem_cons_self)) (ih hrest fun c hmem => ?_)
      exact h c (List.mem_cons_of_mem _ hmem)

end

/-- Marks that are equal one by one, read as a relation between the components. -/
theorem matches_of_marks {found : Span → Option Span} {recast : Literal → Option Literal}
    {text text' : List Char} : ∀ {before after : List Component},
    after.map (·.mark some) = before.map (·.mark found) →
    (∀ c ∈ before, ∀ l, c.inline? = some l → l.StandsIn text) →
    (∀ c ∈ after, ∀ l, c.inline? = some l → l.StandsIn text') →
    (∀ l : Literal, l.StandsIn text → ∀ s, found l.span = some s →
      ∃ l', recast l = some l' ∧ l'.span = s ∧ l'.StandsIn text') →
    List.Forall₂ (Component.Matches (recast · = some ·)) before after
  | [], [], _, _, _, _ => .nil
  | [], c' :: after, h, _, _, _ => by simp at h
  | c :: before, [], h, _, _, _ => by simp at h
  | c :: before, c' :: after, h, hbefore, hafter, hrecast => by
    rw [List.map_cons, List.map_cons, List.cons.injEq] at h
    obtain ⟨hmark, hrest⟩ := h
    obtain ⟨hname, hplace⟩ := Prod.mk.inj hmark
    refine .cons ⟨hname, fun hc => ?_, fun l hc => ?_⟩ (matches_of_marks hrest
      (fun k hk => hbefore k (List.mem_cons_of_mem _ hk))
      (fun k hk => hafter k (List.mem_cons_of_mem _ hk)) hrecast)
    · rwa [hc, Option.map_none, Option.map_eq_none_iff] at hplace
    · rw [hc, Option.map_some] at hplace
      obtain ⟨l', hl', hspan⟩ := Option.map_eq_some_iff.1 hplace
      obtain ⟨k, hk, hks, hstands⟩ :=
        hrecast l (hbefore c List.mem_cons_self l hc) _ hspan.symm
      -- the new text has one literal at the place, so it is the one that was found
      obtain rfl := (hafter c' List.mem_cons_self l' hl').unique hstands hks.symm
      exact ⟨l', hl', hk⟩

/-- Components that are found again where the literals of a file are recast. -/
theorem FoundAgain.matches [Reader] {found : Span → Option Span}
    {recast : Literal → Option Literal} {before after : SourceFile} (hsound : Reader.Sound)
    (h : FoundAgain found before after)
    (hrecast : ∀ l : Literal, l.StandsIn before.text.toList → ∀ s, found l.span = some s →
      ∃ l', recast l = some l' ∧ l'.span = s ∧ l'.StandsIn after.text.toList) :
    List.Forall₂ (Component.Matches (recast · = some ·)) before.components after.components :=
  matches_of_marks h (fun _ hc _ hl => SourceFile.standsIn hsound hc hl)
    (fun _ hc _ hl => SourceFile.standsIn hsound hc hl) hrecast

/-! ### The template of a name -/

theorem SourceFile.inlineTemplate?_eq [Reader] (file : SourceFile) (className : String) :
    file.inlineTemplate? className =
      (file.components.find? (·.className == className)).bind Component.inline? := by
  rw [inlineTemplate?, component?]
  cases file.components.find? (·.className == className) <;> rfl

theorem SourceFile.exists_of_inlineTemplate? [Reader] {file : SourceFile} {className : String}
    {l : Literal} (h : file.inlineTemplate? className = some l) :
    ∃ c ∈ file.components, c.inline? = some l := by
  rw [inlineTemplate?_eq] at h
  obtain ⟨c, hc, hl⟩ := Option.bind_eq_some_iff.1 h
  exact ⟨c, List.mem_of_find?_eq_some hc, hl⟩

/-- Names lead to the same components as before. -/
theorem SourceFile.inlineTemplate?_matches [Reader] {R : Literal → Literal → Prop}
    {before after : SourceFile}
    (h : List.Forall₂ (Component.Matches R) before.components after.components)
    (className : String) :
    (before.inlineTemplate? className = none → after.inlineTemplate? className = none) ∧
      ∀ l, before.inlineTemplate? className = some l →
        ∃ l', after.inlineTemplate? className = some l' ∧ R l l' := by
  rw [inlineTemplate?_eq, inlineTemplate?_eq]
  generalize before.components = as at h ⊢
  generalize after.components = bs at h ⊢
  induction h with
  | nil => simp
  | cons hc _ ih =>
    rw [List.find?_cons, List.find?_cons, hc.className]
    split
    · exact ⟨hc.without, hc.inline⟩
    · exact ih

/-! ### Changes -/

/-- A file with one inline template replaced. -/
theorem SourceFile.spliceTemplate_of [Reader] {file done : SourceFile} {className markup : String}
    {l : Literal} (hl : file.inlineTemplate? className = some l) (hne : l.write markup ≠ l.raw)
    (haddr : Addressable file.text.toList l.span) (hpath : done.path = file.path)
    (htext : done.text.toList = splice file.text.toList ⟨l.span, l.write markup⟩) :
    file.spliceTemplate className markup = .ok done := by
  simp only [spliceTemplate, hl, if_neg hne]
  exact edited_of (by simpa using haddr) hpath (by simpa using htext)

/-- The templates of components are left as they are by replacements elsewhere. -/
theorem edited_matches [Reader] {file done : SourceFile} {rs : List Replacement}
    (hsound : Reader.Sound) (h : file.edited rs = .ok done)
    (hfound : FoundAgain (·.movedAll? (made rs)) file done) :
    List.Forall₂ (Component.Matches fun l l' => l'.delimiter = l.delimiter ∧ l'.raw = l.raw)
      file.components done.components := by
  obtain ⟨-, haddr, htext⟩ := SourceFile.of_edited h
  let recast (l : Literal) : Option Literal :=
    (l.span.movedAll? (made rs)).map fun s => { l with span := s }
  have hmatches : List.Forall₂ (Component.Matches (recast · = some ·)) file.components
      done.components := by
    refine hfound.matches hsound fun l hl s hs =>
      ⟨{ l with span := s }, by simp [recast, hs], rfl, ?_⟩
    rw [htext]
    exact hl.movedAll (cutInPlace_made haddr).1 hs
  refine hmatches.imp fun c c' hc => ⟨hc.className, hc.without, fun l hl => ?_⟩
  obtain ⟨l', hl', hrecast⟩ := hc.inline l hl
  obtain ⟨s, -, rfl⟩ := Option.map_eq_some_iff.1 hrecast
  exact ⟨_, hl', rfl, rfl⟩

/-! ### Templates put into a file -/

/-- What becomes of a literal when all of some span is replaced. -/
def Literal.recast? (r : Replacement) (l : Literal) : Option Literal :=
  (r.found? l.span).map fun s => ⟨s, l.delimiter, if l.span = r.range then r.text else l.raw⟩

theorem Literal.StandsIn.recast {l : Literal} {cs : List Char} {r : Replacement} {s : Span}
    (h : l.StandsIn cs) (hr : Addressable cs r.range) (hs : r.found? l.span = some s) :
    ∃ l', l.recast? r = some l' ∧ l'.span = s ∧ l'.StandsIn (splice cs r) := by
  refine ⟨_, by rw [recast?, hs]; rfl, rfl, ?_⟩
  rw [Replacement.found?] at hs
  split at hs
  · next hrange =>
    cases hs
    rw [if_pos hrange]
    exact h.replaced hrange
  · next hrange =>
    rw [if_neg hrange]
    exact h.moved hr hs

/-- Different literals of a text do not become one. -/
theorem recast?_injective {k l l' : Literal} {cs : List Char} {r : Replacement}
    (hk : k.StandsIn cs) (hl : l.StandsIn cs) (h : k.recast? r = some l')
    (h' : l.recast? r = some l') : k = l := by
  obtain ⟨s, hs, rfl⟩ := Option.map_eq_some_iff.1 h
  obtain ⟨t, ht, heq⟩ := Option.map_eq_some_iff.1 h'
  obtain rfl : t = s := congrArg Literal.span heq
  exact hk.unique hl (found?_injective hk.ordered hl.ordered hs ht)

/-- The file with templates put into components, one after another. -/
def SourceFile.spliceAll [Reader] (file : SourceFile) :
    List (String × String) → Except SourceError SourceFile
  | [] => .ok file
  | (className, markup) :: rest => do
    let spliced ← file.spliceTemplate className markup
    spliced.spliceAll rest

theorem SourceFile.path_spliceAll [Reader] {splices : List (String × String)}
    {file done : SourceFile} (h : file.spliceAll splices = .ok done) : done.path = file.path := by
  induction splices generalizing file with
  | nil =>
    cases h
    rfl
  | cons s rest ih =>
    obtain ⟨className, markup⟩ := s
    rw [spliceAll, bind_eq_ok] at h
    obtain ⟨spliced, hs, h⟩ := h
    rw [ih h]
    rw [spliceTemplate] at hs
    split at hs
    · cases hs
    · simp only at hs
      split at hs
      · cases hs
        rfl
      · exact (of_edited hs).1

/-- The components are found again whenever putting a template into the file changes it. -/
def FoundThroughout [Reader] (file : SourceFile) : List (String × String) → Prop
  | [] => True
  | (className, markup) :: rest => ∀ l spliced, file.inlineTemplate? className = some l →
    file.spliceTemplate className markup = .ok spliced →
      (l.write markup ≠ l.raw →
        FoundAgain (Replacement.found? ⟨l.span, l.write markup⟩) file spliced) ∧
      FoundThroughout spliced rest

/-- A single template put into a file. -/
theorem FoundThroughout.single [Reader] {file spliced : SourceFile} {className markup : String}
    {l : Literal} (hl : file.inlineTemplate? className = some l)
    (hs : file.spliceTemplate className markup = .ok spliced)
    (hfound : FoundAgain (Replacement.found? ⟨l.span, l.write markup⟩) file spliced) :
    FoundThroughout file [(className, markup)] := by
  intro k done hk hdone
  obtain rfl : l = k := Option.some.inj (hl.symm.trans hk)
  obtain rfl : spliced = done := Except.ok.inj (hs.symm.trans hdone)
  exact ⟨fun _ => hfound, trivial⟩

/-- The template that is put last into the component whose name leads to a literal. -/
def SourceFile.lastSplice? [Reader] (file : SourceFile) (splices : List (String × String))
    (l : Literal) : Option String :=
  ((splices.filter fun s => file.inlineTemplate? s.1 = some l).getLast?).map (·.2)

/-- One template put into a file: `recast` says what each literal becomes, the one that the name
    leads to among them. -/
theorem spliceTemplate_matches [Reader] {file spliced : SourceFile} {className markup : String}
    {l : Literal} (hsound : Reader.Sound) (hl : file.inlineTemplate? className = some l)
    (h : file.spliceTemplate className markup = .ok spliced)
    (hfound : l.write markup ≠ l.raw →
      FoundAgain (Replacement.found? ⟨l.span, l.write markup⟩) file spliced) :
    ∃ recast : Literal → Option Literal,
      List.Forall₂ (Component.Matches (recast · = some ·)) file.components spliced.components ∧
      (∀ k k', k.StandsIn file.text.toList → recast k = some k' →
        k'.delimiter = k.delimiter ∧ k'.raw = if k = l then l.write markup else k.raw) ∧
      ∀ k₁ k₂ k', k₁.StandsIn file.text.toList → k₂.StandsIn file.text.toList →
        recast k₁ = some k' → recast k₂ = some k' → k₁ = k₂ := by
  simp only [SourceFile.spliceTemplate, hl] at h
  split at h
  · next hsame =>
    cases h
    refine ⟨some, ?_, ?_, ?_⟩
    · refine List.forall₂_same.2 fun c _ => ⟨rfl, id, fun k hk => ⟨k, hk, rfl⟩⟩
    · rintro k _ - ⟨⟩
      refine ⟨rfl, ?_⟩
      split
      · next hkl => rw [hsame, hkl]
      · rfl
    · rintro k₁ k₂ _ - - ⟨⟩ ⟨⟩
      rfl
  · next hother =>
    let r : Replacement := ⟨l.span, l.write markup⟩
    obtain ⟨-, haddr, htext⟩ := SourceFile.of_edited h
    have hr : Addressable file.text.toList r.range := haddr r List.mem_cons_self
    rw [made_singleton, List.foldl_cons, List.foldl_nil] at htext
    obtain ⟨c, hc, hcl⟩ := SourceFile.exists_of_inlineTemplate? hl
    have hstands := SourceFile.standsIn hsound hc hcl
    refine ⟨Literal.recast? r, ?_, ?_, fun k₁ k₂ k' => recast?_injective⟩
    · refine (hfound hother).matches hsound fun k hk s hs => ?_
      rw [htext]
      exact hk.recast hr hs
    · intro k k' hk hrecast
      obtain ⟨s, -, rfl⟩ := Option.map_eq_some_iff.1 hrecast
      refine ⟨rfl, ?_⟩
      have hsame : k.span = r.range ↔ k = l :=
        ⟨fun hspan => hk.unique hstands hspan, fun heq => congrArg Literal.span heq⟩
      simp only [hsame, r]

theorem Literal.write_congr {l l' : Literal} (h : l'.delimiter = l.delimiter) :
    l'.write = l.write := by
  funext text
  rw [write, write, h]

/-- What is put first into a literal only counts if nothing is put into it later. -/
theorem SourceFile.lastSplice?_cons [Reader] {file : SourceFile} {className markup : String}
    {l : Literal} (hl : file.inlineTemplate? className = some l) (rest : List (String × String))
    (k : Literal) :
    file.lastSplice? ((className, markup) :: rest) k =
      if k = l then some ((file.lastSplice? rest k).getD markup) else file.lastSplice? rest k := by
  rw [lastSplice?, lastSplice?]
  by_cases hk : k = l
  · rw [if_pos hk, List.filter_cons_of_pos (by simp [hl, hk]), List.getLast?_cons, Option.map_some]
    cases (rest.filter fun s => file.inlineTemplate? s.1 = some k).getLast? <;> rfl
  · have hne : ¬ file.inlineTemplate? className = some k := by
      rw [hl, Option.some.injEq]
      exact fun heq => hk heq.symm
    rw [if_neg hk, List.filter_cons_of_neg (by simpa using hne)]

/-- What is put into a literal does not depend on when its place is looked up. -/
theorem lastSplice?_recast [Reader] {before after : SourceFile}
    {recast : Literal → Option Literal} (hsound : Reader.Sound)
    (hmatches : List.Forall₂ (Component.Matches (recast · = some ·)) before.components
      after.components)
    (hinj : ∀ k₁ k₂ k', k₁.StandsIn before.text.toList → k₂.StandsIn before.text.toList →
      recast k₁ = some k' → recast k₂ = some k' → k₁ = k₂)
    (splices : List (String × String)) {k k' : Literal} (hk : k.StandsIn before.text.toList)
    (hrecast : recast k = some k') :
    after.lastSplice? splices k' = before.lastSplice? splices k := by
  have hsame (className : String) :
      after.inlineTemplate? className = some k' ↔ before.inlineTemplate? className = some k := by
    obtain ⟨hnone, hsome⟩ := SourceFile.inlineTemplate?_matches hmatches className
    constructor
    · intro hafter
      cases hbefore : before.inlineTemplate? className with
      | none => rw [hnone hbefore] at hafter; cases hafter
      | some l =>
        obtain ⟨l', hl', hrecast'⟩ := hsome l hbefore
        obtain rfl : l' = k' := Option.some.inj (hl'.symm.trans hafter)
        obtain ⟨c, hc, hcl⟩ := SourceFile.exists_of_inlineTemplate? hbefore
        rw [hinj l k l' (SourceFile.standsIn hsound hc hcl) hk hrecast' hrecast]
    · intro hbefore
      obtain ⟨l', hl', hrecast'⟩ := hsome k hbefore
      rw [hl', ← hrecast', hrecast]
  simp only [SourceFile.lastSplice?, hsame]

/-- Templates put into a file one after another: each literal says what was put last into the
    component whose name leads to it. -/
theorem spliceAll_matches [Reader] {splices : List (String × String)} {file done : SourceFile}
    (hsound : Reader.Sound) (hfound : FoundThroughout file splices)
    (h : file.spliceAll splices = .ok done) :
    List.Forall₂ (Component.Matches fun l l' => l'.delimiter = l.delimiter ∧
      l'.raw = ((file.lastSplice? splices l).map l.write).getD l.raw)
      file.components done.components := by
  induction splices generalizing file with
  | nil =>
    cases h
    refine List.forall₂_same.2 fun c _ => ⟨rfl, id, fun l hl => ⟨l, hl, rfl, ?_⟩⟩
    simp [SourceFile.lastSplice?]
  | cons s rest ih =>
    obtain ⟨className, markup⟩ := s
    rw [SourceFile.spliceAll, bind_eq_ok] at h
    obtain ⟨spliced, hs, h⟩ := h
    cases hl : file.inlineTemplate? className with
    | none => simp [SourceFile.spliceTemplate, hl] at hs
    | some l =>
      obtain ⟨hfirst, hrest⟩ := hfound l spliced hl hs
      obtain ⟨recast, hmatches, hraw, hinj⟩ := spliceTemplate_matches hsound hl hs hfirst
      refine matches_trans hmatches (ih hrest h) fun c hc k hk k' k'' hrecast hk'' => ?_
      have hstands := SourceFile.standsIn hsound hc hk
      obtain ⟨hdelimiter, hraw'⟩ := hraw k k' hstands hrecast
      rw [lastSplice?_recast hsound hmatches hinj rest hstands hrecast,
        Literal.write_congr hdelimiter, hdelimiter, hraw'] at hk''
      refine ⟨hk''.1, hk''.2.trans ?_⟩
      rw [SourceFile.lastSplice?_cons hl]
      by_cases hkl : k = l
      · rw [if_pos hkl, if_pos hkl, hkl]
        cases file.lastSplice? rest l <;> rfl
      · rw [if_neg hkl, if_neg hkl]

end RouterShift.TypeScript
