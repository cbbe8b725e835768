import RouterShift.Proofs.Workspace.Changes
import RouterShift.Proofs.Workspace.Listing

/-! Listing the roots of a plan. In memory the sources below some roots are those files of the whole
    map that some root covers, in the order of the map (`sources_eq_filter`); so it does not matter
    how the roots are listed, in which order, how often, or together with what lies below them, and
    every source is visited once, whatever number of roots it lies under (`plan_roots`). -/

namespace RouterShift

namespace Path

/-- Only the empty path has no components. -/
theorem text_eq_of_components_eq_nil {p : Path} (h : p.components = []) : p.text = "" := by
  rw [components, componentsOf] at h
  split at h
  · cases h
  next hslash =>
  split at h
  · cases h
  next hhere =>
  have hpieces := Text.intercalate_splitAt '/' p.text.toList
  obtain ⟨piece, pieces, hsplit⟩ :=
    List.exists_cons_of_ne_nil (Text.splitAt_ne_nil (p := (· == '/')) p.text.toList)
  rw [hsplit] at h hhere hpieces
  -- the first piece names nothing and is no dot, so nothing stands before a slash
  have hidle := (ofPiece?_eq_none_iff piece).2 (List.filterMap_eq_nil_iff.1 h piece List.mem_cons_self)
  have hdot : piece ≠ ['.'] := fun heq => hhere (congrArg some heq)
  obtain rfl : piece = [] := by simpa [hdot] using hidle
  cases pieces with
  | nil => exact String.toList_eq_nil_iff.1 hpieces.symm
  | cons next pieces =>
    rw [← hpieces, List.intercalate_cons_cons] at hslash
    exact absurd rfl hslash

end Path

namespace Workspace

open TypeScript (SourceFile)

variable {m : FileMap} {files : List (Path × String)} {behind : Entry} {directory : Path}
  {roots others : List Path} {p q r : Path}

/-! ### Paths under roots -/

/-- What lies under a root lies under every root that this one lies under. -/
theorem LiesUnder.trans (h : LiesUnder p r) (hr : LiesUnder r q) : LiesUnder p q := by
  rcases hr with hq | hq | hbelow
  · exact .inl hq
  · exact .inr (.inl hq)
  have hbelow := List.isPrefixOf_iff_prefix.1 hbelow
  have hempty (hnil : q.components = []) : LiesUnder p q :=
    .inl (Path.text_eq_of_components_eq_nil hnil)
  rcases h with hr | hr | hp
  · obtain rfl : r = ⟨""⟩ := by
      cases r
      cases hr
      rfl
    exact hempty (List.prefix_nil.1 hbelow)
  · -- below the whole workspace there is nothing but itself and the empty path
    have hdot : r.components = [.here] := Path.sameAs_iff.1 hr
    rw [hdot] at hbelow
    rcases List.prefix_cons_iff.1 hbelow with hnil | ⟨rest, hq, hrest⟩
    · exact hempty hnil
    · rw [List.prefix_nil.1 hrest] at hq
      exact .inr (.inl (Path.sameAs_iff.2 hq))
  · exact .inr (.inr (List.isPrefixOf_iff_prefix.2 (hbelow.trans (List.isPrefixOf_iff_prefix.1 hp))))

/-- The path lies under one of the roots that are scanned. -/
def IsCovered (roots : List Path) (p : Path) : Prop := ∃ r ∈ scannedRoots roots, LiesUnder p r

instance (p root : Path) : Decidable (LiesUnder p root) :=
  inferInstanceAs (Decidable (_ ∨ _ ∨ _))

instance (roots : List Path) (p : Path) : Decidable (IsCovered roots p) :=
  inferInstanceAs (Decidable (∃ r ∈ _, _))

/-- Roots that are listed with the same members cover the same. -/
theorem isCovered_congr (h : ∀ r, r ∈ others ↔ r ∈ roots) : IsCovered others p ↔ IsCovered roots p := by
  have hscanned : ∀ r, r ∈ scannedRoots others ↔ r ∈ scannedRoots roots := by
    intro r
    rw [scannedRoots, scannedRoots]
    cases others with
    | nil =>
      cases roots with
      | nil => rfl
      | cons first rest => exact absurd ((h first).2 List.mem_cons_self) List.not_mem_nil
    | cons first rest =>
      cases roots with
      | nil => exact absurd ((h first).1 List.mem_cons_self) List.not_mem_nil
      | cons first' rest' => exact h r
  simp only [IsCovered, hscanned]

/-- A root under a listed one covers nothing more. -/
theorem isCovered_cons (hr : ∃ q ∈ roots, LiesUnder r q) :
    IsCovered (r :: roots) p ↔ IsCovered roots p := by
  obtain ⟨q, hq, hrq⟩ := hr
  have hscanned : scannedRoots roots = roots := by
    cases roots with
    | nil => cases hq
    | cons first rest => rfl
  rw [IsCovered, IsCovered, hscanned]
  constructor
  · rintro ⟨root, hroot, hp⟩
    rcases List.mem_cons.1 hroot with rfl | hroot
    · exact ⟨q, hq, hp.trans hrq⟩
    · exact ⟨root, hroot, hp⟩
  · rintro ⟨root, hroot, hp⟩
    exact ⟨root, List.mem_cons_of_mem r hroot, hp⟩

/-! ### The sources of a plan in memory -/

theorem Distinct.eq_of_sameAs {paths : List Path} (h : Distinct paths) (hp : p ∈ paths) (hq : q ∈ paths)
    (hsame : p.sameAs q = true) : p = q := by
  have hsymm : Std.Symm fun p q : Path => p.sameAs q = false :=
    ⟨fun p q hpq => by rwa [Path.sameAs_comm]⟩
  by_contra hne
  rw [h.forall hp hq hne] at hsame
  cases hsame

/-- Of an ordered list a set of some of its paths is what the list has of them. -/
theorem pathSet_eq_filter {keys paths : List Path} (hkeys : Ordered keys)
    (hpaths : ∀ p ∈ paths, p ∈ keys) : pathSet paths = keys.filter (· ∈ paths) := by
  obtain ⟨hordered, hmem⟩ := pathSet_spec paths
  refine eq_of_pairwise_lt Path.order hordered (hkeys.filter _) fun p => ?_
  rw [List.mem_filter, decide_eq_true_iff]
  constructor
  · intro hp
    exact ⟨hpaths p (hmem p hp), hmem p hp⟩
  · rintro ⟨hkey, hp⟩
    obtain ⟨q, hq, hsame⟩ := exists_mem_pathSet hp
    -- no other spelling of the path is in the list
    exact hkeys.distinct.eq_of_sameAs (hpaths q (hmem q hq)) hkey hsame ▸ hq

theorem list_eq_filter (m : FileMap) (behind : Entry) (directory root : Path) :
    (Tree.memory m behind directory).list root = .ok ((m.map (·.1)).filter fun p =>
      !p.components.any Tree.isLeftOut && decide (LiesUnder p root)) := by
  have hunder (p : Path) : (root.text == "" || root.sameAs ⟨"."⟩ || p.isBelow root) =
      decide (LiesUnder p root) := by
    rw [Bool.eq_iff_iff, decide_eq_true_iff]
    simp [LiesUnder, or_assoc]
  simp only [Tree.list, hunder]

/-- In memory the sources of a plan are those files of the map that a root covers. -/
theorem sources_eq_filter (hm : Ordered (m.map (·.1))) (behind : Entry) (directory : Path)
    (roots : List Path) :
    sources (.memory m behind directory) roots = .ok ((m.map (·.1)).filter fun p =>
      p.extension? = some "ts" ∧ p.components.any Tree.isLeftOut = false ∧ IsCovered roots p) := by
  have hlisted : ((scannedRoots roots).mapM fun root =>
      ((Tree.memory m behind directory).list root).mapError (.listing root)) =
      (.ok ((scannedRoots roots).map fun root => (m.map (·.1)).filter fun p =>
        !p.components.any Tree.isLeftOut && decide (LiesUnder p root)) :
          Except Failure (List (List Path))) := by
    refine mapM_eq_ok.2 (List.forall₂_map_right_iff.2 (List.forall₂_same.2 fun root _ => ?_))
    rw [list_eq_filter]
    rfl
  have hsources : sources (.memory m behind directory) roots =
      ((scannedRoots roots).mapM fun root =>
        ((Tree.memory m behind directory).list root).mapError (.listing root)) >>= fun listed =>
          .ok (pathSet (listed.flatten.filter fun p => p.extension? = some "ts")) := rfl
  rw [hsources, hlisted]
  refine congrArg Except.ok ((pathSet_eq_filter hm ?_).trans (List.filter_congr fun p hp => ?_))
  · intro p hp
    obtain ⟨hp, -⟩ := List.mem_filter.1 hp
    obtain ⟨paths, hpaths, hp⟩ := List.mem_flatten.1 hp
    obtain ⟨root, -, rfl⟩ := List.mem_map.1 hpaths
    exact List.mem_of_mem_filter hp
  · rw [decide_eq_decide]
    constructor
    · intro hp
      obtain ⟨hp, hextension⟩ := List.mem_filter.1 hp
      obtain ⟨paths, hpaths, hp⟩ := List.mem_flatten.1 hp
      obtain ⟨root, hroot, rfl⟩ := List.mem_map.1 hpaths
      obtain ⟨-, hlisted⟩ := List.mem_filter.1 hp
      simp only [Bool.and_eq_true, Bool.not_eq_true', decide_eq_true_eq] at hlisted
      exact ⟨of_decide_eq_true hextension, hlisted.1, root, hroot, hlisted.2⟩
    · rintro ⟨hextension, hvisible, root, hroot, hunder⟩
      refine List.mem_filter.2 ⟨List.mem_flatten.2 ⟨_, List.mem_map_of_mem hroot, ?_⟩,
        decide_eq_true hextension⟩
      exact List.mem_filter.2 ⟨hp, by simp [hvisible, hunder]⟩

section
variable [TypeScript.Reader]

/-- A plan looks at its roots only for the sources below them. -/
theorem plan_congr {t : Tree} (h : sources t others = sources t roots) :
    plan t others = plan t roots := by
  rw [plan_eq, h, ← plan_eq]

/-! ### Once -/

/-- What holds of a draft when some of the sources have been gone through: changes of sources are of
    those, changes of templates of known ones, and no file is changed twice in one role. -/
structure ChangesOnce (visited : List Path) (d : Draft) : Prop where
  source : ∀ c ∈ d.report.changes, c.role = .source → c.path ∈ visited
  template : ∀ c ∈ d.report.changes, c.role = .template → c.path ∈ d.migratedTemplates
  once : d.report.changes.Pairwise fun a b => a.role = b.role → a.path.sameAs b.path = false

section
variable {t : Tree} {visited paths : List Path} {path : Path} {text : String} {d d' : Draft}

/-- A source that is visited for the first time is changed once, and templates that are not known
    yet. -/
theorem ChangesOnce.visit (h : ChangesOnce visited d) (hnew : ∀ q ∈ visited, q.sameAs path = false)
    (hvisit : visit t d path = .ok d') : ChangesOnce (visited ++ [path]) d' := by
  have hsame : ChangesOnce (visited ++ [path]) d :=
    ⟨fun c hc hrole => List.mem_append_left [path] (h.source c hc hrole), h.template, h.once⟩
  rcases visit_eq_ok hvisit with ⟨-, rfl⟩ | ⟨text, hread, hvisit⟩
  · exact hsame
  · rcases migrateSource_changes hvisit with rfl |
      ⟨-, file, done, others, -, hchanges, htemplates, hothers⟩
    · exact hsame
    · have hown {c : FileChange} (hc : c ∈ ownChange path text done) :
          c.role = .source ∧ c.path = path := (of_mem_ownChange hc).imp_right And.left
      constructor
      case source =>
        intro c hc hrole
        simp only [hchanges, List.mem_append] at hc
        rcases hc with hc | hc | hc
        · exact List.mem_append_left [path] (h.source c hc hrole)
        · exact (hown hc).2 ▸ List.mem_append_right visited List.mem_cons_self
        · rw [hothers.role c hc] at hrole
          cases hrole
      case template =>
        intro c hc hrole
        simp only [hchanges, List.mem_append] at hc
        rw [htemplates]
        rcases hc with hc | hc | hc
        · exact List.mem_append_right _ (h.template c hc hrole)
        · rw [(hown hc).1] at hrole
          cases hrole
        · exact List.mem_append_left _ (List.mem_reverse.2 (List.mem_map_of_mem hc))
      case once =>
        rw [hchanges, List.pairwise_append, List.pairwise_append]
        refine ⟨h.once, ⟨pairwise_ownChange path text done, ?_, ?_⟩, ?_⟩
        · have hdistinct := List.pairwise_map.1 hothers.distinct
          exact hdistinct.imp fun {c e} hne (_ : c.role = e.role) => hne
        · -- one of them is a source, the other one a template
          intro c hc e he hrole
          rw [(hown hc).1, hothers.role e he] at hrole
          cases hrole
        · intro c hc e he hrole
          rcases List.mem_append.1 he with he | he
          · rw [(hown he).1] at hrole
            rw [(hown he).2]
            exact hnew _ (h.source c hc hrole)
          · rw [hothers.role e he] at hrole
            exact hothers.fresh e he _ (h.template c hc hrole)

theorem filesScanned_visit (h : visit t d path = .ok d') :
    d'.report.filesScanned = d.report.filesScanned := by
  rcases visit_eq_ok h with ⟨-, rfl⟩ | ⟨text, -, h⟩
  · rfl
  · rw [migrateSource] at h
    split at h
    · cases h
      rfl
    · simp only [bind_eq_ok] at h
      obtain ⟨file, -, ⟨spliced, changes, seen⟩, -, h⟩ := h
      split at h
      all_goals
        obtain ⟨done, -, h⟩ := bind_eq_ok.1 h
        cases h
        rfl

end

/-- A plan counts the sources it visits, and changes no file twice in one role. -/
theorem plan_once {t : Tree} {paths : List Path} {report : Report} (hplan : plan t roots = .ok report)
    (hpaths : sources t roots = .ok paths) : report.filesScanned = paths.length ∧
      report.changes.Pairwise fun a b => a.role = b.role → a.path.sameAs b.path = false := by
  have hdistinct := distinct_of_sources hpaths
  simp only [plan_eq, hpaths, bind_eq_ok, pure_eq_ok, Except.ok.injEq] at hplan
  obtain ⟨_, rfl, draft, hvisits, rfl⟩ := hplan
  constructor
  · exact visits_induction (P := fun _ d => d.report.filesScanned = paths.length) rfl
      (fun _ _ _ _ _ hvisit h => (filesScanned_visit hvisit).trans h) hvisits
  · have honce : ChangesOnce paths draft := by
      refine visits_induction ⟨by simp, by simp, .nil⟩ (fun visited path d d' hfront hvisit h => ?_)
        hvisits
      have hnew := List.pairwise_append.1 (List.Pairwise.sublist hfront.sublist hdistinct)
      exact h.visit (fun q hq => hnew.2.2 q hq path List.mem_cons_self) hvisit
    exact honce.once

/-- In memory a plan does not depend on how its roots are listed: not on their order or on
    repetitions, not on roots under listed ones, and no root at all is the root of the workspace. A
    file under several roots is one source: the sources under some root are visited once each, and
    no file is changed twice in one role, or at all unless a template is a source too. -/
theorem plan_roots (files : List (Path × String)) (behind : Entry) (directory : Path)
    (roots : List Path) :
    let t := Tree.memory (.ofFiles files) behind directory
    (∀ others, (∀ r, r ∈ others ↔ r ∈ roots) → plan t others = plan t roots) ∧
    (∀ r, (∃ q ∈ roots, LiesUnder r q) → plan t (r :: roots) = plan t roots) ∧
    plan t [] = plan t [⟨"."⟩] ∧
    ∃ paths, sources t roots = .ok paths ∧ Distinct paths ∧
      (∀ p, p ∈ paths ↔ IsSource (.ofFiles files) roots p) ∧
      ∀ report, plan t roots = .ok report → report.filesScanned = paths.length ∧
        report.changes.Pairwise (fun a b => a.role = b.role → a.path.sameAs b.path = false) ∧
        (TemplatesApart t paths → Distinct (report.changes.map (·.path))) := by
  intro t
  have hordered : Ordered ((FileMap.ofFiles files).map (·.1)) := by
    rw [FileMap.keys_ofFiles]
    exact (pathSet_spec _).1
  have hsources := sources_eq_filter hordered behind directory
  have hcovered {others others' : List Path}
      (h : ∀ p, IsCovered others p ↔ IsCovered others' p) : plan t others = plan t others' := by
    refine plan_congr ?_
    rw [hsources, hsources]
    simp only [h]
  refine ⟨fun others h => hcovered fun p => isCovered_congr h,
    fun r hr => hcovered fun p => isCovered_cons hr, plan_congr rfl, _, hsources roots,
      distinct_of_sources (hsources roots), fun p => ?_, fun report hplan => ?_⟩
  · rw [List.mem_filter, decide_eq_true_iff, List.any_eq_false]
    constructor
    · rintro ⟨hmem, hextension, hvisible, hunder⟩
      exact ⟨hmem, hextension, fun c hc => by simpa using hvisible c hc, hunder⟩
    · intro h
      exact ⟨h.mem, h.extension, fun c hc => by simp [h.visible c hc], h.under⟩
  · obtain ⟨hscanned, honce⟩ := plan_once hplan (hsources roots)
    exact ⟨hscanned, honce, (plan_changes hplan (hsources roots)
      (distinct_of_sources (hsources roots))).2⟩

end

/-- One source two directories down. -/
def nestedFiles : List (Path × String) := [(⟨"src/app/a.ts"⟩, "// @uirouter")]

theorem plan_roots_nested :
    plan (.memory (.ofFiles nestedFiles) (.directory []) ⟨"/"⟩)
      [⟨"src"⟩, ⟨"src/app"⟩, ⟨"src/"⟩, ⟨"src"⟩] =
        plan (.memory (.ofFiles nestedFiles) (.directory []) ⟨"/"⟩) [⟨"src"⟩] := by
  have hunder (roots : List Path) := (plan_roots nestedFiles (.directory []) ⟨"/"⟩ roots).2.1
  have hmembers := (plan_roots nestedFiles (.directory []) ⟨"/"⟩ [⟨"src/"⟩, ⟨"src/app"⟩, ⟨"src"⟩]).1
  have hsrc : (⟨"src"⟩ : Path) ∈ [(⟨"src/app"⟩ : Path), ⟨"src"⟩] := by decide
  have hsame (r : Path) : r ∈ [(⟨"src"⟩ : Path), ⟨"src/app"⟩, ⟨"src/"⟩, ⟨"src"⟩] ↔
      r ∈ [(⟨"src/"⟩ : Path), ⟨"src/app"⟩, ⟨"src"⟩] := by
    simp only [List.mem_cons]
    tauto
  rw [hmembers _ hsame, hunder _ ⟨"src/"⟩ ⟨⟨"src"⟩, hsrc, by decide +kernel⟩,
    hunder _ ⟨"src/app"⟩ ⟨⟨"src"⟩, List.mem_cons_self, by decide +kernel⟩]

end Workspace
end RouterShift
