import RouterShift.Proofs.Path.Evaluation
import RouterShift.Proofs.Workspace.Changes

/-! The paths of templates. A template URL means what the components of the directory of its source
    and its own evaluate to lexically, from the workspace root for one with a leading slash. The
    path is the canonical spelling of that (`templatePath_canonical`), so URLs that are spelled with
    slashes too many, with `./` or with a name and the way back mean one path, and a template that
    one component had is not changed again for another. -/

namespace RouterShift.TypeScript

open RouterShift.Path (named evaluate componentsOf)

/-- What a template URL says, before anything is evaluated: its own components from the workspace
    root, or behind those of the source but for the last. -/
def templateComponents (source : Path) (url : String) : List RouterShift.Component :=
  match url.toList with
  | '/' :: rooted => componentsOf rooted
  | cs => source.components.dropLast ++ componentsOf cs

/-- What may stand between two components and leads nowhere. -/
inductive Detour : List Char → Prop
  | slash : Detour ['/']
  | here : Detour ['.', '/']
  | back {name : List Char} (hname : Component.ofPiece? name = some (.name (String.ofList name)))
      (hslash : '/' ∉ name) : Detour (name ++ ['/', '.', '.', '/'])

/-- A URL with a detour put in between two components, or in front of the first one. A second slash
    right behind a leading one is no detour: what follows the leading slash would be absolute. -/
inductive Respelled : List Char → List Char → Prop
  | between (before back : List Char) {pad : List Char} (hbefore : before ≠ [])
      (hpad : Detour pad) : Respelled (before ++ '/' :: back) (before ++ '/' :: (pad ++ back))
  | first (lead back : List Char) {pad : List Char} (hlead : lead = [] ∨ lead = ['/'])
      (hback : back.head? ≠ some '/') (hpad : Detour pad) (hslash : pad ≠ ['/']) :
      Respelled (lead ++ back) (lead ++ (pad ++ back))

variable {source : Path} {url url' : String} {pad back cs rooted : List Char}

/-! ### Evaluating a URL -/

theorem templateComponents_slash (h : url.toList = '/' :: rooted) :
    templateComponents source url = componentsOf rooted := by
  simp only [templateComponents, h]

theorem templateComponents_relative (h : url.toList.head? ≠ some '/') :
    templateComponents source url = source.components.dropLast ++ componentsOf url.toList := by
  unfold templateComponents
  split
  · next hurl => exact absurd (by rw [hurl]; rfl) h
  · rfl

/-- A template path is a normalized one, of a path that evaluates as the URL says. -/
theorem exists_templatePath_eq (source : Path) (url : String) : ∃ p : Path,
    templatePath source url = p.normalize ∧
      evaluate p.components = evaluate (templateComponents source url) := by
  unfold templatePath
  split
  · next rooted hurl =>
    refine ⟨_, rfl, ?_⟩
    rw [templateComponents_slash hurl, Path.components, String.toList_ofList]
  · next hslash =>
    have hrelative : url.toList.head? ≠ some '/' := fun h => by
      obtain ⟨rooted, hurl⟩ := List.head?_eq_some_iff.1 h
      exact hslash rooted hurl
    rw [templateComponents_relative hrelative]
    split
    · next directory hdirectory =>
      exact ⟨_, rfl, by rw [Path.evaluate_join directory hrelative, Path.evaluate_parent? hdirectory]⟩
    · next hnone =>
      refine ⟨_, rfl, ?_⟩
      rw [Path.dropLast_components_of_parent? hnone, List.nil_append, Path.components]

theorem components_templatePath (source : Path) (url : String) :
    (templatePath source url).components = evaluate (templateComponents source url) := by
  obtain ⟨p, hp, heval⟩ := exists_templatePath_eq source url
  rw [hp, Path.components_normalize, heval]

theorem templatePath_eq_iff {source' : Path} :
    templatePath source' url' = templatePath source url ↔
      evaluate (templateComponents source' url') = evaluate (templateComponents source url) := by
  obtain ⟨p, hp, heval⟩ := exists_templatePath_eq source url
  obtain ⟨q, hq, heval'⟩ := exists_templatePath_eq source' url'
  rw [hp, hq, Path.normalize_eq_normalize_iff, heval, heval']

/-! ### Detours -/

/-- A detour names nothing, or a name and the step back from it. -/
theorem Detour.named_append (h : Detour pad) (cs : List Char) :
    named (pad ++ cs) = named cs ∨ ∃ s, named (pad ++ cs) = .name s :: .parent :: named cs := by
  have hend : pad.getLast? = some '/' := by
    cases h <;> simp
  rw [Path.named_append_of_getLast? (.inr hend)]
  cases h with
  | slash => exact .inl rfl
  | here => exact .inl rfl
  | @back name hname hslash =>
    have hsplit : name ++ ['/', '.', '.', '/'] = name ++ '/' :: ['.', '.', '/'] := rfl
    refine .inr ⟨String.ofList name, ?_⟩
    rw [hsplit, Path.named_append, Path.named_piece hslash, hname]
    rfl

theorem Detour.evaluate_named (h : Detour pad) (front : List RouterShift.Component)
    (cs : List Char) : evaluate (front ++ named (pad ++ cs)) = evaluate (front ++ named cs) := by
  rcases h.named_append cs with hnamed | ⟨s, hnamed⟩
  · rw [hnamed]
  · rw [hnamed]
    exact Path.evaluate_of_cancels (.name front (named cs) s)

/-- In front of a relative text a detour leads to where the text leads. -/
theorem Detour.evaluate_componentsOf (h : Detour pad) (hslash : pad ≠ ['/'])
    (hback : back.head? ≠ some '/') (front : List RouterShift.Component) :
    (pad ++ back).head? ≠ some '/' ∧
      evaluate (front ++ componentsOf (pad ++ back)) = evaluate (front ++ componentsOf back) := by
  have hpad : (pad ++ back).head? ≠ some '/' := by
    cases h with
    | slash => exact absurd rfl hslash
    | here => simp
    | @back name hname hname' =>
      rcases name with - | ⟨c, name⟩
      · cases hname
      · rintro ⟨⟩
        exact hname' List.mem_cons_self
  refine ⟨hpad, ?_⟩
  rw [Path.evaluate_append_componentsOf hpad, Path.evaluate_append_componentsOf hback,
    h.evaluate_named]

theorem componentsOf_append_slash (before cs : List Char) :
    componentsOf (before ++ '/' :: cs) = componentsOf (before ++ ['/']) ++ named cs := by
  rw [← Path.componentsOf_append_of_getLast? List.getLast?_concat, List.append_assoc]
  rfl

/-- A respelled URL says what evaluates to the same. -/
theorem Respelled.evaluate_eq (h : Respelled url.toList url'.toList) (source : Path) :
    evaluate (templateComponents source url') = evaluate (templateComponents source url) := by
  generalize hurl : url.toList = text at h
  generalize hurl' : url'.toList = text' at h
  cases h with
  | @between before back pad hbefore hpad =>
    rcases before with - | ⟨c, before⟩
    · exact absurd rfl hbefore
    rw [List.cons_append] at hurl hurl'
    by_cases hc : c = '/'
    · subst hc
      rw [templateComponents_slash hurl, templateComponents_slash hurl',
        componentsOf_append_slash _ (pad ++ back), componentsOf_append_slash _ back,
        hpad.evaluate_named]
    · have hhead : url.toList.head? ≠ some '/' := by
        rw [hurl]
        exact fun h => hc (Option.some.inj h)
      have hhead' : url'.toList.head? ≠ some '/' := by
        rw [hurl']
        exact fun h => hc (Option.some.inj h)
      have hsplit : ∀ cs, componentsOf (c :: (before ++ '/' :: cs)) =
          componentsOf (c :: before ++ ['/']) ++ named cs := componentsOf_append_slash (c :: before)
      rw [templateComponents_relative hhead, templateComponents_relative hhead', hurl, hurl',
        hsplit, hsplit, ← List.append_assoc, ← List.append_assoc, hpad.evaluate_named]
  | @first lead back pad hlead hback hpad hslash =>
    rcases hlead with rfl | rfl
    · rw [List.nil_append] at hurl hurl'
      obtain ⟨hhead, heval⟩ := hpad.evaluate_componentsOf hslash hback source.components.dropLast
      rw [← hurl'] at hhead
      rw [← hurl] at hback
      rw [templateComponents_relative hback, templateComponents_relative hhead, hurl, hurl', heval]
    · rw [templateComponents_slash hurl, templateComponents_slash hurl']
      exact (hpad.evaluate_componentsOf hslash hback []).2

theorem evaluate_respelled (h : Relation.ReflTransGen Respelled url.toList url'.toList)
    (source : Path) :
    evaluate (templateComponents source url') = evaluate (templateComponents source url) := by
  generalize hurl' : url'.toList = text at h
  induction h generalizing url' with
  | refl => rw [String.toList_inj.1 hurl']
  | @tail middle text _ hstep ih =>
    have hmiddle : (String.ofList middle).toList = middle := String.toList_ofList
    rw [← ih hmiddle]
    exact Respelled.evaluate_eq (by rwa [hmiddle, hurl']) source

end RouterShift.TypeScript

namespace RouterShift.Workspace

open TypeScript (SourceFile templateComponents templatePath Respelled)

/-! ### One template for two components -/

section
variable [TypeScript.Reader] {path path' : Path} {first second : Target} {between : List Target}
  {file file' : SourceFile} {changes changes' : List FileChange} {seen seen' : List Path}

/-- A template that was taken is changed already, or has nothing to change. -/
theorem migrateTarget_takes {p : Path} (hfirst : first.location = .external p)
    (h : migrateTarget path (file, changes, seen) first = .ok (file', changes', seen')) :
    ∃ migrated, Markup.migrate first.text = .ok migrated ∧
      (migrated = first.text ∨ seen'.any (·.sameAs p) = true) := by
  obtain ⟨migrated, hmigrated, ⟨hinline, -⟩ | ⟨template, hlocation, -, hone⟩⟩ :=
    migrateTarget_eq_ok h
  · rw [hfirst] at hinline
    cases hinline
  · obtain rfl : p = template := by
      rw [hfirst] at hlocation
      exact TemplateLocation.external.inj hlocation
    refine ⟨migrated, hmigrated, ?_⟩
    rcases hone with ⟨hold, -, rfl⟩ | ⟨-, -, -, rfl⟩
    · exact hold
    · exact .inr (by simp [Path.sameAs_refl])

/-- What is taken stays taken, whatever other components do. -/
theorem migrateTargets_take {p : Path} (hfirst : first.location = .external p)
    (h : (first :: between).foldlM (migrateTarget path) (file, changes, seen) =
      .ok (file', changes', seen')) :
    ∃ migrated, Markup.migrate first.text = .ok migrated ∧
      (migrated = first.text ∨ seen'.any (·.sameAs p) = true) := by
  obtain ⟨⟨next, changes₁, seen₁⟩, hstep, hrest⟩ := foldlM_cons_eq_ok.1 h
  obtain ⟨migrated, hmigrated, htaken⟩ := migrateTarget_takes hfirst hstep
  obtain ⟨others, -, rfl, -⟩ := migrateTargets_changes hrest
  refine ⟨migrated, hmigrated, htaken.imp_right fun htaken => ?_⟩
  rw [List.any_append, htaken, Bool.or_true]

/-- A target whose template was taken for another component leaves everything as it was. -/
theorem migrateTarget_of_taken {p : Path} (hfirst : first.location = .external p)
    (hsecond : second.location = .external p) (htext : second.text = first.text)
    (h : (first :: between).foldlM (migrateTarget path) (file, changes, seen) =
      .ok (file', changes', seen')) (other : SourceFile) (made : List FileChange) :
    migrateTarget path' (other, made, seen') second = .ok (other, made, seen') := by
  obtain ⟨migrated, hmigrated, htaken⟩ := migrateTargets_take hfirst h
  have hold : (decide (migrated = first.text) || seen'.any (·.sameAs p)) = true := by
    rw [Bool.or_eq_true, decide_eq_true_eq]
    exact htaken
  rw [migrateTarget, htext, hmigrated]
  simp only [Except.mapError, bind, Except.bind, hsecond, hold, if_true]
  rfl

/-- Template paths are canonical. The path that a source and a URL mean has no `.`, and `..` only
    in a run at the start of a relative path; of all such lists its components are the one that the
    components of URL and directory evaluate to. So normalizing it again changes nothing, two pairs
    of source and URL mean one path just when they evaluate to one list, and detours in the URL are
    not seen: when one component had the template, whatever came in between, another one that
    spells it differently leaves all as it was. -/
theorem templatePath_canonical (source : Path) (url : String) :
    Path.IsCanonical (templatePath source url).components ∧
    (∀ cs, Path.IsCanonical cs →
      (Path.Evaluates (templateComponents source url) cs ↔
        cs = (templatePath source url).components)) ∧
    (templatePath source url).normalize = templatePath source url ∧
    (∀ source' url', templatePath source' url' = templatePath source url ↔
      ∃ cs, Path.Evaluates (templateComponents source' url') cs ∧
        Path.Evaluates (templateComponents source url) cs) ∧
    ∀ url', Relation.ReflTransGen Respelled url.toList url'.toList →
      templatePath source url' = templatePath source url ∧
      ∀ (path path' : Path) (first second : Target) (between : List Target)
        (state : SourceFile × List FileChange × List Path) (file : SourceFile)
        (changes : List FileChange) (seen : List Path),
        first.location = .external (templatePath source url) →
        second.location = .external (templatePath source url') → second.text = first.text →
        (first :: between).foldlM (migrateTarget path) state = .ok (file, changes, seen) →
        ∀ other made, migrateTarget path' (other, made, seen) second = .ok (other, made, seen) := by
  obtain ⟨p, hp, -⟩ := TypeScript.exists_templatePath_eq source url
  have hcomponents := TypeScript.components_templatePath source url
  refine ⟨?_, fun cs hcs => ?_, ?_, fun source' url' => ?_, fun url' hurl' => ?_⟩
  · rw [hp]
    exact Path.isCanonical_normalize p
  · rw [hcomponents]
    exact Path.evaluates_iff hcs
  · rw [hp]
    exact Path.normalize_normalize p
  · rw [TypeScript.templatePath_eq_iff]
    constructor
    · intro heval
      exact ⟨_, Path.evaluates_evaluate _, heval ▸ Path.evaluates_evaluate _⟩
    · rintro ⟨cs, hcs, hcs'⟩
      rw [Path.evaluate_of_evaluates hcs, Path.evaluate_of_evaluates hcs']
  · have hsame : templatePath source url' = templatePath source url :=
      TypeScript.templatePath_eq_iff.2 (TypeScript.evaluate_respelled hurl' source)
    refine ⟨hsame, ?_⟩
    rintro path path' first second between ⟨_, _, _⟩ file changes seen hfirst hsecond htext h other made
    exact migrateTarget_of_taken hfirst (hsame ▸ hsecond) htext h other made

end

/-- A view beside a source, spelled in two ways. -/
theorem templatePath_canonical_view :
    Relation.ReflTransGen Respelled "../shared/x.html".toList "../shared/.//x.html".toList ∧
    templatePath ⟨"app/form/a.ts"⟩ "../shared/.//x.html" =
      templatePath ⟨"app/form/a.ts"⟩ "../shared/x.html" ∧
    templatePath ⟨"app/form/a.ts"⟩ "../shared/x.html" = ⟨"app/shared/x.html"⟩ := by
  have hrespelled : Relation.ReflTransGen Respelled "../shared/x.html".toList
      "../shared/.//x.html".toList :=
    .tail (.single (.between "../shared".toList "x.html".toList (by decide) .slash))
      (.between "../shared".toList "/x.html".toList (by decide) .here)
  exact ⟨hrespelled, ((templatePath_canonical _ _).2.2.2.2 _ hrespelled).1, by decide⟩

end RouterShift.Workspace
