import RouterShift.Proofs.Upgrade.Trail
import RouterShift.Proofs.Workspace.OnDisk
import RouterShift.Upgrade.Checkout

/-! The way through a clone, on each of its exits. `Passage` tells how the steps of a checkout before
    the removal may go, one rule for each way to end: a step fails, the copying fails, or nothing
    does. Until the copying begins, whatever the commands do, the checkout itself has changed
    nothing outside of the clone but what a migration has changed that succeeded. -/

namespace RouterShift.Upgrade
open Work

variable {ρ α : Type}

/-! ### Sessions on the way -/

/-- A session goes on by commands and, within a directory, by itself; these are the steps that end. -/
structure Reached (runner : Runner ρ) (names : List String) (s : Session ρ)
    (labels : List String) (t : Session ρ) : Prop where
  ends : Ends labels s t
  trail : Trail runner names s t

section
variable {runner : Runner ρ} {names ls ms : List String} {s t u : Session ρ}

theorem Reached.refl (s : Session ρ) : Reached runner names s [] s := ⟨.refl s, .refl s⟩

theorem Reached.trans (h : Reached runner names s ls t) (h' : Reached runner names t ms u) :
    Reached runner names s (ls ++ ms) u := ⟨h.ends.trans h'.ends, h.trail.trans h'.trail⟩

theorem reached_started (step : Step) (s : Session ρ) :
    Reached runner names s [] (noted (.started step.label) s) :=
  ⟨ends_noted _ s, (within_noted rfl s).trail⟩

theorem reached_finished (step : Step) (s : Session ρ) :
    Reached runner names s [step.label] (noted (.finished step.label) s) :=
  ⟨ends_noted _ s, (within_noted rfl s).trail⟩

theorem reached_command (line : String) (place : Path) (s : Session ρ) :
    Reached runner names s [] (start (command runner line place) s).2 := by
  rw [start_command]
  exact ⟨ends_command runner line place s, .command line place (.refl s)⟩

end

/-! ### The way -/

/-- The command that makes the clone. -/
def CheckoutSettings.cloneCommand (settings : CheckoutSettings) (clone : Path) : String :=
  s!"git clone \"{settings.repositoryUrl}\" \"{clone.text}\""

/-- Major versions one after the other. -/
def Consecutive (majors : List Nat) : Prop := ∃ first count, majors = List.range' first count

/-- The steps up to the search for the package, with those of the major versions updated to. -/
def approach (settings : CheckoutSettings) (majors : List Nat) : List String :=
  [Step.clone.label, Step.install.label] ++ majors.map settings.upgrade.updateLabel ++
    [Step.update.label, Step.locate.label]

/-- The steps of a checkout before the removal, with or without a migration. -/
def itinerary (settings : CheckoutSettings) (majors : List Nat) (migrates : Bool) : List String :=
  approach settings majors ++ (if migrates then [Step.migrate.label] else []) ++ [Step.copy.label]

section
variable (settings : CheckoutSettings) (runner : Runner ρ) (registry : Registry) (clone : Path)
  (names : List String)

/-- What a checkout fails of before the copying, step by step: from the session in which the step
    begins to the one in which it fails. -/
inductive Fault (r t : Session ρ) : Option Step → Obstacle → Prop
  | clone {f} : start (command runner (settings.cloneCommand clone) settings.workDirectory)
      (noted (.started Step.clone.label) r) = (.error f, t) → Fault r t (some .clone) (.command f)
  | install {f} : start (command runner "npm install" clone)
      (noted (.started Step.install.label) r) = (.error f, t) → Fault r t (some .install) (.command f)
  | update {e} : start (upgrade ⟨settings.upgrade, runner, registry⟩ clone)
      (noted (.started Step.update.label) r) = (.error e, t) → Fault r t (some .update) (.repair e)
  | locate {e} : Disk.packageDirectory r.tree clone settings.package = .error e →
    t = noted (.started Step.locate.label) r → Fault r t (some .locate) (.search e)
  /-- It cannot be told whether the clone uses the old router. -/
  | check {e} : settings.migratesRouter = true →
    Workspace.requireRouter (.disk r.tree clone) = .error e → e ≠ .missingRouter → t = r →
    Fault r t none (.workspace e)
  /-- There is no plan for the migration. -/
  | migrate {e} : Workspace.roots (.disk r.tree clone) >>= Workspace.plan (.disk r.tree clone) =
      .error e →
    t = noted (.started Step.migrate.label) r → Fault r t (some .migrate) (.workspace e)

/-- From the session in which the package is located to the one in which the copying begins: the
    clone is migrated if that is wanted and it uses the old router, and else nothing happens. -/
inductive Settled (located : Session ρ) : Option Report → Session ρ → Prop
  | left : settings.migratesRouter = false ∨
      Workspace.requireRouter (.disk located.tree clone) = .error .missingRouter →
    Settled located none located
  | migrated {roots report whole} : settings.migratesRouter = true →
    Workspace.requireRouter (.disk located.tree clone) = .ok () →
    Workspace.roots (.disk located.tree clone) = .ok roots →
    Workspace.migrate (.disk located.tree clone) roots false = .ok (.disk whole clone, report) →
    Settled located (some report) (noted (.finished Step.migrate.label)
      { noted (.started Step.migrate.label) located with tree := whole })

/-- Every step before the copying has succeeded: this is the session in which it begins. -/
structure Ready (s : Session ρ) (climbed : Climb) (migration : Option Report) (directory : Path)
    (r : Session ρ) : Prop where
  consecutive : Consecutive climbed.completed
  settled : ∃ located, Reached runner names s (approach settings climbed.completed) located ∧
    Disk.packageDirectory located.tree clone settings.package = .ok directory ∧
    Settled settings clone located migration r

/-- How the steps of a checkout may go before the removal. -/
inductive Passage (s t : Session ρ) : Except CheckoutError (Climb × Option Report) → Prop
  /-- A step before the copying fails, and it is the next one in the order. -/
  | stopped {e r before labels majors migrates} : Reached runner names s before r →
    Fault settings runner registry clone r t e.step e.obstacle → Reached runner names s labels t →
    Consecutive majors →
    labels ++ (e.step.map Step.label).toList <+: itinerary settings majors migrates →
    Passage s t (.error e)
  | obstructed {climbed migration directory r o} :
    Ready settings runner clone names s climbed migration directory r →
    start (copyOut directory settings.destination) (noted (.started Step.copy.label) r) =
      (.error o, t) →
    Passage s t (.error ⟨some .copy, o⟩)
  | copied {climbed migration directory r u} :
    Ready settings runner clone names s climbed migration directory r →
    start (copyOut directory settings.destination) (noted (.started Step.copy.label) r) =
      (.ok (), u) →
    t = noted (.finished Step.copy.label) u → Passage s t (.ok (climbed, migration))

end

/-! ### Step by step -/

theorem start_perform (step : Step) (work : Work ρ Obstacle α) (s : Session ρ) :
    start (perform step work) s =
      match start work (noted (.started step.label) s) with
      | (.ok a, t) => (.ok a, noted (.finished step.label) t)
      | (.error o, t) => (.error ⟨some step, o⟩, t) := by
  rw [perform, Work.step, start_bind_ok (start_note _ s), start_bind, start_causing]
  rcases start work (noted (.started step.label) s) with ⟨o | a, t⟩
  · rfl
  · rfl

section
variable {settings : CheckoutSettings} {runner : Runner ρ} {registry : Registry} {clone : Path}
  {names : List String} {s : Session ρ}

/-- A step before the copying, from a session on the way: it ends, or the passage does. -/
theorem runs_step {step : Step} {work : Work ρ Obstacle α} {r : Session ρ}
    {before during : List String} {majors : List Nat} {migrates : Bool}
    (hr : Reached runner names s before r)
    (hwork : Reached runner names (noted (.started step.label) r) during
      (start work (noted (.started step.label) r)).2)
    (hfault : ∀ o t, start work (noted (.started step.label) r) = (.error o, t) →
      Fault settings runner registry clone r t (some step) o)
    (hmajors : Consecutive majors)
    (hnext : before ++ during ++ [step.label] <+: itinerary settings majors migrates) :
    Runs (perform step work) r
      (fun a t => Reached runner names s (before ++ during ++ [step.label]) t ∧
        ∃ u, start work (noted (.started step.label) r) = (.ok a, u) ∧
          t = noted (.finished step.label) u)
      (fun e t => Passage settings runner registry clone names s t (.error e)) := by
  have hpast := (hr.trans (reached_started step r)).trans hwork
  rw [List.append_nil] at hpast
  rcases h : start work (noted (.started step.label) r) with ⟨o | a, t⟩
  · rw [h] at hpast
    have hstopped : Passage settings runner registry clone names s t (.error ⟨some step, o⟩) :=
      .stopped hr (hfault o t h) hpast hmajors hnext
    exact .of_error (by rw [start_perform, h]) hstopped
  · rw [h] at hpast
    exact .of_ok (by rw [start_perform, h]) ⟨hpast.trans (reached_finished step t), t, rfl, rfl⟩

/-- A step that is a command. -/
theorem runs_command {step : Step} {line : String} {place : Path} {r : Session ρ}
    {before : List String} (hr : Reached runner names s before r)
    (hfault : ∀ f t, start (command runner line place) (noted (.started step.label) r) =
      (.error f, t) → Fault settings runner registry clone r t (some step) (.command f))
    (hnext : before ++ [step.label] <+: [Step.clone.label, Step.install.label]) :
    Runs (perform step (causing .command (command runner line place))) r
      (fun _ t => Reached runner names s (before ++ [step.label]) t)
      (fun e t => Passage settings runner registry clone names s t (.error e)) := by
  have hitinerary : before ++ [] ++ [step.label] <+: itinerary settings [] false := by
    rw [List.append_nil]
    exact hnext.trans ⟨_, rfl⟩
  refine (runs_step hr (reached_command line place _) (fun o t h => ?_) ⟨0, 0, rfl⟩
    hitinerary).mono fun a t h => ?_
  · obtain ⟨f, hf, rfl⟩ := start_of_causing_error h
    exact hfault f t hf
  · rw [List.append_nil] at h
    exact h.1

theorem runs_upgrade (hclone : clone.LeadsBy names) {r : Session ρ}
    (hr : Reached runner names s [Step.clone.label, Step.install.label] r) :
    Runs (perform .update (causing .repair (upgrade ⟨settings.upgrade, runner, registry⟩ clone))) r
      (fun climbed t => Consecutive climbed.completed ∧
        Reached runner names s ([Step.clone.label, Step.install.label] ++
          climbed.completed.map settings.upgrade.updateLabel ++ [Step.update.label]) t)
      (fun e t => Passage settings runner registry clone names s t (.error e)) := by
  obtain ⟨first, count, hends, hcompleted⟩ := upgrade_ends
    ⟨settings.upgrade, runner, registry⟩ clone (noted (.started Step.update.label) r)
  have hupdate : Reached runner names _ _ _ :=
    ⟨hends, keeps_upgrade_trail ⟨settings.upgrade, runner, registry⟩ hclone _⟩
  have hnext : [Step.clone.label, Step.install.label] ++
      (List.range' first count).map settings.upgrade.updateLabel ++ [Step.update.label] <+:
      itinerary settings (List.range' first count) false := by
    simp [itinerary, approach]
  refine (runs_step hr hupdate (fun o t h => ?_) ⟨first, count, rfl⟩ hnext).mono
    fun climbed t h => ?_
  · obtain ⟨e, he, rfl⟩ := start_of_causing_error h
    exact .update he
  · obtain ⟨ht, u, hclimbed, -⟩ := h
    have hdone : climbed.completed = List.range' first count :=
      hcompleted climbed (congrArg Prod.fst (start_of_causing_ok hclimbed))
    rw [hdone]
    exact ⟨⟨first, count, rfl⟩, ht⟩

/-- The search for the package, which looks at the clone and changes nothing. -/
theorem start_locate (clone : Path) (package : String) (s : Session ρ) :
    start (do causing .search (MonadExcept.ofExcept
      (Disk.packageDirectory (← get).tree clone package)) : Work ρ Obstacle Path) s =
      ((Disk.packageDirectory s.tree clone package).mapError .search, s) := by
  rw [start_bind_ok (start_get s), start_causing, start_ofExcept]

theorem runs_locate {majors : List Nat} (hmajors : Consecutive majors) {r : Session ρ}
    (hr : Reached runner names s ([Step.clone.label, Step.install.label] ++
      majors.map settings.upgrade.updateLabel ++ [Step.update.label]) r) :
    Runs (perform .locate (do causing .search (MonadExcept.ofExcept
        (Disk.packageDirectory (← get).tree clone settings.package)))) r
      (fun directory t => Reached runner names s (approach settings majors) t ∧
        Disk.packageDirectory t.tree clone settings.package = .ok directory)
      (fun e t => Passage settings runner registry clone names s t (.error e)) := by
  have hnext : [Step.clone.label, Step.install.label] ++
      majors.map settings.upgrade.updateLabel ++ [Step.update.label] ++ [] ++
      [Step.locate.label] <+: itinerary settings majors false := by
    simp [itinerary, approach]
  refine (runs_step hr ?_ (fun o t h => ?_) hmajors hnext).mono fun directory t h => ?_
  · rw [start_locate]
    exact .refl _
  · rw [start_locate] at h
    rcases hfound : Disk.packageDirectory r.tree clone settings.package with e | directory
    · rw [tree_noted, hfound] at h
      cases h
      exact .locate hfound rfl
    · rw [tree_noted, hfound] at h
      cases h
  · obtain ⟨ht, u, hfound, rfl⟩ := h
    rw [start_locate] at hfound
    obtain ⟨hdirectory, rfl⟩ := Prod.mk.inj hfound
    exact ⟨by simpa [approach] using ht, mapError_eq_ok.1 hdirectory⟩

theorem start_usesRouter (clone : Path) (s : Session ρ) :
    start (usesRouter clone) s =
      (match Workspace.requireRouter (.disk s.tree clone) with
        | .ok () => .ok true
        | .error .missingRouter => .ok false
        | .error e => .error (.workspace e), s) := by
  rw [usesRouter, start_bind_ok (start_get s)]
  cases Workspace.requireRouter (.disk s.tree clone) with
  | ok u => rfl
  | error e => cases e <;> rfl

/-- Whether the clone uses the old router, if that can be told. -/
theorem runs_usesRouter (hwanted : settings.migratesRouter = true) {majors : List Nat}
    (hmajors : Consecutive majors) {r : Session ρ}
    (hr : Reached runner names s (approach settings majors) r) :
    Runs (causing (fun o => ⟨none, o⟩) (usesRouter clone)) r
      (fun uses t => t = r ∧ Workspace.requireRouter (.disk r.tree clone) =
        if uses then .ok () else .error .missingRouter)
      (fun e t => Passage settings runner registry clone names s t (.error e)) := by
  rw [Runs, start_causing, start_usesRouter]
  cases h : Workspace.requireRouter (.disk r.tree clone) with
  | ok u => exact ⟨rfl, rfl⟩
  | error e =>
    have hnext : approach settings majors ++ [] <+: itinerary settings majors false := by
      simp [itinerary]
    have hstopped (he : e ≠ .missingRouter) : Passage settings runner registry clone names s r
        (.error ⟨none, .workspace e⟩) := .stopped hr (.check hwanted h he rfl) hr hmajors hnext
    cases e with
    | missingRouter => exact ⟨rfl, rfl⟩
    | _ => exact hstopped (by simp)

theorem start_migrateClone (clone : Path) (s : Session ρ) :
    start (migrateClone clone) s =
      match Workspace.roots (.disk s.tree clone) >>=
        (Workspace.migrate (.disk s.tree clone) · false) with
      | .ok (.disk tree _, report) => (.ok report, { s with tree := tree })
      | .ok (.memory .., report) => (.ok report, s)
      | .error e => (.error (.workspace e), s) := by
  rw [migrateClone, start_causing, start_bind_ok (start_get s), start_bind, start_ofExcept]
  rcases Workspace.roots (.disk s.tree clone) >>= (Workspace.migrate (.disk s.tree clone) · false)
    with e | ⟨⟨⟩ | ⟨⟩, report⟩
  · rfl
  · rfl
  · rfl

/-- The migration, when it is wanted and the clone uses the old router. -/
theorem runs_migrateClone (hclone : clone.LeadsBy names) (hwanted : settings.migratesRouter = true)
    {majors : List Nat} (hmajors : Consecutive majors) {r : Session ρ}
    (hr : Reached runner names s (approach settings majors) r)
    (huses : Workspace.requireRouter (.disk r.tree clone) = .ok ()) :
    Runs (perform .migrate (migrateClone clone)) r
      (fun report t => Settled settings clone r (some report) t)
      (fun e t => Passage settings runner registry clone names s t (.error e)) := by
  have hstopped (e : Workspace.Failure)
      (h : Workspace.roots (.disk r.tree clone) >>= Workspace.plan (.disk r.tree clone) =
        .error e) : Passage settings runner registry clone names s
      (noted (.started Step.migrate.label) r) (.error ⟨some .migrate, .workspace e⟩) := by
    have hnext : approach settings majors ++ [] ++ [Step.migrate.label] <+:
        itinerary settings majors true := by
      simp [itinerary]
    exact .stopped hr (.migrate h rfl) (hr.trans (reached_started .migrate r)) hmajors hnext
  -- what a migration writes may lie outside of the clone, but one that fails has written nothing
  rw [Runs, start_perform, start_migrateClone, tree_noted]
  cases hroots : Workspace.roots (.disk r.tree clone) with
  | error e => exact hstopped e (by rw [hroots]; rfl)
  | ok roots =>
    cases hmigrate : Workspace.migrate (.disk r.tree clone) roots false with
    | error e =>
      obtain ⟨cs, hcs, -⟩ := hclone.components_eq
      have hplan := Workspace.plan_of_migrate_disk hcs hmigrate
      simp only [bind, Except.bind, hmigrate]
      exact hstopped e (by rw [hroots]; exact hplan)
    | ok done =>
      obtain ⟨after, report⟩ := done
      obtain ⟨whole, rfl⟩ := Workspace.exists_disk_of_migrate hmigrate
      simp only [bind, Except.bind, hmigrate]
      exact .migrated hwanted huses hroots hmigrate

/-- The last step before the removal. -/
theorem runs_copyOut {climbed : Climb} {migration : Option Report} {directory : Path}
    {r : Session ρ} (hr : Ready settings runner clone names s climbed migration directory r) :
    Runs (perform .copy (copyOut directory settings.destination)) r
      (fun _ t => Passage settings runner registry clone names s t (.ok (climbed, migration)))
      (fun e t => Passage settings runner registry clone names s t (.error e)) := by
  rcases h : start (copyOut directory settings.destination) (noted (.started Step.copy.label) r)
    with ⟨o | u, t⟩
  · exact .of_error (by rw [start_perform, h]) (.obstructed hr h)
  · exact .of_ok (by rw [start_perform, h]) (.copied hr h rfl)

/-- The steps before the removal, whatever the commands and the registry do. -/
theorem runs_updateClone (settings : CheckoutSettings) (runner : Runner ρ) (registry : Registry)
    (hclone : clone.LeadsBy names) (s : Session ρ) :
    Runs (updateClone settings runner registry clone) s
      (fun a t => Passage settings runner registry clone names s t (.ok a))
      (fun e t => Passage settings runner registry clone names s t (.error e)) := by
  rw [updateClone]
  dsimp only
  refine Runs.bind (runs_command (.refl s) (fun f t h => .clone h) ⟨_, rfl⟩) fun _ r₁ h₁ => ?_
  refine Runs.bind (runs_command h₁ (fun f t h => .install h) ⟨_, rfl⟩) fun _ r₂ h₂ => ?_
  refine Runs.bind (runs_upgrade hclone h₂) fun climbed r₃ ⟨hmajors, h₃⟩ => ?_
  refine Runs.bind (runs_locate hmajors h₃) fun directory r₄ ⟨h₄, hdirectory⟩ => ?_
  have hsettled {migration : Option Report} {r : Session ρ}
      (h : Settled settings clone r₄ migration r) :
      Runs (do perform .copy (copyOut directory settings.destination); return (climbed, migration)) r
        (fun a t => Passage settings runner registry clone names s t (.ok a))
        (fun e t => Passage settings runner registry clone names s t (.error e)) :=
    Runs.bind (runs_copyOut ⟨hmajors, r₄, h₄, hdirectory, h⟩) fun _ t ht => .of_ok rfl ht
  split
  · next hwanted =>
    refine Runs.bind (runs_usesRouter hwanted hmajors h₄) fun uses r ⟨hr, huses⟩ => ?_
    subst hr
    cases uses with
    | false => exact hsettled (.left (.inr huses))
    | true =>
      rw [if_pos rfl, bind_map_left]
      exact Runs.bind (runs_migrateClone hclone hwanted hmajors h₄ huses) fun _ _ h => hsettled h
  · next hwanted => exact hsettled (.left (.inl (by simpa using hwanted)))

/-! ### The steps that end -/

theorem Settled.ends {located r : Session ρ} {migration : Option Report}
    (h : Settled settings clone located migration r) :
    Ends (if migration.isSome then [Step.migrate.label] else []) located r := by
  cases h with
  | left => exact .refl located
  | migrated =>
    exact ⟨[.started Step.migrate.label, .finished Step.migrate.label], by simp, rfl⟩

theorem Ready.ends {climbed : Climb} {migration : Option Report} {directory : Path}
    {r : Session ρ} (h : Ready settings runner clone names s climbed migration directory r) :
    Ends (approach settings climbed.completed ++
      if migration.isSome then [Step.migrate.label] else []) s r := by
  obtain ⟨located, hreached, -, hsettled⟩ := h.settled
  exact hreached.ends.trans hsettled.ends

/-- No step ends in the copying. -/
theorem ends_copyOut {source target : Path} {r u : Session ρ} {copied : Except Obstacle Unit}
    (h : start (copyOut source target) (noted (.started Step.copy.label) r) = (copied, u)) :
    Ends [] r u := by
  rw [copyOut, start_bind_ok (start_get _)] at h
  dsimp only at h
  rw [start_bind_ok (start_set ..), start_causing, start_ofExcept] at h
  cases h
  exact ends_noted (.started Step.copy.label) r

/-- The steps that end are the first ones in the order; all of them, if nothing fails. -/
theorem Passage.ends {t : Session ρ} {outcome : Except CheckoutError (Climb × Option Report)}
    (h : Passage settings runner registry clone names s t outcome) :
    ∃ labels majors migrates, Ends labels s t ∧ Consecutive majors ∧
      labels <+: itinerary settings majors migrates ∧
      ∀ climbed migration, outcome = .ok (climbed, migration) →
        labels = itinerary settings climbed.completed migration.isSome := by
  cases h with
  | stopped _ _ hreached hmajors hnext =>
    exact ⟨_, _, _, hreached.ends, hmajors, (List.prefix_append _ _).trans hnext, by simp⟩
  | @obstructed climbed migration directory r o hready hcopy =>
    have hcopying := hready.ends.trans (ends_copyOut hcopy)
    rw [List.append_nil] at hcopying
    exact ⟨_, _, migration.isSome, hcopying, hready.consecutive, List.prefix_append _ _, by simp⟩
  | @copied climbed migration directory r u hready hcopy ht =>
    have hcopying := (hready.ends.trans (ends_copyOut hcopy)).trans
      (ends_noted (.finished Step.copy.label) u)
    rw [List.append_nil, ← ht] at hcopying
    refine ⟨_, _, migration.isSome, hcopying, hready.consecutive, List.prefix_rfl, ?_⟩
    intro c m hok
    obtain ⟨rfl, rfl⟩ := Prod.mk.inj (Except.ok.inj hok)
    rfl

/-- Unless all steps before the copying have succeeded, nothing has changed outside of the clone but
    by commands. -/
theorem Passage.own {t : Session ρ} {outcome : Except CheckoutError (Climb × Option Report)}
    (h : Passage settings runner registry clone names s t outcome) :
    Trail runner names s t ∨ ∃ climbed migration directory r,
      Ready settings runner clone names s climbed migration directory r ∧ r.trace <+: t.trace := by
  cases h with
  | stopped _ _ hreached => exact .inl hreached.trail
  | @obstructed climbed migration directory r o hready hcopy =>
    obtain ⟨events, htrace, -⟩ := ends_copyOut hcopy
    exact .inr ⟨climbed, migration, directory, r, hready, events, htrace.symm⟩
  | @copied climbed migration directory r u hready hcopy ht =>
    obtain ⟨events, htrace, -⟩ := (ends_copyOut hcopy).trans (ends_noted (.finished _) u)
    exact .inr ⟨climbed, migration, directory, r, hready, events, by rw [ht, htrace]⟩

end
end RouterShift.Upgrade
