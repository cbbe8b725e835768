import RouterShift.Proofs.Upgrade.Passage

/-! Whole checkouts. To the way through the clone there come the removal of it and the result: the
    clone is removed on every exit, and an error of the removal never takes the place of another
    (`checkout_conduct`). -/

namespace RouterShift.Upgrade
open Work

variable {ρ α : Type}

section
variable {clone : Path} {names : List String}

/-! ### The removal of the clone -/

/-- The session in which the steps of a checkout begin, its clone directory made. -/
def begun (clone : Path) (s : Session ρ) : Session ρ :=
  let said := noted (.said .warning "Starting the Angular package update process...") s
  { said with tree := (said.tree.makePath? [] clone).getD said.tree }

/-- What is said of the steps of a checkout. -/
def verdict : Except CheckoutError α → Event
  | .ok _ => .said .success "Angular package update process completed successfully."
  | .error e => .said .failure s!"An error occurred: {e.message}"

/-- The result of a checkout. Only where no step has failed does it matter that the clone could not
    be removed. -/
def conclusion (settings : CheckoutSettings) :
    Except CheckoutError (Climb × Option Report) → Except CheckoutError Unit →
      Except CheckoutError Checkout
  | .error e, _ => .error e
  | .ok _, .error e => .error e
  | .ok (climbed, migration), .ok () =>
    .ok ⟨settings.package, settings.destination, climbed, migration⟩

theorem start_checkout (settings : CheckoutSettings) (runner : Runner ρ) (registry : Registry)
    (clone : Path) (s : Session ρ) :
    start (checkout settings runner registry clone) s =
      let steps := start (updateClone settings runner registry clone) (begun clone s)
      let cleaning := start (perform .cleanUp (removeClone clone)) (noted (verdict steps.1) steps.2)
      (conclusion settings steps.1 cleaning.1, cleaning.2) := by
  have hbegun : start (modify fun s => { s with tree := (s.tree.makePath? [] clone).getD s.tree } :
      Work ρ CheckoutError PUnit) (noted (.said .warning
        "Starting the Angular package update process...") s) = (.ok ⟨⟩, begun clone s) := rfl
  rw [checkout, start_bind_ok (start_say ..), start_bind_ok hbegun, start_bind_ok (start_result ..)]
  rcases start (updateClone settings runner registry clone) (begun clone s)
    with ⟨e | ⟨climbed, migration⟩, t⟩
  · dsimp only
    rw [start_bind_ok (start_say ..), start_bind_ok (start_result ..)]
    rfl
  · dsimp only
    rw [start_bind_ok (start_say ..), start_bind_ok (start_result ..),
      start_bind_ok (start_ofExcept ..)]
    dsimp only [verdict]
    rcases start (perform .cleanUp (removeClone clone)) _ with ⟨e | u, v⟩
    · rfl
    · rfl

/-- The clone is removed if it is a directory. -/
theorem start_removeClone (hclone : clone.LeadsBy names) (s : Session ρ) :
    start (removeClone clone) s =
      match s.tree.locate? [] clone with
      | some (.directory _) => (.ok (), { s with tree := s.tree.remove names })
      | _ => (.error (.removal clone), s) := by
  rw [removeClone, start_bind_ok (start_get s)]
  cases hnames : s.tree.names? [] clone with
  | none =>
    rw [Entry.locate?, hnames]
    rfl
  | some ns =>
    obtain rfl := hclone.eq_of_names? hnames
    rcases s.tree.locate? [] clone with _ | ⟨c⟩ | ⟨es⟩
    · rfl
    · rfl
    · rfl

/-- The last step ends if the clone is a directory. -/
theorem start_cleanUp (hclone : clone.LeadsBy names) (s : Session ρ) :
    start (perform .cleanUp (removeClone clone)) s =
      let removing := noted (.started Step.cleanUp.label) s
      match s.tree.locate? [] clone with
      | some (.directory _) => (.ok (), noted (.finished Step.cleanUp.label)
          { removing with tree := s.tree.remove names })
      | _ => (.error ⟨some .cleanUp, .removal clone⟩, removing) := by
  rw [start_perform, start_removeClone hclone, tree_noted]
  rcases s.tree.locate? [] clone with _ | ⟨c⟩ | ⟨es⟩
  · rfl
  · rfl
  · rfl

end

/-! ### Whole checkouts -/

section
variable (settings : CheckoutSettings) (runner : Runner ρ) (registry : Registry) (clone : Path)
  (names : List String) (s : Session ρ)

/-- How a checkout goes whose steps before the removal have an outcome in a session `t`. -/
structure Conduct (outcome : Except CheckoutError (Climb × Option Report)) (t : Session ρ)
    (removed : Bool) (result : Except CheckoutError Checkout) (final : Session ρ) : Prop where
  passage : Passage settings runner registry clone names (begun clone s) t outcome
  /-- The steps that end are the first ones in the order, and the removal. -/
  steps : ∃ labels majors migrates,
    Ends (labels ++ if removed then [Step.cleanUp.label] else []) (begun clone s) final ∧
      Consecutive majors ∧ labels <+: itinerary settings majors migrates ∧
      ∀ climbed migration, outcome = .ok (climbed, migration) →
        labels = itinerary settings climbed.completed migration.isSome
  /-- Unless all steps before the copying have succeeded, the checkout has by itself changed nothing
      outside of the clone: nothing at the target, then, or nothing there that outlasts the clone. -/
  own : Trail runner names (begun clone s) final ∨ ∃ climbed migration directory r,
    Ready settings runner clone names (begun clone s) climbed migration directory r ∧
      r.trace <+: final.trace
  /-- The removal comes last. -/
  last : final.trace = t.trace ++ [verdict outcome, .started Step.cleanUp.label] ++
    if removed then [.finished Step.cleanUp.label] else []
  /-- The clone directory is removed with all that is in it, unless the commands have left none. -/
  removed_iff : removed = true ↔ clone.HasDirectory t.tree
  tree : ∀ ns, final.tree.glance? ns =
    if removed = true ∧ names <+: ns then none else t.tree.glance? ns
  gone : ¬ clone.HasDirectory final.tree
  /-- The error is that of the step that failed first. -/
  result_eq : result = conclusion settings outcome
    (if removed then .ok () else .error ⟨some .cleanUp, .removal clone⟩)

end

/-- What is left to know is what the removal does. -/
theorem Passage.conduct {settings : CheckoutSettings} {runner : Runner ρ} {registry : Registry}
    {clone : Path} {names : List String} {s : Session ρ} (hclone : clone.LeadsBy names)
    (hne : names ≠ []) {t final : Session ρ}
    {outcome : Except CheckoutError (Climb × Option Report)} {removed : Bool}
    (h : Passage settings runner registry clone names (begun clone s) t outcome)
    (hremoved : removed = true ↔ clone.HasDirectory t.tree) (hrunner : final.runner = t.runner)
    (htree : final.tree = if removed then t.tree.remove names else t.tree)
    (hlast : final.trace = t.trace ++ [verdict outcome, .started Step.cleanUp.label] ++
      if removed then [.finished Step.cleanUp.label] else []) :
    Conduct settings runner registry clone names s outcome t removed
      (conclusion settings outcome
        (if removed then .ok () else .error ⟨some .cleanUp, .removal clone⟩)) final := by
  have hglance (ns : List String) : final.tree.glance? ns =
      if removed = true ∧ names <+: ns then none else t.tree.glance? ns := by
    rw [htree]
    cases removed with
    | false => simp
    | true => simp [Entry.glance?_remove hne]
  have hevents : final.trace = t.trace ++ ([verdict outcome, .started Step.cleanUp.label] ++
      if removed then [.finished Step.cleanUp.label] else []) := by
    rw [hlast, List.append_assoc]
  have hgone : ¬ clone.HasDirectory final.tree := by
    intro hdirectory
    have hplace := hclone.glance?_of_hasDirectory hdirectory
    cases removed with
    | false =>
      rw [htree] at hdirectory
      cases hremoved.2 hdirectory
    | true =>
      rw [hglance, if_pos ⟨rfl, List.prefix_rfl⟩] at hplace
      cases hplace
  refine {
    passage := h
    steps := ?_
    own := ?_
    last := hlast
    removed_iff := hremoved
    tree := hglance
    gone := hgone
    result_eq := rfl }
  · obtain ⟨labels, majors, migrates, hends, hmajors, hprefix, hall⟩ := h.ends
    refine ⟨labels, majors, migrates, hends.trans ⟨_, hevents, ?_⟩, hmajors, hprefix, hall⟩
    cases outcome <;> cases removed <;> rfl
  · rcases h.own with htrail | ⟨climbed, migration, directory, r, hready, htrace⟩
    · refine .inl (htrail.own ⟨hrunner, ⟨_, hevents, ?_⟩, fun ns hns => ?_⟩)
      · cases outcome <;> cases removed <;> simp [verdict, Event.isCommand]
      · rw [hglance, if_neg fun hin => hns hin.2]
    · refine .inr ⟨climbed, migration, directory, r, hready, htrace.trans ?_⟩
      rw [hevents]
      exact List.prefix_append _ _

/-- Whatever the commands and the registry do, a checkout goes through its steps in order up to the
    first one that fails, keeps to its clone until it copies the package out, removes the clone in
    the end, and fails of nothing else than that first step. -/
theorem checkout_conduct (settings : CheckoutSettings) (runner : Runner ρ) (registry : Registry)
    {clone : Path} {names : List String} (hclone : clone.LeadsBy names) (hne : names ≠ [])
    (s : Session ρ) :
    ∃ outcome t removed, Conduct settings runner registry clone names s outcome t removed
      (start (checkout settings runner registry clone) s).1
      (start (checkout settings runner registry clone) s).2 := by
  have hruns := runs_updateClone settings runner registry hclone (begun clone s)
  rw [start_checkout]
  rcases hsteps : start (updateClone settings runner registry clone) (begun clone s)
    with ⟨outcome, t⟩
  have hpassage : Passage settings runner registry clone names (begun clone s) t outcome := by
    rw [Runs, hsteps] at hruns
    cases outcome with
    | error e => exact hruns
    | ok a => exact hruns
  dsimp only
  rw [start_cleanUp hclone, tree_noted]
  have hkept (h : ¬ clone.HasDirectory t.tree) : false = true ↔ clone.HasDirectory t.tree := by
    simp [h]
  rcases hlocate : t.tree.locate? [] clone with _ | ⟨c⟩ | ⟨es⟩
  · refine ⟨outcome, t, false, hpassage.conduct hclone hne (hkept ?_) rfl rfl (by simp)⟩
    simp [Path.HasDirectory, hlocate]
  · refine ⟨outcome, t, false, hpassage.conduct hclone hne (hkept ?_) rfl rfl (by simp)⟩
    simp [Path.HasDirectory, hlocate]
  · have hdirectory : clone.HasDirectory t.tree := ⟨es, hlocate⟩
    exact ⟨outcome, t, true, hpassage.conduct hclone hne (by simp [hdirectory]) rfl rfl (by simp)⟩

theorem checkout_conduct_peer :
    (⟨"/tmp/clone"⟩ : Path).LeadsBy ["tmp", "clone"] ∧ ["tmp", "clone"] ≠ [] ∧
      ∃ outcome t removed, Conduct { repositoryUrl := "ngx-pipes.git" } peerRunner
        peerMeans.registry ⟨"/tmp/clone"⟩ ["tmp", "clone"] peerSession outcome t removed
        (start (checkout { repositoryUrl := "ngx-pipes.git" } peerRunner peerMeans.registry
          ⟨"/tmp/clone"⟩) peerSession).1
        (start (checkout { repositoryUrl := "ngx-pipes.git" } peerRunner peerMeans.registry
          ⟨"/tmp/clone"⟩) peerSession).2 := by
  have hclone : (⟨"/tmp/clone"⟩ : Path).LeadsBy ["tmp", "clone"] := ⟨by decide, by decide⟩
  exact ⟨hclone, by decide, checkout_conduct _ _ _ hclone (by decide) _⟩

/-- The first command fails; it is all that the checkout fails of. -/
example : (start (checkout { repositoryUrl := "ngx-pipes.git" } peerRunner peerMeans.registry
    ⟨"/tmp/clone"⟩) peerSession).1 = .error ⟨some .clone, .command
      { command := "git clone \"ngx-pipes.git\" \"/tmp/clone\""
        stderr := "it requires a peer of zone.js \"~0.12.0\"" }⟩ := by
  decide +kernel

end RouterShift.Upgrade
