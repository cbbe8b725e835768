import RouterShift.Proofs.Disk.Glance
import RouterShift.Proofs.Upgrade.Frame

/-! Who changes what in the course of an upgrade, and which steps end in it. A session goes on by
    commands, which may do anything to the tree, and by steps of its own, which may be held to one
    directory (`Within`). A trail tells the two apart: what a session did by itself is what lies
    between the commands of it. All that an upgrade does by itself stays in the directory of its
    project (`keeps_upgrade_trail`). A repair ends no step of its own, and a climb ends one with
    every major version that it reaches; so an upgrade, however it ends, has ended the steps of
    consecutive versions, and one that succeeds those that it tells of (`upgrade_ends`). -/

namespace RouterShift.Upgrade
open Work

variable {ρ ε δ α : Type}

/-- The event is a command that ran. -/
def Event.isCommand : Event → Bool
  | .ran .. => true
  | _ => false

/-- The session goes on by itself: no command runs, and outside of a directory no file or directory
    is made, changed or removed. -/
structure Within (directory : List String) (s t : Session ρ) : Prop where
  runner : t.runner = s.runner
  trace : ∃ events, t.trace = s.trace ++ events ∧ ∀ e ∈ events, e.isCommand = false
  tree : ∀ names, ¬ directory <+: names → t.tree.glance? names = s.tree.glance? names

/-- The session goes on by commands and by itself, then within a directory. -/
inductive Trail (runner : Runner ρ) (directory : List String) : Session ρ → Session ρ → Prop
  | refl (s : Session ρ) : Trail runner directory s s
  | command {s t : Session ρ} (line : String) (place : Path) : Trail runner directory s t →
    Trail runner directory s (afterCommand runner line place t)
  | own {s t u : Session ρ} : Trail runner directory s t → Within directory t u →
    Trail runner directory s u

section
variable {runner : Runner ρ} {directory : List String} {s t u : Session ρ}

theorem Trail.trans (h : Trail runner directory s t) (h' : Trail runner directory t u) :
    Trail runner directory s u := by
  induction h' with
  | refl => exact h
  | command line place _ ih => exact ih.command line place
  | own _ hwithin ih => exact ih.own hwithin

instance : IsPreorder (Session ρ) (Trail runner directory) where
  refl := .refl
  trans _ _ _ := Trail.trans

theorem Within.trail (h : Within directory s t) : Trail runner directory s t := .own (.refl s) h

theorem within_noted {e : Event} (he : e.isCommand = false) (s : Session ρ) :
    Within directory s (noted e s) := ⟨rfl, ⟨[e], rfl, by simpa using he⟩, fun _ _ => rfl⟩

theorem within_tree {tree : Entry}
    (h : ∀ names, ¬ directory <+: names → tree.glance? names = s.tree.glance? names) :
    Within directory s { s with tree := tree } :=
  ⟨rfl, ⟨[], (List.append_nil _).symm, by simp⟩, h⟩

end

/-! ### What an upgrade keeps -/

section
variable {R : Session ρ → Session ρ → Prop} [IsPreorder (Session ρ) R] {means : Means ρ}
  {project : Path} (hnote : ∀ s (e : Event), e.isCommand = false → R s (noted e s))
  (hcommand : ∀ s line, R s (afterCommand means.runner line project s))

include hnote hcommand in
/-- A climb keeps what its events, its commands and its repairs keep. -/
theorem keeps_climb (hrepair : ∀ diagnosis, Keeps R (repair means project diagnosis))
    (latest next failed : Nat) : Keeps R (climb means project latest next failed) := by
  induction next, failed using climb.induct means latest with
  | case1 next failed h =>
    rw [climb, dif_pos h]
    exact Keeps.pure _
  | case2 next failed h ihNext ihAgain =>
    rw [climb, dif_neg h]
    refine (Keeps.note fun s => hnote s _ rfl).bind fun _ => ?_
    refine (Keeps.attempt fun s => hcommand s _).bind fun outcome => ?_
    cases outcome with
    | ok output =>
      refine (Keeps.note fun s => hnote s _ rfl).bind fun _ => ?_
      exact ihNext.bind fun _ => Keeps.pure _
    | error failure =>
      dsimp only
      cases Diagnosis.ofText? failure.diagnostic with
      | none => exact Keeps.throw _
      | some diagnosis =>
        dsimp only
        split
        · exact Keeps.throw _
        · next hmax => exact (hrepair diagnosis).bind fun _ => ihAgain hmax

include hnote hcommand in
/-- An upgrade notes events, runs commands and writes the manifest of its project. -/
theorem keeps_upgrade
    (hwrite : ∀ s content tree, s.tree.writeAt? [] (manifestOf project) content = some tree →
      R s { s with tree := tree }) : Keeps R (upgrade means project) := by
  have hrepair (diagnosis : Diagnosis) : Keeps R (repair means project diagnosis) :=
    keeps_repair (fun s _ _ => hnote s _ rfl) (fun s line _ => hcommand s line) diagnosis
      fun updates _ => keeps_patchManifest (fun s _ _ => hnote s _ rfl) hwrite updates
  have hclimb : Keeps R (climbToLatest means project) := by
    refine (Keeps.of_eq (keeps_currentMajor _)).bind fun current => ?_
    refine (Keeps.of_eq keeps_latestMajor).bind fun latest => ?_
    exact (keeps_climb hnote hcommand hrepair _ _ _).bind fun _ => Keeps.pure _
  refine hclimb.result.bind fun outcome => ?_
  cases outcome with
  | ok done => exact (Keeps.note fun s => hnote s _ rfl).bind fun _ => Keeps.pure _
  | error e => exact (Keeps.note fun s => hnote s _ rfl).bind fun _ => Keeps.throw _

end

/-- The manifest of a project is one of its files. -/
theorem leadsBy_manifestOf {project : Path} {names : List String} (h : project.LeadsBy names) :
    (manifestOf project).LeadsBy (names ++ ["package.json"]) :=
  h.join (by decide) (by decide)

theorem within_writeAt? {s : Session ρ} {p : Path} {names : List String} {name : String}
    {content : Content} {tree : Entry} (hp : p.LeadsBy (names ++ [name]))
    (h : s.tree.writeAt? [] p content = some tree) : Within names s { s with tree := tree } := by
  rw [Entry.writeAt?] at h
  split at h
  · cases h
  obtain ⟨place, hplace, hwrite⟩ := Option.bind_eq_some_iff.1 h
  obtain rfl := hp.eq_of_names? hplace
  refine within_tree fun ns hns => ?_
  rw [Entry.glance?_write? hwrite, if_neg]
  rintro rfl
  exact hns (List.prefix_append _ _)

/-- What an upgrade does by itself stays within its project. -/
theorem keeps_upgrade_trail (means : Means ρ) {project : Path} {names : List String}
    (hproject : project.LeadsBy names) : Keeps (Trail means.runner names) (upgrade means project) :=
  keeps_upgrade (fun s _ he => (within_noted he s).trail)
    (fun s line => .command line project (.refl s))
    fun _ _ _ hwrite => (within_writeAt? (leadsBy_manifestOf hproject) hwrite).trail

/-! ### Steps that end -/

/-- The name of the step that ended, if the event is the end of one. -/
def Event.ended? : Event → Option String
  | .finished label => some label
  | _ => none

/-- The steps that ended, in order. -/
def ended (events : List Event) : List String := events.filterMap Event.ended?

@[simp] theorem ended_nil : ended [] = [] := rfl

@[simp] theorem ended_append (es fs : List Event) : ended (es ++ fs) = ended es ++ ended fs :=
  List.filterMap_append

/-- The trace goes on, and these are the steps that end. -/
def Ends (labels : List String) (s t : Session ρ) : Prop :=
  ∃ events, t.trace = s.trace ++ events ∧ ended events = labels

section
variable {s t u : Session ρ} {ls ms : List String}

theorem Ends.refl (s : Session ρ) : Ends [] s s := ⟨[], (List.append_nil _).symm, rfl⟩

theorem Ends.trans (h : Ends ls s t) (h' : Ends ms t u) : Ends (ls ++ ms) s u := by
  obtain ⟨es, hs, rfl⟩ := h
  obtain ⟨fs, ht, rfl⟩ := h'
  exact ⟨es ++ fs, by rw [ht, hs, List.append_assoc], ended_append es fs⟩

instance : IsPreorder (Session ρ) (Ends []) where
  refl := .refl
  trans _ _ _ := Ends.trans

theorem ends_noted (e : Event) (s : Session ρ) : Ends e.ended?.toList s (noted e s) :=
  ⟨[e], rfl, by cases h : e.ended? <;> simp [ended, h]⟩

theorem ends_command (runner : Runner ρ) (line : String) (directory : Path) (s : Session ρ) :
    Ends [] s (afterCommand runner line directory s) := ⟨_, rfl, rfl⟩

end

/-! ### Climbs -/

section
variable {means : Means ρ} {project : Path}

/-- No step ends in a repair. -/
theorem ends_repair (diagnosis : Diagnosis) :
    Keeps (Ends []) (repair means project diagnosis) :=
  keeps_repair (fun s tone text => ends_noted (.said tone text) s)
    (fun s line _ => ends_command means.runner line project s) diagnosis
    fun updates _ => keeps_patchManifest (fun s tone text => ends_noted (.said tone text) s)
      (fun _ _ _ _ => ⟨[], (List.append_nil _).symm, rfl⟩) updates

theorem RepairedTo.ended {failure : CommandFailure} {result : Except RepairError Unit}
    {events : List Event} (h : RepairedTo means project failure result events) :
    ended events = [] := by
  obtain ⟨diagnosis, s, t, -, hstart, htrace⟩ := h
  obtain ⟨others, hothers, hended⟩ := ends_repair diagnosis s
  rw [hstart, htrace] at hothers
  rwa [List.append_cancel_left hothers]

theorem ended_tries_cons (settings : Settings) (t : Try) (tries : List Try) :
    ended ((t :: tries).flatMap (Try.events settings project)) =
      ended t.after ++ ended (tries.flatMap (Try.events settings project)) := by
  rw [List.flatMap_cons, ended_append]
  rfl

/-- A step ends with every version that is reached. -/
theorem Course.ended {latest next failed : Nat} {tries : List Try}
    {result : Except RepairError (List Nat × Nat)}
    (h : Course means project latest next failed tries result) :
    ended (tries.flatMap (Try.events means.settings project)) =
      (reached tries).map means.settings.updateLabel := by
  induction h with
  | arrived => rfl
  | advanced _ _ ih =>
    rw [ended_tries_cons, ih, reached_cons_ok, List.map_cons]
    rfl
  | unhandled | exhausted => rfl
  | stuck _ _ hrepair =>
    rw [ended_tries_cons, hrepair.ended]
    rfl
  | repaired _ _ hrepair _ ih =>
    rw [ended_tries_cons, hrepair.ended, ih, reached_cons_error]
    rfl

/-- The steps of the versions that a climb reaches end in the course of it. -/
theorem climb_ends (means : Means ρ) (project : Path) (latest next failed : Nat)
    (s : Session ρ) :
    ∃ count,
      Ends ((List.range' next count).map means.settings.updateLabel) s
        ((climb means project latest next failed).start s).2 ∧
      ∀ completed n, ((climb means project latest next failed).start s).1 = .ok (completed, n) →
        completed = List.range' next count := by
  obtain ⟨tries, hcourse, htrace⟩ := climb_course means project latest next failed s
  obtain ⟨count, -, hreached, -⟩ := hcourse.reached_eq
  refine ⟨count, ⟨_, htrace, by rw [hcourse.ended, hreached]⟩, fun completed n hok => ?_⟩
  rw [(hcourse.eq_of_ok hok).1, hreached]

/-! ### Whole upgrades -/

/-- An upgrade ends the steps of consecutive major versions; if it succeeds, of those it tells of. -/
theorem upgrade_ends (means : Means ρ) (project : Path) (s : Session ρ) :
    ∃ first count,
      Ends ((List.range' first count).map means.settings.updateLabel) s
        ((upgrade means project).start s).2 ∧
      ∀ done, ((upgrade means project).start s).1 = .ok done →
        done.completed = List.range' first count := by
  have hclosing (r : Except RepairError Climb) (t : Session ρ) :
      Ends [] t (noted (closing means r) t) := by
    cases r with
    | error e => exact ends_noted _ t
    | ok done => exact ends_noted _ t
  rw [start_upgrade]
  dsimp only
  rcases climbToLatest_cases means project s with ⟨e, h⟩ | ⟨current, latest, h⟩
  · rw [h]
    exact ⟨0, 0, hclosing _ s, by simp⟩
  · obtain ⟨count, hends, hcompleted⟩ := climb_ends means project latest (current + 1) 0 s
    rw [h]
    dsimp only
    refine ⟨current + 1, count, by simpa using hends.trans (hclosing _ _), fun done hdone => ?_⟩
    rcases hr : ((climb means project latest (current + 1) 0).start s).1 with e | ⟨completed, n⟩
    · rw [hr] at hdone
      cases hdone
    · rw [hr] at hdone
      cases hdone
      exact hcompleted completed n hr

end
end RouterShift.Upgrade
