import RouterShift.Proofs.Upgrade.Repair

/-! The course of an upgrade, try after try. A try is one update to a major version with what was
    done about it before the next one; `Course` tells how tries may follow each other, one rule for
    each way on. Whatever the runner does, the trace of a climb is that of a course with the same
    result (`climb_course`): a repair runs commands of its own, but no update is among them. -/

namespace RouterShift.Upgrade
open Work

/-! ### Updates in a trace -/

/-- How the command of every update begins. -/
def updateOpening : String := "npx ng update "

/-- The command, directory and outcome of an update, if the event is one. -/
def Event.update? : Event → Option (String × Path × Outcome)
  | .ran command directory outcome =>
    if updateOpening.toList.isPrefixOf command.toList then some (command, directory, outcome)
    else none
  | _ => none

/-- The name of the step that updates to one major version. -/
def Settings.updateLabel (s : Settings) (major : Nat) : String :=
  s!"Updating {s.package} to ^{major}.0.0"

theorem update?_updateCommand (settings : Settings) (major : Nat) (directory : Path)
    (outcome : Outcome) : (Event.ran (settings.updateCommand major) directory outcome).update? =
      some (settings.updateCommand major, directory, outcome) := by
  have hopens : updateOpening.toList.isPrefixOf (settings.updateCommand major).toList = true := by
    rw [List.isPrefixOf_iff_prefix, Settings.updateCommand]
    simp only [String.toList_append, toString, List.append_assoc]
    exact List.prefix_append _ _
  rw [Event.update?, if_pos hopens]

/-- The trace goes on, and nothing in it is an update. -/
def Quietly {ρ : Type} (s t : Session ρ) : Prop :=
  ∃ events, t.trace = s.trace ++ events ∧ ∀ e ∈ events, e.update? = none

instance {ρ : Type} : IsPreorder (Session ρ) Quietly where
  refl s := ⟨[], (List.append_nil _).symm, by simp⟩
  trans s t u := by
    rintro ⟨es, hs, hes⟩ ⟨fs, ht, hfs⟩
    refine ⟨es ++ fs, by rw [ht, hs, List.append_assoc], fun e he => ?_⟩
    rcases List.mem_append.1 he with he | he
    · exact hes e he
    · exact hfs e he

section
variable {ρ : Type} {means : Means ρ} {project : Path}

/-- A repair leaves no update in the trace: what npm is asked to do is none. -/
theorem quietly_repair (diagnosis : Diagnosis) :
    Keeps Quietly (repair means project diagnosis) := by
  have hsay : ∀ (s : Session ρ) tone text, Quietly s (noted (.said tone text) s) := by
    intro s tone text
    exact ⟨[.said tone text], rfl, by simp [Event.update?]⟩
  have hnpm : ∀ s line, "npm".toList <+: line.toList →
      Quietly s (afterCommand means.runner line project s) := by
    rintro s line ⟨rest, hline⟩
    refine ⟨_, rfl, fun e he => ?_⟩
    obtain rfl := List.mem_singleton.1 he
    rw [Event.update?, ← hline]
    rfl
  refine keeps_repair hsay hnpm diagnosis fun updates _ => keeps_patchManifest hsay ?_ updates
  exact fun s _ tree _ => ⟨[], (List.append_nil _).symm, by simp⟩

end

/-! ### Tries -/

/-- One update command: the major version it updates to, how it went, and what happened from then
    on until the next one. -/
structure Try where
  major : Nat
  outcome : Outcome
  after : List Event

namespace Try

def succeeded (t : Try) : Bool := t.outcome.isOk

/-- What a try leaves in the trace. -/
def events (settings : Settings) (project : Path) (t : Try) : List Event :=
  .started (settings.updateLabel t.major) ::
    .ran (settings.updateCommand t.major) project t.outcome :: t.after

end Try

/-- The majors that were updated to, in order. -/
def reached (tries : List Try) : List Nat := (tries.filter (·.succeeded)).map (·.major)

/-- How many updates failed. -/
def failures (tries : List Try) : Nat := tries.countP (!·.succeeded)

section
variable {major : Nat} {output : CommandOutput} {failure : CommandFailure} {after : List Event}
  {tries : List Try}

@[simp] theorem succeeded_ok : Try.succeeded ⟨major, .ok output, after⟩ = true := rfl

@[simp] theorem succeeded_error : Try.succeeded ⟨major, .error failure, after⟩ = false := rfl

@[simp] theorem reached_nil : reached [] = [] := rfl

@[simp] theorem reached_cons_ok :
    reached (⟨major, .ok output, after⟩ :: tries) = major :: reached tries := rfl

@[simp] theorem reached_cons_error :
    reached (⟨major, .error failure, after⟩ :: tries) = reached tries := rfl

@[simp] theorem failures_nil : failures [] = 0 := rfl

@[simp] theorem failures_cons_ok :
    failures (⟨major, .ok output, after⟩ :: tries) = failures tries := by
  simp [failures]

@[simp] theorem failures_cons_error :
    failures (⟨major, .error failure, after⟩ :: tries) = failures tries + 1 := by
  simp [failures]

/-- Every try reached its version or failed. -/
theorem length_eq_reached_add_failures (tries : List Try) :
    tries.length = (reached tries).length + failures tries := by
  rw [reached, List.length_map, ← List.countP_eq_length_filter, failures,
    List.length_eq_countP_add_countP (·.succeeded)]
  simp

end

section
variable {ρ : Type} (means : Means ρ) (project : Path)

/-- What became of the repair of a failed update, and what was done in it. -/
def RepairedTo (failure : CommandFailure) (result : Except RepairError Unit)
    (events : List Event) : Prop :=
  ∃ diagnosis s t, Diagnosis.ofText? failure.diagnostic = some diagnosis ∧
    (repair means project diagnosis).start s = (result, t) ∧ t.trace = s.trace ++ events

/-- The tries from the major version `next` on with `failed` failures so far, and the result. -/
inductive Course (latest : Nat) :
    (next failed : Nat) → List Try → Except RepairError (List Nat × Nat) → Prop
  | arrived {next failed} : latest < next → Course latest next failed [] (.ok ([], failed))
  | advanced {next failed output tries result} : next ≤ latest →
    Course latest (next + 1) failed tries result →
    Course latest next failed
      (⟨next, .ok output, [.finished (means.settings.updateLabel next)]⟩ :: tries)
      (result.map fun (completed, n) => (next :: completed, n))
  | unhandled {next failed failure} : next ≤ latest →
    Diagnosis.ofText? failure.diagnostic = none →
    Course latest next failed [⟨next, .error failure, []⟩] (.error (.unhandled failure.diagnostic))
  | exhausted {next failed failure} : next ≤ latest → means.settings.maxAttempts ≤ failed + 1 →
    Course latest next failed [⟨next, .error failure, []⟩]
      (.error (.exhausted (failed + 1) failure.diagnostic))
  | stuck {next failed failure events e} : next ≤ latest →
    failed + 1 < means.settings.maxAttempts → RepairedTo means project failure (.error e) events →
    Course latest next failed [⟨next, .error failure, events⟩] (.error e)
  | repaired {next failed failure events tries result} : next ≤ latest →
    failed + 1 < means.settings.maxAttempts → RepairedTo means project failure (.ok ()) events →
    Course latest next (failed + 1) tries result →
    Course latest next failed (⟨next, .error failure, events⟩ :: tries) result

end

section
variable {ρ : Type} {means : Means ρ} {project : Path}

/-- The session in which an update has just been tried. -/
def tried (means : Means ρ) (project : Path) (major : Nat) (s : Session ρ) : Session ρ :=
  afterCommand means.runner (means.settings.updateCommand major) project
    (noted (.started (means.settings.updateLabel major)) s)

/-- How an update goes. -/
def tryOut (means : Means ρ) (project : Path) (major : Nat) (s : Session ρ) : Outcome :=
  (means.runner s.runner s.tree (means.settings.updateCommand major) project).1

theorem trace_tried (means : Means ρ) (project : Path) (major : Nat) (s : Session ρ)
    (after : List Event) : (tried means project major s).trace ++ after =
      s.trace ++ Try.events means.settings project ⟨major, tryOut means project major s, after⟩ := by
  simp [tried, afterCommand, Try.events, tryOut]

section
variable {latest next failed : Nat} {s : Session ρ}

theorem start_climb_advanced (h : next ≤ latest) {output : CommandOutput}
    (hout : tryOut means project next s = .ok output) :
    (climb means project latest next failed).start s =
      let rest := (climb means project latest (next + 1) failed).start
        (noted (.finished (means.settings.updateLabel next)) (tried means project next s))
      (rest.1.map fun (completed, n) => (next :: completed, n), rest.2) := by
  rw [climb, dif_neg (by omega), start_bind_ok (start_note _ s), start_bind_ok (start_attempt ..)]
  dsimp only [tryOut] at hout
  rw [runner_noted, tree_noted, hout]
  dsimp only
  rw [start_bind_ok (start_note ..)]
  rcases hrest : (climb means project latest (next + 1) failed).start
    (noted (.finished (means.settings.updateLabel next)) (tried means project next s)) with ⟨e | r, t⟩
  · exact start_bind_error hrest
  · exact start_bind_ok hrest

theorem start_climb_failed (h : next ≤ latest) {failure : CommandFailure}
    (hout : tryOut means project next s = .error failure) :
    (climb means project latest next failed).start s =
      start (match Diagnosis.ofText? failure.diagnostic with
        | none => throw (.unhandled failure.diagnostic)
        | some diagnosis =>
          if means.settings.maxAttempts ≤ failed + 1 then
            throw (.exhausted (failed + 1) failure.diagnostic)
          else do
            repair means project diagnosis
            climb means project latest next (failed + 1)) (tried means project next s) := by
  rw [climb, dif_neg (by omega), start_bind_ok (start_note _ s), start_bind_ok (start_attempt ..)]
  dsimp only [tryOut] at hout
  rw [runner_noted, tree_noted, hout]
  rfl

end

/-- Whatever the runner does, a climb takes a course, and its trace is what the tries leave. -/
theorem climb_course (means : Means ρ) (project : Path) (latest next failed : Nat)
    (s : Session ρ) :
    ∃ tries, Course means project latest next failed tries
        ((climb means project latest next failed).start s).1 ∧
      ((climb means project latest next failed).start s).2.trace =
        s.trace ++ tries.flatMap (Try.events means.settings project) := by
  induction next, failed using climb.induct means latest generalizing s with
  | case1 next failed h =>
    rw [climb, dif_pos h]
    exact ⟨[], .arrived h, (List.append_nil _).symm⟩
  | case2 next failed h ihNext ihAgain =>
    have hle : next ≤ latest := Nat.le_of_not_lt h
    cases hout : tryOut means project next s with
    | ok output =>
      rw [start_climb_advanced hle hout]
      obtain ⟨tries, hcourse, htrace⟩ := ihNext
        (noted (.finished (means.settings.updateLabel next)) (tried means project next s))
      have hadvanced : Course means project latest next failed (⟨next, .ok output, _⟩ :: tries) _ :=
        .advanced hle hcourse
      refine ⟨_, hadvanced, ?_⟩
      dsimp only
      rw [htrace, trace_noted, trace_tried, hout, List.flatMap_cons, List.append_assoc]
    | error failure =>
      rw [start_climb_failed hle hout]
      cases hdiagnosis : Diagnosis.ofText? failure.diagnostic with
      | none =>
        refine ⟨_, .unhandled hle hdiagnosis, ?_⟩
        simpa [hout] using trace_tried means project next s []
      | some diagnosis =>
        by_cases hmax : means.settings.maxAttempts ≤ failed + 1
        · dsimp only
          rw [if_pos hmax]
          refine ⟨_, .exhausted hle hmax, ?_⟩
          simpa [hout] using trace_tried means project next s []
        · dsimp only
          rw [if_neg hmax]
          have hlt : failed + 1 < means.settings.maxAttempts := Nat.lt_of_not_le hmax
          obtain ⟨events, hevents, -⟩ := quietly_repair diagnosis (tried means project next s)
          rcases hrepair : (repair means project diagnosis).start (tried means project next s)
            with ⟨e | u, t⟩
          · rw [start_bind_error hrepair]
            rw [hrepair] at hevents
            refine ⟨_, .stuck hle hlt ⟨diagnosis, _, t, hdiagnosis, hrepair, hevents⟩, ?_⟩
            rw [hevents, trace_tried, hout, List.flatMap_singleton]
          · rw [start_bind_ok hrepair]
            rw [hrepair] at hevents
            obtain ⟨tries, hcourse, htrace⟩ := ihAgain hmax t
            refine ⟨_, .repaired hle hlt ⟨diagnosis, _, t, hdiagnosis, hrepair, hevents⟩ hcourse, ?_⟩
            rw [htrace, hevents, trace_tried, hout, List.flatMap_cons, List.append_assoc]

/-! ### Whole upgrades -/

/-- The last word on an upgrade. -/
def closing (means : Means ρ) : Except RepairError Climb → Event
  | .ok _ => .said .success s!"Successfully updated {means.settings.package} to the latest major."
  | .error e => .said .failure s!"Update failed: {e.summary}"

theorem start_upgrade (s : Session ρ) :
    (upgrade means project).start s =
      let climbed := (climbToLatest means project).start s
      (climbed.1, noted (closing means climbed.1) climbed.2) := by
  rw [upgrade, start_bind_ok (start_result ..)]
  rcases (climbToLatest means project).start s with ⟨e | done, t⟩
  · rfl
  · rfl

end
end RouterShift.Upgrade
