import Mathlib.Data.List.Chain
import RouterShift.Proofs.Package.Manifest
import RouterShift.Proofs.Upgrade.Course

/-! The law of the climb. Each fact about the order of the updates and about the count of failures is
    an induction along the course; `upgrade_climbs` puts them together for a whole upgrade. -/

namespace RouterShift.Upgrade
open Work

section
variable {ρ : Type} (means : Means ρ) (project : Path)

/-- How an update follows another: the next major version after a success, the same one again
    after a failure that was repaired. -/
def Follows (a b : Try) : Prop :=
  match a.outcome with
  | .ok _ => b.major = a.major + 1 ∧ a.after = [.finished (means.settings.updateLabel a.major)]
  | .error failure => b.major = a.major ∧ RepairedTo means project failure (.ok ()) a.after

end

theorem RepairedTo.quiet {ρ : Type} {means : Means ρ} {project : Path} {failure : CommandFailure}
    {result : Except RepairError Unit} {events : List Event}
    (h : RepairedTo means project failure result events) : ∀ e ∈ events, e.update? = none := by
  obtain ⟨diagnosis, s, t, -, hstart, htrace⟩ := h
  obtain ⟨others, hothers, hquiet⟩ := quietly_repair diagnosis s
  rw [hstart, htrace] at hothers
  rwa [List.append_cancel_left hothers]

namespace Course

variable {ρ : Type} {means : Means ρ} {project : Path} {latest next failed : Nat}
  {tries : List Try} {result : Except RepairError (List Nat × Nat)}

/-! ### The order of the updates -/

theorem head?_major (h : Course means project latest next failed tries result)
    (hle : next ≤ latest) : tries.head?.map (·.major) = some next := by
  cases h with
  | arrived hlt => exact absurd hle (Nat.not_le_of_lt hlt)
  | advanced | unhandled | exhausted | stuck | repaired => rfl

theorem major_head? (h : Course means project latest next failed tries result) :
    ∀ t ∈ tries.head?, t.major = next := by
  cases h with
  | arrived => simp
  | advanced | unhandled | exhausted | stuck | repaired => simp

theorem within (h : Course means project latest next failed tries result) :
    ∀ t ∈ tries, next ≤ t.major ∧ t.major ≤ latest := by
  induction h with
  | arrived => simp
  | advanced hle _ ih =>
    intro t ht
    rcases List.mem_cons.1 ht with rfl | ht
    · exact ⟨le_rfl, hle⟩
    · exact ⟨by have := (ih t ht).1; omega, (ih t ht).2⟩
  | unhandled hle | exhausted hle | stuck hle =>
    intro t ht
    obtain rfl := List.mem_singleton.1 ht
    exact ⟨le_rfl, hle⟩
  | repaired hle _ _ _ ih =>
    intro t ht
    rcases List.mem_cons.1 ht with rfl | ht
    · exact ⟨le_rfl, hle⟩
    · exact ih t ht

theorem isChain (h : Course means project latest next failed tries result) :
    tries.IsChain (Follows means project) := by
  induction h with
  | arrived => exact .nil
  | advanced _ hrest ih => exact ih.cons fun b hb => ⟨hrest.major_head? b hb, rfl⟩
  | unhandled | exhausted | stuck => exact .singleton _
  | repaired _ _ hrepair hrest ih => exact ih.cons fun b hb => ⟨hrest.major_head? b hb, hrepair⟩

/-- No update to a lower version follows, and none at all to a version that was reached. -/
theorem pairwise (h : Course means project latest next failed tries result) :
    tries.Pairwise fun a b => a.major ≤ b.major ∧ (a.succeeded → a.major < b.major) := by
  induction h with
  | arrived => exact .nil
  | advanced _ hrest ih =>
    refine ih.cons fun b hb => ?_
    have hlt := (hrest.within b hb).1
    exact ⟨Nat.le_of_succ_le hlt, fun _ => hlt⟩
  | unhandled | exhausted | stuck => exact List.pairwise_singleton _ _
  | repaired _ _ _ hrest ih =>
    refine ih.cons fun b hb => ⟨(hrest.within b hb).1, fun hsucceeded => ?_⟩
    cases hsucceeded

/-- The versions that were reached are consecutive, and they are all of them if and only if the
    climb succeeds. -/
theorem reached_eq (h : Course means project latest next failed tries result) :
    ∃ k ≤ latest + 1 - next, reached tries = List.range' next k ∧
      (result.isOk ↔ k = latest + 1 - next) := by
  induction h with
  | @arrived next _ hlt =>
    refine ⟨0, Nat.zero_le _, rfl, ?_⟩
    simp [Except.isOk, Except.toBool]
    omega
  | @advanced next _ _ _ result hle _ ih =>
    obtain ⟨k, hk, hreached, hok⟩ := ih
    refine ⟨k + 1, by omega, ?_, ?_⟩
    · rw [List.range'_succ, ← hreached]
      rfl
    · have hmap (f : List Nat × Nat → List Nat × Nat) : (result.map f).isOk = result.isOk := by
        cases result <;> rfl
      rw [hmap, hok]
      omega
  | unhandled hle | exhausted hle | stuck hle =>
    refine ⟨0, Nat.zero_le _, rfl, ?_⟩
    simp [Except.isOk, Except.toBool]
    omega
  | repaired _ _ _ _ ih => exact ih

/-- No version on the way to another is passed over. -/
theorem mem_reached (h : Course means project latest next failed tries result) {t : Try}
    (ht : t ∈ tries) {m : Nat} (hm : next ≤ m) (hmt : m < t.major) : m ∈ reached tries := by
  induction h with
  | arrived => cases ht
  | @advanced next _ _ tries _ _ _ ih =>
    rw [reached_cons_ok, List.mem_cons]
    rcases List.mem_cons.1 ht with rfl | ht
    · exact absurd hm (Nat.not_le_of_lt hmt)
    · rcases Nat.eq_or_lt_of_le hm with rfl | hlt
      · exact .inl rfl
      · exact .inr (ih ht hlt)
  | unhandled | exhausted | stuck =>
    obtain rfl := List.mem_singleton.1 ht
    exact absurd hm (Nat.not_le_of_lt hmt)
  | repaired _ _ _ _ ih =>
    rw [reached_cons_error]
    rcases List.mem_cons.1 ht with rfl | ht
    · exact absurd hm (Nat.not_le_of_lt hmt)
    · exact ih ht hm

/-- A try adds one update to the trace. -/
theorem quiet (h : Course means project latest next failed tries result) :
    ∀ t ∈ tries, ∀ e ∈ t.after, e.update? = none := by
  induction h with
  | arrived => simp
  | advanced _ _ ih =>
    intro t ht
    rcases List.mem_cons.1 ht with rfl | ht
    · simp [Event.update?]
    · exact ih t ht
  | unhandled | exhausted =>
    intro t ht
    obtain rfl := List.mem_singleton.1 ht
    simp
  | stuck _ _ hrepair =>
    intro t ht
    obtain rfl := List.mem_singleton.1 ht
    exact hrepair.quiet
  | repaired _ _ hrepair _ ih =>
    intro t ht
    rcases List.mem_cons.1 ht with rfl | ht
    · exact hrepair.quiet
    · exact ih t ht

/-! ### The count of failures -/

theorem failures_le (h : Course means project latest next failed tries result) :
    failures tries ≤ max 1 (means.settings.maxAttempts - failed) := by
  induction h with
  | arrived => exact Nat.zero_le _
  | advanced _ _ ih => rwa [failures_cons_ok]
  | unhandled | exhausted | stuck => exact Nat.le_max_left _ _
  | repaired _ _ _ _ ih =>
    rw [failures_cons_error]
    omega

theorem eq_of_ok (h : Course means project latest next failed tries result) {completed : List Nat}
    {n : Nat} (hok : result = .ok (completed, n)) :
    completed = reached tries ∧ n = failed + failures tries ∧
      (failures tries = 0 ∨ n < means.settings.maxAttempts) := by
  induction h generalizing completed n with
  | arrived =>
    cases hok
    exact ⟨rfl, rfl, .inl rfl⟩
  | @advanced _ _ _ _ result _ _ ih =>
    rcases result with e | ⟨done, n'⟩
    · cases hok
    · cases hok
      obtain ⟨hdone, hn, hfew⟩ := ih rfl
      rw [reached_cons_ok, failures_cons_ok]
      exact ⟨congrArg _ hdone, hn, hfew⟩
  | unhandled | exhausted | stuck => cases hok
  | repaired _ hlt _ _ ih =>
    obtain ⟨hdone, hn, hfew⟩ := ih hok
    rw [reached_cons_error, failures_cons_error]
    exact ⟨hdone, by omega, by omega⟩

theorem mem_getLast?_cons (first : Try) {t : Try} {tries : List Try} (ht : t ∈ tries.getLast?) :
    t ∈ (first :: tries).getLast? := by
  rw [List.getLast?_cons, Option.mem_def.1 ht]
  rfl

theorem eq_of_exhausted (h : Course means project latest next failed tries result) {n : Nat}
    {text : String} (hout : result = .error (.exhausted n text)) :
    n = failed + failures tries ∧ n = max (failed + 1) means.settings.maxAttempts ∧
      ∃ t ∈ tries.getLast?, ∃ failure, t.outcome = .error failure ∧ failure.diagnostic = text := by
  induction h with
  | arrived => cases hout
  | @advanced _ _ _ _ result _ hrest ih =>
    rcases result with e | ⟨done, n'⟩
    · cases hout
      obtain ⟨hn, hmax, t, ht, hlast⟩ := ih rfl
      rw [failures_cons_ok]
      exact ⟨hn, hmax, t, mem_getLast?_cons _ ht, hlast⟩
    · cases hout
  | unhandled => cases hout
  | exhausted hle hmax =>
    cases hout
    exact ⟨rfl, (Nat.max_eq_left hmax).symm, _, rfl, _, rfl, rfl⟩
  | stuck _ _ hrepair =>
    obtain ⟨diagnosis, s, t, -, hstart, -⟩ := hrepair
    have hunspent := fails_repair diagnosis s _ (congrArg Prod.fst hstart)
    cases hout
    cases hunspent
  | repaired _ hlt _ hrest ih =>
    obtain ⟨hn, hmax, t, ht, hlast⟩ := ih hout
    rw [failures_cons_error]
    exact ⟨by omega, by omega, t, mem_getLast?_cons _ ht, hlast⟩

end Course

/-! ### Whole upgrades -/

/-- The law of the updates that an upgrade from one major version to another tries, and of what the
    upgrade comes to. -/
structure Climbs {ρ : Type} (means : Means ρ) (project : Path) (current latest : Nat)
    (tries : List Try) (result : Except RepairError Climb) : Prop where
  /-- The first update goes to the version after the declared one. -/
  first : current < latest → tries.head?.map (·.major) = some (current + 1)
  follows : tries.IsChain (Follows means project)
  bounded : ∀ t ∈ tries, current < t.major ∧ t.major ≤ latest
  /-- No version is passed over, ... -/
  covered : ∀ t ∈ tries, ∀ m, current < m → m < t.major → m ∈ reached tries
  /-- ... gone back to, or updated to again. -/
  ordered : tries.Pairwise fun a b => a.major ≤ b.major ∧ (a.succeeded → a.major < b.major)
  failures_le : failures tries ≤ max 1 means.settings.maxAttempts
  length_le : tries.length ≤ (latest - current) + max 1 means.settings.maxAttempts
  succeeds_iff : (∃ done, result = .ok done) ↔ ∀ m, current < m → m ≤ latest → m ∈ reached tries
  done_eq : ∀ done, result = .ok done →
    done = ⟨current, latest, List.range' (current + 1) (latest - current), failures tries⟩ ∧
      (failures tries = 0 ∨ failures tries < means.settings.maxAttempts)
  /-- The allowance is used up only by as many failures, the last of which is told. -/
  exhausted : ∀ n text, result = .error (.exhausted n text) →
    n = max 1 means.settings.maxAttempts ∧ failures tries = n ∧
      ∃ t ∈ tries.getLast?, ∃ failure, t.outcome = .error failure ∧ failure.diagnostic = text

section
variable {ρ : Type} {means : Means ρ} {project : Path} {current latest : Nat}

/-- A course from the version after the declared one obeys the law. -/
theorem Course.climbs {tries : List Try} {result : Except RepairError (List Nat × Nat)}
    (h : Course means project latest (current + 1) 0 tries result) :
    Climbs means project current latest tries
      (result.map fun (completed, attempts) => ⟨current, latest, completed, attempts⟩) := by
  obtain ⟨k, hk, hreached, hok⟩ := h.reached_eq
  have hlength : (reached tries).length = k := by rw [hreached, List.length_range']
  refine {
    first := fun hlt => h.head?_major hlt
    follows := h.isChain
    bounded := h.within
    covered := fun t ht m hm hmt => h.mem_reached ht hm hmt
    ordered := h.pairwise
    failures_le := h.failures_le
    length_le := ?_
    succeeds_iff := ?_
    done_eq := ?_
    exhausted := ?_ }
  · have hfew := h.failures_le
    rw [length_eq_reached_add_failures, hlength]
    omega
  · have hall : (∀ m, current < m → m ≤ latest → m ∈ reached tries) ↔ k = latest - current := by
      constructor
      · intro hm
        by_contra hne
        have hlast := hm latest (by omega) le_rfl
        rw [hreached, List.mem_range'_1] at hlast
        omega
      · intro hk m hm hml
        rw [hreached, List.mem_range'_1]
        omega
    rw [hall, show latest - current = latest + 1 - (current + 1) by omega, ← hok]
    cases result with
    | error e => simp [Except.map, Except.isOk, Except.toBool]
    | ok r => simp [Except.map, Except.isOk, Except.toBool]
  · rcases result with e | ⟨completed, n⟩
    · intro done hdone
      cases hdone
    · intro done hdone
      cases hdone
      obtain ⟨rfl, hn, hfew⟩ := h.eq_of_ok rfl
      obtain rfl : failures tries = n := by omega
      have hkl : k = latest - current := by have := hok.1 rfl; omega
      rw [hreached, hkl]
      exact ⟨rfl, hfew⟩
  · intro n text hout
    rcases result with e | r
    · cases hout
      obtain ⟨hn, hmax, hlast⟩ := h.eq_of_exhausted rfl
      exact ⟨by omega, by omega, hlast⟩
    · cases hout

theorem start_currentMajor {s : Session ρ} {text : String} {m : Manifest}
    (hread : s.tree.readText? [] (manifestOf project) = some text)
    (hparse : Manifest.parse (manifestOf project) text = .ok m)
    (hcurrent : (m.currentRange? means.settings.package).bind Version.majorOf? = some current) :
    (currentMajor means.settings project).start s = (.ok current, s) := by
  have hload : (causing RepairError.manifest (loadManifest (manifestOf project))).start s =
      (.ok m, s) := by
    rw [start_causing, start_loadManifest, hread]
    dsimp only
    rw [hparse]
    rfl
  rw [currentMajor, start_bind_ok hload, hcurrent]
  rfl

theorem start_latestMajor {s : Session ρ}
    (hlatest : means.registry.latestMajor? means.settings.package = .ok (some latest)) :
    (latestMajor means).start s = (.ok latest, s) := by
  have hfound : (causing RepairError.lookup (MonadExcept.ofExcept
      (means.registry.latestMajor? means.settings.package))).start s = (.ok (some latest), s) := by
    rw [start_causing, start_ofExcept, hlatest]
    rfl
  rw [latestMajor, start_bind_ok hfound]
  rfl

theorem start_climbToLatest {s : Session ρ}
    (hcurrent : (currentMajor means.settings project).start s = (.ok current, s))
    (hlatest : (latestMajor means).start s = (.ok latest, s)) :
    (climbToLatest means project).start s =
      let climbed := (climb means project latest (current + 1) 0).start s
      (climbed.1.map fun (completed, attempts) => ⟨current, latest, completed, attempts⟩,
        climbed.2) := by
  rw [climbToLatest, start_bind_ok hcurrent, start_bind_ok hlatest, start_bind]
  rcases (climb means project latest (current + 1) 0).start s with ⟨e | r, t⟩
  · rfl
  · rfl

/-- Tries without updates in between leave one update each. -/
theorem filterMap_update? {tries : List Try} (settings : Settings)
    (h : ∀ t ∈ tries, ∀ e ∈ t.after, e.update? = none) :
    (tries.flatMap (Try.events settings project)).filterMap Event.update? =
      tries.map fun t => (settings.updateCommand t.major, project, t.outcome) := by
  induction tries with
  | nil => rfl
  | cons t tries ih =>
    have hafter : t.after.filterMap Event.update? = [] :=
      List.filterMap_eq_nil_iff.2 (h t List.mem_cons_self)
    rw [List.flatMap_cons, List.filterMap_append, List.map_cons,
      ih fun u hu => h u (List.mem_cons_of_mem t hu), Try.events,
      List.filterMap_cons_none rfl, List.filterMap_cons_some (update?_updateCommand ..), hafter]
    rfl

/-- Whatever the runner and the registry do, from the declared major version on an upgrade issues
    its updates one major version after the other, and repeats one only after a repair. What it adds
    to the trace are the tries and the closing word, and nothing else there is an update. -/
theorem upgrade_climbs (s : Session ρ) {text : String} {m : Manifest}
    (hread : s.tree.readText? [] (manifestOf project) = some text)
    (hparse : Manifest.parse (manifestOf project) text = .ok m)
    (hcurrent : (m.currentRange? means.settings.package).bind Version.majorOf? = some current)
    (hlatest : means.registry.latestMajor? means.settings.package = .ok (some latest)) :
    ∃ tries added,
      Climbs means project current latest tries ((upgrade means project).start s).1 ∧
      ((upgrade means project).start s).2.trace = s.trace ++ added ∧
      added = tries.flatMap (Try.events means.settings project) ++
        [closing means ((upgrade means project).start s).1] ∧
      added.filterMap Event.update? =
        tries.map fun t => (means.settings.updateCommand t.major, project, t.outcome) := by
  obtain ⟨tries, hcourse, htrace⟩ :=
    climb_course means project latest (current + 1) 0 s
  rw [start_upgrade, start_climbToLatest (start_currentMajor hread hparse hcurrent)
    (start_latestMajor hlatest)]
  refine ⟨tries, _, hcourse.climbs, ?_, rfl, ?_⟩
  · rw [trace_noted, htrace, List.append_assoc]
  · have hclosing (r : Except RepairError Climb) : (closing means r).update? = none := by
      cases r with
      | error e => rfl
      | ok done => rfl
    rw [List.filterMap_append, filterMap_update? _ hcourse.quiet,
      List.filterMap_cons_none (hclosing _), List.filterMap_nil, List.append_nil]

end

/-! ### A project with a missing peer -/

def peerManifest : Manifest where
  fields := [("name", .string "app"), ("dependencies",
    .object [("@angular/core", .string "^14.0.0"), ("zone.js", .string "~0.11.0")])]

/-- Commands that write no file: the first one complains of a peer, the others succeed. -/
def peerRunner : Runner Nat := fun count tree command _ =>
  (if count = 0 then .error { command, stderr := "it requires a peer of zone.js \"~0.12.0\"" }
    else .ok {}, count + 1, tree)

def peerMeans : Means Nat where
  settings := {}
  runner := peerRunner
  registry := Registry.Snapshot.registry { latest := [("@angular/core", "15.2.0")] }

def peerSession : Session Nat where
  tree := .directory [("app", .directory [("package.json", .file (.ofString peerManifest.render))])]
  runner := 0

theorem readText?_peerSession :
    peerSession.tree.readText? [] (manifestOf ⟨"app"⟩) = some peerManifest.render := by
  decide +kernel

theorem lasting_peerManifest : peerManifest.Lasting where
  settled := by
    intro fields h
    simp [peerManifest, Json.Value.within_object, Json.Value.within_string] at h
    rcases h with rfl | rfl
    · decide
    · decide
  proper := by decide
  words := by
    simp [peerManifest, Json.Value.within_object, Json.Value.within_string]

theorem upgrade_climbs_peer :
    ∃ tries added,
      Climbs peerMeans ⟨"app"⟩ 14 15 tries ((upgrade peerMeans ⟨"app"⟩).start peerSession).1 ∧
      ((upgrade peerMeans ⟨"app"⟩).start peerSession).2.trace = peerSession.trace ++ added ∧
      added = tries.flatMap (Try.events peerMeans.settings ⟨"app"⟩) ++
        [closing peerMeans ((upgrade peerMeans ⟨"app"⟩).start peerSession).1] ∧
      added.filterMap Event.update? =
        tries.map fun t => (peerMeans.settings.updateCommand t.major, ⟨"app"⟩, t.outcome) :=
  upgrade_climbs peerSession readText?_peerSession (Manifest.parse_render lasting_peerManifest _)
    (by decide +kernel) (by decide +kernel)

end RouterShift.Upgrade
