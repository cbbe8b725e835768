import RouterShift.Proofs.Disk.Entry
import RouterShift.Proofs.Package.Manifest
import RouterShift.Proofs.Text.Pattern
import RouterShift.Proofs.Upgrade.Climb

/-! What an upgrade leaves of the manifest. Between the commands of an upgrade the manifest is loaded,
    patched and saved, as often as updates fail. Each time it is the manifest that was saved before,
    and each patch revises it with what a failure reported; so the last manifest revises the first
    one with what the failures of the whole upgrade reported (`upgrade_revises`). -/

namespace RouterShift.Upgrade
open Work

/-! ### Reports -/

/-- What a text, with a registry at hand, gives for a name: the range that a peer is required in, a
    published version that admits what would be installed of a peer, or the version that would be
    installed. -/
inductive Reported (registry : Registry) (text : String) : (name value : String) → Prop
  | peer {name range : String} : peerPattern.fill [name, range] <:+: text.toList →
    Reported registry text name range
  | published {name peer detail required installed version range : String}
      {metadata : PackageMetadata} {manifest : VersionManifest} :
    conflictPattern.fill [name, peer, detail] <:+: text.toList →
    clashPattern.fill [required, installed] <:+: detail.toList →
    registry.metadata name = .ok metadata → (version, manifest) ∈ metadata.versions →
    manifest.mergedDependencies.get? peer = some range → Range.admits range installed = true →
    Reported registry text name version
  | installed {package name detail required version : String} :
    conflictPattern.fill [package, name, detail] <:+: text.toList →
    clashPattern.fill [required, version] <:+: detail.toList →
    Reported registry text name version

theorem clash?_infix {c : PeerConflict} {clash : Clash} (h : c.clash? = some clash) :
    clashPattern.fill [clash.required, clash.wouldInstall] <:+: c.detail.toList := by
  rw [PeerConflict.clash?] at h
  split at h
  · rename_i required installed rest hfirst
    cases h
    obtain ⟨front, hfront, -⟩ := Text.Pattern.eq_of_first? hfirst
    exact ⟨front, rest, by rw [List.append_assoc, hfront]⟩
  · cases h

/-- A version that is found for a peer is a published one that admits it. -/
theorem mem_of_compatibleVersion? {registry : Registry} {package peer installed version : String}
    (h : registry.compatibleVersion? package peer installed = .ok (some version)) :
    ∃ metadata manifest range, registry.metadata package = .ok metadata ∧
      (version, manifest) ∈ metadata.versions ∧
      manifest.mergedDependencies.get? peer = some range ∧ Range.admits range installed = true := by
  rw [Registry.compatibleVersion?] at h
  cases hmetadata : registry.metadata package with
  | error e => rw [hmetadata] at h; cases h
  | ok metadata =>
    rw [hmetadata] at h
    obtain ⟨⟨version', manifest⟩, hfind, hversion⟩ := Option.map_eq_some_iff.1 (Except.ok.inj h)
    obtain rfl : version' = version := hversion
    have hmem := List.mem_of_find?_eq_some hfind
    rw [PackageMetadata.newestFirst, List.mem_mergeSort] at hmem
    have hany := List.find?_some hfind
    obtain ⟨range, hrange, hadmits⟩ := (Option.any_eq_true _ _).1 hany
    exact ⟨metadata, manifest, range, rfl, hmem, hrange, hadmits⟩

/-- What ends a conflict that a text reports is reported by it. -/
theorem reported_of_pin? {registry : Registry} {text : String} {c : PeerConflict}
    {u : DependencyUpdate}
    (hc : conflictPattern.fill [c.package, c.peer, c.detail] <:+: text.toList)
    (hpin : pin? registry c = .ok (some u)) : Reported registry text u.name u.range := by
  rw [pin?] at hpin
  cases hclash : c.clash? with
  | none => rw [hclash] at hpin; cases hpin
  | some clash =>
    have hdetail := clash?_infix hclash
    rw [hclash] at hpin
    dsimp only at hpin
    cases hfound : registry.compatibleVersion? c.package c.peer clash.wouldInstall with
    | error e => rw [hfound] at hpin; cases hpin
    | ok found =>
      rw [hfound] at hpin
      cases found with
      | none =>
        cases hpin
        exact .installed hc hdetail
      | some version =>
        cases hpin
        obtain ⟨metadata, manifest, range, hmetadata, hmem, hrange, hadmits⟩ :=
          mem_of_compatibleVersion? hfound
        exact .published hc hdetail hmetadata hmem hrange hadmits

/-- A missing peer of a diagnosis stands in the text. -/
theorem infix_of_update? {cs : List Char} {u : DependencyUpdate}
    (h : u ∈ (peerPattern.all cs).filterMap update?) :
    peerPattern.fill [u.name, u.range] <:+: cs := by
  obtain ⟨fields, hfields, hu⟩ := List.mem_filterMap.1 h
  have hinfix := Text.Pattern.fill_infix_of_mem_all hfields
  rw [update?.eq_def] at hu
  split at hu
  · obtain rfl := Option.some.inj hu
    exact hinfix
  · cases hu

theorem infix_of_conflict? {cs : List Char} {c : PeerConflict}
    (h : c ∈ (conflictPattern.all cs).filterMap conflict?) :
    conflictPattern.fill [c.package, c.peer, c.detail] <:+: cs := by
  obtain ⟨fields, hfields, hc⟩ := List.mem_filterMap.1 h
  have hinfix := Text.Pattern.fill_infix_of_mem_all hfields
  rw [conflict?.eq_def] at hc
  split at hc
  · obtain rfl := Option.some.inj hc
    exact hinfix
  · cases hc

/-- What a diagnosis prescribes is reported by the text it was made from. -/
theorem reported_of_prescribes {registry : Registry} {text : String} {diagnosis : Diagnosis}
    (hdiagnosis : Diagnosis.ofText? text = some diagnosis) {u : DependencyUpdate}
    (hu : diagnosis.Prescribes registry u) : Reported registry text u.name u.range := by
  rw [Diagnosis.ofText?] at hdiagnosis
  split at hdiagnosis
  · obtain rfl := Option.some.inj hdiagnosis
    cases hu
  split at hdiagnosis
  · obtain rfl := Option.some.inj hdiagnosis
    exact .peer (infix_of_update? hu)
  split at hdiagnosis
  · obtain rfl := Option.some.inj hdiagnosis
    obtain ⟨c, hc, hpin⟩ := hu
    exact reported_of_pin? (infix_of_conflict? hc) hpin
  · cases hdiagnosis

/-! ### Sessions -/

/-- What a failed update has written, if the event is one. -/
def Event.failure? (e : Event) : Option String :=
  match e.update? with
  | some (_, _, .error failure) => some failure.diagnostic
  | _ => none

/-- What one of the failed updates among events reports. -/
def ReportedAmong (registry : Registry) (events : List Event) (name value : String) : Prop :=
  ∃ e ∈ events, ∃ text, e.failure? = some text ∧ Reported registry text name value

section
variable {ρ : Type}

/-- A manifest can be loaded from a file of the session. -/
def Loads (path : Path) (s : Session ρ) (m : Manifest) : Prop :=
  ∃ text, s.tree.readText? [] path = some text ∧ Manifest.parse path text = .ok m

theorem Loads.unique {path : Path} {s : Session ρ} {m m' : Manifest} (h : Loads path s m)
    (h' : Loads path s m') : m = m' := by
  obtain ⟨text, hread, hparse⟩ := h
  obtain ⟨text', hread', hparse'⟩ := h'
  obtain rfl := Option.some.inj (hread.symm.trans hread')
  exact Except.ok.inj (hparse.symm.trans hparse')

/-- A file of the session is a manifest that lasts. -/
def Holds (path : Path) (s : Session ρ) (m : Manifest) : Prop := m.Lasting ∧ Loads path s m

theorem start_loadManifest_eq_ok {path : Path} {s : Session ρ} {m : Manifest} :
    (loadManifest path).start s = (.ok m, s) ↔ Loads path s m := by
  rw [start_loadManifest, Loads]
  cases s.tree.readText? [] path with
  | none => simp
  | some text => simp

/-- The manifest of a later session revises that of an earlier one. -/
def Revising (path : Path) (P : String → String → Prop) (s t : Session ρ) : Prop :=
  ∀ m, Holds path s m → ∃ m', Holds path t m' ∧ m.Revises P m'

variable {path : Path} {P Q : String → String → Prop} {s t u : Session ρ}

instance : IsPreorder (Session ρ) (Revising path P) where
  refl _ m hm := ⟨m, hm, .refl m⟩
  trans s t u hst htu m hm := by
    obtain ⟨m', hm', hrevises⟩ := hst m hm
    obtain ⟨m'', hm'', hrevises'⟩ := htu m' hm'
    exact ⟨m'', hm'', hrevises.trans hrevises'⟩

theorem Revising.imp (hPQ : ∀ name value, P name value → Q name value)
    (h : Revising path P s t) : Revising path Q s t := by
  intro m hm
  obtain ⟨m', hm', hrevises⟩ := h m hm
  exact ⟨m', hm', hrevises.imp hPQ⟩

theorem revising_of_readText?_eq (h : t.tree.readText? [] path = s.tree.readText? [] path) :
    Revising path P s t := by
  rintro m ⟨hlasting, text, hread, hparse⟩
  exact ⟨m, ⟨hlasting, text, h.trans hread, hparse⟩, .refl m⟩

/-! ### Commands that leave a file alone -/

/-- No command changes what is read from a file. -/
def Spares (path : Path) (runner : Runner ρ) : Prop := ∀ state tree line directory,
  (runner state tree line directory).2.2.readText? [] path = tree.readText? [] path

/-- The runner without the changes of commands that write a file. -/
def sparing (path : Path) (runner : Runner ρ) : Runner ρ := fun state tree line directory =>
  let (outcome, after, changed) := runner state tree line directory
  (outcome, after, if changed.readText? [] path = tree.readText? [] path then changed else tree)

theorem spares_sparing (path : Path) (runner : Runner ρ) : Spares path (sparing path runner) := by
  intro state tree line directory
  rw [sparing]
  dsimp only
  split
  · assumption
  · rfl

theorem sparing_of_spares {runner : Runner ρ} (h : Spares path runner) :
    sparing path runner = runner := by
  funext state tree line directory
  rw [sparing]
  dsimp only
  rw [if_pos (h state tree line directory)]

section
variable {means : Means ρ} {project : Path} (hspares : Spares (manifestOf project) means.runner)

/-- A patch revises the manifest, whether it can be saved or not. -/
theorem revising_patchManifest {updates : List DependencyUpdate}
    (h : ∀ u ∈ updates, P u.name u.range) : Keeps (Revising (manifestOf project) P)
      (patchManifest project updates : Work ρ RepairError Unit) := by
  have hpatch : Keeps (Revising (manifestOf project) P) (do
      let m ← loadManifest (manifestOf project)
      saveManifest (manifestOf project) (m.applyUpdates updates).1 : Work ρ ManifestError Unit) := by
    rintro s m ⟨hlasting, hload⟩
    have hrevises : m.Revises P (m.applyUpdates updates).1 := Manifest.revises_applyUpdates h
    rw [start_bind_ok (start_loadManifest_eq_ok.2 hload), start_saveManifest]
    split
    · exact ⟨m, ⟨hlasting, hload⟩, .refl m⟩
    · rename_i tree hwrite
      have hlasting' := hrevises.lasting hlasting
      exact ⟨_, ⟨hlasting', _, Entry.readText?_writeAt? hwrite,
        Manifest.parse_render hlasting' _⟩, hrevises⟩
  exact (hpatch.causing _).bind fun _ => keeps_say
    (fun s tone text => revising_of_readText?_eq rfl) _ _

include hspares in
theorem revising_repair {text : String} {diagnosis : Diagnosis}
    (h : Diagnosis.ofText? text = some diagnosis) :
    Keeps (Revising (manifestOf project) (Reported means.registry text))
      (repair means project diagnosis) := by
  refine keeps_repair (fun s tone text => revising_of_readText?_eq rfl)
    (fun s line _ => revising_of_readText?_eq (hspares ..)) diagnosis fun updates hupdates => ?_
  exact revising_patchManifest fun u hu => reported_of_prescribes h (hupdates u hu)

end

/-! ### Climbs -/

/-- The session goes on with some events, and the manifest is revised with what they report. -/
structure Advances (registry : Registry) (path : Path) (events : List Event) (s t : Session ρ) :
    Prop where
  trace_eq : t.trace = s.trace ++ events
  revising : Revising path (ReportedAmong registry events) s t

/-- More events report no less. -/
theorem ReportedAmong.mono {registry : Registry} {before after : List Event}
    (h : ∀ e ∈ before, e ∈ after) {name value : String}
    (hreported : ReportedAmong registry before name value) :
    ReportedAmong registry after name value := by
  obtain ⟨e, he, htext⟩ := hreported
  exact ⟨e, h e he, htext⟩

namespace Advances

variable {registry : Registry} {before after : List Event}

theorem of_readText?_eq (htrace : t.trace = s.trace ++ before)
    (hread : t.tree.readText? [] path = s.tree.readText? [] path) :
    Advances registry path before s t := ⟨htrace, revising_of_readText?_eq hread⟩

theorem trans (hst : Advances registry path before s t) (htu : Advances registry path after t u) :
    Advances registry path (before ++ after) s u := by
  have hfirst := hst.revising.imp fun _ _ => ReportedAmong.mono
    fun e he => List.mem_append_left after he
  have hsecond := htu.revising.imp fun _ _ => ReportedAmong.mono
    fun e he => List.mem_append_right before he
  exact ⟨by rw [htu.trace_eq, hst.trace_eq, List.append_assoc], trans_of _ hfirst hsecond⟩

end Advances

section
variable {means : Means ρ} {project : Path} {next : Nat} {failure : CommandFailure}
  (hspares : Spares (manifestOf project) means.runner)

include hspares in
theorem advances_tried (next : Nat) (s : Session ρ) (after : List Event) :
    Advances means.registry (manifestOf project)
      (Try.events means.settings project ⟨next, tryOut means project next s, after⟩) s
      { tried means project next s with trace := (tried means project next s).trace ++ after } :=
  .of_readText?_eq (trace_tried means project next s after) (hspares ..)

include hspares in
/-- A failed update and its repair, whatever becomes of it. -/
theorem advances_repair (hout : tryOut means project next s = .error failure)
    {diagnosis : Diagnosis} (hdiagnosis : Diagnosis.ofText? failure.diagnostic = some diagnosis) :
    ∃ added, Advances means.registry (manifestOf project)
      (Try.events means.settings project ⟨next, .error failure, added⟩) s
      ((repair means project diagnosis).start (tried means project next s)).2 := by
  obtain ⟨added, hadded, -⟩ := quietly_repair diagnosis (tried means project next s)
  have htried : Revising (manifestOf project) (Reported means.registry failure.diagnostic) s
      (tried means project next s) := revising_of_readText?_eq (hspares ..)
  have hrepair := revising_repair hspares hdiagnosis (tried means project next s)
  refine ⟨added, by rw [hadded, trace_tried, hout], (trans_of _ htried hrepair).imp ?_⟩
  intro name value hreported
  refine ⟨.ran (means.settings.updateCommand next) project (.error failure), by simp [Try.events],
    failure.diagnostic, ?_, hreported⟩
  rw [Event.failure?, update?_updateCommand]

include hspares in
/-- A climb revises the manifest with what its failed updates report. -/
theorem advances_climb (latest next failed : Nat) (s : Session ρ) :
    ∃ events, Advances means.registry (manifestOf project) events s
      ((climb means project latest next failed).start s).2 := by
  induction next, failed using climb.induct means latest generalizing s with
  | case1 next failed h =>
    rw [climb, dif_pos h]
    exact ⟨[], .of_readText?_eq (List.append_nil _).symm rfl⟩
  | case2 next failed h ihNext ihAgain =>
    have hle : next ≤ latest := Nat.le_of_not_lt h
    cases hout : tryOut means project next s with
    | ok output =>
      rw [start_climb_advanced hle hout]
      have hfinished := advances_tried hspares next s [.finished (means.settings.updateLabel next)]
      obtain ⟨events, hrest⟩ := ihNext
        (noted (.finished (means.settings.updateLabel next)) (tried means project next s))
      exact ⟨_, hfinished.trans hrest⟩
    | error failure =>
      rw [start_climb_failed hle hout]
      have htried := advances_tried hspares next s []
      rw [List.append_nil] at htried
      cases hdiagnosis : Diagnosis.ofText? failure.diagnostic with
      | none => exact ⟨_, htried⟩
      | some diagnosis =>
        dsimp only
        split
        · exact ⟨_, htried⟩
        · rename_i hmax
          obtain ⟨added, hrepair⟩ := advances_repair hspares hout hdiagnosis
          rw [start_bind]
          rcases hresult : (repair means project diagnosis).start (tried means project next s)
            with ⟨e | u, t⟩
          · rw [hresult] at hrepair
            exact ⟨_, hrepair⟩
          · rw [hresult] at hrepair
            obtain ⟨events, hrest⟩ := ihAgain hmax t
            exact ⟨_, hrepair.trans hrest⟩

end

/-! ### Upgrades -/

section
variable {means : Means ρ} {project : Path}

theorem keeps_currentMajor (settings : Settings) :
    Keeps Eq (currentMajor settings project : Work ρ RepairError Nat) := by
  have hload : Keeps Eq (loadManifest (manifestOf project) : Work ρ ManifestError Manifest) := by
    intro s
    rw [start_loadManifest]
  refine (hload.causing _).bind fun m => ?_
  cases (m.currentRange? settings.package).bind Version.majorOf? with
  | none => exact Keeps.throw _
  | some major => exact Keeps.pure _

theorem keeps_latestMajor : Keeps Eq (latestMajor means) := by
  refine ((Keeps.ofExcept _).causing _).bind fun found => ?_
  cases found with
  | none => exact Keeps.throw _
  | some major => exact Keeps.pure _

/-- An upgrade whose major versions cannot be told has done nothing; otherwise it climbs. -/
theorem climbToLatest_cases (means : Means ρ) (project : Path) (s : Session ρ) :
    (∃ e, (climbToLatest means project).start s = (.error e, s)) ∨
      ∃ current latest, (climbToLatest means project).start s =
        let climbed := (climb means project latest (current + 1) 0).start s
        (climbed.1.map fun (completed, attempts) => ⟨current, latest, completed, attempts⟩,
          climbed.2) := by
  have hcurrent : Eq s ((currentMajor means.settings project).start s).2 :=
    keeps_currentMajor means.settings s
  have hlatest : Eq s ((latestMajor means).start s).2 := keeps_latestMajor s
  rcases hc : (currentMajor means.settings project).start s with ⟨e | current, t⟩
  · obtain rfl : s = t := by rw [hc] at hcurrent; exact hcurrent
    exact .inl ⟨e, start_bind_error hc⟩
  obtain rfl : s = t := by rw [hc] at hcurrent; exact hcurrent
  rcases hl : (latestMajor means).start s with ⟨e | latest, t⟩
  · obtain rfl : s = t := by rw [hl] at hlatest; exact hlatest
    exact .inl ⟨e, by rw [climbToLatest, start_bind_ok hc, start_bind_error hl]⟩
  obtain rfl : s = t := by rw [hl] at hlatest; exact hlatest
  exact .inr ⟨current, latest, start_climbToLatest hc hl⟩

theorem advances_climbToLatest (hspares : Spares (manifestOf project) means.runner)
    (s : Session ρ) : ∃ events, Advances means.registry (manifestOf project) events s
      ((climbToLatest means project).start s).2 := by
  rcases climbToLatest_cases means project s with ⟨e, h⟩ | ⟨current, latest, h⟩
  · rw [h]
    exact ⟨[], .of_readText?_eq (List.append_nil _).symm rfl⟩
  · rw [h]
    exact advances_climb hspares latest (current + 1) 0 s

/-- Without a manifest an upgrade changes no file. -/
theorem tree_upgrade_of_not_loads {s : Session ρ} (h : ¬ ∃ m, Loads (manifestOf project) s m) :
    ((upgrade means project).start s).2.tree = s.tree := by
  obtain ⟨e, hload⟩ : ∃ e, (loadManifest (manifestOf project)).start s = (.error e, s) := by
    rw [start_loadManifest]
    cases hread : s.tree.readText? [] (manifestOf project) with
    | none => exact ⟨_, rfl⟩
    | some text =>
      cases hparse : Manifest.parse (manifestOf project) text with
      | error e => exact ⟨e, by simp [hparse]⟩
      | ok m => exact absurd ⟨m, text, hread, hparse⟩ h
  have hcausing : (causing RepairError.manifest (loadManifest (manifestOf project))).start s =
      (.error (.manifest e), s) := by
    rw [start_causing, hload]
    rfl
  have hcurrent : (currentMajor means.settings project).start s = (.error (.manifest e), s) :=
    start_bind_error hcausing
  have hclimb : (climbToLatest means project).start s = (.error (.manifest e), s) :=
    start_bind_error hcurrent
  rw [start_upgrade, hclimb]
  rfl

theorem revises_of_spares (means : Means ρ)
    (hspares : Spares (manifestOf project) means.runner) (s : Session ρ)
    (hintegers : ∀ m, Loads (manifestOf project) s m → m.HasIntegers) :
    ∃ events, ((upgrade means project).start s).2.trace = s.trace ++ events ∧
      ∀ m, Loads (manifestOf project) s m →
        ∃ m', Loads (manifestOf project) ((upgrade means project).start s).2 m' ∧
          m.Revises (ReportedAmong means.registry events) m' := by
  obtain ⟨events, hclimb⟩ := advances_climbToLatest hspares s
  rw [start_upgrade]
  dsimp only
  generalize (climbToLatest means project).start s = climbed at hclimb ⊢
  have hclosing : Advances means.registry (manifestOf project) [closing means climbed.1] climbed.2
      (noted (closing means climbed.1) climbed.2) := .of_readText?_eq rfl rfl
  have hall := hclimb.trans hclosing
  refine ⟨_, hall.trace_eq, fun m hm => ?_⟩
  have hlasting : m.Lasting := by
    have hnumbers := hintegers m hm
    obtain ⟨text, -, hparse⟩ := hm
    exact Manifest.lasting_of_parse hparse hnumbers
  obtain ⟨m', ⟨-, hm'⟩, hrevises⟩ := hall.revising m ⟨hlasting, hm⟩
  exact ⟨m', hm', hrevises⟩

end

end
end RouterShift.Upgrade
