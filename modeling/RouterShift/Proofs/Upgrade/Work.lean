import Mathlib.Order.Defs.Unbundled
import RouterShift.Upgrade.Session

/-! What a piece of work comes to, step by step, and what all of its steps have in common. Work is
    put together from a few steps: something is noted, a command runs, a manifest is read or
    written. `start` takes the work apart again. A relation between the sessions before and after
    that every step respects is respected by the work as a whole, whether it fails or not (`Keeps`),
    so what a repair leaves alone is asked of its steps and of nothing else. -/

namespace RouterShift.Upgrade.Work

variable {ρ ε δ α β : Type} {s t : Session ρ}

@[simp] theorem start_pure (a : α) (s : Session ρ) :
    start (pure a : Work ρ ε α) s = (.ok a, s) := rfl

@[simp] theorem start_throw (e : ε) (s : Session ρ) :
    start (throw e : Work ρ ε α) s = (.error e, s) := rfl

@[simp] theorem start_get (s : Session ρ) :
    start (get : Work ρ ε (Session ρ)) s = (.ok s, s) := rfl

@[simp] theorem start_set (t s : Session ρ) :
    start (set t : Work ρ ε PUnit) s = (.ok ⟨⟩, t) := rfl

theorem start_bind (work : Work ρ ε α) (next : α → Work ρ ε β) (s : Session ρ) :
    start (work >>= next) s =
      match start work s with
      | (.ok a, t) => start (next a) t
      | (.error e, t) => (.error e, t) := by
  show StateT.run (ExceptT.run (work >>= next)) s = _
  rw [ExceptT.run_bind, StateT.run_bind]
  show (match StateT.run (ExceptT.run work) s with
    | (r, t) => _) = _
  rw [start]
  rcases StateT.run (ExceptT.run work) s with ⟨_ | _, t⟩
  · rfl
  · rfl

theorem start_bind_ok {work : Work ρ ε α} {next : α → Work ρ ε β} {a : α}
    (h : start work s = (.ok a, t)) : start (work >>= next) s = start (next a) t := by
  rw [start_bind, h]

theorem start_bind_error {work : Work ρ ε α} {next : α → Work ρ ε β} {e : ε}
    (h : start work s = (.error e, t)) : start (work >>= next) s = (.error e, t) := by
  rw [start_bind, h]

/-- Work in two parts fails in its first part or in its second. -/
theorem start_bind_eq_error {work : Work ρ ε α} {next : α → Work ρ ε β} {e : ε}
    (h : start (work >>= next) s = (.error e, t)) :
    start work s = (.error e, t) ∨
      ∃ a u, start work s = (.ok a, u) ∧ start (next a) u = (.error e, t) := by
  rw [start_bind] at h
  rcases hwork : start work s with ⟨d | a, u⟩
  · rw [hwork] at h
    cases h
    exact .inl rfl
  · rw [hwork] at h
    exact .inr ⟨a, u, rfl, h⟩

/-- Work on the elements of a list fails on one of them, after the ones before it went well. -/
theorem exists_of_mapM_error {f : α → Work ρ ε β} {as : List α} {e : ε}
    (h : start (as.mapM f) s = (.error e, t)) :
    ∃ front a back u, as = front ++ a :: back ∧
      (∀ b ∈ front, ∃ v c w, start (f b) v = (.ok c, w)) ∧ start (f a) u = (.error e, t) := by
  induction as generalizing s with
  | nil => cases h
  | cons a as ih =>
    rw [List.mapM_cons] at h
    rcases start_bind_eq_error h with ha | ⟨b, u, ha, hrest⟩
    · exact ⟨[], a, as, s, rfl, by simp, ha⟩
    · rcases start_bind_eq_error hrest with has | ⟨bs, v, -, hpure⟩
      · obtain ⟨front, a', back, v, rfl, hfront, ha'⟩ := ih has
        refine ⟨a :: front, a', back, v, rfl, ?_, ha'⟩
        exact List.forall_mem_cons.2 ⟨⟨s, b, u, ha⟩, hfront⟩
      · cases hpure

/-- The session with one more event in its trace. -/
def noted (e : Event) (s : Session ρ) : Session ρ := { s with trace := s.trace ++ [e] }

@[simp] theorem trace_noted (e : Event) (s : Session ρ) : (noted e s).trace = s.trace ++ [e] := rfl

@[simp] theorem tree_noted (e : Event) (s : Session ρ) : (noted e s).tree = s.tree := rfl

@[simp] theorem runner_noted (e : Event) (s : Session ρ) : (noted e s).runner = s.runner := rfl

@[simp] theorem start_note (e : Event) (s : Session ρ) :
    start (note e : Work ρ ε Unit) s = (.ok (), noted e s) := rfl

@[simp] theorem start_say (tone : Tone) (text : String) (s : Session ρ) :
    start (say tone text : Work ρ ε Unit) s = (.ok (), noted (.said tone text) s) := rfl

/-- The session after a command. -/
def afterCommand (runner : Runner ρ) (line : String) (directory : Path) (s : Session ρ) :
    Session ρ where
  tree := (runner s.runner s.tree line directory).2.2
  runner := (runner s.runner s.tree line directory).2.1
  trace := s.trace ++ [.ran line directory (runner s.runner s.tree line directory).1]

@[simp] theorem start_attempt (runner : Runner ρ) (line : String) (directory : Path)
    (s : Session ρ) : start (attempt runner line directory : Work ρ ε Outcome) s =
      (.ok (runner s.runner s.tree line directory).1, afterCommand runner line directory s) := rfl

theorem start_command (runner : Runner ρ) (line : String) (directory : Path) (s : Session ρ) :
    start (command runner line directory) s =
      ((runner s.runner s.tree line directory).1.map fun _ => (),
        afterCommand runner line directory s) := by
  rw [command, start_bind_ok (start_attempt ..)]
  cases (runner s.runner s.tree line directory).1 with
  | error f => rfl
  | ok o => rfl

@[simp] theorem start_causing (cause : δ → ε) (work : Work ρ δ α) (s : Session ρ) :
    start (causing cause work) s = ((start work s).1.mapError cause, (start work s).2) := rfl

theorem start_of_causing_ok {cause : δ → ε} {work : Work ρ δ α} {a : α}
    (h : start (causing cause work) s = (.ok a, t)) : start work s = (.ok a, t) := by
  rw [start_causing] at h
  rcases hwork : start work s with ⟨d | b, u⟩
  · rw [hwork] at h
    cases h
  · rw [hwork] at h
    cases h
    rfl

theorem start_of_causing_error {cause : δ → ε} {work : Work ρ δ α} {e : ε}
    (h : start (causing cause work) s = (.error e, t)) :
    ∃ d, start work s = (.error d, t) ∧ cause d = e := by
  rw [start_causing] at h
  rcases hwork : start work s with ⟨d | b, u⟩
  · rw [hwork] at h
    cases h
    exact ⟨d, rfl, rfl⟩
  · rw [hwork] at h
    cases h

@[simp] theorem start_result (work : Work ρ δ α) (s : Session ρ) :
    start (result work : Work ρ ε (Except δ α)) s = (.ok (start work s).1, (start work s).2) := rfl

@[simp] theorem start_ofExcept (x : Except ε α) (s : Session ρ) :
    start (MonadExcept.ofExcept x : Work ρ ε α) s = (x, s) := by
  cases x with
  | error e => rfl
  | ok a => rfl

/-! ### Manifests -/

theorem start_loadManifest (path : Path) (s : Session ρ) :
    start (loadManifest path) s =
      (match s.tree.readText? [] path with
        | none => .error (.io path)
        | some text => Manifest.parse path text, s) := by
  rw [loadManifest, start_bind_ok (start_get s)]
  cases s.tree.readText? [] path with
  | none => rfl
  | some text => exact start_ofExcept _ s

theorem start_saveManifest (path : Path) (m : Manifest) (s : Session ρ) :
    start (saveManifest path m) s =
      match s.tree.writeAt? [] path (.ofString m.render) with
      | none => (.error (.io path), s)
      | some tree => (.ok (), { s with tree := tree }) := by
  rw [saveManifest, start_bind_ok (start_get s)]
  cases s.tree.writeAt? [] path (.ofString m.render) with
  | none => rfl
  | some tree => rfl

/-! ### What work yields -/

/-- Whatever the work succeeds with has a property. -/
def Yields (P : α → Prop) (work : Work ρ ε α) : Prop := ∀ s a, (start work s).1 = .ok a → P a

namespace Yields

variable {P : α → Prop} {Q : β → Prop} {work : Work ρ ε α}

theorem pure {a : α} (h : P a) : Yields P (pure a : Work ρ ε α) := by
  intro s b hb
  rwa [← show a = b by simpa using hb]

theorem ofExcept {x : Except ε α} (h : ∀ a, x = .ok a → P a) :
    Yields P (MonadExcept.ofExcept x : Work ρ ε α) := by
  intro s a ha
  rw [start_ofExcept] at ha
  exact h a ha

theorem causing {work : Work ρ δ α} (h : Yields P work) (cause : δ → ε) :
    Yields P (causing cause work) := by
  intro s a ha
  rw [start_causing] at ha
  cases hwork : (start work s).1 with
  | error d =>
    rw [hwork] at ha
    cases ha
  | ok b =>
    rw [hwork] at ha
    cases ha
    exact h s _ hwork

theorem bind (h : Yields P work) {next : α → Work ρ ε β} (hnext : ∀ a, P a → Yields Q (next a)) :
    Yields Q (work >>= next) := by
  intro s b hb
  rw [start_bind] at hb
  rcases hwork : start work s with ⟨e | a, t⟩
  · simp [hwork] at hb
  · rw [hwork] at hb
    exact hnext a (h s a (by rw [hwork])) t b hb

theorem any (work : Work ρ ε α) : Yields (fun _ => True) work := fun _ _ _ => trivial

theorem mapM {f : α → Work ρ ε β} {as : List α} {P : α → β → Prop}
    (h : ∀ a ∈ as, Yields (P a) (f a)) :
    Yields (fun bs => ∀ b ∈ bs, ∃ a ∈ as, P a b) (as.mapM f) := by
  induction as with
  | nil =>
    refine pure fun b hb => ?_
    cases hb
  | cons a as ih =>
    rw [List.mapM_cons]
    refine bind (h a List.mem_cons_self) fun b hb => ?_
    refine bind (ih fun c hc => h c (List.mem_cons_of_mem a hc)) fun bs hbs => pure fun b' hb' => ?_
    rcases List.mem_cons.1 hb' with rfl | hb'
    · exact ⟨a, List.mem_cons_self, hb⟩
    · obtain ⟨c, hc, hcb⟩ := hbs b' hb'
      exact ⟨c, List.mem_cons_of_mem a hc, hcb⟩

end Yields

/-! ### What all steps respect -/

/-- From whatever session the work starts, the one it ends with stands in a relation to it. -/
def Keeps (R : Session ρ → Session ρ → Prop) (work : Work ρ ε α) : Prop :=
  ∀ s, R s (start work s).2

namespace Keeps

section
variable {R : Session ρ → Session ρ → Prop} {work : Work ρ ε α}

theorem causing {work : Work ρ δ α} (h : Keeps R work) (cause : δ → ε) :
    Keeps R (causing cause work) := fun s => h s

theorem note {e : Event} (h : ∀ s, R s (noted e s)) : Keeps R (note e : Work ρ ε Unit) := h

theorem result {work : Work ρ δ α} (h : Keeps R work) :
    Keeps R (result work : Work ρ ε (Except δ α)) := h

theorem attempt {runner : Runner ρ} {line : String} {directory : Path}
    (h : ∀ s, R s (afterCommand runner line directory s)) :
    Keeps R (attempt runner line directory : Work ρ ε Outcome) := h

theorem command {runner : Runner ρ} {line : String} {directory : Path}
    (h : ∀ s, R s (afterCommand runner line directory s)) :
    Keeps R (command runner line directory) := by
  intro s
  rw [start_command]
  exact h s

variable [IsPreorder (Session ρ) R]

/-- Work that leaves the session as it is. -/
theorem of_eq (h : Keeps Eq work) : Keeps R work := by
  intro s
  have hs : s = (start work s).2 := h s
  rw [← hs]
  exact refl_of R s

theorem pure (a : α) : Keeps R (pure a : Work ρ ε α) := fun s => refl_of R s

theorem throw (e : ε) : Keeps R (throw e : Work ρ ε α) := fun s => refl_of R s

theorem ofExcept (x : Except ε α) : Keeps R (MonadExcept.ofExcept x : Work ρ ε α) := by
  intro s
  rw [start_ofExcept]
  exact refl_of R s

/-- Work that goes on with what the first part yields. -/
theorem bind_of {P : α → Prop} (h : Keeps R work) (hP : Yields P work) {next : α → Work ρ ε β}
    (hnext : ∀ a, P a → Keeps R (next a)) : Keeps R (work >>= next) := by
  intro s
  have hs := h s
  rw [start_bind]
  rcases hwork : start work s with ⟨e | a, t⟩
  · rw [hwork] at hs
    exact hs
  · rw [hwork] at hs
    exact trans_of R hs (hnext a (hP s a (by rw [hwork])) t)

theorem bind (h : Keeps R work) {next : α → Work ρ ε β} (hnext : ∀ a, Keeps R (next a)) :
    Keeps R (work >>= next) :=
  h.bind_of (Yields.any work) fun a _ => hnext a

theorem mapM {f : α → Work ρ ε β} {as : List α} (h : ∀ a ∈ as, Keeps R (f a)) :
    Keeps R (as.mapM f) := by
  induction as with
  | nil => exact pure []
  | cons a as ih =>
    rw [List.mapM_cons]
    refine bind (h a List.mem_cons_self) fun b => ?_
    exact bind (ih fun c hc => h c (List.mem_cons_of_mem a hc)) fun bs => pure _

theorem forM {f : α → Work ρ ε PUnit} {as : List α} (h : ∀ a ∈ as, Keeps R (f a)) :
    Keeps R (as.forM f) := by
  induction as with
  | nil => exact pure _
  | cons a as ih =>
    exact bind (h a List.mem_cons_self) fun _ => ih fun c hc => h c (List.mem_cons_of_mem a hc)

end
end Keeps

/-! ### What work fails of -/

/-- Whatever the work fails of has a property. -/
def Fails (P : ε → Prop) (work : Work ρ ε α) : Prop := ∀ s e, (start work s).1 = .error e → P e

namespace Fails

variable {P : ε → Prop} {work : Work ρ ε α}

theorem pure (a : α) : Fails P (pure a : Work ρ ε α) := by
  intro s e h
  cases h

theorem say (tone : Tone) (text : String) : Fails P (say tone text : Work ρ ε Unit) := by
  intro s e h
  cases h

theorem causing {cause : δ → ε} (h : ∀ d, P (cause d)) (work : Work ρ δ α) :
    Fails P (causing cause work) := by
  intro s e he
  rw [start_causing] at he
  cases hwork : (start work s).1 with
  | ok a => rw [hwork] at he; cases he
  | error d =>
    rw [hwork] at he
    cases he
    exact h d

theorem bind (h : Fails P work) {next : α → Work ρ ε β} (hnext : ∀ a, Fails P (next a)) :
    Fails P (work >>= next) := by
  intro s e he
  rw [start_bind] at he
  rcases hwork : start work s with ⟨d | a, t⟩
  · have hde : d = e := by simpa [hwork] using he
    exact h s e (by rw [hwork, hde])
  · rw [hwork] at he
    exact hnext a t e he

theorem mapM {f : α → Work ρ ε β} {as : List α} (h : ∀ a, Fails P (f a)) :
    Fails P (as.mapM f) := by
  induction as with
  | nil => exact pure []
  | cons a as ih =>
    rw [List.mapM_cons]
    exact bind (h a) fun b => bind ih fun bs => pure _

theorem forM {f : α → Work ρ ε PUnit} {as : List α} (h : ∀ a, Fails P (f a)) :
    Fails P (as.forM f) := by
  induction as with
  | nil => exact pure _
  | cons a as ih => exact bind (h a) fun _ => ih

end Fails

/-! ### What work comes to -/

/-- Work that starts from a session succeeds in one way or fails in another. -/
def Runs (work : Work ρ ε α) (s : Session ρ) (Q : α → Session ρ → Prop)
    (E : ε → Session ρ → Prop) : Prop :=
  match start work s with
  | (.ok a, t) => Q a t
  | (.error e, t) => E e t

namespace Runs

variable {work : Work ρ ε α} {Q : α → Session ρ → Prop} {E : ε → Session ρ → Prop}

theorem of_ok {a : α} (h : start work s = (.ok a, t)) (hQ : Q a t) : Runs work s Q E := by
  rw [Runs, h]
  exact hQ

theorem of_error {e : ε} (h : start work s = (.error e, t)) (hE : E e t) : Runs work s Q E := by
  rw [Runs, h]
  exact hE

theorem mono (h : Runs work s Q E) {Q' : α → Session ρ → Prop} (hQ : ∀ a t, Q a t → Q' a t) :
    Runs work s Q' E := by
  rw [Runs] at h
  rcases hwork : start work s with ⟨e | a, t⟩
  · rw [hwork] at h
    exact of_error hwork h
  · rw [hwork] at h
    exact of_ok hwork (hQ a t h)

theorem bind (h : Runs work s Q E) {next : α → Work ρ ε β} {Q' : β → Session ρ → Prop}
    (hnext : ∀ a t, Q a t → Runs (next a) t Q' E) : Runs (work >>= next) s Q' E := by
  rw [Runs] at h
  rcases hwork : start work s with ⟨e | a, t⟩
  · rw [hwork] at h
    exact of_error (start_bind_error hwork) h
  · rw [hwork] at h
    rw [Runs, start_bind_ok hwork]
    exact hnext a t h

end Runs
end RouterShift.Upgrade.Work
