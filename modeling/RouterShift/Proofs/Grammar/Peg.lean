import RouterShift.Grammar.Peg
import RouterShift.Proofs.Grammar.Nesting
import RouterShift.Proofs.Text.Cursor
import RouterShift.Proofs.Text.Cut

/-! What a reading says about the text. One lemma for each kind of expression takes its reading
    apart; the parts are read no deeper, so an induction on the depth goes through. An expression
    reads the characters that stand at its place, none left out, and every marked part of the tree
    was read at the place where it stands, by the part of the grammar that has the mark
    (`sound_of_read`). -/

namespace RouterShift.Grammar

open Text

/-- From one place to another, and the characters between them. -/
structure Passes (s t : Cursor) (taken : List Char) : Prop where
  rest : s.rest = taken ++ t.rest
  pos : t.pos = s.pos + byteLength taken

namespace Passes

variable {s t u : Cursor} {as bs : List Char}

theorem nil (s : Cursor) : Passes s s [] := ⟨rfl, rfl⟩

theorem append (h : Passes s t as) (h' : Passes t u bs) : Passes s u (as ++ bs) where
  rest := by rw [h.rest, h'.rest, List.append_assoc]
  pos := by rw [h'.pos, h.pos, byteLength_append, Nat.add_assoc]

theorem pos_le (h : Passes s t as) : s.pos ≤ t.pos := by
  rw [h.pos]
  exact Nat.le_add_right _ _

end Passes

namespace Peg

variable {ι κ : Type} {rules : ι → Peg ι κ} {depth : Nat} {s : Cursor} {a : Reading κ}

/-! ### One level of a reading -/

section
variable (rules : ι → Peg ι κ) (depth : Nat) (s : Cursor)

theorem read_text (cs : List Char) : read rules (depth + 1) (text cs) s =
    match afterStart? cs s.rest with
    | some rest => .ok ⟨[], ⟨s.pos + byteLength cs, rest⟩⟩
    | none => .error .mismatch := rfl

theorem read_one (isIn : Char → Bool) : read rules (depth + 1) (one isIn) s =
    match s.rest with
    | c :: rest => if isIn c then .ok ⟨[], ⟨s.pos + c.utf8Size, rest⟩⟩ else .error .mismatch
    | [] => .error .mismatch := rfl

theorem read_run (isIn : Char → Bool) (accepts : List Char → Bool) :
    read rules (depth + 1) (run isIn accepts) s =
      if !(s.take isIn).1.isEmpty && accepts (s.take isIn).1 then .ok ⟨[], (s.take isIn).2⟩
      else .error .mismatch := rfl

theorem read_seq (first second : Peg ι κ) : read rules (depth + 1) (seq first second) s =
    match read rules depth first s with
    | .error stop => .error stop
    | .ok a =>
      match read rules depth second a.next with
      | .error stop => .error stop
      | .ok b => .ok ⟨a.trees ++ b.trees, b.next⟩ := rfl

theorem read_choice (first second : Peg ι κ) : read rules (depth + 1) (choice first second) s =
    match read rules depth first s with
    | .error .mismatch => read rules depth second s
    | outcome => outcome := rfl

theorem read_many (part : Peg ι κ) : read rules (depth + 1) (many part) s =
    match read rules depth part s with
    | .error .mismatch => .ok ⟨[], s⟩
    | .error stop => .error stop
    | .ok a =>
      if a.next.rest.length < s.rest.length then
        match read rules depth (many part) a.next with
        | .error stop => .error stop
        | .ok b => .ok ⟨a.trees ++ b.trees, b.next⟩
      else .ok ⟨[], s⟩ := rfl

theorem read_absent (part : Peg ι κ) : read rules (depth + 1) (absent part) s =
    match read rules depth part s with
    | .error .tooDeep => .error .tooDeep
    | .error _ => .ok ⟨[], s⟩
    | .ok _ => .error .mismatch := rfl

theorem read_node (kind : κ) (part : Peg ι κ) : read rules (depth + 1) (node kind part) s =
    match read rules depth part s with
    | .error stop => .error stop
    | .ok a => .ok ⟨[.node kind ⟨s.pos, a.next.pos⟩ a.trees], a.next⟩ := rfl

theorem read_commit (part : Peg ι κ) : read rules (depth + 1) (commit part) s =
    match read rules depth part s with
    | .error .mismatch => .error .broken
    | outcome => outcome := rfl

end

/-! ### Readings taken apart -/

theorem of_read_nothing (h : read rules depth nothing s = .ok a) : a = ⟨[], s⟩ := by
  cases depth with
  | zero => cases h
  | succ depth =>
    cases h
    rfl

theorem of_read_text {cs : List Char} (h : read rules depth (text cs) s = .ok a) :
    a.trees = [] ∧ Passes s a.next cs := by
  cases depth with
  | zero => cases h
  | succ depth =>
    rw [read_text] at h
    split at h
    · next rest hrest =>
      cases h
      exact ⟨rfl, afterStart?_eq_some.1 hrest, rfl⟩
    · cases h

theorem of_read_one {isIn : Char → Bool} (h : read rules depth (one isIn) s = .ok a) :
    ∃ c, isIn c = true ∧ a.trees = [] ∧ Passes s a.next [c] := by
  cases depth with
  | zero => cases h
  | succ depth =>
    rw [read_one] at h
    split at h
    · next c rest hrest =>
      split at h
      · next hc =>
        cases h
        exact ⟨c, hc, rfl, hrest, by simp [byteLength]⟩
      · cases h
    · cases h

theorem of_read_run {isIn : Char → Bool} {accepts : List Char → Bool}
    (h : read rules depth (run isIn accepts) s = .ok a) :
    ∃ taken, accepts taken = true ∧ taken ≠ [] ∧ (∀ c ∈ taken, isIn c = true) ∧
      StopsBefore isIn a.next.rest ∧ a.trees = [] ∧ Passes s a.next taken := by
  cases depth with
  | zero => cases h
  | succ depth =>
    obtain ⟨taken, rest, hs, hin, hstop, htake⟩ := Cursor.exists_take isIn s
    simp only [read_run, htake] at h
    split at h
    · next htaken =>
      cases h
      obtain ⟨hne, haccepts⟩ := Bool.and_eq_true_iff.1 htaken
      refine ⟨taken, haccepts, ?_, hin, hstop, rfl, hs, rfl⟩
      rintro rfl
      cases hne
    · cases h

theorem of_read_rule {name : ι} (h : read rules depth (rule name) s = .ok a) :
    ∃ d < depth, read rules d (rules name) s = .ok a := by
  cases depth with
  | zero => cases h
  | succ depth => exact ⟨depth, Nat.lt_succ_self depth, h⟩

theorem of_read_seq {first second : Peg ι κ} (h : read rules depth (seq first second) s = .ok a) :
    ∃ d < depth, ∃ b c, read rules d first s = .ok b ∧ read rules d second b.next = .ok c ∧
      a = ⟨b.trees ++ c.trees, c.next⟩ := by
  cases depth with
  | zero => cases h
  | succ depth =>
    rw [read_seq] at h
    split at h
    · cases h
    · next b hb =>
      split at h
      · cases h
      · next c hc =>
        cases h
        exact ⟨depth, Nat.lt_succ_self depth, b, c, hb, hc, rfl⟩

/-- The second alternative is read only where the first cannot be. -/
theorem ordered_of_read_choice {first second : Peg ι κ}
    (h : read rules depth (choice first second) s = .ok a) :
    ∃ d < depth, read rules d first s = .ok a ∨
      read rules d first s = .error .mismatch ∧ read rules d second s = .ok a := by
  cases depth with
  | zero => cases h
  | succ depth =>
    rw [read_choice] at h
    refine ⟨depth, Nat.lt_succ_self depth, ?_⟩
    split at h
    · next hmismatch => exact .inr ⟨hmismatch, h⟩
    · exact .inl h

theorem of_read_choice {first second : Peg ι κ}
    (h : read rules depth (choice first second) s = .ok a) :
    ∃ d < depth, read rules d first s = .ok a ∨ read rules d second s = .ok a := by
  obtain ⟨d, hd, h | ⟨-, h⟩⟩ := ordered_of_read_choice h
  · exact ⟨d, hd, .inl h⟩
  · exact ⟨d, hd, .inr h⟩

/-- A repetition ends where its part cannot be read or takes nothing, or it takes its part and goes
    on behind. -/
theorem of_read_many {part : Peg ι κ} (h : read rules depth (many part) s = .ok a) :
    ∃ d < depth,
      (a = ⟨[], s⟩ ∧ (read rules d part s = .error .mismatch ∨
        ∃ b, read rules d part s = .ok b ∧ s.rest.length ≤ b.next.rest.length)) ∨
      ∃ b c, read rules d part s = .ok b ∧ read rules d (many part) b.next = .ok c ∧
        a = ⟨b.trees ++ c.trees, c.next⟩ := by
  cases depth with
  | zero => cases h
  | succ depth =>
    rw [read_many] at h
    refine ⟨depth, Nat.lt_succ_self depth, ?_⟩
    split at h
    · next hmismatch =>
      cases h
      exact .inl ⟨rfl, .inl hmismatch⟩
    · cases h
    · next b hb =>
      split at h
      · split at h
        · cases h
        · next c hc =>
          cases h
          exact .inr ⟨b, c, hb, hc, rfl⟩
      · next hshort =>
        cases h
        exact .inl ⟨rfl, .inr ⟨b, hb, Nat.le_of_not_lt hshort⟩⟩

theorem of_read_absent {part : Peg ι κ} (h : read rules depth (absent part) s = .ok a) :
    a = ⟨[], s⟩ ∧ ∃ d < depth, ∃ stop, stop ≠ .tooDeep ∧ read rules d part s = .error stop := by
  cases depth with
  | zero => cases h
  | succ depth =>
    rw [read_absent] at h
    split at h
    · cases h
    · next stop hdeep hstop =>
      cases h
      exact ⟨rfl, depth, Nat.lt_succ_self depth, stop, fun h => hdeep h, hstop⟩
    · cases h

theorem of_read_node {kind : κ} {part : Peg ι κ} (h : read rules depth (node kind part) s = .ok a) :
    ∃ d < depth, ∃ b, read rules d part s = .ok b ∧
      a = ⟨[.node kind ⟨s.pos, b.next.pos⟩ b.trees], b.next⟩ := by
  cases depth with
  | zero => cases h
  | succ depth =>
    rw [read_node] at h
    split at h
    · cases h
    · next b hb =>
      cases h
      exact ⟨depth, Nat.lt_succ_self depth, b, hb, rfl⟩

theorem of_read_commit {part : Peg ι κ} (h : read rules depth (commit part) s = .ok a) :
    ∃ d < depth, read rules d part s = .ok a := by
  cases depth with
  | zero => cases h
  | succ depth =>
    rw [read_commit] at h
    refine ⟨depth, Nat.lt_succ_self depth, ?_⟩
    split at h
    · cases h
    · exact h

/-- What readings are made of. Which alternative is taken and where a repetition ends is left
    open, so there may be more of these than readings. -/
inductive Made (rules : ι → Peg ι κ) : Peg ι κ → Cursor → Reading κ → Prop
  | nothing (s : Cursor) : Made rules nothing s ⟨[], s⟩
  | text {cs : List Char} {s next : Cursor} (hpass : Passes s next cs) :
    Made rules (text cs) s ⟨[], next⟩
  | one {isIn : Char → Bool} {s next : Cursor} {c : Char} (hin : isIn c = true)
    (hpass : Passes s next [c]) : Made rules (one isIn) s ⟨[], next⟩
  | run {isIn : Char → Bool} {accepts : List Char → Bool} {s next : Cursor} {taken : List Char}
    (hne : taken ≠ []) (hin : ∀ c ∈ taken, isIn c = true) (hpass : Passes s next taken) :
    Made rules (run isIn accepts) s ⟨[], next⟩
  | rule {name : ι} {s : Cursor} {a : Reading κ} (h : Made rules (rules name) s a) :
    Made rules (rule name) s a
  | seq {first second : Peg ι κ} {s : Cursor} {a b : Reading κ} (ha : Made rules first s a)
    (hb : Made rules second a.next b) : Made rules (seq first second) s ⟨a.trees ++ b.trees, b.next⟩
  | left {first : Peg ι κ} (second : Peg ι κ) {s : Cursor} {a : Reading κ}
    (h : Made rules first s a) : Made rules (choice first second) s a
  | right (first : Peg ι κ) {second : Peg ι κ} {s : Cursor} {a : Reading κ}
    (h : Made rules second s a) : Made rules (choice first second) s a
  | done (part : Peg ι κ) (s : Cursor) : Made rules (many part) s ⟨[], s⟩
  | more {part : Peg ι κ} {s : Cursor} {a b : Reading κ} (ha : Made rules part s a)
    (hb : Made rules (many part) a.next b) : Made rules (many part) s ⟨a.trees ++ b.trees, b.next⟩
  | absent (part : Peg ι κ) (s : Cursor) : Made rules (absent part) s ⟨[], s⟩
  | node (kind : κ) {part : Peg ι κ} {depth : Nat} {s : Cursor} {a : Reading κ}
    (hread : read rules depth part s = .ok a) (h : Made rules part s a) :
    Made rules (node kind part) s ⟨[.node kind ⟨s.pos, a.next.pos⟩ a.trees], a.next⟩
  | commit {part : Peg ι κ} {s : Cursor} {a : Reading κ} (h : Made rules part s a) :
    Made rules (commit part) s a

/-- Readings are made of readings of the parts, by induction on the depth. -/
theorem made_of_read {part : Peg ι κ} (h : read rules depth part s = .ok a) :
    Made rules part s a := by
  -- on the depth: a rule is no part of the expression that names it, but it is read less deep
  induction depth using Nat.strongRecOn generalizing part s a with
  | ind depth ih =>
    cases part with
    | nothing =>
      obtain rfl := of_read_nothing h
      exact .nothing s
    | text cs =>
      obtain ⟨trees, next⟩ := a
      obtain ⟨rfl, hpass⟩ := of_read_text h
      exact .text hpass
    | one isIn =>
      obtain ⟨trees, next⟩ := a
      obtain ⟨c, hin, rfl, hpass⟩ := of_read_one h
      exact .one hin hpass
    | run isIn accepts =>
      obtain ⟨trees, next⟩ := a
      obtain ⟨taken, -, hne, hin, -, rfl, hpass⟩ := of_read_run h
      exact .run hne hin hpass
    | rule name =>
      obtain ⟨d, hd, hread⟩ := of_read_rule h
      exact .rule (ih d hd hread)
    | seq first second =>
      obtain ⟨d, hd, b, c, hb, hc, rfl⟩ := of_read_seq h
      exact .seq (ih d hd hb) (ih d hd hc)
    | choice first second =>
      obtain ⟨d, hd, hread | hread⟩ := of_read_choice h
      · exact .left second (ih d hd hread)
      · exact .right first (ih d hd hread)
    | many part =>
      obtain ⟨d, hd, ⟨rfl, -⟩ | ⟨b, c, hb, hc, rfl⟩⟩ := of_read_many h
      · exact .done part s
      · exact .more (ih d hd hb) (ih d hd hc)
    | absent part =>
      obtain ⟨rfl, -⟩ := of_read_absent h
      exact .absent part s
    | node kind part =>
      obtain ⟨d, hd, b, hb, rfl⟩ := of_read_node h
      exact .node kind hb (ih d hd hb)
    | commit part =>
      obtain ⟨d, hd, hread⟩ := of_read_commit h
      exact .commit (ih d hd hread)

/-! ### What an expression shows of its readings -/

/-- Nothing is read backwards. -/
theorem Made.pos_le {part : Peg ι κ} (h : Made rules part s a) : s.pos ≤ a.next.pos := by
  induction h with
  | nothing | done | absent => exact Nat.le_refl _
  | text hpass => exact hpass.pos_le
  | one _ hpass => exact hpass.pos_le
  | run _ _ hpass => exact hpass.pos_le
  | rule _ ih | left _ _ ih | right _ _ ih | node _ _ _ ih | commit _ ih => exact ih
  | seq _ _ iha ihb => exact Nat.le_trans iha ihb
  | more _ _ iha ihb => exact Nat.le_trans iha ihb

/-- What is read stands between its ends. -/
theorem within_of_read {part : Peg ι κ} (h : read rules depth part s = .ok a) :
    Tree.AmongWithin s.pos a.next.pos a.trees := by
  replace h := made_of_read h
  induction h with
  | nothing | done | absent => exact Nat.le_refl _
  | text hpass => exact hpass.pos_le
  | one _ hpass => exact hpass.pos_le
  | run _ _ hpass => exact hpass.pos_le
  | rule _ ih => exact ih
  | seq _ _ iha ihb => exact iha.append ihb
  | left _ _ ih => exact ih
  | right _ _ ih => exact ih
  | more _ _ iha ihb => exact iha.append ihb
  | node kind hread _ ih =>
    exact ⟨⟨⟨Nat.le_refl _, (made_of_read hread).pos_le, Nat.le_refl _⟩, ih⟩, Nat.le_refl _⟩
  | commit _ ih => exact ih

/-- Every reading leaves only trees with certain marks, if those of the known rules do. -/
def Tops (known : ι → Prop) (Q : κ → Prop) : Peg ι κ → Prop
  | rule name => known name
  | node kind _ => Q kind
  | seq first second | choice first second => Tops known Q first ∧ Tops known Q second
  | many part | commit part => Tops known Q part
  | nothing | text _ | one _ | run _ _ | absent _ => True

section
variable {part : Peg ι κ} {known : ι → Prop} {Q : κ → Prop}

theorem tops_of_read (hknown : ∀ name, known name → (rules name).Tops known Q)
    (hpart : part.Tops known Q) (h : read rules depth part s = .ok a) :
    ∀ t ∈ a.trees, Q t.label := by
  replace h := made_of_read h
  induction h with
  | nothing | text | one | run | done | absent => exact List.forall_mem_nil _
  | rule _ ih => exact ih (hknown _ hpart)
  | seq _ _ iha ihb => exact List.forall_mem_append.2 ⟨iha hpart.1, ihb hpart.2⟩
  | left _ _ ih => exact ih hpart.1
  | right _ _ ih => exact ih hpart.2
  | more _ _ iha ihb => exact List.forall_mem_append.2 ⟨iha hpart, ihb hpart⟩
  | node kind _ _ _ =>
    rw [List.forall_mem_singleton]
    exact hpart
  | commit _ ih => exact ih hpart

/-- An expression without marks leaves no trees. -/
theorem trees_of_read (hknown : ∀ name, known name → (rules name).Tops known fun _ => False)
    (hpart : part.Tops known fun _ => False) (h : read rules depth part s = .ok a) :
    a.trees = [] :=
  List.eq_nil_iff_forall_not_mem.2 (tops_of_read hknown hpart h)

end

/-! ### Marked parts -/

/-- What holds of every part of an expression that has a mark; rules are not looked into. -/
def Marks (P : κ → Peg ι κ → Prop) : Peg ι κ → Prop
  | node kind part => P kind part ∧ Marks P part
  | seq first second | choice first second => Marks P first ∧ Marks P second
  | many part | absent part | commit part => Marks P part
  | nothing | text _ | one _ | run _ _ | rule _ => True

/-- A marked part is what was read along its span, at a place or behind it. -/
def MarkedAt (rules : ι → Peg ι κ) (P : κ → Peg ι κ → Prop) (s : Cursor) (t : Tree κ) : Prop :=
  ∃ part depth before reading skipped, P t.label part ∧ Passes s before skipped ∧
    read rules depth part before = .ok reading ∧ t.span = ⟨before.pos, reading.next.pos⟩ ∧
    t.children = reading.trees

/-- A reading takes the characters at its place, and what it marks comes from there. -/
structure Sound (rules : ι → Peg ι κ) (P : κ → Peg ι κ → Prop) (s : Cursor) (a : Reading κ) :
    Prop where
  passes : ∃ taken, Passes s a.next taken
  trees : ∀ t ∈ Tree.subtreesAmong a.trees, MarkedAt rules P s t

namespace Sound

variable {P : κ → Peg ι κ → Prop} {b : Reading κ}

theorem plain (h : a.trees = []) {taken : List Char} (hpass : Passes s a.next taken) :
    Sound rules P s a :=
  ⟨⟨taken, hpass⟩, by rw [h]; exact List.forall_mem_nil _⟩

theorem empty : Sound rules P s ⟨[], s⟩ := plain rfl (.nil s)

theorem append (ha : Sound rules P s a) (hb : Sound rules P a.next b) :
    Sound rules P s ⟨a.trees ++ b.trees, b.next⟩ := by
  obtain ⟨taken, htaken⟩ := ha.passes
  obtain ⟨more, hmore⟩ := hb.passes
  refine ⟨⟨taken ++ more, htaken.append hmore⟩, fun t ht => ?_⟩
  rw [Tree.subtreesAmong_append] at ht
  rcases List.mem_append.1 ht with ht | ht
  · exact ha.trees t ht
  · obtain ⟨part, depth, before, reading, skipped, hP, hskipped, hread⟩ := hb.trees t ht
    exact ⟨part, depth, before, reading, taken ++ skipped, hP, htaken.append hskipped, hread⟩

theorem node {kind : κ} {part : Peg ι κ} (hP : P kind part)
    (hread : read rules depth part s = .ok a) (h : Sound rules P s a) :
    Sound rules P s ⟨[.node kind ⟨s.pos, a.next.pos⟩ a.trees], a.next⟩ := by
  refine ⟨h.passes, fun t ht => ?_⟩
  simp only [Tree.subtreesAmong, Tree.subtrees, List.append_nil] at ht
  rcases List.mem_cons.1 ht with rfl | ht
  · exact ⟨part, depth, s, a, [], hP, .nil s, hread, rfl, rfl⟩
  · exact h.trees t ht

end Sound

section
variable {P : κ → Peg ι κ → Prop} {part : Peg ι κ}

/-- What is read is sound. -/
theorem sound_of_read (hrules : ∀ name, (rules name).Marks P) (hpart : part.Marks P)
    (h : read rules depth part s = .ok a) : Sound rules P s a := by
  replace h := made_of_read h
  induction h with
  | nothing | done | absent => exact .empty
  | text hpass => exact .plain rfl hpass
  | one _ hpass => exact .plain rfl hpass
  | run _ _ hpass => exact .plain rfl hpass
  | rule _ ih => exact ih (hrules _)
  | seq _ _ iha ihb => exact (iha hpart.1).append (ihb hpart.2)
  | left _ _ ih => exact ih hpart.1
  | right _ _ ih => exact ih hpart.2
  | more _ _ iha ihb => exact (iha hpart).append (ihb hpart)
  | node kind hread _ ih => exact .node hpart.1 hread (ih hpart.2)
  | commit _ ih => exact ih hpart

theorem marks_true (part : Peg ι κ) : part.Marks fun _ _ => True := by
  induction part <;> simp_all [Marks]

/-- A reading takes the characters at its place. -/
theorem passes_of_read (h : read rules depth part s = .ok a) : ∃ taken, Passes s a.next taken :=
  (sound_of_read (P := fun _ _ => True) (fun name => marks_true (rules name)) (marks_true part)
    h).passes

end

end Peg
end RouterShift.Grammar
