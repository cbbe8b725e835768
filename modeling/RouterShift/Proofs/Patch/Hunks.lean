import RouterShift.Patch.Unified
import RouterShift.Proofs.Patch.Script

/-! Hunks and what they do to a text. Hunks apply to a text when each of them finds the lines it
    keeps and deletes at the place that it names; the hunks between two texts apply to the one and
    give the other (`applyHunks_hunksBetween`). Between two changes lie lines that both texts share,
    and unless there are at least six of them, the changes share a hunk. -/

namespace RouterShift.Patch

/-! ### Lines -/

@[simp]
theorem linesOf_newline (cs : List Char) : linesOf ('\n' :: cs) = ['\n'] :: linesOf cs := by
  simp [linesOf]

/-- A character that ends no line belongs to the line that follows. -/
theorem linesOf_cons {c : Char} (hc : c ≠ '\n') (cs : List Char) :
    linesOf (c :: cs) = (c :: (linesOf cs).headD []) :: (linesOf cs).tail := by
  cases cs with
  | nil => simp [linesOf, hc]
  | cons d cs =>
    conv => lhs; unfold linesOf
    cases linesOf (d :: cs) <;> simp [hc]

theorem flatten_linesOf (cs : List Char) : (linesOf cs).flatten = cs := by
  induction cs with
  | nil => rfl
  | cons c cs ih =>
    by_cases hc : c = '\n'
    · simp [hc, ih]
    · rw [linesOf_cons hc]
      cases hlines : linesOf cs with
      | nil => simp_all
      | cons line rest => rw [hlines] at ih; simpa using ih

/-- A line is not empty, and a line feed can only end it. -/
structure IsLine (line : Line) : Prop where
  ne_nil : line ≠ []
  inner : '\n' ∉ line.dropLast

theorem isLine_of_mem_linesOf {cs : List Char} : ∀ line ∈ linesOf cs, IsLine line := by
  induction cs with
  | nil => simp [linesOf]
  | cons c cs ih =>
    intro line hline
    by_cases hc : c = '\n'
    · subst hc
      rw [linesOf_newline] at hline
      rcases List.mem_cons.1 hline with rfl | hline
      · exact ⟨by simp, by simp⟩
      · exact ih line hline
    · rw [linesOf_cons hc] at hline
      rcases List.mem_cons.1 hline with rfl | hline
      · refine ⟨by simp, ?_⟩
        cases hlines : linesOf cs with
        | nil => simp
        | cons first rest =>
          have hfirst := ih first (by simp [hlines])
          simpa [List.dropLast_cons_of_ne_nil hfirst.ne_nil, Ne.symm hc] using hfirst.inner
      · exact ih line (List.mem_of_mem_tail hline)

/-! ### Applying hunks -/

namespace Entry

def line : Entry → Line
  | .context l | .delete l | .insert l => l

/-- The line as one of the old text. -/
def old : Entry → List Line
  | .context l | .delete l => [l]
  | .insert _ => []

/-- The line as one of the new text. -/
def new : Entry → List Line
  | .context l | .insert l => [l]
  | .delete _ => []

end Entry

/-- Hunks applied to what is left of a text when `i` of its lines have become `j` lines. A hunk
    starts where it says it starts, in both texts, and covers as many lines as it says. -/
def applyFrom (i j : Nat) (lines : List Line) : List Hunk → Option (List Line)
  | [] => some lines
  | h :: more =>
    let kept := lines.take (h.oldStart - i)
    let rest := lines.drop (h.oldStart - i)
    let old := h.entries.flatMap Entry.old
    let new := h.entries.flatMap Entry.new
    if h.oldStart = i + kept.length ∧ h.newStart = j + kept.length ∧ rest.take h.oldLength = old ∧
        old.length = h.oldLength ∧ new.length = h.newLength then
      (applyFrom (h.oldStart + h.oldLength) (h.newStart + h.newLength) (rest.drop h.oldLength)
        more).map fun tail => kept ++ new ++ tail
    else none

/-- A text after hunks; none when one of them does not fit. -/
def applyHunks (hunks : List Hunk) (text : String) : Option String :=
  (applyFrom 0 0 (linesOf text.toList) hunks).map fun lines => String.ofList lines.flatten

/-- What a hunk that applies has lines from. -/
theorem entries_of_applyFrom {hunks : List Hunk} {i j : Nat} {lines result : List Line}
    (h : applyFrom i j lines hunks = some result) :
    ∀ hunk ∈ hunks, (hunk.entries.flatMap Entry.old).length = hunk.oldLength ∧
      (hunk.entries.flatMap Entry.new).length = hunk.newLength ∧
      ∀ e ∈ hunk.entries, e.line ∈ lines ∨ e.line ∈ result := by
  induction hunks generalizing i j lines result with
  | nil => simp
  | cons first more ih =>
    simp only [applyFrom, Option.ite_none_right_eq_some, Option.map_eq_some_iff] at h
    obtain ⟨⟨-, -, hold, holdLength, hnewLength⟩, tail, htail, rfl⟩ := h
    intro hunk hmem
    rcases List.mem_cons.1 hmem with rfl | hmem
    · refine ⟨holdLength, hnewLength, fun e he => ?_⟩
      cases e with
      | context l | delete l =>
        left
        have : l ∈ hunk.entries.flatMap Entry.old :=
          List.mem_flatMap.2 ⟨_, he, List.mem_singleton_self l⟩
        rw [← hold] at this
        exact List.mem_of_mem_drop (List.mem_of_mem_take this)
      | insert l =>
        right
        have : l ∈ hunk.entries.flatMap Entry.new :=
          List.mem_flatMap.2 ⟨_, he, List.mem_singleton_self l⟩
        simp [Entry.line, this]
    · obtain ⟨h1, h2, h3⟩ := ih htail hunk hmem
      refine ⟨h1, h2, fun e he => (h3 e he).imp (fun hl => ?_) fun hr => by simp [hr]⟩
      exact List.mem_of_mem_drop (List.mem_of_mem_drop hl)

/-! ### Ranges of lines -/

theorem range_append_drop {α : Type} (l : List α) {a b : Nat} (hab : a ≤ b) :
    range l a b ++ l.drop b = l.drop a := by
  have hcut := List.take_append_drop (b - a) (l.drop a)
  rwa [List.drop_drop, Nat.add_sub_cancel' hab, ← List.drop_take] at hcut

theorem range_append {α : Type} (l : List α) {a b c : Nat} (hab : a ≤ b) (hbc : b ≤ c) :
    range l a b ++ range l b c = range l a c := by
  have hcut := range_append_drop (l.take c) hab
  rwa [range, List.take_take, Nat.min_eq_left hbc] at hcut

theorem length_range {α : Type} {l : List α} {a b : Nat} (hb : b ≤ l.length) :
    (range l a b).length = b - a := by
  simp [range, hb]

theorem take_drop_eq_range {α : Type} (l : List α) (a n : Nat) :
    (l.drop a).take n = range l a (a + n) := by
  rw [range, List.drop_take]; simp

/-- The next lines of two texts are the same, `n` of them. -/
def Agree (old new : List Line) (i j n : Nat) : Prop := ∀ k < n, old[i + k]? = new[j + k]?

theorem Agree.range_eq {old new : List Line} {i j n : Nat} (h : Agree old new i j n) :
    range old i (i + n) = range new j (j + n) := by
  apply List.ext_getElem?
  intro k
  simp only [range, List.getElem?_drop, List.getElem?_take]
  by_cases hk : k < n
  · simp [hk, h k hk]
  · simp [hk]

/-! ### Changes of two texts -/

/-- A change of lines after `i` and `j` lines: at least `gap` lines that both texts share lie before
    it. -/
structure Follows (old new : List Line) (gap i j : Nat) (c : Change) : Prop where
  gap_le : i + gap ≤ c.oldStart
  level : c.newStart + i = c.oldStart + j
  agree : Agree old new i j (c.oldStart - i)
  old_le : c.oldStart ≤ c.oldStop
  new_le : c.newStart ≤ c.newStop
  old_length : c.oldStop ≤ old.length
  new_length : c.newStop ≤ new.length

/-- A change of more lines. -/
theorem Follows.widen {old new : List Line} {gap i j : Nat} {c : Change}
    (h : Follows old new gap i j c) {a b : Nat} (hold : c.oldStop + a ≤ old.length)
    (hnew : c.newStop + b ≤ new.length) :
    Follows old new gap i j { c with oldStop := c.oldStop + a, newStop := c.newStop + b } :=
  { h with
    old_le := Nat.le_add_right_of_le h.old_le
    new_le := Nat.le_add_right_of_le h.new_le
    old_length := hold
    new_length := hnew }

/-- Changes one after the other, with lines between them, and nothing else that differs. -/
def Aligned (old new : List Line) (gap i j : Nat) : List Change → Prop
  | [] => old.drop i = new.drop j
  | c :: rest => Follows old new gap i j c ∧ Aligned old new 1 c.oldStop c.newStop rest

section Alignment

variable {old new : List Line} {gap i j n : Nat} {changes : List Change}

theorem agree_of_drop_eq (h : old.drop i = new.drop j) (n : Nat) : Agree old new i j n := by
  intro k _
  simpa only [List.getElem?_drop] using congrArg (fun l : List Line => l[k]?) h

/-- Lines up to the next change are the same. -/
theorem Aligned.agree (h : Aligned old new gap i j changes) (hn : n ≤ gap) :
    Agree old new i j n := by
  cases changes with
  | nil => exact agree_of_drop_eq h n
  | cons c rest => exact fun k hk => h.1.agree k (by have := h.1.gap_le; omega)

/-- What is left of the gap after some of its lines. -/
theorem Aligned.advance (h : Aligned old new (gap + n) i j changes) :
    Aligned old new gap (i + n) (j + n) changes := by
  cases changes with
  | nil =>
    have h : old.drop i = new.drop j := h
    rw [Aligned, ← List.drop_drop, ← List.drop_drop, h]
  | cons c rest =>
    obtain ⟨hc, hrest⟩ := h
    have := hc.gap_le
    refine ⟨⟨by omega, by have := hc.level; omega, fun k hk => ?_, hc.old_le, hc.new_le,
      hc.old_length, hc.new_length⟩, hrest⟩
    simpa only [Nat.add_assoc] using hc.agree (n + k) (by omega)

theorem Aligned.mono {gap' : Nat} (h : Aligned old new gap i j changes) (hle : gap' ≤ gap) :
    Aligned old new gap' i j changes := by
  cases changes with
  | nil => exact h
  | cons c rest => exact ⟨{ h.1 with gap_le := by have := h.1.gap_le; omega }, h.2⟩

end Alignment

/-- A script on its way, `i` and `j` lines from the start: since `p` and `q` lines it has kept all
    lines, or is in the middle of a change that follows them. -/
def Pending (old new : List Line) (gap p q i j : Nat) : Option Change → Prop
  | none => p + gap ≤ i ∧ j + p = i + q ∧ Agree old new p q (i - p)
  | some c => Follows old new gap p q c ∧ c.oldStop = i ∧ c.newStop = j

section Script

variable {old new l restOld restNew : List Line} {gap p q i j : Nat} {opened : Option Change}

/-- The change that the next edit belongs to. -/
theorem Pending.change (h : Pending old new gap p q i j opened) (hi : i ≤ old.length)
    (hj : j ≤ new.length) :
    Follows old new gap p q (opened.getD ⟨i, i, j, j⟩) ∧
      (opened.getD ⟨i, i, j, j⟩).oldStop = i ∧ (opened.getD ⟨i, i, j, j⟩).newStop = j := by
  cases opened with
  | none =>
    obtain ⟨hgap, hlevel, hagree⟩ := h
    exact ⟨⟨hgap, hlevel, hagree, Nat.le_refl i, Nat.le_refl j, hi, hj⟩, rfl, rfl⟩
  | some c => exact h

theorem length_le_of_drop (h : old.drop i = l ++ restOld) (hi : i ≤ old.length) :
    i + l.length ≤ old.length ∧ old.drop (i + l.length) = restOld := by
  constructor
  · have := congrArg List.length h
    simp only [List.length_drop, List.length_append] at this
    omega
  · rw [← List.drop_drop, h, List.drop_left]

theorem Agree.append {n : Nat} (h : Agree old new p q n) (hold : old.drop (p + n) = l ++ restOld)
    (hnew : new.drop (q + n) = l ++ restNew) : Agree old new p q (n + l.length) := by
  intro k hk
  by_cases hlt : k < n
  · exact h k hlt
  · have hat : ∀ {m : List Line} {a : Nat} {rest : List Line}, m.drop (a + n) = l ++ rest →
        m[a + k]? = l[k - n]? := by
      intro m a rest hm
      rw [show a + k = a + n + (k - n) by omega, ← List.getElem?_drop, hm,
        List.getElem?_append_left (by omega)]
    rw [hat hold, hat hnew]

/-- The changes of a script are its edits, and lines that both texts share lie between them. -/
theorem aligned_changesFrom {blocks : List (Block Line)} (hsolid : ∀ b ∈ blocks, b.Solid)
    (hold : old.drop i = blocks.flatMap Block.old) (hnew : new.drop j = blocks.flatMap Block.new)
    (hi : i ≤ old.length) (hj : j ≤ new.length) (h : Pending old new gap p q i j opened) :
    Aligned old new gap p q (changesFrom i j opened blocks) := by
  induction blocks generalizing gap p q i j opened with
  | nil =>
    have hend : old.drop i = new.drop j := hold.trans hnew.symm
    cases opened with
    | none =>
      obtain ⟨hgap, hlevel, hagree⟩ := h
      have hshared := hagree.range_eq
      rw [show p + (i - p) = i by omega, show q + (i - p) = j by omega] at hshared
      show old.drop p = new.drop q
      rw [← range_append_drop old (show p ≤ i by omega),
        ← range_append_drop new (show q ≤ j by omega), hshared, hend]
    | some c =>
      obtain ⟨hc, rfl, rfl⟩ := h
      exact ⟨hc, hend⟩
  | cons b rest ih =>
    have hsolid' : ∀ b ∈ rest, b.Solid := fun b hb => hsolid b (List.mem_cons_of_mem _ hb)
    rw [List.flatMap_cons] at hold hnew
    obtain ⟨hi', hold'⟩ := length_le_of_drop hold hi
    obtain ⟨hj', hnew'⟩ := length_le_of_drop hnew hj
    obtain ⟨hc, holdStop, hnewStop⟩ := h.change hi hj
    cases b with
    | equal l =>
      have hne : l ≠ [] := fun hl => hsolid (.equal l) List.mem_cons_self (by rw [hl])
      have hpos := List.length_pos_iff.2 hne
      simp only [changesFrom]
      cases opened with
      | none =>
        obtain ⟨hgap, hlevel, hagree⟩ := h
        have hmore := hagree.append (l := l) (by rwa [show p + (i - p) = i by omega])
          (by rwa [show q + (i - p) = j by omega])
        refine ih hsolid' hold' hnew' hi' hj' ⟨?_, ?_, ?_⟩
        · omega
        · omega
        · rwa [show i + l.length - p = i - p + l.length by omega]
      | some c =>
        obtain ⟨hc, rfl, rfl⟩ := h
        refine ⟨hc, ih hsolid' hold' hnew' hi' hj' ⟨by omega, by omega, ?_⟩⟩
        have hzero : Agree old new c.oldStop c.newStop 0 := fun k hk => absurd hk (by omega)
        simpa using hzero.append (l := l) hold hnew
    | delete l =>
      simp only [changesFrom]
      generalize opened.getD ⟨i, i, j, j⟩ = c at hc holdStop hnewStop
      subst holdStop hnewStop
      exact ih hsolid' hold' hnew' hi' hj' ⟨hc.widen hi' hj', rfl, rfl⟩
    | insert l =>
      simp only [changesFrom]
      generalize opened.getD ⟨i, i, j, j⟩ = c at hc holdStop hnewStop
      subst holdStop hnewStop
      exact ih hsolid' hold' hnew' hi' hj' ⟨hc.widen hi' hj', rfl, rfl⟩

end Script

/-! ### Gathering changes -/

/-- Entries that have the lines of one range of the old text and of one of the new text. -/
structure Covers (old new : List Line) (entries : List Entry) (a b c d : Nat) : Prop where
  old_eq : entries.flatMap Entry.old = range old a b
  new_eq : entries.flatMap Entry.new = range new c d

section Gathering

variable {old new : List Line} {gap i j n : Nat} {c : Change} {changes : List Change}

theorem Covers.append {es fs : List Entry} {a b c d b' d' : Nat} (h : Covers old new es a b c d)
    (h' : Covers old new fs b b' d d') (hab : a ≤ b) (hb : b ≤ b') (hcd : c ≤ d) (hd : d ≤ d') :
    Covers old new (es ++ fs) a b' c d' where
  old_eq := by rw [List.flatMap_append, h.old_eq, h'.old_eq, range_append old hab hb]
  new_eq := by rw [List.flatMap_append, h.new_eq, h'.new_eq, range_append new hcd hd]

/-- Lines of context are lines of both texts. -/
theorem covers_context (h : Agree old new i j n) :
    Covers old new ((range new j (j + n)).map .context) i (i + n) j (j + n) := by
  have hsame : ∀ lines : List Line, (lines.map Entry.context).flatMap Entry.old = lines ∧
      (lines.map Entry.context).flatMap Entry.new = lines := fun lines => by
    simp [List.flatMap_map, Entry.old, Entry.new]
  exact ⟨by rw [(hsame _).1, h.range_eq], (hsame _).2⟩

theorem covers_entries (c : Change) :
    Covers old new (c.entries old new) c.oldStart c.oldStop c.newStart c.newStop := by
  constructor <;> simp [Change.entries, List.flatMap_map, Entry.old, Entry.new]

/-- A change that does not join the one before lies at least six lines behind it. -/
theorem Aligned.apart {next : Change} {rest : List Change}
    (h : Aligned old new 1 c.oldStop c.newStop (next :: rest))
    (hapart : ¬ min next.oldStart (old.length - 1) - contextLength <
      c.oldStop + contextAfter old new c) :
    Aligned old new (2 * contextLength) c.oldStop c.newStop (next :: rest) := by
  obtain ⟨hnext, hrest⟩ := h
  refine ⟨{ hnext with gap_le := ?_ }, hrest⟩
  obtain ⟨hgap, hlevel, _, hold, hnew, holdLength, hnewLength⟩ := hnext
  simp only [contextAfter, contextLength] at *
  omega

/-- What gathering makes of a change and those that join it, up to the change `last`. -/
structure Gathered (old new : List Line) (c : Change) (entries : List Entry) (last : Change)
    (more : List Change) : Prop where
  covers : Covers old new entries c.oldStart last.oldStop c.newStart last.newStop
  old_le : c.oldStop ≤ last.oldStop
  new_le : c.newStop ≤ last.newStop
  old_length : last.oldStop ≤ old.length
  new_length : last.newStop ≤ new.length
  more : Aligned old new (2 * contextLength) last.oldStop last.newStop more

theorem gathered (hc : Follows old new gap i j c)
    (h : Aligned old new 1 c.oldStop c.newStop changes) :
    Gathered old new c (gather old new c changes).1 (gather old new c changes).2.1
      (gather old new c changes).2.2 := by
  induction changes generalizing gap i j c with
  | nil =>
    exact ⟨covers_entries c, Nat.le_refl _, Nat.le_refl _, hc.old_length, hc.new_length, h⟩
  | cons next rest ih =>
    simp only [gather]
    split
    · obtain ⟨hnext, hrest⟩ := h
      have hmore := ih hnext hrest
      generalize gather old new next rest = g at hmore
      obtain ⟨entries, last, more⟩ := g
      obtain ⟨hcover, holdLe, hnewLe, holdLength, hnewLength, hmore⟩ := hmore
      obtain ⟨hgap, hlevel, hagree, hold, hnew, -, -⟩ := hnext
      have hnextOld : c.oldStop + (next.oldStart - c.oldStop) = next.oldStart := by omega
      have hnextNew : c.newStop + (next.oldStart - c.oldStop) = next.newStart := by omega
      have hjoined := covers_context hagree
      rw [hnextOld, hnextNew] at hjoined
      dsimp only at *
      refine ⟨?_, by omega, by omega, holdLength, hnewLength, hmore⟩
      rw [show min (next.oldStart - c.oldStop) (next.newStart - c.newStop) =
        next.oldStart - c.oldStop by omega, hnextNew]
      exact ((covers_entries c).append hjoined hc.old_le (by omega) hc.new_le (by omega)).append
        hcover (by have := hc.old_le; omega) (by omega) (by have := hc.new_le; omega) (by omega)
    · exact ⟨covers_entries c, Nat.le_refl _, Nat.le_refl _, hc.old_length, hc.new_length,
        h.apart ‹_›⟩

end Gathering

/-! ### The hunks between two texts -/

/-- One hunk: up to it both texts agree, and its entries have the lines of both. -/
theorem applyFrom_cons {old new : List Line} {p q : Nat} {hunk : Hunk} {more : List Hunk}
    (hle : p ≤ hunk.oldStart) (hlevel : hunk.newStart + p = hunk.oldStart + q)
    (hagree : Agree old new p q (hunk.oldStart - p))
    (hcover : Covers old new hunk.entries hunk.oldStart (hunk.oldStart + hunk.oldLength)
      hunk.newStart (hunk.newStart + hunk.newLength))
    (hold : hunk.oldStart + hunk.oldLength ≤ old.length)
    (hnew : hunk.newStart + hunk.newLength ≤ new.length)
    (hmore : applyFrom (hunk.oldStart + hunk.oldLength) (hunk.newStart + hunk.newLength)
      (old.drop (hunk.oldStart + hunk.oldLength)) more =
        some (new.drop (hunk.newStart + hunk.newLength))) :
    applyFrom p q (old.drop p) (hunk :: more) = some (new.drop q) := by
  have hkept : (old.drop p).take (hunk.oldStart - p) = range new q hunk.newStart := by
    rw [take_drop_eq_range, hagree.range_eq]
    congr 1; omega
  have hrest : (old.drop p).drop (hunk.oldStart - p) = old.drop hunk.oldStart := by
    rw [List.drop_drop]; congr 1; omega
  have hkeptLength : (range new q hunk.newStart).length = hunk.oldStart - p := by
    rw [length_range (by omega)]; omega
  have holdLength : (hunk.entries.flatMap Entry.old).length = hunk.oldLength := by
    rw [hcover.old_eq, length_range hold]; omega
  have hnewLength : (hunk.entries.flatMap Entry.new).length = hunk.newLength := by
    rw [hcover.new_eq, length_range hnew]; omega
  simp only [applyFrom, hkept, hrest, hkeptLength]
  rw [if_pos ⟨by omega, by omega, by rw [take_drop_eq_range, hcover.old_eq], holdLength,
    hnewLength⟩, List.drop_drop, hmore, Option.map_some, hcover.new_eq,
    range_append new (by omega) (by omega), range_append_drop new (by omega)]

theorem applyFrom_hunks {old new : List Line} {changes : List Change} {gap p q : Nat}
    (h : Aligned old new gap p q changes) (hroom : p = 0 ∧ q = 0 ∨ contextLength ≤ gap) :
    applyFrom p q (old.drop p) (hunks old new changes) = some (new.drop q) := by
  fun_induction hunks old new changes generalizing gap p q
  case case1 => exact congrArg some h
  case case2 c rest entries last more hgather _ oldStart newStart after before behind ih =>
    obtain ⟨hc, hrest⟩ := h
    have hg := gathered hc hrest
    rw [hgather] at hg
    obtain ⟨hcover, holdLe, hnewLe, holdLength, hnewLength, hmore⟩ := hg
    dsimp only at hcover holdLe hnewLe holdLength hnewLength hmore
    obtain ⟨hgap, hlevel, hagree, hold, hnew, -, -⟩ := hc
    have hafter : after ≤ contextLength ∧ after ≤ old.length - last.oldStop ∧
        after ≤ new.length - last.newStop := by
      simp only [after, contextAfter]; omega
    -- context before the first change, and after the last
    have hstart : p ≤ oldStart ∧ newStart + p = oldStart + q ∧
        c.oldStart - oldStart = c.newStart - newStart := by
      simp only [oldStart, newStart, contextLength] at *; omega
    have hbefore : Covers old new before oldStart c.oldStart newStart c.newStart := by
      have hlead : Agree old new oldStart newStart (c.oldStart - oldStart) := fun k hk => by
        have := hagree (oldStart - p + k) (by omega)
        rwa [show p + (oldStart - p + k) = oldStart + k by omega,
          show q + (oldStart - p + k) = newStart + k by omega] at this
      have := covers_context hlead
      rwa [show oldStart + (c.oldStart - oldStart) = c.oldStart by omega,
        show newStart + (c.oldStart - oldStart) = c.newStart by omega] at this
    have hbehind : Covers old new behind last.oldStop (last.oldStop + after) last.newStop
        (last.newStop + after) :=
      covers_context (hmore.agree (by simp only [contextLength] at *; omega))
    have hentries := (hbefore.append hcover (by omega) (by omega) (by omega) (by omega)).append
      hbehind (by omega) (by omega) (by omega) (by omega)
    have hnear : Aligned old new (contextLength + after) last.oldStop last.newStop more :=
      hmore.mono (by omega)
    have holdStop : oldStart + (last.oldStop + after - oldStart) = last.oldStop + after := by omega
    have hnewStop : newStart + (last.newStop + after - newStart) = last.newStop + after := by omega
    refine applyFrom_cons hstart.1 hstart.2.1 ?_ ?_ ?_ ?_ ?_
    · exact fun k hk => hagree k (by dsimp only at hk; omega)
    · simpa only [holdStop, hnewStop] using hentries
    · simp only [holdStop]; omega
    · simp only [hnewStop]; omega
    · simpa only [holdStop, hnewStop] using ih hnear.advance (.inr (Nat.le_refl _))

theorem aligned_script (old new : List Line) :
    Aligned old new 0 0 0 (changesFrom 0 0 none (compact (script old new))) := by
  have hlead := leads_compact (leads_script old new)
  have hstart : Pending old new 0 0 0 0 0 none :=
    ⟨Nat.le_refl 0, rfl, fun k hk => absurd hk (by omega)⟩
  exact aligned_changesFrom hlead.solid hlead.old_eq.symm hlead.new_eq.symm (Nat.zero_le _)
    (Nat.zero_le _) hstart

theorem applyFrom_hunksBetween (before after : String) :
    applyFrom 0 0 (linesOf before.toList) (hunksBetween before after) =
      some (linesOf after.toList) :=
  applyFrom_hunks (aligned_script _ _) (.inl ⟨rfl, rfl⟩)

/-- The hunks between two texts apply to the one and give the other. -/
theorem applyHunks_hunksBetween (before after : String) :
    applyHunks (hunksBetween before after) before = some after := by
  simp [applyHunks, applyFrom_hunksBetween, flatten_linesOf]

/-- Texts that differ have a hunk between them. -/
theorem hunksBetween_ne_nil {before after : String} (h : before ≠ after) :
    hunksBetween before after ≠ [] := by
  intro hnil
  have happly := applyHunks_hunksBetween before after
  rw [hnil] at happly
  refine h ?_
  simpa [applyHunks, applyFrom, flatten_linesOf] using happly

/-- A hunk that counts its lines right. -/
structure Hunk.WellFormed (h : Hunk) : Prop where
  old_length : (h.entries.flatMap Entry.old).length = h.oldLength
  new_length : (h.entries.flatMap Entry.new).length = h.newLength
  lines : ∀ e ∈ h.entries, IsLine e.line

theorem wellFormed_of_mem_hunksBetween {before after : String} {hunk : Hunk}
    (h : hunk ∈ hunksBetween before after) : hunk.WellFormed := by
  obtain ⟨hold, hnew, hlines⟩ := entries_of_applyFrom (applyFrom_hunksBetween before after) hunk h
  exact ⟨hold, hnew, fun e he =>
    (hlines e he).elim (isLine_of_mem_linesOf _) (isLine_of_mem_linesOf _)⟩

end RouterShift.Patch
