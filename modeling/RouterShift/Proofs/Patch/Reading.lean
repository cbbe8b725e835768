import Mathlib.Data.List.Forall2
import RouterShift.Proofs.Patch.Hunks
import RouterShift.Proofs.Text.Cursor
import RouterShift.Proofs.Text.Number

/-! A preview read as a unified diff. The reader counts the lines of a hunk as its heading says and
    looks at nothing but their first characters, so what a line says after its sign can not mislead
    it. The section of a change reads as hunks that lead from the text before to the text after
    (`render_reads`). -/

namespace RouterShift.Patch
open Text (afterStart? beforeEnd? afterStart?_eq_some isDigit)

/-! ### The format -/

/-- A number, and what follows it. -/
def number? (cs : List Char) : Option (Nat × List Char) :=
  let digits := cs.takeWhile isDigit
  if digits = [] then none else some (Text.valueOf digits, cs.dropWhile isDigit)

/-- A range: the line where it starts, counted from one, and its length, which is one if it does not
    say. A range without lines names the line before it. -/
def range? (cs : List Char) : Option ((Nat × Nat) × List Char) := do
  let (start, rest) ← number? cs
  let (length, rest) ← match rest with
    | ',' :: rest => number? rest
    | _ => some (1, rest)
  return ((if length = 0 then start else start - 1, length), rest)

/-- The ranges of a hunk in the old and the new text, from its first line. -/
def ranges? (line : Line) : Option ((Nat × Nat) × Nat × Nat) := do
  let rest ← afterStart? "@@ -".toList line
  let (old, rest) ← range? rest
  let rest ← afterStart? " +".toList rest
  let (new, rest) ← range? rest
  let _ ← afterStart? " @@".toList rest
  return (old, new)

/-- A line of a hunk, told by its sign; an empty line of context may lack it. -/
def entry? : Line → Option Entry
  | ' ' :: line => some (.context line)
  | '-' :: line => some (.delete line)
  | '+' :: line => some (.insert line)
  | ['\n'] => some (.context ['\n'])
  | _ => none

/-- The lines of a patch without its markers: a marker takes the line feed from the line before. -/
def unmark : List Line → List Line
  | line :: ('\\' :: _) :: rest => line.dropLast :: unmark rest
  | line :: rest => line :: unmark rest
  | [] => []

/-- Entries, as many as make up the given numbers of old and new lines. -/
def entries? (old new : Nat) (lines : List Line) : Option (List Entry × List Line) :=
  if old = 0 ∧ new = 0 then some ([], lines)
  else
    match lines with
    | [] => none
    | line :: rest => do
      let e ← entry? line
      if e.old.length ≤ old ∧ e.new.length ≤ new then
        let (es, rest) ← entries? (old - e.old.length) (new - e.new.length) rest
        return (e :: es, rest)
      else none

theorem length_entries?_le {old new : Nat} {lines rest : List Line} {es : List Entry}
    (h : entries? old new lines = some (es, rest)) : rest.length ≤ lines.length := by
  induction lines generalizing old new es with
  | nil =>
    rw [entries?] at h
    split at h <;> cases h
    exact Nat.le_refl _
  | cons line lines ih =>
    rw [entries?] at h
    split at h
    · cases h; exact Nat.le_refl _
    · simp only [Option.bind_eq_bind, Option.bind_eq_some_iff, Option.ite_none_right_eq_some,
        Prod.exists, pure, Option.some.injEq, Prod.mk.injEq] at h
      obtain ⟨_, _, _, _, _, hmore, -, rfl⟩ := h
      exact Nat.le_succ_of_le (ih hmore)

/-- Hunks, one after the other, as far as lines go on with the mark of a hunk. -/
def hunks? (lines : List Line) : Option (List Hunk × List Line) :=
  match lines with
  | [] => some ([], [])
  | line :: rest =>
    if (afterStart? hunkMark.toList line).isNone then some ([], line :: rest)
    else
      match ranges? line with
      | none => none
      | some (old, new) =>
        match h : entries? old.2 new.2 rest with
        | none => none
        | some (entries, rest') =>
          have : rest'.length < (line :: rest).length :=
            Nat.lt_succ_of_le (length_entries?_le h)
          (hunks? rest').map fun (more, rest) =>
            (⟨old.1, old.2, new.1, new.2, entries⟩ :: more, rest)
termination_by lines.length
decreasing_by exact this

/-- The hunks of a text that has nothing else. -/
def readHunks (text : String) : Option (List Hunk) :=
  match hunks? (unmark (linesOf text.toList)) with
  | some (hunks, []) => some hunks
  | _ => none

/-- What a patch says about one file. -/
structure Section where
  path : String
  hunks : List Hunk
  deriving DecidableEq

/-- The path that the three lines above the hunks of a section give. -/
def path? (first second third : Line) : Option String := do
  let rest ← afterStart? "--- a/".toList second
  let path ← beforeEnd? ['\n'] rest
  if first = "diff --git a/".toList ++ path ++ " b/".toList ++ path ++ ['\n'] ∧
      third = "+++ b/".toList ++ path ++ ['\n'] then some (String.ofList path)
  else none

theorem length_hunks?_le {lines rest : List Line} {hs : List Hunk}
    (h : hunks? lines = some (hs, rest)) : rest.length ≤ lines.length := by
  fun_induction hunks? lines generalizing hs with
  | case1 | case2 => cases h; exact Nat.le_refl _
  | case3 | case4 => cases h
  | case5 line lines _ old new _ entries rest' hentries hlt ih =>
    obtain ⟨⟨more, rest⟩, hmore, heq⟩ := Option.map_eq_some_iff.1 h
    cases heq
    exact Nat.le_trans (ih hmore) (Nat.le_of_lt hlt)

/-- The sections of a patch. A section has hunks. -/
def sections? (lines : List Line) : Option (List Section) :=
  match lines with
  | [] => some []
  | first :: second :: third :: rest =>
    match path? first second third, h : hunks? rest with
    | some path, some (hunk :: hunks, rest') =>
      have : rest'.length < (first :: second :: third :: rest).length := by
        have := length_hunks?_le h
        simp only [List.length_cons]; omega
      (sections? rest').map (⟨path, hunk :: hunks⟩ :: ·)
    | _, _ => none
  | _ => none
termination_by lines.length
decreasing_by exact this

def readPatch (text : String) : Option (List Section) := sections? (unmark (linesOf text.toList))

/-! ### Lines of a rendered patch -/

section Lines

variable {line : Line} {cs rest : List Char}

/-- A line that ends in front of the rest. -/
theorem linesOf_append (hcs : '\n' ∉ cs) (rest : List Char) :
    linesOf (cs ++ '\n' :: rest) = (cs ++ ['\n']) :: linesOf rest := by
  induction cs with
  | nil => simp
  | cons c cs ih =>
    obtain ⟨hc, hcs⟩ := List.ne_and_not_mem_of_not_mem_cons hcs
    rw [List.cons_append, linesOf_cons hc.symm, ih hcs]
    simp

/-- The first line starts as the text does. -/
theorem head?_of_linesOf (h : (linesOf cs).head? = some line) : line.head? = cs.head? := by
  cases cs with
  | nil => cases h
  | cons c cs =>
    by_cases hc : c = '\n'
    · rw [hc, linesOf_newline] at h; cases h; simp [hc]
    · rw [linesOf_cons hc] at h; cases h; rfl

/-- A line that no marker follows stays as it is. -/
theorem unmark_cons {lines : List Line} (h : ∀ next ∈ lines.head?, next.head? ≠ some '\\') :
    unmark (line :: lines) = line :: unmark lines := by
  rw [unmark]
  rintro tail rest rfl
  exact h _ rfl rfl

/-- A line by itself, in front of text that is not a marker. -/
theorem unmark_linesOf_append (hcs : '\n' ∉ cs) (hrest : rest.head? ≠ some '\\') :
    unmark (linesOf (cs ++ '\n' :: rest)) = (cs ++ ['\n']) :: unmark (linesOf rest) := by
  rw [linesOf_append hcs, unmark_cons]
  intro next hnext
  rwa [head?_of_linesOf hnext]

/-- A rendered line reads as its sign and the line, with or without a line feed. -/
theorem unmark_linesOf_renderLine {sign : List Char} (hsign : '\n' ∉ sign) (hline : IsLine line)
    (hrest : rest.head? ≠ some '\\') :
    unmark (linesOf ((renderLine sign line).toList ++ rest)) =
      (sign ++ line) :: unmark (linesOf rest) := by
  obtain ⟨front, last, rfl⟩ : ∃ front last, line = front ++ [last] :=
    ⟨_, _, (List.dropLast_concat_getLast hline.ne_nil).symm⟩
  have hfront : '\n' ∉ sign ++ front := by
    have hinner := hline.inner
    rw [List.dropLast_concat] at hinner
    simp [hsign, hinner]
  by_cases hlast : last = '\n'
  · subst hlast
    simpa [renderLine] using unmark_linesOf_append hfront hrest
  · have hmarker : '\n' ∉ "\\ No newline at end of file".toList := by decide
    have hfront' : '\n' ∉ sign ++ front ++ [last] := by
      rw [List.mem_append, not_or]
      exact ⟨hfront, by simpa using Ne.symm hlast⟩
    have hlines : linesOf ((renderLine sign (front ++ [last])).toList ++ rest) =
        (sign ++ front ++ [last] ++ ['\n']) ::
          ("\\ No newline at end of file".toList ++ ['\n']) :: linesOf rest := by
      rw [← linesOf_append hmarker, ← linesOf_append hfront']
      simp [renderLine, hlast, missingNewline]
    rw [hlines]
    simp [unmark]

end Lines

/-! ### Entries -/

namespace Entry

/-- The sign in front of a line. -/
def sign : Entry → List Char
  | .context line => if line = ['\n'] then [] else [' ']
  | .delete _ => ['-']
  | .insert _ => ['+']

/-- The line of a patch that an entry is written on. -/
def row (e : Entry) : Line := e.sign ++ e.line

theorem render_eq (e : Entry) : e.render = renderLine e.sign e.line := by
  cases e <;> rfl

theorem newline_not_mem_sign (e : Entry) : '\n' ∉ e.sign := by
  cases e with
  | context line => simp only [sign]; split <;> simp
  | delete line | insert line => simp [sign]

/-- No entry looks like a marker. -/
theorem head?_render (e : Entry) (rest : List Char) :
    (e.render.toList ++ rest).head? ≠ some '\\' := by
  cases e with
  | context line =>
    by_cases hline : line = ['\n'] <;> simp [render, renderLine, hline]
  | delete line | insert line => simp [render, renderLine]

end Entry

theorem entry?_row {e : Entry} (h : IsLine e.line) : entry? e.row = some e := by
  cases e with
  | context line =>
    by_cases hline : line = ['\n']
    · subst hline; rfl
    · simp [Entry.row, Entry.sign, Entry.line, entry?, hline]
  | delete line | insert line => rfl

/-- Entries read back, whatever lines follow. -/
theorem entries?_append {es : List Entry} (h : ∀ e ∈ es, IsLine e.line) (rest : List Line) :
    entries? (es.flatMap Entry.old).length (es.flatMap Entry.new).length
      (es.map Entry.row ++ rest) = some (es, rest) := by
  induction es with
  | nil => cases rest <;> simp [entries?]
  | cons e es ih =>
    have hone : ¬ (e.old.length + (es.flatMap Entry.old).length = 0 ∧
        e.new.length + (es.flatMap Entry.new).length = 0) := by
      cases e <;> simp [Entry.old, Entry.new]
    have hmore := ih fun e he => h e (List.mem_cons_of_mem _ he)
    rw [List.map_cons, List.cons_append, List.flatMap_cons, List.flatMap_cons, List.length_append,
      List.length_append, entries?, if_neg hone]
    simp only [entry?_row (h e List.mem_cons_self), Option.bind_eq_bind, Option.bind_some,
      Nat.le_add_right, and_self, if_true, Nat.add_sub_cancel_left, hmore]
    rfl

theorem head?_renderEntries (es : List Entry) {rest : List Char} (hrest : rest.head? ≠ some '\\') :
    ((String.join (es.map Entry.render)).toList ++ rest).head? ≠ some '\\' := by
  cases es with
  | nil => simpa using hrest
  | cons e es =>
    rw [List.map_cons, String.join_cons, String.toList_append, List.append_assoc]
    exact e.head?_render _

theorem unmark_linesOf_renderEntries {es : List Entry} (h : ∀ e ∈ es, IsLine e.line)
    {rest : List Char} (hrest : rest.head? ≠ some '\\') :
    unmark (linesOf ((String.join (es.map Entry.render)).toList ++ rest)) =
      es.map Entry.row ++ unmark (linesOf rest) := by
  induction es with
  | nil => simp
  | cons e es ih =>
    rw [List.map_cons, String.join_cons, String.toList_append, List.append_assoc, e.render_eq,
      unmark_linesOf_renderLine e.newline_not_mem_sign (h e List.mem_cons_self)
        (head?_renderEntries es hrest),
      ih fun e he => h e (List.mem_cons_of_mem _ he)]
    rfl

/-! ### Headings of hunks -/

theorem number?_append (n : Nat) {rest : List Char} (h : Text.StopsBefore isDigit rest) :
    number? (Nat.toDigits 10 n ++ rest) = some (n, rest) := by
  obtain ⟨htake, hdrop⟩ := Text.takeWhile_append_of_stopsBefore h
    fun c hc => Text.isDigit_of_mem_toDigits (n := n) hc
  simp [number?, htake, hdrop, Nat.toDigits_ne_nil, Text.valueOf_toDigits]

/-- The digits of a range: of its start, and of its length unless it is one. -/
theorem toList_renderRange (start length : Nat) :
    (renderRange start length).toList =
      Nat.toDigits 10 (if length = 0 then start else start + 1) ++
        (if length = 1 then [] else ',' :: Nat.toDigits 10 length) := by
  by_cases hone : length = 1 <;> simp [renderRange, hone, toString]

/-- A rendered range reads back in front of a blank. -/
theorem range?_renderRange (start length : Nat) (rest : List Char) :
    range? ((renderRange start length).toList ++ ' ' :: rest) =
      some ((start, length), ' ' :: rest) := by
  have hblank : Text.StopsBefore isDigit (' ' :: rest) := Text.stopsBefore_cons (by decide)
  rw [toList_renderRange, List.append_assoc, range?]
  by_cases hone : length = 1
  · subst hone
    rw [if_pos rfl, List.nil_append, number?_append _ hblank]
    rfl
  · have hcomma : Text.StopsBefore isDigit (',' :: (Nat.toDigits 10 length ++ ' ' :: rest)) :=
      Text.stopsBefore_cons (by decide)
    rw [if_neg hone, List.cons_append, number?_append _ hcomma]
    simp only [Option.bind_eq_bind, Option.bind_some, number?_append _ hblank]
    by_cases hzero : length = 0 <;> simp [hzero]

theorem newline_not_mem_renderRange (start length : Nat) :
    '\n' ∉ (renderRange start length).toList := by
  have hdigits : ∀ n : Nat, '\n' ∉ Nat.toDigits 10 n := fun n hmem =>
    absurd (Text.isDigit_of_mem_toDigits hmem) (by decide)
  rw [toList_renderRange, List.mem_append, not_or]
  refine ⟨hdigits _, ?_⟩
  split <;> simp [hdigits]

namespace Hunk

/-- The first line of a hunk, behind its mark. -/
def ranges (h : Hunk) : List Char :=
  ' ' :: '-' :: ((renderRange h.oldStart h.oldLength).toList ++ ' ' :: '+' ::
    ((renderRange h.newStart h.newLength).toList ++ ' ' :: hunkMark.toList))

theorem toList_render (h : Hunk) :
    h.render.toList = hunkMark.toList ++ h.ranges ++ '\n' ::
      (String.join (h.entries.map Entry.render)).toList := by
  simp [render, ranges, hunkMark, toString]

theorem newline_not_mem_ranges (h : Hunk) : '\n' ∉ hunkMark.toList ++ h.ranges := by
  simp [ranges, hunkMark, newline_not_mem_renderRange]

end Hunk

theorem ranges?_ranges (h : Hunk) :
    ranges? (hunkMark.toList ++ h.ranges ++ ['\n']) =
      some ((h.oldStart, h.oldLength), (h.newStart, h.newLength)) := by
  have hline : hunkMark.toList ++ h.ranges ++ ['\n'] = "@@ -".toList ++
      ((renderRange h.oldStart h.oldLength).toList ++ ' ' :: '+' ::
        ((renderRange h.newStart h.newLength).toList ++ ' ' :: '@' :: '@' :: ['\n'])) := by
    simp [Hunk.ranges, hunkMark]
  rw [hline, ranges?, afterStart?_eq_some.2 rfl]
  simp [range?_renderRange, afterStart?]

/-! ### Hunks and sections -/

theorem hunks?_cons {line : Line} {lines rest : List Line} {old new : Nat × Nat}
    {entries : List Entry} (hmark : (afterStart? hunkMark.toList line).isNone = false)
    (hranges : ranges? line = some (old, new))
    (hentries : entries? old.2 new.2 lines = some (entries, rest)) :
    hunks? (line :: lines) = (hunks? rest).map fun (more, rest) =>
      (⟨old.1, old.2, new.1, new.2, entries⟩ :: more, rest) := by
  rw [hunks?, hmark, if_neg Bool.false_ne_true, hranges]
  dsimp only
  split
  · rename_i hnone; rw [hentries] at hnone; cases hnone
  · rename_i hsome; rw [hentries] at hsome; cases hsome; rfl

theorem head?_renderHunks (hs : List Hunk) {rest : List Char} (hrest : rest.head? ≠ some '\\') :
    ((String.join (hs.map Hunk.render)).toList ++ rest).head? ≠ some '\\' := by
  cases hs with
  | nil => simpa using hrest
  | cons h hs => simp [h.toList_render, hunkMark]

/-- Hunks read back, up to text that is none. -/
theorem hunks?_append {hs : List Hunk} (h : ∀ hunk ∈ hs, hunk.WellFormed) {rest : List Char}
    (hrest : rest.head? ≠ some '\\')
    (hstop : hunks? (unmark (linesOf rest)) = some ([], unmark (linesOf rest))) :
    hunks? (unmark (linesOf ((String.join (hs.map Hunk.render)).toList ++ rest))) =
      some (hs, unmark (linesOf rest)) := by
  induction hs with
  | nil => simpa using hstop
  | cons hunk hs ih =>
    obtain ⟨hold, hnew, hlines⟩ := h hunk List.mem_cons_self
    have hnext := head?_renderHunks hs hrest
    have hentries := entries?_append hlines
      (unmark (linesOf ((String.join (hs.map Hunk.render)).toList ++ rest)))
    rw [hold, hnew] at hentries
    rw [List.map_cons, String.join_cons, String.toList_append, hunk.toList_render,
      List.append_assoc, List.append_assoc, List.cons_append,
      unmark_linesOf_append hunk.newline_not_mem_ranges (head?_renderEntries _ hnext),
      unmark_linesOf_renderEntries hlines hnext,
      hunks?_cons _ (ranges?_ranges hunk) hentries, ih fun hunk hmem => h hunk (.tail _ hmem)]
    · rfl
    · rw [List.append_assoc, afterStart?_eq_some.2 rfl]; rfl

/-- Text that does not start with the mark of a hunk is no hunk. -/
theorem hunks?_stop {rest : List Char} (h : rest.head? ≠ some '@') :
    hunks? (unmark (linesOf rest)) = some ([], unmark (linesOf rest)) := by
  have hmark : ∀ line : Line, line.head? ≠ some '@' →
      (afterStart? hunkMark.toList line).isNone = true := by
    intro line hline
    cases line with
    | nil => rfl
    | cons c line => simp_all [hunkMark, afterStart?, eq_comm]
  cases hlines : linesOf rest with
  | nil => rw [unmark, hunks?]
  | cons line lines =>
    have hline : line.head? ≠ some '@' := by
      rwa [head?_of_linesOf (by rw [hlines]; rfl)]
    have hdrop : line.dropLast.head? ≠ some '@' := by
      cases line with
      | nil => simp
      | cons c line => cases line <;> simp_all
    unfold unmark
    split
    · rename_i heq; cases heq
      rw [hunks?, if_pos (hmark _ hdrop)]
    · rename_i heq; cases heq
      rw [hunks?, if_pos (hmark _ hline)]
    · rename_i heq; cases heq

/-- The diff between texts that differ, without the lines that name its sides. -/
theorem hunksOf_renderDiff {before after : String} (h : before ≠ after) :
    hunksOf (renderDiff before after) =
      String.join ((hunksBetween before after).map Hunk.render) := by
  obtain ⟨hunk, more, hhunks⟩ := List.exists_cons_of_ne_nil (hunksBetween_ne_nil h)
  let rest := hunk.ranges ++ '\n' :: ((String.join (hunk.entries.map Entry.render)).toList ++
    (String.join (more.map Hunk.render)).toList)
  have hdiff : (renderDiff before after).toList =
      "--- original\n+++ modified".toList ++ ("\n" ++ hunkMark).toList ++ rest := by
    have hnames : "--- original\n+++ modified\n".toList =
        "--- original\n+++ modified".toList ++ "\n".toList := by decide
    unfold renderDiff
    simp only [hhunks, List.map_cons, String.join_cons, String.toList_append,
      hunk.toList_render, hnames, rest, List.append_assoc, List.cons_append]
  have hcut : Text.cutFirst? ("\n" ++ hunkMark).toList (renderDiff before after).toList =
      some ("--- original\n+++ modified".toList, rest) := by
    rw [hdiff, Text.cutFirst?_append]
    simp [hunkMark, Text.cutFirst?, afterStart?]
  rw [hunksOf, hcut, hhunks, List.map_cons, String.join_cons]
  apply String.toList_inj.1
  simp [hunk.toList_render, rest]

/-- Texts that end with a line feed, put together. -/
theorem suffix_join {texts : List String} (h : ∀ t ∈ texts, ['\n'] <:+ t.toList)
    (hne : texts ≠ []) : ['\n'] <:+ (String.join texts).toList := by
  obtain ⟨front, last, rfl⟩ : ∃ front last, texts = front ++ [last] :=
    ⟨_, _, (List.dropLast_concat_getLast hne).symm⟩
  have hlast := h last (by simp)
  simpa [String.join_append] using List.suffix_append_of_suffix hlast

theorem suffix_renderEntry (e : Entry) : ['\n'] <:+ e.render.toList := by
  have hmarker : ['\n'] <:+ ("\n" ++ missingNewline).toList := by decide
  rw [e.render_eq, renderLine, String.toList_append]
  split
  · rename_i hlast
    obtain ⟨front, hfront⟩ := List.getLast?_eq_some_iff.1 hlast
    exact ⟨e.sign ++ front, by simp [hfront]⟩
  · exact List.suffix_append_of_suffix hmarker

theorem suffix_renderHunk (h : Hunk) : ['\n'] <:+ h.render.toList := by
  rw [h.toList_render]
  apply List.suffix_append_of_suffix
  by_cases hes : h.entries = []
  · rw [hes]; exact List.suffix_rfl
  · refine List.IsSuffix.trans (suffix_join ?_ (by simpa using hes)) (List.suffix_cons _ _)
    simpa using fun e _ => suffix_renderEntry e

/-- Nothing is missing at the end of a section. -/
theorem endLine_renderHunks (front : String) {hs : List Hunk} (hne : hs ≠ []) :
    endLine (front ++ String.join (hs.map Hunk.render)) =
      front ++ String.join (hs.map Hunk.render) := by
  have hends : ['\n'] <:+ (String.join (hs.map Hunk.render)).toList :=
    suffix_join (by simpa using fun h _ => suffix_renderHunk h) (by simpa using hne)
  obtain ⟨init, hinit⟩ := hends
  rw [endLine, if_pos]
  rw [String.toList_append, ← hinit, ← List.append_assoc, List.getLast?_concat]

/-- The section of a change that changes something. -/
theorem renderChange_eq {c : FileChange} (h : c.before ≠ c.after) :
    renderChange c = renderHeading c.path.text ++
      String.join ((hunksBetween c.before c.after).map Hunk.render) := by
  have hnoop : c.isNoop = false := by simpa [FileChange.isNoop] using h
  rw [renderChange, hnoop, if_neg Bool.false_ne_true, hunksOf_renderDiff h,
    endLine_renderHunks _ (hunksBetween_ne_nil h)]

/-- No section for a change that changes nothing. -/
theorem renderChange_of_eq {c : FileChange} (h : c.before = c.after) : renderChange c = "" := by
  have hnoop : c.isNoop = true := by simpa [FileChange.isNoop] using h
  rw [renderChange, hnoop, if_pos rfl]

/-- A preview has the sections of the changes that change something. -/
theorem render_eq (changes : List FileChange) :
    render changes =
      String.join ((changes.filter fun c => c.before ≠ c.after).map renderChange) := by
  induction changes with
  | nil => rfl
  | cons c changes ih =>
    rw [render] at ih
    by_cases h : c.before = c.after
    · simp [render, h, renderChange_of_eq h, ih]
    · simp [render, h, ih]

/-- The hunks of a section are those between the texts. -/
theorem readHunks_renderHunks (before after : String) :
    readHunks (String.join ((hunksBetween before after).map Hunk.render)) =
      some (hunksBetween before after) := by
  have hformed : ∀ hunk ∈ hunksBetween before after, hunk.WellFormed := fun hunk =>
    wellFormed_of_mem_hunksBetween
  have hempty : ([] : List Char).head? ≠ some '\\' ∧ ([] : List Char).head? ≠ some '@' := by simp
  have hread := hunks?_append hformed hempty.1 (hunks?_stop hempty.2)
  rw [List.append_nil] at hread
  rw [readHunks, hread]
  rfl

section Sections

variable {path : String} {rest : List Char}

theorem toList_renderHeading (path : String) (rest : List Char) :
    (renderHeading path).toList ++ rest =
      "diff --git a/".toList ++ path.toList ++ " b/".toList ++ path.toList ++ '\n' ::
        ("--- a/".toList ++ path.toList ++ '\n' ::
          ("+++ b/".toList ++ path.toList ++ '\n' :: rest)) := by
  have hsecond : "\n--- a/".toList = '\n' :: "--- a/".toList := by decide
  have hthird : "\n+++ b/".toList = '\n' :: "+++ b/".toList := by decide
  have hend : "\n".toList = ['\n'] := by decide
  unfold renderHeading
  simp only [toString, String.toList_append, hsecond, hthird, hend, List.append_assoc,
    List.cons_append, List.nil_append]

/-- The heading of a section is three lines. -/
theorem unmark_linesOf_renderHeading (hpath : '\n' ∉ path.toList) (hrest : rest.head? ≠ some '\\') :
    unmark (linesOf ((renderHeading path).toList ++ rest)) =
      ("diff --git a/".toList ++ path.toList ++ " b/".toList ++ path.toList ++ ['\n']) ::
        ("--- a/".toList ++ path.toList ++ ['\n']) ::
          ("+++ b/".toList ++ path.toList ++ ['\n']) :: unmark (linesOf rest) := by
  rw [toList_renderHeading, unmark_linesOf_append (by simp [hpath]) (by simp),
    unmark_linesOf_append (by simp [hpath]) (by simp),
    unmark_linesOf_append (by simp [hpath]) hrest]

/-- The path of a section reads back. -/
theorem path?_renderHeading (path : String) :
    path? ("diff --git a/".toList ++ path.toList ++ " b/".toList ++ path.toList ++ ['\n'])
      ("--- a/".toList ++ path.toList ++ ['\n']) ("+++ b/".toList ++ path.toList ++ ['\n']) =
        some path := by
  have hend : beforeEnd? ['\n'] (path.toList ++ ['\n']) = some path.toList := by
    simp [beforeEnd?, afterStart?]
  have hstart : afterStart? "--- a/".toList ("--- a/".toList ++ path.toList ++ ['\n']) =
      some (path.toList ++ ['\n']) := by
    rw [List.append_assoc, afterStart?_eq_some]
  simp only [path?, hstart, Option.bind_eq_bind, Option.bind_some, hend, and_self, if_true,
    String.ofList_toList]

theorem sections?_cons {first second third : Line} {lines rest : List Line} {hunks : List Hunk}
    (hpath : path? first second third = some path) (hne : hunks ≠ [])
    (hhunks : hunks? lines = some (hunks, rest)) :
    sections? (first :: second :: third :: lines) =
      (sections? rest).map (⟨path, hunks⟩ :: ·) := by
  rw [sections?]
  split
  · rename_i h1 h2
    rw [hpath] at h1
    rw [hhunks] at h2
    cases h1
    cases h2
    rfl
  · rename_i hnone
    obtain ⟨hunk, more, rfl⟩ := List.exists_cons_of_ne_nil hne
    exact absurd hhunks (hnone _ _ _ _ hpath)

end Sections

/-- Sections read back. -/
theorem sections?_renderChanges {changes : List FileChange}
    (h : ∀ c ∈ changes, c.before ≠ c.after) (hpath : ∀ c ∈ changes, '\n' ∉ c.path.text.toList) :
    sections? (unmark (linesOf (String.join (changes.map renderChange)).toList)) =
      some (changes.map fun c => ⟨c.path.text, hunksBetween c.before c.after⟩) := by
  induction changes with
  | nil => simp [linesOf, unmark, sections?]
  | cons c changes ih =>
    have hmore := ih (fun c hc => h c (.tail _ hc)) fun c hc => hpath c (.tail _ hc)
    have hne := hunksBetween_ne_nil (h c List.mem_cons_self)
    generalize hrest : (String.join (changes.map renderChange)).toList = rest at hmore
    -- what follows is the heading of another section, which is neither a marker nor a hunk
    have hstart : rest.head? ≠ some '\\' ∧ rest.head? ≠ some '@' := by
      subst hrest
      cases changes with
      | nil => simp
      | cons next changes =>
        rw [List.map_cons, String.join_cons, renderChange_eq (h next (by simp)),
          String.toList_append, String.toList_append, List.append_assoc, toList_renderHeading]
        simp
    rw [List.map_cons, String.join_cons, renderChange_eq (h c List.mem_cons_self),
      String.toList_append, String.toList_append, hrest, List.append_assoc,
      unmark_linesOf_renderHeading (hpath c List.mem_cons_self) (head?_renderHunks _ hstart.1),
      sections?_cons (path?_renderHeading _) hne
        (hunks?_append (fun hunk => wellFormed_of_mem_hunksBetween) hstart.1
          (hunks?_stop hstart.2)), hmore]
    rfl

/-! ### Previews are faithful -/

/-- A text that says what a change does: a heading with its path, then hunks that apply to the text
    before and give the text after. -/
def Shows (c : FileChange) (text : String) : Prop :=
  ∃ body hunks, text = renderHeading c.path.text ++ body ∧ readHunks body = some hunks ∧
    hunks ≠ [] ∧ applyHunks hunks c.before = some c.after

theorem shows_renderChange {c : FileChange} (h : c.before ≠ c.after) : Shows c (renderChange c) :=
  ⟨_, _, renderChange_eq h, readHunks_renderHunks c.before c.after, hunksBetween_ne_nil h,
    applyHunks_hunksBetween c.before c.after⟩

/-- A preview has one section for each change that changes something, in order, and each shows its
    change. As long as no path has a line feed, which would break the heading, the preview read as a
    whole has these sections. -/
theorem render_reads (changes : List FileChange) :
    (∃ sections, render changes = String.join sections ∧
      List.Forall₂ Shows (changes.filter fun c => c.before ≠ c.after) sections) ∧
    ((∀ c ∈ changes, '\n' ∉ c.path.text.toList) →
      ∃ sections, readPatch (render changes) = some sections ∧
        List.Forall₂ (fun c s => s.path = c.path.text ∧
          applyHunks s.hunks c.before = some c.after)
          (changes.filter fun c => c.before ≠ c.after) sections) := by
  have hfilter : ∀ c ∈ changes.filter fun c => c.before ≠ c.after, c.before ≠ c.after :=
    fun c hc => by simpa using (List.mem_filter.1 hc).2
  constructor
  · refine ⟨_, render_eq changes, List.forall₂_map_right_iff.2 (List.forall₂_same.2 ?_)⟩
    exact fun c hc => shows_renderChange (hfilter c hc)
  · intro hpath
    have hread := sections?_renderChanges hfilter fun c hc => hpath c (List.mem_filter.1 hc).1
    refine ⟨_, by rw [readPatch, render_eq, hread], ?_⟩
    rw [List.forall₂_map_right_iff, List.forall₂_same]
    exact fun c _ => ⟨rfl, applyHunks_hunksBetween c.before c.after⟩

/-- Lines that look like headings, and a missing line feed. -/
theorem render_reads_misleading :
    ∃ s, readPatch (render [
        ⟨⟨"a.html"⟩, .template, "@@ -1 +1 @@\n--- a", "--- a\n+++ b\n"⟩,
        ⟨⟨"b.ts"⟩, .source, "same\n", "same\n"⟩]) = some [s] ∧
      s.path = "a.html" ∧
      applyHunks s.hunks "@@ -1 +1 @@\n--- a" = some "--- a\n+++ b\n" := by
  obtain ⟨sections, hread, hshow⟩ := (render_reads [
    ⟨⟨"a.html"⟩, .template, "@@ -1 +1 @@\n--- a", "--- a\n+++ b\n"⟩,
    ⟨⟨"b.ts"⟩, .source, "same\n", "same\n"⟩]).2 (by simp)
  rw [List.filter_cons_of_pos (by decide), List.filter_cons_of_neg (by decide),
    List.forall₂_cons_left_iff] at hshow
  obtain ⟨s, more, ⟨hpath, happly⟩, hmore, rfl⟩ := hshow
  cases hmore
  exact ⟨s, hread, hpath, happly⟩

end RouterShift.Patch
