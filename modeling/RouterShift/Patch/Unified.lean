import RouterShift.Patch.Compaction
import RouterShift.Report
import RouterShift.Text.Cut

/-! Unified diffs. The changes of a script are gathered into hunks with up to three lines of context
    around them; changes whose contexts would touch share a hunk. Lines keep their line feeds, and a
    line without one is followed by a marker. -/

namespace RouterShift.Patch

/-- A line with the line feed that ends it; only the last line of a text may lack it. -/
abbrev Line := List Char

/-- The lines of a text. -/
def linesOf : List Char → List Line
  | [] => []
  | c :: cs =>
    if c = '\n' then ['\n'] :: linesOf cs
    else
      match cs, linesOf cs with
      | [], _ => [[c]]
      | _, [] => [[c]]
      | _, line :: rest => (c :: line) :: rest

/-- Lines that take the place of others: ranges of the old and the new text. -/
structure Change where
  oldStart : Nat
  oldStop : Nat
  newStart : Nat
  newStop : Nat
  deriving Repr, DecidableEq

/-- The changes of a script: adjacent edits count as one. `opened` is the change that the next edit
    would belong to, `i` and `j` are the lines passed in the old and the new text. -/
def changesFrom (i j : Nat) (opened : Option Change) : List (Block Line) → List Change
  | [] => opened.toList
  | .equal l :: rest => opened.toList ++ changesFrom (i + l.length) (j + l.length) none rest
  | .delete l :: rest =>
    let c := opened.getD ⟨i, i, j, j⟩
    changesFrom (i + l.length) j (some { c with oldStop := c.oldStop + l.length }) rest
  | .insert l :: rest =>
    let c := opened.getD ⟨i, i, j, j⟩
    changesFrom i (j + l.length) (some { c with newStop := c.newStop + l.length }) rest

/-- A line of a hunk. -/
inductive Entry
  | context (line : Line)
  | delete (line : Line)
  | insert (line : Line)
  deriving Repr, DecidableEq

/-- A hunk: where it starts in both texts, how many lines of each it covers, and its lines. -/
structure Hunk where
  oldStart : Nat
  oldLength : Nat
  newStart : Nat
  newLength : Nat
  entries : List Entry
  deriving Repr, DecidableEq

/-- How many lines of context stand around a change. -/
def contextLength : Nat := 3

/-- How many lines of context can follow a change, the same number in both texts. -/
def contextAfter (old new : List Line) (c : Change) : Nat :=
  min contextLength (min (old.length - c.oldStop) (new.length - c.newStop))

def range {α : Type} (l : List α) (start stop : Nat) : List α := (l.take stop).drop start

/-- The deleted and then the inserted lines of a change. -/
def Change.entries (old new : List Line) (c : Change) : List Entry :=
  (range old c.oldStart c.oldStop).map .delete ++ (range new c.newStart c.newStop).map .insert

/-- The lines of a hunk from the change `c` on, the last change of the hunk, and the changes behind
    it. The next change joins the hunk when its context would start before this one's ends. -/
def gather (old new : List Line) (c : Change) :
    List Change → List Entry × Change × List Change
  | [] => (c.entries old new, c, [])
  | next :: rest =>
    if min next.oldStart (old.length - 1) - contextLength < c.oldStop + contextAfter old new c then
      let between := min (next.oldStart - c.oldStop) (next.newStart - c.newStop)
      let joined := (range new c.newStop (c.newStop + between)).map Entry.context
      let (entries, last, rest) := gather old new next rest
      (c.entries old new ++ joined ++ entries, last, rest)
    else (c.entries old new, c, next :: rest)

theorem length_gather_le (old new : List Line) (c : Change) (rest : List Change) :
    (gather old new c rest).2.2.length ≤ rest.length := by
  induction rest generalizing c with
  | nil => simp [gather]
  | cons next rest ih =>
    simp only [gather]
    split
    · exact Nat.le_succ_of_le (ih next)
    · simp

/-- The hunks of changes. -/
def hunks (old new : List Line) : List Change → List Hunk
  | [] => []
  | c :: rest =>
    match h : gather old new c rest with
    | (entries, last, more) =>
      have : more.length < rest.length + 1 := by
        have := length_gather_le old new c rest
        rw [h] at this; simp only at this; omega
      let oldStart := c.oldStart - contextLength
      let newStart := c.newStart - contextLength
      let after := contextAfter old new last
      let before := (range new newStart c.newStart).map Entry.context
      let behind := (range new last.newStop (last.newStop + after)).map Entry.context
      ⟨oldStart, last.oldStop + after - oldStart, newStart, last.newStop + after - newStart,
        before ++ entries ++ behind⟩ :: hunks old new more
termination_by changes => changes.length

/-- The hunks that lead from one text to another. -/
def hunksBetween (before after : String) : List Hunk :=
  let old := linesOf before.toList
  let new := linesOf after.toList
  hunks old new (changesFrom 0 0 none (compact (script old new)))

/-! ### Rendering -/

def missingNewline : String := "\\ No newline at end of file\n"

/-- A line behind its sign, and the marker when it has no line feed. -/
def renderLine (sign : List Char) (line : Line) : String :=
  String.ofList (sign ++ line) ++
    (if line.getLast? = some '\n' then "" else "\n" ++ missingNewline)

/-- A context line that is empty goes without its sign. -/
def Entry.render : Entry → String
  | .context line => renderLine (if line = ['\n'] then [] else [' ']) line
  | .delete line => renderLine ['-'] line
  | .insert line => renderLine ['+'] line

/-- A range of lines: counted from one, unless there are none; a single line goes without its
    length. -/
def renderRange (start length : Nat) : String :=
  let start := if length = 0 then start else start + 1
  if length = 1 then s!"{start}" else s!"{start},{length}"

def Hunk.render (h : Hunk) : String :=
  s!"@@ -{renderRange h.oldStart h.oldLength} +{renderRange h.newStart h.newLength} @@\n"
    ++ String.join (h.entries.map Entry.render)

/-- The diff of two texts: two lines that name the sides, then the hunks. -/
def renderDiff (before after : String) : String :=
  "--- original\n+++ modified\n" ++ String.join ((hunksBetween before after).map Hunk.render)

/-- What begins a hunk: it stands at the start of a line. -/
def hunkMark : String := "@@"

/-- A diff without the lines that name the sides: all from the first line on that begins a hunk. -/
def hunksOf (diff : String) : String :=
  match Text.cutFirst? ("\n" ++ hunkMark).toList diff.toList with
  | some (_, rest) => hunkMark ++ String.ofList rest
  | none => diff

/-- The text with a line feed at its end. -/
def endLine (text : String) : String :=
  if text.toList.getLast? = some '\n' then text else text ++ "\n"

/-- The lines that name the file of a section. -/
def renderHeading (path : String) : String :=
  s!"diff --git a/{path} b/{path}\n--- a/{path}\n+++ b/{path}\n"

/-- The section of one change, nothing for a change that changes nothing. -/
def renderChange (c : FileChange) : String :=
  if c.isNoop then ""
  else endLine (renderHeading c.path.text ++ hunksOf (renderDiff c.before c.after))

/-- A preview of all changes. -/
def render (changes : List FileChange) : String := String.join (changes.map renderChange)

end RouterShift.Patch
