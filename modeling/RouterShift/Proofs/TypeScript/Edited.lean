import RouterShift.Proofs.Edit.Moved
import RouterShift.TypeScript.SourceFile

/-! Files that are read and changed. A file is what is read from its text (`SourceFile.parse_self`), and
    a file with replacements made is read from the text that they come to, or it is no file. -/

namespace RouterShift.TypeScript.SourceFile

open Text Edit

variable [Reader] {file done : SourceFile} {path : Path} {text : String} {rs : List Replacement}

/-- The file of a valid text. -/
def ofText (path : Path) (text : String) (h : (Reader.read? text).isSome = true) : SourceFile :=
  ⟨path, text, (Reader.read? text).get h, (Option.some_get h).symm⟩

theorem of_parse (h : parse path text = .ok file) : file.path = path ∧ file.text = text := by
  unfold parse at h
  split at h
  · cases h
    exact ⟨rfl, rfl⟩
  · cases h

theorem parse_eq_error {e : SourceError} (h : parse path text = .error e) :
    e = .notValid path ∧ Reader.read? text = none := by
  unfold parse at h
  split at h
  · cases h
  · next hnone =>
    cases h
    exact ⟨rfl, hnone⟩

theorem parse_eq_notValid (h : Reader.read? text = none) :
    parse path text = .error (.notValid path) := by
  unfold parse
  split
  · next nodes hnodes =>
    rw [h] at hnodes
    cases hnodes
  · rfl

/-- A file is what is read from its text. -/
theorem parse_self (file : SourceFile) : parse file.path file.text = .ok file := by
  obtain ⟨path, text, nodes, hnodes⟩ := file
  unfold parse
  split
  · next found hfound =>
    obtain rfl : found = nodes := Option.some.inj (hfound.symm.trans hnodes)
    rfl
  · next hnone =>
    rw [hnodes] at hnone
    cases hnone

/-- A file with a batch made is read from the text that the batch comes to. -/
theorem edited_eq_parse {out : EditOutcome} (h : applyEdits file.text rs = .ok out) :
    file.edited rs = parse file.path out.text := by
  cases rs with
  | nil =>
    have hsame : file.text = out.text := by
      obtain ⟨-, htext⟩ := of_applyEdits h
      rw [made_nil, List.foldl_nil, String.toList_inj] at htext
      exact htext.symm
    rw [← hsame, parse_self]
    rfl
  | cons r rs => simp only [edited, List.isEmpty_cons, Bool.false_eq_true, if_false, h]

/-- What is known of a file with replacements made, whatever is found in it. -/
theorem of_edited (h : file.edited rs = .ok done) : done.path = file.path ∧
    (∀ r ∈ rs, Addressable file.text.toList r.range) ∧
      done.text.toList = (made rs).foldl splice file.text.toList := by
  cases rs with
  | nil =>
    cases h
    simp
  | cons r rs =>
    simp only [edited, List.isEmpty_cons, Bool.false_eq_true, if_false] at h
    cases happly : applyEdits file.text (r :: rs) with
    | error e => rw [happly] at h; cases h
    | ok out =>
      rw [happly] at h
      obtain ⟨hpath, htext⟩ := of_parse h
      rw [hpath, htext]
      exact ⟨rfl, of_applyEdits happly⟩

/-- A file with replacements made is the one whose text they come to. -/
theorem edited_of (haddr : ∀ r ∈ rs, Addressable file.text.toList r.range)
    (hpath : done.path = file.path)
    (htext : done.text.toList = (made rs).foldl splice file.text.toList) :
    file.edited rs = .ok done := by
  have happly := applyEdits_eq haddr
  rw [← htext, String.ofList_toList] at happly
  rw [edited_eq_parse happly, ← hpath]
  exact parse_self done

end RouterShift.TypeScript.SourceFile
