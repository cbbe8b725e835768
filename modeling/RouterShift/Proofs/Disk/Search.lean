import RouterShift.Proofs.Disk.Files
import RouterShift.Proofs.Text.Utf8
import RouterShift.Disk.Search

/-! The search for a directory by its name. In a tree whose directories are sorted the first hit of
    the search is the least of all hits, by the bytes of the names on the way to them and parents
    before what is in them (`seek?_isFirst`): the entries of a directory come in the order of their
    names, so what is found in one of them is before all that is in later ones. -/

namespace RouterShift.Disk

open Entry (Sorted SortedAmong sorted_directory sortedAmong_cons find?)

/-! ### The order of ways -/

/-- The names of a way by their bytes. -/
def bytesOf (way : List String) : List (List UInt8) := way.map (·.toUTF8.toList)

theorem bytesOf_lt_of_name {n m : String} (h : compare n m = .lt) (ns ms : List String) :
    bytesOf (n :: ns) < bytesOf (m :: ms) :=
  List.cons_lt_cons_iff.2 (.inl (Text.toUTF8_lt (compareOfLessAndEq_eq_lt.1 h)))

theorem bytesOf_cons_lt {ns ms : List String} (h : bytesOf ns < bytesOf ms) (name : String) :
    bytesOf (name :: ns) < bytesOf (name :: ms) :=
  List.cons_lt_cons_iff.2 (.inr ⟨rfl, h⟩)

/-- A way comes before those that go on from it. -/
theorem bytesOf_singleton_lt {ns : List String} (h : ns ≠ []) (name : String) :
    bytesOf [name] < bytesOf (name :: ns) := by
  obtain ⟨n, ns, rfl⟩ := List.exists_cons_of_ne_nil h
  exact bytesOf_cons_lt (List.nil_lt_cons _ _) name

/-- What a search comes to that finds the first of some ways, or that there is none. -/
def IsFirst (P : List String → Prop) : Option (List String) → Prop
  | none => ∀ way, ¬ P way
  | some way => P way ∧ ∀ other, P other → other = way ∨ bytesOf way < bytesOf other

section
variable {P Q : List String → Prop} {a b : Option (List String)}

theorem IsFirst.congr (h : IsFirst P a) (hpq : ∀ way, P way ↔ Q way) : IsFirst Q a := by
  obtain rfl : P = Q := funext fun way => propext (hpq way)
  exact h

/-- One search after another finds the first of all, if the ways of the one come before those of the
    other. -/
theorem IsFirst.or (ha : IsFirst P a) (hb : IsFirst Q b)
    (hlt : ∀ way other, P way → Q other → bytesOf way < bytesOf other) :
    IsFirst (fun way => P way ∨ Q way) (a.or b) := by
  cases a with
  | none => exact hb.congr fun way => (or_iff_right (ha way)).symm
  | some way =>
    obtain ⟨hway, hfirst⟩ := ha
    refine ⟨.inl hway, fun other hother => ?_⟩
    rcases hother with hother | hother
    · exact hfirst other hother
    · exact .inr (hlt way other hway hother)

/-- Ways that all begin with one name have the first one behind it. -/
theorem IsFirst.map_cons (h : IsFirst P a) (name : String) :
    IsFirst (fun way => ∃ rest, way = name :: rest ∧ P rest) (a.map (name :: ·)) := by
  cases a with
  | none =>
    rintro _ ⟨rest, -, hrest⟩
    exact h rest hrest
  | some way =>
    obtain ⟨hway, hfirst⟩ := h
    refine ⟨⟨way, rfl, hway⟩, ?_⟩
    rintro _ ⟨rest, rfl, hrest⟩
    rcases hfirst rest hrest with rfl | hlt
    · exact .inl rfl
    · exact .inr (bytesOf_cons_lt hlt name)

end

/-! ### What is looked for -/

variable {wanted way : List String} {e : Entry} {entries : List (String × Entry)} {name : String}

/-- The way from an entry to a directory below it whose name is wanted, with nothing hidden or
    vendored on it. -/
structure IsHit (wanted : List String) (e : Entry) (way : List String) : Prop where
  directory : ∃ entries, e.at? way = some (.directory entries)
  named : ∃ name ∈ wanted, way.getLast? = some name
  seen : ∀ name ∈ way, name.toList.head? ≠ some '.' ∧ name ≠ "node_modules"

theorem isPassedOver_eq_false :
    isPassedOver name = false ↔ name.toList.head? ≠ some '.' ∧ name ≠ "node_modules" := by
  simp [isPassedOver, isHidden, vendored]

theorem IsHit.ne_nil (h : IsHit wanted e way) : way ≠ [] := by
  rintro rfl
  obtain ⟨name, -, hlast⟩ := h.named
  cases hlast

theorem not_isHit_file (content : Content) : ¬ IsHit wanted (.file content) way := by
  intro h
  obtain ⟨name, rest, rfl⟩ := List.exists_cons_of_ne_nil h.ne_nil
  obtain ⟨entries, hat⟩ := h.directory
  cases hat

theorem IsHit.isDirectory (h : IsHit wanted e way) : e.isDirectory = true := by
  cases e with
  | file content => exact absurd h (not_isHit_file content)
  | directory entries => rfl

/-- A hit that is an entry of this name or below it. -/
def IsHitBy (wanted : List String) (name : String) (e : Entry) (way : List String) : Prop :=
  isPassedOver name = false ∧ e.isDirectory = true ∧
    ∃ rest, way = name :: rest ∧ (rest = [] ∧ name ∈ wanted ∨ IsHit wanted e rest)

/-- The first name of a hit is that of an entry. -/
theorem isHit_cons_iff {rest : List String} : IsHit wanted (.directory entries) (name :: rest) ↔
    ∃ e, find? name entries = some e ∧ IsHitBy wanted name e (name :: rest) := by
  constructor
  · rintro ⟨⟨inner, hat⟩, ⟨last, hlast, heq⟩, hseen⟩
    obtain ⟨e, hfind, hat⟩ := Option.bind_eq_some_iff.1 hat
    obtain ⟨hname, hrest⟩ := List.forall_mem_cons.1 hseen
    refine ⟨e, hfind, isPassedOver_eq_false.2 hname, ?_⟩
    cases rest with
    | nil =>
      cases hat
      cases heq
      exact ⟨rfl, [], rfl, .inl ⟨rfl, hlast⟩⟩
    | cons next rest =>
      rw [List.getLast?_cons_cons] at heq
      have hhit : IsHit wanted e (next :: rest) := ⟨⟨inner, hat⟩, ⟨last, hlast, heq⟩, hrest⟩
      exact ⟨hhit.isDirectory, _, rfl, .inr hhit⟩
  · rintro ⟨e, hfind, hname, hdirectory, _, heq, hrest⟩
    cases heq
    have hname := isPassedOver_eq_false.1 hname
    have hat (inner : List String) :
        (Entry.directory entries).at? (name :: inner) = e.at? inner := by
      rw [Entry.at?, hfind, Option.bind_some]
    rcases hrest with ⟨rfl, hwanted⟩ | hhit
    · cases e with
      | file content => cases hdirectory
      | directory inner => exact ⟨⟨inner, hat []⟩, ⟨name, hwanted, rfl⟩, by simpa using hname⟩
    · obtain ⟨⟨inner, hinner⟩, ⟨last, hlast, heq⟩, hseen⟩ := hhit
      refine ⟨⟨inner, (hat rest).trans hinner⟩, ⟨last, hlast, ?_⟩, List.forall_mem_cons.2 ⟨hname, hseen⟩⟩
      rw [List.getLast?_cons, heq]
      rfl

/-- In a sorted directory a hit is one by some entry. -/
theorem isHit_directory_iff (h : SortedAmong entries) : IsHit wanted (.directory entries) way ↔
    ∃ f ∈ entries, IsHitBy wanted f.1 f.2 way := by
  constructor
  · intro hhit
    obtain ⟨name, rest, rfl⟩ := List.exists_cons_of_ne_nil hhit.ne_nil
    obtain ⟨e, hfind, hhit⟩ := isHit_cons_iff.1 hhit
    exact ⟨(name, e), Entry.mem_of_find? hfind, hhit⟩
  · rintro ⟨⟨name, e⟩, hmem, hhit⟩
    obtain ⟨-, -, rest, rfl, -⟩ := id hhit
    exact isHit_cons_iff.2 ⟨e, h.find?_of_mem hmem, hhit⟩

/-- Where the entry is not to be looked at there is no hit, and where it is wanted itself it is before
    everything below it. -/
theorem isFirst_entry {found : Option (List String)} (h : IsFirst (IsHit wanted e) found) :
    IsFirst (IsHitBy wanted name e)
      (if isPassedOver name || !e.isDirectory then none
        else if wanted.contains name then some [name] else found.map (name :: ·)) := by
  split
  · next hout =>
    rintro way ⟨hname, hdirectory, -⟩
    rw [hname, hdirectory] at hout
    cases hout
  next hin =>
  have hin : isPassedOver name = false ∧ e.isDirectory = true := by simpa using hin
  split
  · next hwanted =>
    have hwanted : name ∈ wanted := by simpa using hwanted
    refine ⟨⟨hin.1, hin.2, [], rfl, .inl ⟨rfl, hwanted⟩⟩, ?_⟩
    rintro _ ⟨-, -, rest, rfl, -⟩
    by_cases hrest : rest = []
    · exact .inl (by rw [hrest])
    · exact .inr (bytesOf_singleton_lt hrest name)
  · next hwanted =>
    have hwanted : name ∉ wanted := by simpa using hwanted
    refine (h.map_cons name).congr fun way => ⟨?_, ?_⟩
    · rintro ⟨rest, rfl, hhit⟩
      exact ⟨hin.1, hin.2, rest, rfl, .inr hhit⟩
    · rintro ⟨-, -, rest, rfl, ⟨-, hmem⟩ | hhit⟩
      · exact absurd hmem hwanted
      · exact ⟨rest, rfl, hhit⟩

/-! ### The search -/

mutual
/-- The search finds the first hit, or that there is none. -/
theorem seek?_isFirst : ∀ {e : Entry}, e.Sorted → IsFirst (IsHit wanted e) (seek? wanted e)
  | .file content, _ => by
    rw [seek?]
    exact fun way => not_isHit_file content
  | .directory entries, h => by
    have hamong := sorted_directory.1 h
    rw [seek?]
    exact (seekAmong?_isFirst hamong).congr fun way => (isHit_directory_iff hamong).symm

theorem seekAmong?_isFirst : ∀ {entries : List (String × Entry)}, SortedAmong entries →
    IsFirst (fun way => ∃ f ∈ entries, IsHitBy wanted f.1 f.2 way) (seekAmong? wanted entries)
  | [], _ => by
    rw [seekAmong?]
    rintro way ⟨f, hf, -⟩
    cases hf
  | (name, e) :: rest, h => by
    obtain ⟨he, hlt, hrest⟩ := sortedAmong_cons.1 h
    rw [seekAmong?]
    refine ((isFirst_entry (seek?_isFirst he)).or (seekAmong?_isFirst hrest) ?_).congr
      fun way => by simp
    -- the names of two entries decide
    rintro _ _ ⟨-, -, ns, rfl, -⟩ ⟨f, hf, -, -, ms, rfl, -⟩
    exact bytesOf_lt_of_name (hlt f hf) ns ms
end

theorem message_notFound (package : String) : (SearchError.notFound [package, "src"]).message =
    "none of the specified directories (" ++ package ++ ", src) were found in the repository" := by
  have hnames : (SearchError.notFound [package, "src"]).message =
      "none of the specified directories (" ++ (package ++ ", " ++ "src") ++
        ") were found in the repository" := rfl
  have hbehind : ", src) were found in the repository" =
      ", " ++ "src" ++ ") were found in the repository" := by decide +kernel
  rw [hnames, hbehind]
  simp only [String.append_assoc]

/-- The directory of a package is the one with the least way from the root, component by component in
    the order of their bytes and parents first, of all that are called like the package or `src` and
    are neither hidden nor vendored; and there being none is what is reported. -/
theorem packageDirectory_isFirst {tree : Entry} {root : Path} (hroot : tree.locate? [] root = some e)
    (h : e.Sorted) (package : String) :
    ((∃ way, IsHit [package, "src"] e way) → ∃ way, IsHit [package, "src"] e way ∧
      (∀ other, IsHit [package, "src"] e other → other = way ∨ bytesOf way < bytesOf other) ∧
        packageDirectory tree root package = .ok (way.foldl (·.join ·) root)) ∧
    ((∃ error, packageDirectory tree root package = .error error ∧
      error.message = "none of the specified directories (" ++ package ++
        ", src) were found in the repository") ↔ ¬ ∃ way, IsHit [package, "src"] e way) := by
  have hfirst : IsFirst (IsHit [package, "src"] e) (seek? [package, "src"] e) := seek?_isFirst h
  rw [packageDirectory, hroot]
  simp only [packageDirectories]
  cases hseek : seek? [package, "src"] e with
  | none =>
    rw [hseek] at hfirst
    have hnone : ¬ ∃ way, IsHit [package, "src"] e way := fun ⟨way, hway⟩ => hfirst way hway
    exact ⟨fun hway => absurd hway hnone, fun _ => hnone, fun _ => ⟨_, rfl, message_notFound package⟩⟩
  | some way =>
    rw [hseek] at hfirst
    refine ⟨fun _ => ⟨way, hfirst.1, hfirst.2, rfl⟩, ?_, fun hnone => absurd ⟨way, hfirst.1⟩ hnone⟩
    rintro ⟨error, herror, -⟩
    cases herror

/-- A checkout with packages below directories that are searched, hidden and vendored. -/
def checkout : Entry :=
  .directory
    [(".git", .directory [("src", .directory [])]),
      ("a", .directory [("deep", .directory [("src", .directory [])])]),
      ("b", .directory [("ngx-pipes", .directory [])]),
      ("node_modules", .directory [("x", .directory [("src", .directory [])])])]

theorem packageDirectory_isFirst_checkout :
    (∃ way, IsHit ["ngx-pipes", "src"] checkout way ∧
      (∀ other, IsHit ["ngx-pipes", "src"] checkout other →
        other = way ∨ bytesOf way < bytesOf other) ∧
        packageDirectory checkout ⟨"/"⟩ "ngx-pipes" = .ok (way.foldl (·.join ·) ⟨"/"⟩)) ∧
      packageDirectory checkout ⟨"/"⟩ "ngx-pipes" = .ok ⟨"/a/deep/src"⟩ := by
  have hsorted : checkout.Sorted := by
    simp [checkout]
    decide
  have hhit : IsHit ["ngx-pipes", "src"] checkout ["b", "ngx-pipes"] :=
    ⟨⟨[], rfl⟩, ⟨"ngx-pipes", List.mem_cons_self, rfl⟩, by decide⟩
  exact ⟨(packageDirectory_isFirst rfl hsorted "ngx-pipes").1 ⟨_, hhit⟩, by decide +kernel⟩

end RouterShift.Disk
