import Mathlib.Data.List.TakeWhile
import RouterShift.Proofs.Text.Cursor
import RouterShift.Text.Pattern

/-! What a match stands for. A pattern matches at a place exactly when the text goes on there with
    the wording of the pattern, filled with texts that its fields take (`read?_eq_some`); so
    whatever the matches of a pattern report does stand in the text. And nothing is missed: where
    the text between records has none of the wording that they begin with, the matches are those
    records in their order (`all_interleave`). -/

namespace RouterShift.Text

theorem moreNumbers_append (n : Nat) (cs : List Char) :
    (moreNumbers n cs).2.1 ++ (moreNumbers n cs).2.2 = cs := by
  fun_induction moreNumbers n cs with
  | case1 => rfl
  | case2 n cs digits _ count more rest hmore ih =>
    have hrest : more ++ rest = cs.dropWhile isAnyDigit := by simpa [hmore] using ih
    simp [hrest, digits, List.takeWhile_append_dropWhile]
  | case3 => rfl

/-- A run is nonempty, of one class, and ends where the class does. -/
theorem run?_eq_some {inRun : Char → Bool} {cs taken rest : List Char} :
    run? inRun cs = some (taken, rest) ↔
      cs = taken ++ rest ∧ taken ≠ [] ∧ (∀ c ∈ taken, inRun c = true) ∧ StopsBefore inRun rest := by
  constructor
  · intro h
    rw [run?] at h
    split at h
    · cases h
    · next hne =>
      cases h
      exact ⟨(List.takeWhile_append_dropWhile ..).symm, by simpa using hne,
        fun c hc => List.mem_takeWhile_imp hc, stopsBefore_dropWhile inRun cs⟩
  · rintro ⟨rfl, hne, htaken, hrest⟩
    obtain ⟨htake, hdrop⟩ := takeWhile_append_of_stopsBefore hrest htaken
    rw [run?, htake, hdrop]
    simp [hne]

/-! ### Pieces -/

namespace Piece

/-- Every piece that is not wording is one field. -/
theorem eq_field_of_read? {piece : Piece} (hpiece : ∀ text, piece ≠ .wording text)
    {cs next : List Char} {here : List String} (h : piece.read? cs = some (here, next)) :
    ∃ field, here = [field] ∧ cs = field.toList ++ next := by
  cases piece with
  | wording text => exact absurd rfl (hpiece text)
  | without | word =>
    obtain ⟨⟨taken, next'⟩, hrun, hnext⟩ := Option.map_eq_some_iff.1 h
    cases hnext
    exact ⟨_, rfl, by rw [String.toList_ofList]; exact (run?_eq_some.1 hrun).1⟩
  | version least =>
    obtain ⟨⟨first, next'⟩, hrun, h⟩ := Option.bind_eq_some_iff.1 h
    have hnumbers := moreNumbers_append 2 next'
    dsimp only at h
    split at h
    · cases h
      refine ⟨_, rfl, ?_⟩
      rw [String.toList_ofList, List.append_assoc, hnumbers]
      exact (run?_eq_some.1 hrun).1
    · cases h

theorem read?_wording {text : String} {cs next : List Char} {here : List String} :
    (wording text).read? cs = some (here, next) ↔ here = [] ∧ cs = text.toList ++ next := by
  rw [read?, Option.map_eq_some_iff]
  constructor
  · rintro ⟨rest, hrest, hnext⟩
    cases hnext
    exact ⟨rfl, afterStart?_eq_some.1 hrest⟩
  · rintro ⟨rfl, rfl⟩
    exact ⟨next, afterStart?_eq_some.2 rfl, rfl⟩

/-- The text that a field takes, if it takes one, when its characters are those of a class. -/
theorem map_run?_eq_some {inRun : Char → Bool} {field : String} {next : List Char} :
    ((run? inRun (field.toList ++ next)).map fun (f, rest) => ([String.ofList f], rest)) =
        some ([field], next) ↔
      field ≠ "" ∧ (∀ c ∈ field.toList, inRun c = true) ∧ StopsBefore inRun next := by
  have hempty : field.toList ≠ [] ↔ field ≠ "" := not_congr String.toList_eq_nil_iff
  rw [Option.map_eq_some_iff, ← hempty]
  constructor
  · rintro ⟨⟨taken, rest⟩, hrun, hfield⟩
    obtain ⟨rfl, rfl⟩ : String.ofList taken = field ∧ rest = next := by simpa using hfield
    rw [String.toList_ofList] at hrun ⊢
    exact (run?_eq_some.1 hrun).2
  · intro h
    exact ⟨(field.toList, next), run?_eq_some.2 ⟨rfl, h⟩, by simp⟩

theorem read?_without {stop : Char} {field : String} {next : List Char} :
    (without stop).read? (field.toList ++ next) = some ([field], next) ↔
      field ≠ "" ∧ stop ∉ field.toList ∧ ∀ c ∈ next.head?, c = stop := by
  rw [read?, map_run?_eq_some]
  have hmem : (∀ c ∈ field.toList, (c != stop) = true) ↔ stop ∉ field.toList := by
    simp only [bne_iff_ne, ne_eq]
    exact ⟨fun h hstop => h stop hstop rfl, fun h c hc hstop => h (hstop ▸ hc)⟩
  simp only [hmem, StopsBefore, bne_eq_false_iff_eq]

theorem read?_word {field : String} {next : List Char} :
    word.read? (field.toList ++ next) = some ([field], next) ↔
      field ≠ "" ∧ (∀ c ∈ field.toList, isBlank c = false) ∧
        ∀ c ∈ next.head?, isBlank c = true := by
  rw [read?, map_run?_eq_some]
  simp only [StopsBefore, Bool.not_eq_true', Bool.not_eq_false']

end Piece

namespace Pattern

/-- The wording of a pattern with texts for its fields. -/
def fill : Pattern → List String → List Char
  | [], _ => []
  | .wording text :: pieces, fields => text.toList ++ fill pieces fields
  | _ :: pieces, field :: fields => field.toList ++ fill pieces fields
  | _ :: pieces, [] => fill pieces []

/-- In front of a text, every field of a pattern takes the text that is meant for it. -/
def Fits : Pattern → List String → List Char → Prop
  | [], fields, _ => fields = []
  | .wording _ :: pieces, fields, rest => Fits pieces fields rest
  | piece :: pieces, field :: fields, rest =>
    piece.read? (field.toList ++ (fill pieces fields ++ rest)) =
      some ([field], fill pieces fields ++ rest) ∧ Fits pieces fields rest
  | _ :: _, [], _ => False

section
variable {piece : Piece} {pieces : Pattern} {field : String} {fields : List String}
  {cs rest : List Char}

theorem fill_field (hpiece : ∀ text, piece ≠ .wording text) :
    fill (piece :: pieces) (field :: fields) = field.toList ++ fill pieces fields := by
  cases piece with
  | wording text => exact absurd rfl (hpiece text)
  | without | word | version => rfl

theorem fits_field (hpiece : ∀ text, piece ≠ .wording text) :
    Fits (piece :: pieces) (field :: fields) rest ↔
      piece.read? (field.toList ++ (fill pieces fields ++ rest)) =
        some ([field], fill pieces fields ++ rest) ∧ Fits pieces fields rest := by
  cases piece with
  | wording text => exact absurd rfl (hpiece text)
  | without | word | version => rfl

theorem not_fits_nil (hpiece : ∀ text, piece ≠ .wording text) :
    ¬ Fits (piece :: pieces) [] rest := by
  cases piece with
  | wording text => exact absurd rfl (hpiece text)
  | without | word | version => exact id

theorem read?_cons :
    read? (piece :: pieces) cs = some (fields, rest) ↔
      ∃ here next more, piece.read? cs = some (here, next) ∧
        read? pieces next = some (more, rest) ∧ here ++ more = fields := by
  rw [read?]
  constructor
  · intro h
    obtain ⟨⟨here, next⟩, hpiece, h⟩ := Option.bind_eq_some_iff.1 h
    obtain ⟨⟨more, rest'⟩, hmore, h⟩ := Option.bind_eq_some_iff.1 h
    cases h
    exact ⟨here, next, more, hpiece, hmore, rfl⟩
  · rintro ⟨here, next, more, hpiece, hmore, rfl⟩
    rw [hpiece]
    simp [hmore]

end

/-- What is read is the pattern filled with the fields, and the fields fit. -/
theorem read?_eq_some {p : Pattern} {cs rest : List Char} {fields : List String} :
    p.read? cs = some (fields, rest) ↔ cs = p.fill fields ++ rest ∧ p.Fits fields rest := by
  induction p generalizing cs fields with
  | nil => simp [read?, fill, Fits, eq_comm, and_comm]
  | cons piece pieces ih =>
    rw [read?_cons]
    by_cases hpiece : ∃ text, piece = .wording text
    · obtain ⟨text, rfl⟩ := hpiece
      simp only [Piece.read?_wording, fill, Fits]
      constructor
      · rintro ⟨here, next, more, ⟨rfl, rfl⟩, hmore, rfl⟩
        obtain ⟨rfl, hfits⟩ := ih.1 hmore
        exact ⟨by rw [List.append_assoc, List.nil_append], hfits⟩
      · rintro ⟨rfl, hfits⟩
        exact ⟨[], _, fields, ⟨rfl, List.append_assoc ..⟩, ih.2 ⟨rfl, hfits⟩, rfl⟩
    · have hpiece : ∀ text, piece ≠ .wording text := fun text h => hpiece ⟨text, h⟩
      constructor
      · rintro ⟨here, next, more, hread, hmore, rfl⟩
        obtain ⟨field, rfl, rfl⟩ := Piece.eq_field_of_read? hpiece hread
        obtain ⟨rfl, hfits⟩ := ih.1 hmore
        rw [List.singleton_append, fill_field hpiece, fits_field hpiece, List.append_assoc]
        exact ⟨rfl, hread, hfits⟩
      · rintro ⟨rfl, hfits⟩
        cases fields with
        | nil => exact absurd hfits (not_fits_nil hpiece)
        | cons field fields =>
          obtain ⟨hread, hfits⟩ := (fits_field hpiece).1 hfits
          rw [fill_field hpiece, List.append_assoc]
          exact ⟨[field], _, fields, hread, ih.2 ⟨rfl, hfits⟩, rfl⟩

/-! ### Matches -/

theorem first?_of_read? {p : Pattern} {cs : List Char} {found : List String × List Char}
    (h : p.read? cs = some found) : p.first? cs = some found := by
  cases cs with
  | nil => exact h
  | cons c cs => rw [first?, h, Option.some_or]

/-- The first match stands somewhere in the text. -/
theorem eq_of_first? {p : Pattern} {cs rest : List Char} {fields : List String}
    (h : p.first? cs = some (fields, rest)) :
    ∃ front, cs = front ++ (p.fill fields ++ rest) ∧ p.Fits fields rest := by
  induction cs with
  | nil => exact ⟨[], read?_eq_some.1 h⟩
  | cons c cs ih =>
    rw [first?] at h
    rcases Option.or_eq_some_iff.1 h with h | ⟨-, h⟩
    · exact ⟨[], read?_eq_some.1 h⟩
    · obtain ⟨front, hfront, hfits⟩ := ih h
      exact ⟨c :: front, congrArg (c :: ·) hfront, hfits⟩

/-- Every match stands in the text. -/
theorem eq_of_mem_all {p : Pattern} {cs : List Char} {fields : List String}
    (h : fields ∈ p.all cs) :
    ∃ front rest, cs = front ++ (p.fill fields ++ rest) ∧ p.Fits fields rest := by
  fun_induction all p cs with
  | case1 => cases h
  | case2 cs found rest hfirst _ ih =>
    obtain ⟨front, hfront, hfits⟩ := eq_of_first? hfirst
    rcases List.mem_cons.1 h with rfl | h
    · exact ⟨front, rest, hfront, hfits⟩
    · obtain ⟨front', rest', rfl, hfits'⟩ := ih h
      exact ⟨front ++ (p.fill found ++ front'), rest', by simpa using hfront, hfits'⟩
  | case3 cs found rest hfirst =>
    obtain ⟨front, hfront, hfits⟩ := eq_of_first? hfirst
    obtain rfl := List.mem_singleton.1 h
    exact ⟨front, rest, hfront, hfits⟩

theorem fill_infix_of_mem_all {p : Pattern} {cs : List Char} {fields : List String}
    (h : fields ∈ p.all cs) : p.fill fields <:+: cs := by
  obtain ⟨front, rest, hcs, -⟩ := eq_of_mem_all h
  exact ⟨front, rest, by rw [List.append_assoc, hcs]⟩

theorem all_eq_nil {p : Pattern} {cs : List Char} : p.all cs = [] ↔ p.occursIn cs = false := by
  rw [all, occursIn]
  rcases p.first? cs with _ | ⟨fields, rest⟩
  · simp
  · dsimp only
    split
    · simp
    · simp

/-! ### Records in a text -/

section
variable {marker : String} {p : Pattern} {cs front after rest : List Char} {fields : List String}

/-- A pattern does not match where the wording it begins with does not stand. -/
theorem first?_eq_none (h : ¬ marker.toList <:+: cs) :
    first? (.wording marker :: p) cs = none := by
  cases hfirst : first? (.wording marker :: p) cs with
  | none => rfl
  | some found =>
    obtain ⟨front, hcs, -⟩ := eq_of_first? hfirst
    refine absurd ⟨front, fill p found.1 ++ found.2, ?_⟩ h
    rw [hcs, fill]
    simp only [List.append_assoc]

/-- Where the wording that it begins with stands first, a pattern matches first if it matches. -/
theorem first?_of_cutFirst? (hcut : cutFirst? marker.toList cs = some (front, after))
    (hread : p.read? after = some (fields, rest)) :
    first? (.wording marker :: p) cs = some (fields, rest) := by
  have hhere {cs : List Char} (h : afterStart? marker.toList cs = some after) :
      read? (.wording marker :: p) cs = some (fields, rest) :=
    read?_cons.2 ⟨[], after, fields,
      Piece.read?_wording.2 ⟨rfl, afterStart?_eq_some.1 h⟩, hread, rfl⟩
  induction cs generalizing front with
  | nil =>
    rw [cutFirst?] at hcut
    split at hcut
    · next hempty =>
      cases hcut
      exact hhere (by rw [List.isEmpty_iff.1 hempty]; rfl)
    · cases hcut
  | cons c cs ih =>
    rw [cutFirst?] at hcut
    rw [first?]
    split at hcut
    · next hstart =>
      cases hcut
      rw [hhere hstart, Option.some_or]
    · next hstart =>
      obtain ⟨⟨front', after'⟩, hcut', heq⟩ := Option.map_eq_some_iff.1 hcut
      cases heq
      have hnone : read? (.wording marker :: p) (c :: cs) = none := by
        rw [read?, Piece.read?, hstart]
        rfl
      rw [hnone, Option.none_or]
      exact ih hcut'

end

/-- Records with texts around them: one in front of the first record, one behind each. -/
def interleave {α : Type} (record : α → String) (filler : String) : List (α × String) → String
  | [] => filler
  | (a, next) :: parts => filler ++ record a ++ interleave record next parts

/-- Of a text in which records are told apart by the wording they begin with, the matches are the
    records in their order. -/
theorem all_interleave {α : Type} {marker : String} {p : Pattern} {record : α → String}
    {fields : α → List String} (hmarker : Unbordered marker.toList) (hne : marker ≠ "")
    {filler : String} {parts : List (α × String)}
    (hread : ∀ a ∈ parts.map Prod.fst, ∀ rest,
      read? (.wording marker :: p) ((record a).toList ++ rest) = some (fields a, rest))
    (hfillers : ∀ s ∈ filler :: parts.map Prod.snd, ¬ marker.toList <:+: s.toList) :
    all (.wording marker :: p) (interleave record filler parts).toList =
      parts.map fun part => fields part.1 := by
  induction parts generalizing filler with
  | nil => rw [interleave, all, first?_eq_none (hfillers filler List.mem_cons_self), List.map_nil]
  | cons part parts ih =>
    obtain ⟨a, next⟩ := part
    simp only [List.map_cons, List.forall_mem_cons] at hread hfillers
    obtain ⟨ha, hread⟩ := hread
    obtain ⟨hfiller, hfillers⟩ := hfillers
    have hrest := ih hread (List.forall_mem_cons.2 hfillers)
    rw [interleave, String.toList_append, String.toList_append, List.append_assoc]
    generalize (interleave record next parts).toList = rest at hrest ⊢
    obtain ⟨here, after, more, hmark, hmore, hfields⟩ := read?_cons.1 (ha rest)
    obtain ⟨rfl, hrecord⟩ := Piece.read?_wording.1 hmark
    obtain rfl : more = fields a := hfields
    have hcut : cutFirst? marker.toList (filler.toList ++ ((record a).toList ++ rest)) =
        some (filler.toList, after) := by
      rw [hrecord, ← List.append_assoc]
      exact hmarker.cutFirst?_append hfiller after
    have hshorter : rest.length < (filler.toList ++ ((record a).toList ++ rest)).length := by
      have hpos : 0 < marker.toList.length :=
        List.length_pos_iff.2 (mt String.toList_eq_nil_iff.1 hne)
      obtain ⟨hafter, -⟩ := read?_eq_some.1 hmore
      rw [hrecord, hafter]
      simp only [List.length_append]
      omega
    rw [all, first?_of_cutFirst? hcut hmore]
    dsimp only
    rw [if_pos hshorter, hrest, List.map_cons]

end Pattern
end RouterShift.Text
