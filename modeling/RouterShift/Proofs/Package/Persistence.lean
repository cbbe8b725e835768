import RouterShift.Proofs.Disk.Entry
import RouterShift.Proofs.Package.Manifest

/-! Manifests that are saved and loaded. A numeral without point and exponent that fits 64 bits is
    read as an integer, but for `-0`, which becomes the double of that name; either is written so
    that it is read back. Hence a manifest with no numbers but those is loaded as it was saved, from
    a text or from a disk, as often as that may be (`parse_render_of_parse`). -/

namespace RouterShift.Json

open Decimal (Double)

namespace Number

/-- The zero with a minus sign. -/
def negativeZero : Number := .real Double.zero.neg

/-- What a numeral is read as that has no point and no exponent and fits 64 bits. -/
def IsWhole (n : Number) : Prop := (∃ i : Int, n = .integer i) ∨ n = negativeZero

/-- Such a numeral is read as a whole number. -/
theorem isWhole_of_ofDigits? {negative : Bool} {digits : List Char} {n : Number}
    (hfits : Nat.ofDigitChars 10 digits 0 < Text.wordLimit)
    (hnegative : negative = true → Nat.ofDigitChars 10 digits 0 ≤ Nat.pow 2 63)
    (h : ofDigits? negative digits none none = some n) : n.IsWhole := by
  have hinteger : ofInteger? negative (Nat.ofDigitChars 10 digits 0) = some n := by
    rw [← h, ofDigits?, absorb_eq hfits]
    simp
  rw [ofInteger?] at hinteger
  cases negative with
  | false =>
    cases hinteger
    exact .inl ⟨_, rfl⟩
  | true =>
    have hle := hnegative rfl
    rcases Nat.eq_zero_or_pos (Nat.ofDigitChars 10 digits 0) with hzero | hpos
    · rw [hzero] at hinteger
      exact .inr (Option.some.inj (hinteger.symm.trans (by decide +kernel)))
    · simp only [Bool.not_true, Bool.false_eq_true, if_false, hpos, hle, decide_true,
        Bool.and_self, if_true, Option.some.injEq] at hinteger
      exact .inl ⟨_, hinteger.symm⟩

end Number

/-- The negative zero is written with a point, and read back as the double that it is. -/
theorem readsBack_negativeZero : ReadsBack (.number .negativeZero) := by
  intro level rest hrest
  have hpretty : Value.pretty level (.number .negativeZero) = ['-', '0', '.', '0'] := by
    rw [Value.pretty]
    decide +kernel
  have hwhole : whole? ('0' :: '.' :: '0' :: rest) = some (['0'], '.' :: '0' :: rest) := rfl
  have hdigits : digits? (['0'] ++ rest) = some (['0'], rest) :=
    digits?_append (List.forall_mem_singleton.2 (by decide)) (by simp) hrest
  rw [List.singleton_append] at hdigits
  have hfraction : fraction? ('.' :: '0' :: rest) = some (some ['0'], rest) := by
    rw [fraction?, hdigits]
    rfl
  have hvalue : Number.ofDigits? true ['0'] (some ['0']) none = some .negativeZero := by
    decide +kernel
  rw [hpretty]
  simp only [List.cons_append, List.nil_append]
  rw [valueAt?_minus, number?, hwhole]
  simp [hfraction, exponent?_of_endsLine hrest, hvalue]

end RouterShift.Json

namespace RouterShift.Manifest

open Json (Value Number)

/-- What the text of a manifest means: the manifest, with all keys where they were, if its objects
    are settled and the numbers in them are written as what they are. -/
theorem parse_render_of_numbers {m : Manifest} (hsettled : (Value.object m.fields).Settled)
    (hproper : (Value.object m.fields).isProper Value.depthLimit = true)
    (hnumbers : ∀ n, Value.Within (.number n) (.object m.fields) →
      n.IsWord ∨ n = .negativeZero) (path : Path) : parse path m.render = .ok m := by
  have hreads (n : Number) (hn : Value.Within (.number n) (.object m.fields)) :
      Json.ReadsBack (.number n) := by
    rcases hnumbers n hn with hword | rfl
    · exact Json.readsBack_word hword
    · exact Json.readsBack_negativeZero
  have hread : Json.parse? m.render = some (.object m.fields) :=
    Json.parse?_of_readsBack hsettled hproper hreads (by simp [Json.isBlank])
      (by intro c hc; cases hc; exact .inl rfl)
  rw [parse, hread]

/-- A manifest that was read from a text with whole numbers is what its own text means: writing it
    once more gives that text again, and wherever on a disk it is saved, it is loaded from there. -/
theorem parse_render_of_parse {path : Path} {text : String} {m : Manifest}
    (h : parse path text = .ok m)
    (hnumbers : ∀ n, Value.Within (.number n) (.object m.fields) → n.IsWhole) (path' : Path) :
    parse path' m.render = .ok m ∧
      (parse path' m.render).map render = .ok m.render ∧
      ∀ before after, Entry.writeAt? before [] path' (.ofString m.render) = some after →
        (after.readText? [] path').map (parse path') = some (.ok m) := by
  have hparse : Json.parse? text = some (.object m.fields) := by
    rw [parse] at h
    split at h
    · cases h
    · next hread =>
      cases h
      exact hread
    · cases h
  obtain ⟨hsettled, hproper, hwords⟩ := Json.of_parse? hparse
  have hagain : parse path' m.render = .ok m := by
    refine parse_render_of_numbers hsettled hproper (fun n hn => ?_) path'
    rcases hnumbers n hn with ⟨i, rfl⟩ | hzero
    · exact .inl (hwords i hn)
    · exact .inr hzero
  refine ⟨hagain, ?_, fun before after hwrite => ?_⟩
  · rw [hagain]
    rfl
  · rw [Entry.readText?_writeAt? hwrite, Option.map_some, hagain]

/-- A manifest with a number of each kind, keys out of order, and characters to escape. -/
def oddManifest : Manifest where
  fields := [("zone", .number .negativeZero),
    ("\x01\"", .array [.number (.integer (-7)), .string "\\é\n", .object []])]

theorem parse_render_of_parse_odd :
    parse ⟨"package.json"⟩ oddManifest.render = .ok oddManifest ∧
      (∀ n, Value.Within (.number n) (.object oddManifest.fields) → n.IsWhole) ∧
      parse ⟨"copy.json"⟩ oddManifest.render = .ok oddManifest := by
  have hsettled : (Value.object oddManifest.fields).Settled := by
    intro fields h
    simp [oddManifest, Value.within_object, Value.within_array, Value.within_string,
      Value.within_number] at h
    rcases h with rfl | rfl
    · decide
    · decide
  have hnumbers (n : Number) (hn : Value.Within (.number n) (.object oddManifest.fields)) :
      n = .negativeZero ∨ n = .integer (-7) := by
    simpa [oddManifest, Value.within_object, Value.within_array, Value.within_string,
      Value.within_number] using hn
  have hparse : parse ⟨"package.json"⟩ oddManifest.render = .ok oddManifest := by
    refine parse_render_of_numbers hsettled (by decide) (fun n hn => ?_) _
    rcases hnumbers n hn with hzero | rfl
    · exact .inr hzero
    · exact .inl ⟨by decide, by decide⟩
  have hwhole (n : Number) (hn : Value.Within (.number n) (.object oddManifest.fields)) :
      n.IsWhole := by
    rcases hnumbers n hn with hzero | rfl
    · exact .inr hzero
    · exact .inl ⟨_, rfl⟩
  exact ⟨hparse, hwhole, (parse_render_of_parse hparse hwhole _).1⟩

end RouterShift.Manifest
