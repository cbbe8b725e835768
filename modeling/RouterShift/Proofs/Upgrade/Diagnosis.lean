import RouterShift.Proofs.Text.Pattern
import RouterShift.Upgrade.Diagnosis

/-! What a diagnosis takes out of a text. A complaint is told in records, one for each peer, among
    text that may say anything else. As long as that text does not itself begin a record, the
    diagnosis has all the records and has them in their order (`ofText?_interleave`). -/

namespace RouterShift.Upgrade
open Text Text.Pattern

/-! ### Records -/

/-- What a text says of a missing peer. -/
def peerRecord (u : DependencyUpdate) : String := s!"requires a peer of {u.name} \"{u.range}\""

/-- What a text says of a peer that does not fit. -/
def conflictRecord (c : PeerConflict) : String :=
  s!"Package \"{c.package}\" has an incompatible peer dependency to \"{c.peer}\" ({c.detail})"

/-- What the detail of a conflict says of the two versions. -/
def clashRecord (clash : Clash) : String :=
  s!"requires \"{clash.required}\", would install \"{clash.wouldInstall}\""

/-- A text that can be told in quotes. -/
def Quotable (s : String) : Prop := s ≠ "" ∧ '"' ∉ s.toList

instance (s : String) : Decidable (Quotable s) :=
  inferInstanceAs (Decidable (s ≠ "" ∧ '"' ∉ s.toList))

/-- A missing peer that a record can tell of: no blank ends its name early. -/
structure PeerTold (u : DependencyUpdate) : Prop where
  name_ne : u.name ≠ ""
  name : ∀ c ∈ u.name.toList, isBlank c = false
  range : Quotable u.range

/-- A conflict that a record can tell of: no bracket ends its detail early. -/
structure ConflictTold (c : PeerConflict) : Prop where
  package : Quotable c.package
  peer : Quotable c.peer
  detail_ne : c.detail ≠ ""
  detail : ')' ∉ c.detail.toList

-- the test is written out: an instance for the quantifier may go through all characters there are
instance (u : DependencyUpdate) : Decidable (PeerTold u) :=
  decidable_of_iff (u.name ≠ "" ∧ u.name.toList.all (!isBlank ·) = true ∧ Quotable u.range) <| by
    rw [List.all_eq_true]
    simp only [Bool.not_eq_true']
    exact ⟨fun ⟨hne, hname, hrange⟩ => ⟨hne, hname, hrange⟩, fun h => ⟨h.name_ne, h.name, h.range⟩⟩

instance (c : PeerConflict) : Decidable (ConflictTold c) :=
  decidable_of_iff
    (Quotable c.package ∧ Quotable c.peer ∧ c.detail ≠ "" ∧ ')' ∉ c.detail.toList)
    ⟨fun ⟨hpackage, hpeer, hne, hdetail⟩ => ⟨hpackage, hpeer, hne, hdetail⟩,
      fun h => ⟨h.package, h.peer, h.detail_ne, h.detail⟩⟩

-- `unfold` and not `rw`: the equation of a definition by such a text is slow to derive
theorem toList_peerRecord (u : DependencyUpdate) :
    (peerRecord u).toList = peerPattern.fill [u.name, u.range] := by
  unfold peerRecord
  simp only [toString, String.toList_append, peerPattern, fill, List.append_assoc, List.append_nil]

theorem toList_conflictRecord (c : PeerConflict) :
    (conflictRecord c).toList = conflictPattern.fill [c.package, c.peer, c.detail] := by
  unfold conflictRecord
  simp only [toString, String.toList_append, conflictPattern, fill, List.append_assoc,
    List.append_nil]

theorem toList_clashRecord (clash : Clash) :
    (clashRecord clash).toList = clashPattern.fill [clash.required, clash.wouldInstall] := by
  unfold clashRecord
  simp only [toString, String.toList_append, clashPattern, fill, List.append_assoc, List.append_nil]

/-- What the fields of a missing peer take, whatever the text goes on with. -/
theorem fits_peerPattern {fields : List String} {rest : List Char} :
    peerPattern.Fits fields rest ↔ ∃ u, PeerTold u ∧ fields = [u.name, u.range] := by
  have hblank : isBlank ' ' = true := by decide
  have htold (u : DependencyUpdate) : peerPattern.Fits [u.name, u.range] rest ↔ PeerTold u := by
    simp only [peerPattern, Fits, fill, Piece.read?_word, Piece.read?_without]
    constructor
    · rintro ⟨⟨hne, hname, -⟩, ⟨hrange, hquote, -⟩, -⟩
      exact ⟨hne, hname, hrange, hquote⟩
    · intro h
      exact ⟨⟨h.name_ne, h.name, by rintro c ⟨⟩; exact hblank⟩,
        ⟨h.range.1, h.range.2, by rintro c ⟨⟩; rfl⟩, trivial⟩
  constructor
  · intro h
    rcases fields with _ | ⟨name, _ | ⟨range, _ | ⟨more, others⟩⟩⟩
    · cases h
    · cases h.2
    · exact ⟨⟨name, range⟩, (htold ⟨name, range⟩).1 h, rfl⟩
    · cases h.2.2
  · rintro ⟨u, hu, rfl⟩
    exact (htold u).2 hu

theorem fits_conflictPattern {c : PeerConflict} (h : ConflictTold c) (rest : List Char) :
    conflictPattern.Fits [c.package, c.peer, c.detail] rest := by
  simp only [conflictPattern, Fits, fill, Piece.read?_without]
  exact ⟨⟨h.package.1, h.package.2, by rintro c ⟨⟩; rfl⟩, ⟨h.peer.1, h.peer.2, by rintro c ⟨⟩; rfl⟩,
    ⟨h.detail_ne, h.detail, by rintro c ⟨⟩; rfl⟩, trivial⟩

theorem fits_clashPattern {clash : Clash} (hrequired : Quotable clash.required)
    (hinstall : Quotable clash.wouldInstall) (rest : List Char) :
    clashPattern.Fits [clash.required, clash.wouldInstall] rest := by
  simp only [clashPattern, Fits, fill, Piece.read?_without]
  exact ⟨⟨hrequired.1, hrequired.2, by rintro c ⟨⟩; rfl⟩,
    ⟨hinstall.1, hinstall.2, by rintro c ⟨⟩; rfl⟩, trivial⟩

/-! ### Complaints -/

/-- The wording that a record of a missing peer begins with. -/
def peerOpening : String := "requires a peer of "

/-- The wording that a record of a conflict begins with. -/
def conflictOpening : String := "Package \""

section
variable {filler text : String}

theorem ofText?_missing {parts : List (DependencyUpdate × String)} (hne : parts ≠ [])
    (htold : ∀ u ∈ parts.map Prod.fst, PeerTold u)
    (hfillers : ∀ s ∈ filler :: parts.map Prod.snd, ¬ peerOpening.toList <:+: s.toList)
    (hnpm : ¬ npmMarker.toList <:+: (interleave peerRecord filler parts).toList) :
    Diagnosis.ofText? (interleave peerRecord filler parts) =
      some (.unmetPeers (parts.map Prod.fst)) := by
  have hread (u : DependencyUpdate) (hu : u ∈ parts.map Prod.fst) (rest : List Char) :
      peerPattern.read? ((peerRecord u).toList ++ rest) = some ([u.name, u.range], rest) :=
    read?_eq_some.2 ⟨by rw [toList_peerRecord], fits_peerPattern.2 ⟨u, htold u hu, rfl⟩⟩
  have hall : peerPattern.all (interleave peerRecord filler parts).toList =
      parts.map fun part => [part.1.name, part.1.range] :=
    all_interleave (by decide) (by decide) hread hfillers
  have hoccurs : peerPattern.occursIn (interleave peerRecord filler parts).toList = true := by
    rw [← Bool.not_eq_false, ← all_eq_nil, hall, List.map_eq_nil_iff]
    exact hne
  have hupdates : (parts.map fun part => [part.1.name, part.1.range]).filterMap update? =
      parts.map Prod.fst := by
    rw [List.filterMap_map]
    exact congrFun List.filterMap_eq_map' parts
  rw [Diagnosis.ofText?, if_neg (mt mentions_iff.1 hnpm), if_pos hoccurs, hall, hupdates]

theorem ofText?_unfitting {parts : List (PeerConflict × String)}
    (htold : ∀ c ∈ parts.map Prod.fst, ConflictTold c)
    (hfillers : ∀ s ∈ filler :: parts.map Prod.snd, ¬ conflictOpening.toList <:+: s.toList)
    (hmarker : conflictMarker.toList <:+: (interleave conflictRecord filler parts).toList)
    (hnpm : ¬ npmMarker.toList <:+: (interleave conflictRecord filler parts).toList)
    (hpeer : ¬ peerOpening.toList <:+: (interleave conflictRecord filler parts).toList) :
    Diagnosis.ofText? (interleave conflictRecord filler parts) =
      some (.incompatiblePeers (parts.map Prod.fst)) := by
  have hread (c : PeerConflict) (hc : c ∈ parts.map Prod.fst) (rest : List Char) :
      conflictPattern.read? ((conflictRecord c).toList ++ rest) =
        some ([c.package, c.peer, c.detail], rest) :=
    read?_eq_some.2 ⟨by rw [toList_conflictRecord], fits_conflictPattern (htold c hc) rest⟩
  have hall : conflictPattern.all (interleave conflictRecord filler parts).toList =
      parts.map fun part => [part.1.package, part.1.peer, part.1.detail] :=
    all_interleave (by decide) (by decide) hread hfillers
  have hoccurs : ¬ peerPattern.occursIn (interleave conflictRecord filler parts).toList = true := by
    have hnone : peerPattern.first? (interleave conflictRecord filler parts).toList = none :=
      first?_eq_none hpeer
    rw [occursIn, hnone]
    exact Bool.false_ne_true
  have hconflicts : (parts.map fun part =>
      [part.1.package, part.1.peer, part.1.detail]).filterMap conflict? = parts.map Prod.fst := by
    rw [List.filterMap_map]
    exact congrFun List.filterMap_eq_map' parts
  rw [Diagnosis.ofText?, if_neg (mt mentions_iff.1 hnpm), if_neg hoccurs,
    if_pos (mentions_iff.2 hmarker), hall, hconflicts]

/-- A detail of nothing but the two versions is read as these. -/
theorem clash?_clashRecord {c : PeerConflict} {clash : Clash} (hrequired : Quotable clash.required)
    (hinstall : Quotable clash.wouldInstall) (hdetail : c.detail = clashRecord clash) :
    c.clash? = some clash := by
  have hread : clashPattern.read? c.detail.toList =
      some ([clash.required, clash.wouldInstall], []) := by
    rw [read?_eq_some, hdetail, toList_clashRecord, List.append_nil]
    exact ⟨rfl, fits_clashPattern hrequired hinstall []⟩
  rw [PeerConflict.clash?, first?_of_read? hread]

/-- Where missing peers are reported there is one, and each of them is told by a record. -/
theorem of_ofText?_unmetPeers {updates : List DependencyUpdate}
    (h : Diagnosis.ofText? text = some (.unmetPeers updates)) :
    updates ≠ [] ∧ ∀ u ∈ updates, PeerTold u ∧ (peerRecord u).toList <:+: text.toList := by
  have hfound : peerPattern.occursIn text.toList = true ∧
      (peerPattern.all text.toList).filterMap update? = updates := by
    rw [Diagnosis.ofText?] at h
    split at h
    · cases h
    split at h
    · next hoccurs =>
      cases h
      exact ⟨hoccurs, rfl⟩
    split at h
    · cases h
    · cases h
  obtain ⟨hoccurs, rfl⟩ := hfound
  have htold (fields : List String) (hfields : fields ∈ peerPattern.all text.toList) :
      ∃ u, fields = [u.name, u.range] ∧ PeerTold u ∧ (peerRecord u).toList <:+: text.toList := by
    obtain ⟨front, rest, htext, hfits⟩ := eq_of_mem_all hfields
    obtain ⟨u, hu, rfl⟩ := fits_peerPattern.1 hfits
    exact ⟨u, rfl, hu, front, rest, by rw [toList_peerRecord, htext, List.append_assoc]⟩
  constructor
  · have hne : peerPattern.all text.toList ≠ [] := by
      rw [ne_eq, all_eq_nil, Bool.not_eq_false]
      exact hoccurs
    obtain ⟨fields, hfields⟩ := List.exists_mem_of_ne_nil _ hne
    obtain ⟨u, rfl, -⟩ := htold fields hfields
    exact List.ne_nil_of_mem (List.mem_filterMap.2 ⟨_, hfields, rfl⟩)
  · intro u hu
    obtain ⟨fields, hfields, hupdate⟩ := List.mem_filterMap.1 hu
    obtain ⟨v, rfl, hv⟩ := htold fields hfields
    cases hupdate
    exact hv

end

/-- The diagnosis of a text has every record of missing peers and, if there are none and the text
    says that peers do not fit, every record of these, in the order of the text; the version that
    would be installed is taken from the detail. Conversely what is reported missing is never
    nothing, and a record of it stands in the text. -/
theorem ofText?_interleave :
    (∀ (filler : String) (parts : List (DependencyUpdate × String)), parts ≠ [] →
      (∀ u ∈ parts.map Prod.fst, PeerTold u) →
      (∀ s ∈ filler :: parts.map Prod.snd, ¬ peerOpening.toList <:+: s.toList) →
      ¬ npmMarker.toList <:+: (interleave peerRecord filler parts).toList →
      Diagnosis.ofText? (interleave peerRecord filler parts) =
        some (.unmetPeers (parts.map Prod.fst))) ∧
    (∀ (filler : String) (parts : List (PeerConflict × String)),
      (∀ c ∈ parts.map Prod.fst, ConflictTold c) →
      (∀ s ∈ filler :: parts.map Prod.snd, ¬ conflictOpening.toList <:+: s.toList) →
      conflictMarker.toList <:+: (interleave conflictRecord filler parts).toList →
      ¬ npmMarker.toList <:+: (interleave conflictRecord filler parts).toList →
      ¬ peerOpening.toList <:+: (interleave conflictRecord filler parts).toList →
      Diagnosis.ofText? (interleave conflictRecord filler parts) =
        some (.incompatiblePeers (parts.map Prod.fst))) ∧
    (∀ (c : PeerConflict) (clash : Clash), Quotable clash.required →
      Quotable clash.wouldInstall → c.detail = clashRecord clash → c.clash? = some clash) ∧
    ∀ (text : String) (updates : List DependencyUpdate),
      Diagnosis.ofText? text = some (.unmetPeers updates) →
      updates ≠ [] ∧ ∀ u ∈ updates, PeerTold u ∧ (peerRecord u).toList <:+: text.toList := by
  exact ⟨fun filler parts => ofText?_missing, fun filler parts => ofText?_unfitting,
    fun c clash => clash?_clashRecord, fun text updates => of_ofText?_unmetPeers⟩

/-- Two peers are missing, and of two that do not fit one has a version to install. -/
theorem ofText?_interleave_two :
    Diagnosis.ofText? (interleave peerRecord "kit@9 "
        [(⟨"core", "^11.0.0"⟩, ", x@1 "), (⟨"rxjs", "^6.5.3"⟩, ".")]) =
      some (.unmetPeers [⟨"core", "^11.0.0"⟩, ⟨"rxjs", "^6.5.3"⟩]) ∧
    Diagnosis.ofText? (interleave conflictRecord "Incompatible peer dependencies found.\n"
        [(⟨"kit", "core", "requires \"^12\", would install \"13\""⟩, ".\n"),
          (⟨"foo", "core", "requires \">=8\""⟩, ".")]) =
      some (.incompatiblePeers [⟨"kit", "core", "requires \"^12\", would install \"13\""⟩,
        ⟨"foo", "core", "requires \">=8\""⟩]) ∧
    PeerConflict.clash? ⟨"kit", "core", "requires \"^12\", would install \"13\""⟩ =
      some ⟨"^12", "13"⟩ := by
  obtain ⟨hmissing, hunfitting, hclash, -⟩ := ofText?_interleave
  simp only [← mentions_iff] at hmissing hunfitting
  refine ⟨hmissing _ _ (List.cons_ne_nil _ _) (by decide) (by decide +kernel) ?_,
    hunfitting _ _ (by decide) (by decide +kernel) ?_ ?_ ?_,
    hclash _ _ (by decide) (by decide) (by decide)⟩
  all_goals
    simp only [interleave, String.toList_append, toList_peerRecord, toList_conflictRecord]
    decide +kernel

end RouterShift.Upgrade
