import RouterShift.Json.Record
import RouterShift.Package.Registry
import RouterShift.Proofs.Version.Order

/-! The version that is found for a peer. A map of ranges made of pairs gives for a name the last
    range that the pairs have for it. Published versions are gone through from the newest, so the
    first one whose declared range admits the peer is at least as new as all the others that do,
    and when none is found there is none (`compatibleVersion?_newest`). -/

namespace RouterShift.Json.SortedMap
open Std (LawfulEqOrd ReflOrd)

variable {α : Type}

theorem get?_cons (k : String) (v : α) (m : SortedMap α) (key : String) :
    get? ((k, v) :: m) key = if key = k then some v else get? m key := by
  rw [get?, List.lookup_cons]
  by_cases h : key = k
  · simp [h]
  · rw [beq_false_of_ne h, if_neg h]
    rfl

theorem get?_insert (m : SortedMap α) (key : String) (value : α) (other : String) :
    (m.insert key value).get? other = if other = key then some value else m.get? other := by
  induction m with
  | nil => exact get?_cons key value [] other
  | cons entry rest ih =>
    obtain ⟨k, v⟩ := entry
    rw [insert]
    cases hcompare : compare key k with
    | lt => exact get?_cons key value _ other
    | eq =>
      obtain rfl := LawfulEqOrd.eq_of_compare hcompare
      simp only [get?_cons]
      split <;> rfl
    | gt =>
      have hne : k ≠ key := by
        rintro rfl
        rw [ReflOrd.compare_self] at hcompare
        cases hcompare
      simp only [get?_cons, ih]
      by_cases h : other = k
      · simp [h, hne]
      · simp [h]

/-- The last value that pairs have for a key; in a map a key stands once, so it is the value. -/
def last? : List (String × α) → String → Option α
  | [], _ => none
  | (k, v) :: rest, key => (last? rest key).or (if key = k then some v else none)

theorem last?_append (front back : List (String × α)) (key : String) :
    last? (front ++ back) key = (last? back key).or (last? front key) := by
  induction front with
  | nil => exact (Option.or_none ..).symm
  | cons p front ih => rw [List.cons_append, last?, last?, ih, Option.or_assoc]

/-- A map made of pairs has the last value of the pairs under each key. -/
theorem get?_ofList (pairs : List (String × α)) (key : String) :
    (ofList pairs).get? key = last? pairs key := by
  have hfold (m : SortedMap α) : (pairs.foldl (fun m p => insert m p.1 p.2) m).get? key =
      (last? pairs key).or (m.get? key) := by
    induction pairs generalizing m with
    | nil => rfl
    | cons p pairs ih =>
      rw [List.foldl_cons, ih, get?_insert, last?, Option.or_assoc]
      congr 1
      split <;> rfl
  rw [ofList, hfold]
  exact Option.or_none ..

end RouterShift.Json.SortedMap

namespace RouterShift
open Json (SortedMap)
open Std (TransCmp)

/-- The range that a version declares for a name: an entry among its peers goes before one for
    development, and that before one for running. -/
def VersionManifest.declaredRange? (m : VersionManifest) (name : String) : Option String :=
  (SortedMap.last? m.peerDependencies name).or
    ((SortedMap.last? m.devDependencies name).or (SortedMap.last? m.dependencies name))

theorem VersionManifest.get?_mergedDependencies (m : VersionManifest) (name : String) :
    m.mergedDependencies.get? name = m.declaredRange? name := by
  rw [mergedDependencies, SortedMap.get?_ofList, SortedMap.last?_append, SortedMap.last?_append]
  rfl

namespace PackageMetadata

/-- The version is published with a range for the peer that admits the peer's version. -/
def Accepts (m : PackageMetadata) (peer peerVersion version : String) : Prop :=
  ∃ manifest range, (version, manifest) ∈ m.versions ∧ manifest.declaredRange? peer = some range ∧
    Range.admits range peerVersion = true

theorem mem_newestFirst {m : PackageMetadata} {entry : String × VersionManifest} :
    entry ∈ m.newestFirst ↔ entry ∈ m.versions := List.mem_mergeSort

/-- Nothing that comes later is newer. -/
theorem pairwise_newestFirst (m : PackageMetadata) :
    m.newestFirst.Pairwise fun a b => Version.orderTexts a.1 b.1 ≠ .lt := by
  have hsorted : m.newestFirst.Pairwise fun a b => Version.orderTexts b.1 a.1 != .gt := by
    refine List.pairwise_mergeSort (fun a b c hab hbc => ?_) (fun a b => ?_) _
    · simp only [bne_iff_ne] at *
      exact Ordering.isLE_iff_ne_gt.1
        (TransCmp.isLE_trans (Ordering.isLE_iff_ne_gt.2 hbc) (Ordering.isLE_iff_ne_gt.2 hab))
    · rw [← Version.orderTexts_swap a.1 b.1]
      cases Version.orderTexts a.1 b.1 <;> rfl
  refine hsorted.imp fun {a b} hab hlt => ?_
  rw [← Version.orderTexts_swap, hlt] at hab
  cases hab

/-- Entries are looked for among those with a range for the peer that admits its version. -/
theorem accepts_iff {m : PackageMetadata} {peer peerVersion version : String} :
    m.Accepts peer peerVersion version ↔ ∃ manifest, (version, manifest) ∈ m.newestFirst ∧
      ((manifest.mergedDependencies.get? peer).any fun range =>
        Range.admits range peerVersion) = true := by
  simp only [Accepts, mem_newestFirst, VersionManifest.get?_mergedDependencies,
    Option.any_eq_true, ← exists_and_left]

end PackageMetadata

/-- A version that is found for a peer accepts it, and no published version that is newer does; if
    none is found, no published version accepts it. Without metadata of the package the registry's
    own error is the answer. -/
theorem Registry.compatibleVersion?_newest (r : Registry) (package peer peerVersion : String) :
    match r.metadata package with
    | .error e => r.compatibleVersion? package peer peerVersion = .error e
    | .ok m => ∃ found, r.compatibleVersion? package peer peerVersion = .ok found ∧
      match found with
      | some version => m.Accepts peer peerVersion version ∧
        ∀ other, m.Accepts peer peerVersion other → Version.orderTexts version other ≠ .lt
      | none => ∀ version, ¬ m.Accepts peer peerVersion version := by
  rw [Registry.compatibleVersion?]
  cases r.metadata package with
  | error e => rfl
  | ok m =>
    refine ⟨_, rfl, ?_⟩
    simp only [PackageMetadata.accepts_iff]
    generalize hfound : m.newestFirst.find? _ = found
    cases found with
    | none =>
      rintro version ⟨manifest, hmem, hadmits⟩
      exact List.find?_eq_none.1 hfound _ hmem hadmits
    | some entry =>
      obtain ⟨hadmits, newer, older, hsplit, hnewer⟩ := List.find?_eq_some_iff_append.1 hfound
      refine ⟨⟨entry.2, hsplit ▸ List.mem_append_right _ List.mem_cons_self, hadmits⟩, ?_⟩
      rintro other ⟨manifest, hmem, hother⟩
      have hsorted := m.pairwise_newestFirst
      rw [hsplit] at hmem hsorted
      rcases List.mem_append.1 hmem with hmem | hmem
      · -- what comes before the one that is found has no such range
        have hnot := hnewer _ hmem
        simp only [hother, Bool.not_true, Bool.false_eq_true] at hnot
      · rcases List.mem_cons.1 hmem with heq | hmem
        · obtain rfl : other = entry.1 := congrArg Prod.fst heq
          rw [Version.orderTexts_self]
          decide
        · have hrel := List.rel_of_pairwise_cons (List.pairwise_append.1 hsorted).2.1 hmem
          exact hrel

end RouterShift
