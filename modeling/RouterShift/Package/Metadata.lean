import RouterShift.Json.Record
import RouterShift.Version.Range

/-! What a registry publishes about a package: a document with the manifest of every version. -/

namespace RouterShift

open Json (SortedMap Value)

/-- Where a package's sources are kept. -/
inductive Repository
  | shorthand (text : String)
  | detailed (url : String) (kind directory : Option String)
  deriving Repr, DecidableEq

def Repository.url : Repository → String
  | .shorthand url => url
  | .detailed url _ _ => url

/-- The manifest of a published version, as far as it is looked at. -/
structure VersionManifest where
  name : String := ""
  version : String := ""
  dependencies : SortedMap String := []
  devDependencies : SortedMap String := []
  peerDependencies : SortedMap String := []
  repository : Option Repository := none
  deriving Repr, DecidableEq

/-- The document of a package. -/
structure PackageMetadata where
  name : String := ""
  distTags : SortedMap String := []
  versions : SortedMap VersionManifest := []
  repository : Option Repository := none
  deriving Repr, DecidableEq

/-- All declared dependencies of a version; a peer entry goes before a development one, and that
    before one for running. -/
def VersionManifest.mergedDependencies (m : VersionManifest) : SortedMap String :=
  SortedMap.ofList (m.dependencies ++ m.devDependencies ++ m.peerDependencies)

/-- Published versions, newest first; texts that are no versions come last. -/
def PackageMetadata.newestFirst (m : PackageMetadata) : List (String × VersionManifest) :=
  m.versions.mergeSort fun a b => Version.orderTexts b.1 a.1 != .gt

/-! ### Reading -/

/-- A repository: a text, or an object with a URL. It is read before its form is known, so all of
    it must be proper; `depth` says how deep it may still be nested. -/
def Repository.ofJson? (depth : Nat) (v : Value) : Option (Option Repository) :=
  if !v.isProper depth then none
  else
    match v with
    | .null => some none
    | .string s => some (some (.shorthand s))
    | .object fields => do
      match ← (Value.object fields).record? ["url", "type", "directory"] with
      | [some url, kind, directory] =>
        let kind ← Json.withDefault none Value.textOrNull? kind
        let directory ← Json.withDefault none Value.textOrNull? directory
        return some (.detailed (← url.text?) kind directory)
      | _ => none
    | _ => none

def VersionManifest.ofJson? (depth : Nat) (v : Value) : Option VersionManifest := do
  match ← v.record? ["name", "version", "dependencies", "devDependencies", "peerDependencies",
      "repository"] with
  | [name, version, dependencies, devDependencies, peerDependencies, repository] =>
    let texts := Json.withDefault [] (Value.map? Value.text?)
    return {
      name := ← Json.withDefault "" Value.text? name
      version := ← Json.withDefault "" Value.text? version
      dependencies := ← texts dependencies
      devDependencies := ← texts devDependencies
      peerDependencies := ← texts peerDependencies
      repository := ← Json.withDefault none (Repository.ofJson? (depth - 1)) repository }
  | _ => none

def PackageMetadata.ofJson? (v : Value) : Option PackageMetadata := do
  let depth := Value.depthLimit
  match ← v.record? ["name", "dist-tags", "versions", "repository"] with
  | [name, distTags, versions, repository] =>
    return {
      name := ← Json.withDefault "" Value.text? name
      distTags := ← Json.withDefault [] (Value.map? Value.text?) distTags
      versions := ← Json.withDefault [] (Value.map? (VersionManifest.ofJson? (depth - 2))) versions
      repository := ← Json.withDefault none (Repository.ofJson? (depth - 1)) repository }
  | _ => none

def PackageMetadata.parse? (text : String) : Option PackageMetadata :=
  (Json.read? text).bind PackageMetadata.ofJson?

end RouterShift
