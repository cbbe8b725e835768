import RouterShift.Package.Metadata
import RouterShift.Package.Name
import RouterShift.Text.Percent

/-! Registries, and the questions that an upgrade asks of one. A registry is what it answers: two
    functions that may fail. -/

namespace RouterShift

/-- Why a registry has no answer. -/
inductive RegistryError
  | rateLimited (url : String)
  | httpStatus (url : String) (status : Nat)
  | transport (url : String)
  | unreadable (url : String)
  deriving Repr, DecidableEq

def RegistryError.message : RegistryError → String
  | .rateLimited url => s!"rate limited by the registry while fetching {url}"
  | .httpStatus url status => s!"registry returned HTTP {status} for {url}"
  | .transport url => s!"request to {url} failed"
  | .unreadable url => s!"could not parse the registry response from {url}"

/-- A registry: the document of a package, and the manifest of one version of it, which may be
    named by a tag such as `latest`. -/
structure Registry where
  metadata : (package : String) → Except RegistryError PackageMetadata
  manifest : (package version : String) → Except RegistryError VersionManifest

namespace Registry

def defaultUrl : String := "https://registry.npmjs.org"

/-- Where a registry at `base` keeps the document of a package. -/
def packageUrl (base package : String) : String :=
  let base := String.ofList (base.toList.reverse.dropWhile (· == '/')).reverse
  s!"{base}/{Text.percentEncode package}"

/-- Where a registry at `base` keeps the manifest of a version. -/
def versionUrl (base package version : String) : String :=
  s!"{packageUrl base package}/{Text.percentEncode version}"

/-- A registry that no request can be sent to. -/
def unreachable (base : String) : Registry where
  metadata package := .error (.transport (packageUrl base package))
  manifest package version := .error (.transport (versionUrl base package version))

/-- A registry that answers from documents at hand, and with a status for the packages it is told
    to fail on. -/
structure Snapshot where
  latest : List (String × String) := []
  documents : List (String × PackageMetadata) := []
  failures : List (String × Nat) := []

namespace Snapshot

def failure? (s : Snapshot) (package : String) : Option RegistryError :=
  (s.failures.lookup package).map fun status =>
    if status = 429 then .rateLimited package else .httpStatus package status

def answer {α : Type} (s : Snapshot) (package : String) (found : Option α) :
    Except RegistryError α :=
  match s.failure? package, found with
  | some e, _ => .error e
  | none, some a => .ok a
  | none, none => .error (.httpStatus package 404)

def registry (s : Snapshot) : Registry where
  metadata package := s.answer package (s.documents.lookup package)
  manifest package _ := s.answer package
    ((s.latest.lookup package).map fun version => { name := package, version := version })

end Snapshot

/-- The newest version of a package whose declared range for `peer` admits `peerVersion`. -/
def compatibleVersion? (r : Registry) (package peer peerVersion : String) :
    Except RegistryError (Option String) :=
  (r.metadata package).map fun metadata =>
    (metadata.newestFirst.find? fun (_, manifest) =>
      (manifest.mergedDependencies.get? peer).any fun range => Range.admits range peerVersion).map
        (·.1)

/-- The major number of the version that a package's `latest` tag names. -/
def latestMajor? (r : Registry) (package : String) : Except RegistryError (Option Nat) :=
  (r.manifest package "latest").map fun manifest => Version.majorOf? manifest.version

/-- Why it is not known where the sources of a package are. -/
inductive RepositoryError
  | lookup (package : String) (cause : RegistryError)
  | undeclared (package : String)
  deriving Repr, DecidableEq

def RepositoryError.message : RepositoryError → String
  | lookup package cause => s!"fetch registry metadata for {package}: {cause.message}"
  | undeclared package => s!"{package} does not declare a repository"

/-- The repository that a package declares, or else the one its latest version declares. -/
def declaredRepository? (m : PackageMetadata) : Option Repository :=
  m.repository.or (do (← m.versions.get? (← m.distTags.get? "latest")).repository)

/-- Where the sources of a package can be cloned from. -/
def repositoryUrl (r : Registry) (package : String) : Except RepositoryError String :=
  match r.metadata package with
  | .error e => .error (.lookup package e)
  | .ok m =>
    match declaredRepository? m with
    | some repository => .ok (PackageName.repositoryUrl repository.url)
    | none => .error (.undeclared package)

end Registry
end RouterShift
