import RouterShift.Json.Printer
import RouterShift.Json.Reader
import RouterShift.Path

/-! Package manifests. A manifest is a JSON object of which only the entries under `dependencies`
    and `devDependencies` are ever changed; the order of its keys, and everything else in it, is
    kept. -/

namespace RouterShift

/-- Why a manifest could not be had. -/
inductive ManifestError
  | io (path : Path)
  | json (path : Path)
  | notAnObject (path : Path)
  deriving Repr, DecidableEq

def ManifestError.message : ManifestError → String
  | .io path => s!"failed to read or write {path.text}"
  | .json path => s!"{path.text} is not valid JSON"
  | .notAnObject path => s!"{path.text} does not contain a JSON object"

/-- A dependency and the range it is to be set to. -/
structure DependencyUpdate where
  name : String
  range : String
  deriving Repr, DecidableEq

structure Manifest where
  fields : Json.Fields
  deriving Repr, Inhabited

namespace Manifest

open Json (Value Fields)

/-- The sections whose entries may be changed. -/
def patchableSections : List String := ["dependencies", "devDependencies"]

/-- The sections in which a declared range is looked up, in this order. -/
def lookupSections : List String := ["dependencies", "devDependencies", "peerDependencies"]

/-- A manifest from its text; the path is only used to speak of it. -/
def parse (path : Path) (text : String) : Except ManifestError Manifest :=
  match Json.parse? text with
  | none => .error (.json path)
  | some (.object fields) => .ok ⟨fields⟩
  | some _ => .error (.notAnObject path)

/-- The manifest as indented JSON with a line feed at the end. -/
def render (m : Manifest) : String := String.ofList ((Value.object m.fields).pretty 0 ++ ['\n'])

def name? (m : Manifest) : Option String :=
  match m.fields.get? "name" with
  | some (.string s) => some s
  | _ => none

/-- The range of a dependency in one section. -/
def dependency? (m : Manifest) (sectionName name : String) : Option String :=
  match m.fields.get? sectionName with
  | some (.object entries) =>
    match Fields.get? entries name with
    | some (.string range) => some range
    | _ => none
  | _ => none

/-- The dependency is declared where it could be changed. -/
def hasDependency (m : Manifest) (name : String) : Bool :=
  patchableSections.any fun s => (m.dependency? s name).isSome

/-- The declared range of a dependency. -/
def currentRange? (m : Manifest) (name : String) : Option String :=
  lookupSections.findSome? fun s => m.dependency? s name

/-- A change of one section's entries: the entries, and how many of them changed; a section that
    is missing or no object is left alone. -/
def updateSection (fields : Fields) (sectionName : String) (change : Fields → Fields × Nat) :
    Fields × Nat :=
  match fields.get? sectionName with
  | some (.object entries) =>
    let (entries, changed) := change entries
    (fields.insert sectionName (.object entries), changed)
  | _ => (fields, 0)

/-- One change made to every section that may be changed, and how many entries changed in all. -/
def updateSections (m : Manifest) (change : Fields → Fields × Nat) : Manifest × Nat :=
  let (fields, changed) := patchableSections.foldl
    (fun (fields, changed) s =>
      let (fields, n) := updateSection fields s change
      (fields, changed + n)) (m.fields, 0)
  (⟨fields⟩, changed)

/-- Overwrites a dependency wherever it is declared; one that is not stays absent. -/
def setExisting (m : Manifest) (name range : String) : Manifest × Nat :=
  m.updateSections fun entries =>
    if (entries.get? name).isSome then (entries.insert name (.string range), 1) else (entries, 0)

/-- Several updates, one after the other. -/
def applyUpdates (m : Manifest) (updates : List DependencyUpdate) : Manifest × Nat :=
  updates.foldl
    (fun (m, changed) u =>
      let (m, n) := m.setExisting u.name u.range
      (m, changed + n)) (m, 0)

/-- Puts one dependency in the place of another wherever that is declared, and says whether it
    was. -/
def renameDependency (m : Manifest) (old new version : String) : Manifest × Bool :=
  let (m, changed) := m.updateSections fun entries =>
    if (entries.get? old).isSome then ((entries.erase old).insert new (.string version), 1)
    else (entries, 0)
  (m, changed > 0)

end Manifest
end RouterShift
