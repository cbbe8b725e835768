import RouterShift.Json.Record
import RouterShift.Report

/-! Reports and template locations read back from JSON. -/

namespace RouterShift

open Json (Value)

/-- A role by its name, which may also stand as the one key of an object, with `null`. -/
def FileRole.ofJson? : Value → Option FileRole
  | .string s => FileRole.ofText? s
  | .object [(k, .null)] => FileRole.ofText? k
  | _ => none

def FileChange.ofJson? (v : Value) : Option FileChange := do
  match ← v.record? ["path", "role", "before", "after"] with
  | [some path, some role, some before, some after] =>
    return ⟨⟨← path.text?⟩, ← FileRole.ofJson? role, ← before.text?, ← after.text?⟩
  | _ => none

/-- A report; only the changes may be left out. -/
def Report.ofJson? (v : Value) : Option Report := do
  match ← v.record? ["files_scanned", "candidates", "template_targets", "changes", "applied"] with
  | [some scanned, some candidates, some targets, changes, some applied] =>
    let changes ← Json.withDefault [] (fun c => do (← c.items?).mapM FileChange.ofJson?) changes
    return ⟨← scanned.word?, ← candidates.word?, ← targets.word?, changes, ← applied.flag?⟩
  | _ => none

def Report.parse? (text : String) : Option Report := (Json.read? text).bind Report.ofJson?

/-- A template location by its tag, which is a field at any place or the first item of an array.
    The fields beside the tag are read before the tag is known, so they must all be proper. -/
def TemplateLocation.ofJson? : Value → Option TemplateLocation
  | .object fields => do
    let others := fields.filter (·.1 != "kind")
    if !Value.areProperFields (Value.depthLimit - 1) others then none
    match fields.filter (·.1 == "kind") with
    | [(_, .string "inline")] => some .inline
    | [(_, .string "external")] =>
      match others.filter (·.1 == "path") with
      | [(_, .string path)] => some (.external ⟨path⟩)
      | _ => none
    | _ => none
  | .array [.string "inline"] => some .inline
  | .array [.string "external", .string path] => some (.external ⟨path⟩)
  | _ => none

def TemplateLocation.parse? (text : String) : Option TemplateLocation :=
  (Json.read? text).bind TemplateLocation.ofJson?

end RouterShift
