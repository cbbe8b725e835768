import RouterShift.Edit
import RouterShift.Markup.Reader
import RouterShift.Vocabulary

/-! Taking a template from UI-Router to the framework's own router. Each attribute of the
    vocabulary is replaced by its counterpart, each legacy outlet element is renamed, and an
    element that carries an outlet attribute becomes the outlet, whatever it was: its tags are
    replaced whole, so nothing else inside them is touched. -/

namespace RouterShift.Markup

/-- The attribute by which only an exact match counts as active. -/
def exactOptions : String := "[routerLinkActiveOptions]=\"\x7bexact: true\x7d\""

/-- A state name with a single dot as a path of two segments; any other name as it is. -/
def statePath (value : String) : String :=
  let cs := value.toList
  if cs.count '.' = 1 then String.ofList (cs.map fun c => if c = '.' then '/' else c) else value

/-- What an attribute of the vocabulary becomes; the outlet attribute is not among them. -/
def translateAttribute? (a : Attribute) : Option String :=
  if a.name = Vocabulary.sref then some s!"[routerLink]=\"['{statePath a.value}']\""
  else if a.name = Vocabulary.params then some s!"[queryParams]=\"{a.value}\""
  else if a.name = Vocabulary.srefActive then
    if a.value = "/" then some s!"routerLinkActive=\"/\" {exactOptions}"
    else some s!"routerLinkActive=\"{a.value}\""
  else if a.name = Vocabulary.srefActiveEq then
    some s!"routerLinkActive=\"{a.value}\" {exactOptions}"
  else none

/-- The start tag of an outlet: a named one for a nonempty name. -/
def outletStart (name : String) : String :=
  if name.isEmpty then s!"<{Vocabulary.routerOutlet}>"
  else s!"<{Vocabulary.routerOutlet} [name]=\"{name}\">"

def outletEnd : String := s!"</{Vocabulary.routerOutlet}>"

/-- The replacements that turn an element into an outlet. One that is closed implicitly gets its
    end tag where it ends. -/
def hostReplacements (name : String) (host : Tag) : List Replacement :=
  match host.endTag with
  | some endTag => [⟨host.startTag, outletStart name⟩, ⟨endTag.span, outletEnd⟩]
  | none =>
    if host.selfClosing || host.isVoid then [⟨host.startTag, outletStart name ++ outletEnd⟩]
    else [⟨host.startTag, outletStart name⟩, .insert host.span.stop outletEnd]

/-- The replacements of one step of the walk that leave the tags around them standing. -/
def Visit.replacements : Visit → List Replacement
  | .element tag =>
    if tag.name ∈ Vocabulary.outletTags then
      ⟨tag.nameSpan, Vocabulary.routerOutlet⟩
        :: (tag.endTag.map fun e => ⟨e.nameSpan, Vocabulary.routerOutlet⟩).toList
    else []
  | .attr a _ =>
    if a.name = Vocabulary.view then []
    else ((translateAttribute? a).map fun text => ⟨a.span, text⟩).toList

/-- The replacements of one step of the walk that replace whole tags. -/
def Visit.hosts : Visit → List Replacement
  | .element _ => []
  | .attr a host => if a.name = Vocabulary.view then hostReplacements a.value host else []

/-- All replacements for a template, those of whole tags last; what lies inside one of those is
    left out. -/
def replacements (nodes : List Node) : List Replacement :=
  let visits := visitAll nodes
  let hosts := visits.flatMap Visit.hosts
  let inner := visits.flatMap Visit.replacements
  (inner.filter fun r => !hosts.any fun host => host.range.contains r.range) ++ hosts

/-- The migrated template; with an empty tree nothing changes. -/
def migrateTree (text : String) (nodes : List Node) : Except EditError String :=
  match replacements nodes with
  | [] => .ok text
  | rs => (applyEdits text rs).map (·.text)

/-- Reads a template and migrates it; a text that is no template stays as it is. -/
def migrate (text : String) : Except EditError String := migrateTree text (parseOrEmpty text)

end RouterShift.Markup
