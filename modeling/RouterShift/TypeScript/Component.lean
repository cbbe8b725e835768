import RouterShift.TypeScript.Literal
import RouterShift.TypeScript.SourceFile

/-! Components: the classes whose decorator says so, where their templates are, and putting a new
    inline template in the place of the old one. -/

namespace RouterShift.TypeScript

/-- The template of a component. -/
inductive TemplateSource
  | inline (literal : Literal)
  /-- What the decorator says, and the path that it means. -/
  | external (url : String) (path : Path)
  deriving Repr, DecidableEq

def TemplateSource.location : TemplateSource → TemplateLocation
  | inline _ => .inline
  | external _ path => .external path

/-- A class with component metadata. -/
structure Component where
  className : String
  /-- None when no property decides about it, or the one that does is no plain literal. -/
  template : Option TemplateSource
  deriving Repr, DecidableEq

/-- The path that a template URL in a source means: from the workspace root when it starts with a
    slash, else from the directory of the source. -/
def templatePath (source : Path) (url : String) : Path :=
  match url.toList with
  | '/' :: rooted => Path.normalize ⟨String.ofList rooted⟩
  | _ =>
    match source.parent? with
    | some directory => (directory.join url).normalize
    | none => Path.normalize ⟨url⟩

/-! ### Reading the metadata -/

/-- The two properties that say where a template is. -/
inductive TemplateKey
  | template
  | templateUrl
  deriving Repr, DecidableEq

def TemplateKey.name : TemplateKey → String
  | template => "template"
  | templateUrl => "templateUrl"

def isQuote (c : Char) : Bool := c == '\'' || c == '"'

/-- The name that the key of a property stands for. -/
def keyText (cs : List Char) (key : Node) : List Char :=
  if key.kind = .string then Text.trim isQuote (key.text cs) else key.text cs

/-- The property says where the template is. -/
def templateKey? (cs : List Char) (pair : Node) : Option TemplateKey := do
  let key ← pair.child? .key
  [TemplateKey.template, .templateUrl].find? (·.name.toList == keyText cs key)

/-- The first property of an object that says where the template is. -/
def templatePair? (cs : List Char) (object : Node) : Option (TemplateKey × Node) :=
  (object.partsOf .pair).findSome? fun pair => (templateKey? cs pair).map (·, pair)

/-- The literal that a node is. -/
def literal? (cs : List Char) (n : Node) : Option Literal :=
  if n.isLiteral ∧ 2 ≤ n.span.length then do
    let inner : Span := ⟨n.span.start + 1, n.span.stop - 1⟩
    let delimiter ← (n.text cs).head?
    let raw ← Text.slice? cs inner.start inner.stop
    return ⟨inner, delimiter, String.ofList raw⟩
  else none

/-- What the object given to a component decorator says about the template. -/
def templateSource? (source : Path) (cs : List Char) (object : Node) : Option TemplateSource := do
  let (key, pair) ← templatePair? cs object
  let literal ← (pair.child? .value).bind (literal? cs)
  match key with
  | .template => return .inline literal
  | .templateUrl => return .external literal.value (templatePath source literal.value)

/-- The object that a component decorator is called with, as the first argument. -/
def componentObject? (cs : List Char) (decorator : Node) : Option Node := do
  let call ← decorator.part? .callExpression
  let function ← call.child? .function
  if function.kind = .identifier ∧ function.text cs = Vocabulary.componentDecorator.toList then
    let arguments ← call.child? .arguments
    arguments.parts.head?.filter (·.kind == .object)
  else none

/-- The object of the first decorator that makes the class a component. -/
def Declaration.metadata? (cs : List Char) (d : Declaration) : Option Node :=
  d.decorators.findSome? (componentObject? cs)

/-- The component that a class is. -/
def Declaration.component? (source : Path) (cs : List Char) (d : Declaration) : Option Component :=
  (d.metadata? cs).map fun object => ⟨d.name cs, templateSource? source cs object⟩

/-! ### The components of a file -/

namespace SourceFile

variable [Reader]

/-- The components of the file, as they come in it. -/
def components (file : SourceFile) : List Component :=
  file.declarations.filterMap (·.component? file.path file.text.toList)

/-- The first component of a name. -/
def component? (file : SourceFile) (className : String) : Option Component :=
  file.components.find? (·.className == className)

/-- The inline template of the first component of a name. -/
def inlineTemplate? (file : SourceFile) (className : String) : Option Literal :=
  match (file.component? className).bind (·.template) with
  | some (.inline literal) => some literal
  | _ => none

/-- The file with another inline template in a component, in the delimiters of the old one. -/
def spliceTemplate (file : SourceFile) (className markup : String) :
    Except SourceError SourceFile :=
  match file.inlineTemplate? className with
  | none => .error (.noInlineTemplate file.path className)
  | some literal =>
    let written := literal.write markup
    if written = literal.raw then .ok file else file.edited [⟨literal.span, written⟩]

end SourceFile
end RouterShift.TypeScript
