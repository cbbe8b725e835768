import RouterShift.Edit
import RouterShift.Report
import RouterShift.TypeScript.Tree
import RouterShift.Vocabulary

/-! A TypeScript file, the classes declared in it, and the changes made to it. A change never touches
    a file in place: it is a list of replacements in the text, and the new text is read again, so a
    tree always belongs to its text. -/

namespace RouterShift.TypeScript

/-- Why a source cannot be read or changed. -/
inductive SourceError
  | notValid (path : Path)
  /-- A class with the hook and a base class but no constructor; what a new one would have to hand
      to the base class is not known. -/
  | unsupportedConstructor (path : Path) (className : String)
  | noInlineTemplate (path : Path) (className : String)
  | edit (path : Path) (cause : EditError)
  deriving Repr, DecidableEq

def SourceError.message : SourceError → String
  | .notValid path => s!"{path.text}: not valid TypeScript"
  | .unsupportedConstructor path className =>
    s!"{path.text}: class {className} extends another class and has no constructor; add "
      ++ s!"\x60private {Vocabulary.routeParam}: {Vocabulary.routeType}\x60 to a constructor by hand"
  | .noInlineTemplate path className =>
    s!"{path.text}: component {className} has no inline template"
  | .edit path cause => s!"{path.text}: {cause.message}"

/-! ### Declared classes -/

/-- A class declaration, with the decorators of the export statement that it stands in. -/
structure Declaration where
  node : Node
  around : List Node

mutual
/-- The class declarations in a node, each before those in it; `around` holds the decorators around
    the node itself. -/
def declarations (around : List Node) : Node → List Declaration
  | .node label span children =>
    let inside :=
      if label.kind = .exportStatement then children.filter (·.kind == .decorator) else []
    let below := declarationsAmong inside children
    let n : Node := .node label span children
    if n.isClass then ⟨n, around⟩ :: below else below

def declarationsAmong (around : List Node) : List Node → List Declaration
  | [] => []
  | n :: rest => (if n.isPart then declarations around n else []) ++ declarationsAmong around rest
end

namespace Declaration

/-- The decorators of the class: its own, then those of its export. -/
def decorators (d : Declaration) : List Node :=
  d.node.children.filter (·.kind == .decorator) ++ d.around

def name (cs : List Char) (d : Declaration) : String := String.ofList (d.node.fieldText cs .name)

end Declaration

/-! ### Files -/

/-- A valid TypeScript file. -/
structure SourceFile [Reader] where
  path : Path
  text : String
  nodes : List Node
  /-- The nodes are those of the text. -/
  nodes_eq : Reader.read? text = some nodes

namespace SourceFile

variable [Reader]

def parse (path : Path) (text : String) : Except SourceError SourceFile :=
  match h : Reader.read? text with
  | some nodes => .ok ⟨path, text, nodes, h⟩
  | none => .error (.notValid path)

/-- The statements of the file. -/
def parts (file : SourceFile) : List Node := file.nodes.filter (·.isPart)

/-- All class declarations of the file, in the order in which they begin. -/
def declarations (file : SourceFile) : List Declaration := declarationsAmong [] file.nodes

/-- The file with replacements made; without any it is not read again. -/
def edited (file : SourceFile) (replacements : List Replacement) :
    Except SourceError SourceFile :=
  if replacements.isEmpty then .ok file
  else
    match applyEdits file.text replacements with
    | .error e => .error (.edit file.path e)
    | .ok outcome => parse file.path outcome.text

end SourceFile
end RouterShift.TypeScript
