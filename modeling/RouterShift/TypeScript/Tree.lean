import RouterShift.Grammar.Tree
import RouterShift.Text.Cut

/-! The syntax tree of a TypeScript source, in the node kinds and fields that the migration asks
    about, and the reader that makes it. Which texts are TypeScript and what their trees are is up to
    the reader; everything the library does with a source it does with the tree that was read. -/

namespace RouterShift.TypeScript

/-- What a node is. -/
inductive Kind
  | comment
  | identifier
  | typeIdentifier
  | string
  | templateString
  | object
  /-- A property written as key and value. -/
  | pair
  | callExpression
  | decorator
  | classDeclaration
  | abstractClassDeclaration
  | classHeritage
  | extendsClause
  | classBody
  /-- A function with a body in a class. -/
  | methodDefinition
  | formalParameters
  | exportStatement
  | importStatement
  | importClause
  | namespaceImport
  /-- The names of an import in their braces. -/
  | namedImports
  | importSpecifier
  /-- A sign or a keyword, which is its own text. -/
  | token (text : String)
  /-- Anything that is asked for nowhere. -/
  | other (name : String)
  deriving Repr, DecidableEq

/-- What a child is to its parent. -/
inductive Field
  | name
  | body
  | function
  | arguments
  | key
  | value
  | parameters
  | pattern
  | source
  | alias
  deriving Repr, DecidableEq

/-- What a node is, and what it is to its parent when that is asked for. -/
structure Label where
  kind : Kind
  field : Option Field := none
  deriving Repr, DecidableEq

/-- A node of a syntax tree. -/
abbrev Node := Grammar.Tree Label

/-- What reads a text as TypeScript: the nodes that the source consists of, one behind the other; none
    when the text is not valid. -/
class Reader where
  read? : String → Option (List Node)

end RouterShift.TypeScript

namespace RouterShift.Grammar.Tree

open TypeScript

def kind (n : Node) : Kind := n.label.kind

def field (n : Node) : Option Field := n.label.field

/-- The node is no sign or keyword. -/
def isNamed (n : Node) : Bool :=
  match n.kind with
  | .token _ => false
  | _ => true

/-- The node is neither a sign or keyword nor a comment. -/
def isPart (n : Node) : Bool := n.isNamed && n.kind != .comment

/-- What is in a node, without signs, keywords and comments. -/
def parts (n : Node) : List Node := n.children.filter (·.isPart)

def partsOf (n : Node) (kind : Kind) : List Node := n.parts.filter (·.kind == kind)

/-- The first part of a kind. -/
def part? (n : Node) (kind : Kind) : Option Node := n.parts.find? (·.kind == kind)

/-- The child that a field names. -/
def child? (n : Node) (field : Field) : Option Node := n.children.find? (·.field == some field)

/-- A sign or keyword stands in the node. -/
def hasToken (n : Node) (text : String) : Bool := n.children.any (·.kind == .token text)

def isClass (n : Node) : Bool :=
  n.kind == .classDeclaration || n.kind == .abstractClassDeclaration

def isLiteral (n : Node) : Bool := n.kind == .string || n.kind == .templateString

/-- What the whole text has along the node. -/
def text (n : Node) (cs : List Char) : List Char :=
  (Text.slice? cs n.span.start n.span.stop).getD []

/-- The text of the child that a field names; nothing when there is no such child. -/
def fieldText (n : Node) (cs : List Char) (field : Field) : List Char :=
  ((n.child? field).map (·.text cs)).getD []

end RouterShift.Grammar.Tree
