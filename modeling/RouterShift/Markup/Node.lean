import RouterShift.Span
import RouterShift.Text.Blank

/-! The tree of a template: text, comments, elements and expansion forms, each with the span it was
    read from. Interpolations stay part of the text around them. -/

namespace RouterShift.Markup

/-- An attribute as it was written; a bare one has the empty value and no value span. -/
structure Attribute where
  name : String
  /-- The text between the quotes, nothing decoded. -/
  value : String
  /-- From the name to the closing quote. -/
  span : Span
  valueSpan : Option Span
  deriving Repr, DecidableEq

/-- An end tag and the name in it. -/
structure EndTag where
  name : String
  span : Span
  nameSpan : Span
  deriving Repr, DecidableEq

/-- All of an element but its children. -/
structure Tag where
  name : String
  attributes : List Attribute
  /-- The whole element: its start tag when it takes no children, else up to its end tag or, when
      it has none, to the place where something around it ends. -/
  span : Span
  startTag : Span
  nameSpan : Span
  endTag : Option EndTag
  selfClosing : Bool
  deriving Repr, DecidableEq

/-- What stands before the cases of an expansion form: the value switched on, the kind of switch. -/
structure Header where
  switchValue : String
  kind : String
  deriving Repr, DecidableEq

mutual
/-- A node of a template. -/
inductive Node
  | text (span : Span)
  | comment (span : Span)
  | element (tag : Tag) (children : List Node)
  | expansion (header : Header) (span : Span) (cases : List Case)

/-- One case of an expansion form: its label and what stands between its braces. -/
inductive Case
  | mk (label : String) (span : Span) (children : List Node)
end

/-- The elements that never take children. -/
def voidNames : List String :=
  ["area", "base", "br", "col", "embed", "hr", "img", "input", "link", "meta", "param", "source",
    "track", "wbr"]

/-- The elements whose content is text up to their end tag. -/
def rawTextNames : List String := ["script", "style", "textarea", "title"]

/-- Equality of element names: the case of ASCII letters does not matter. -/
def sameName (a b : String) : Bool := Text.sameName a.toList b.toList

def isVoid (name : String) : Bool := voidNames.any (sameName name)

def isRawText (name : String) : Bool := rawTextNames.any (sameName name)

def Tag.isVoid (t : Tag) : Bool := Markup.isVoid t.name

def Node.span : Node → Span
  | .text span => span
  | .comment span => span
  | .element tag _ => tag.span
  | .expansion _ span _ => span

def Case.label : Case → String
  | .mk label _ _ => label

def Case.span : Case → Span
  | .mk _ span _ => span

def Case.children : Case → List Node
  | .mk _ _ children => children

/-- One step of a walk over a template. -/
inductive Visit
  | element (tag : Tag)
  /-- An attribute and the element that carries it. -/
  | attr (a : Attribute) (host : Tag)
  deriving Repr, DecidableEq

mutual
/-- The elements and attributes of a node, parents before children. -/
def Node.visits : Node → List Visit
  | .text _ => []
  | .comment _ => []
  | .element tag children =>
    .element tag :: tag.attributes.map (Visit.attr · tag) ++ visitAll children
  | .expansion _ _ cases => visitCases cases

/-- The elements and attributes of siblings in order. -/
def visitAll : List Node → List Visit
  | [] => []
  | node :: rest => node.visits ++ visitAll rest

/-- The elements and attributes within the cases of an expansion form. -/
def visitCases : List Case → List Visit
  | [] => []
  | .mk _ _ children :: rest => visitAll children ++ visitCases rest
end

end RouterShift.Markup
