import RouterShift.Markup.Reader
import RouterShift.Proofs.Text.Cursor

/-! Templates as they are written: a tree that keeps every character of the text, so that the text
    is read off it (`Written.chars`) and so are the nodes with their spans (`Written.node`). What
    `Written.Proper` asks of a tree is that its text falls into these very pieces again when it is
    read from the left; the reader and this tree are compared in the modules that follow. -/

namespace RouterShift.Markup
open Text (Cursor byteLength StopsBefore)

/-! ### Tags -/

/-- The value of an attribute. -/
inductive WrittenValue
  | quoted (quote : Char) (text : List Char)
  | bare (text : List Char)

/-- The equals sign of an attribute with the blanks around it, and the value. -/
structure Assignment where
  before : List Char
  after : List Char
  value : WrittenValue

structure WrittenAttribute where
  name : List Char
  assigned : Option Assignment

/-- What stands in a start tag behind the name. -/
inductive TagPart
  | blank (c : Char)
  | slash
  | attr (a : WrittenAttribute)

structure WrittenTag where
  name : List Char
  parts : List TagPart
  selfClosing : Bool

structure WrittenEnd where
  name : List Char
  blanks : List Char

def WrittenValue.text : WrittenValue → List Char
  | quoted _ text => text
  | bare text => text

def WrittenValue.chars : WrittenValue → List Char
  | quoted quote text => quote :: (text ++ [quote])
  | bare text => text

/-- How far behind its first character the text of a value starts. -/
def WrittenValue.margin : WrittenValue → Nat
  | quoted quote _ => quote.utf8Size
  | bare _ => 0

def Assignment.chars (a : Assignment) : List Char :=
  a.before ++ '=' :: (a.after ++ a.value.chars)

def WrittenAttribute.chars (a : WrittenAttribute) : List Char :=
  a.name ++ (a.assigned.elim [] Assignment.chars)

def TagPart.chars : TagPart → List Char
  | blank c => [c]
  | slash => ['/']
  | attr a => a.chars

def partsChars (parts : List TagPart) : List Char := parts.flatMap TagPart.chars

/-- The characters that end a start tag. -/
def tagEnd (selfClosing : Bool) : List Char := if selfClosing then ['/', '>'] else ['>']

def WrittenTag.chars (t : WrittenTag) : List Char :=
  '<' :: (t.name ++ (partsChars t.parts ++ tagEnd t.selfClosing))

def WrittenEnd.chars (e : WrittenEnd) : List Char := '<' :: '/' :: (e.name ++ (e.blanks ++ ['>']))

/-- The attribute when it is read from `pos` on. -/
def WrittenAttribute.node (pos : Nat) (a : WrittenAttribute) : Attribute :=
  let nameStop := pos + byteLength a.name
  match a.assigned with
  | none => ⟨String.ofList a.name, "", ⟨pos, nameStop⟩, none⟩
  | some v =>
    let start := nameStop + byteLength v.before + 1 + byteLength v.after + v.value.margin
    ⟨String.ofList a.name, String.ofList v.value.text, ⟨pos, pos + byteLength a.chars⟩,
      some ⟨start, start + byteLength v.value.text⟩⟩

def attributesOf (pos : Nat) : List TagPart → List Attribute
  | [] => []
  | .attr a :: parts => a.node pos :: attributesOf (pos + byteLength a.chars) parts
  | part :: parts => attributesOf (pos + byteLength part.chars) parts

def WrittenTag.node (pos : Nat) (t : WrittenTag) : Tag :=
  let nameStop := pos + 1 + byteLength t.name
  openTag pos t.name ⟨pos + 1, nameStop⟩ (attributesOf nameStop t.parts) t.selfClosing
    (pos + byteLength t.chars)

def WrittenEnd.node (pos : Nat) (e : WrittenEnd) : EndTag :=
  ⟨String.ofList e.name, ⟨pos, pos + byteLength e.chars⟩, ⟨pos + 2, pos + 2 + byteLength e.name⟩⟩

/-! ### Nodes -/

/-- The two parts in front of the cases of an expansion form, with the blanks around them. -/
structure WrittenHeader where
  switchValue : List Char
  kind : List Char

mutual
inductive Written
  | text (cs : List Char)
  | comment (cs : List Char)
  /-- An element that is its start tag. -/
  | single (tag : WrittenTag)
  /-- An element whose content is text. -/
  | raw (tag : WrittenTag) (body : List Char) (stop : WrittenEnd)
  /-- An element with children; without an end tag it ends where something around it does. -/
  | container (tag : WrittenTag) (children : List Written) (stop : Option WrittenEnd)
  | form (header : WrittenHeader) (cases : List WrittenCase) (blanks : List Char)

inductive WrittenCase
  | mk (blanks label gap : List Char) (children : List Written)
end

def WrittenHeader.chars (h : WrittenHeader) : List Char :=
  h.switchValue ++ ',' :: (h.kind ++ [','])

def WrittenHeader.node (h : WrittenHeader) : Header :=
  ⟨String.ofList (Text.trim Text.isBlank h.switchValue), String.ofList (Text.trim Text.isBlank h.kind)⟩

def stopChars (stop : Option WrittenEnd) : List Char := stop.elim [] WrittenEnd.chars

mutual
def Written.chars : Written → List Char
  | .text cs => cs
  | .comment cs => cs
  | .single tag => tag.chars
  | .raw tag body stop => tag.chars ++ (body ++ stop.chars)
  | .container tag children stop => tag.chars ++ (charsAll children ++ stopChars stop)
  | .form header cases blanks => '{' :: (header.chars ++ (casesChars cases ++ (blanks ++ ['}'])))

def charsAll : List Written → List Char
  | [] => []
  | w :: ws => w.chars ++ charsAll ws

def WrittenCase.chars : WrittenCase → List Char
  | .mk blanks label gap children => blanks ++ (label ++ (gap ++ '{' :: (charsAll children ++ ['}'])))

def casesChars : List WrittenCase → List Char
  | [] => []
  | c :: cs => c.chars ++ casesChars cs
end

/-- The element of a start tag when what is inside it ends at `pos`. -/
def Tag.stoppingAt (tag : Tag) (pos : Nat) : Option WrittenEnd → Tag
  | none => tag.endingAt pos
  | some stop => tag.closedBy (stop.node pos)

/-- The children of an element whose content is text. -/
def rawChildren (pos : Nat) (body : List Char) : List Node :=
  if body.isEmpty then [] else [.text ⟨pos, pos + byteLength body⟩]

mutual
/-- The node of a piece when it is read from `pos` on. -/
def Written.node (pos : Nat) : Written → Node
  | .text cs => .text ⟨pos, pos + byteLength cs⟩
  | .comment cs => .comment ⟨pos, pos + byteLength cs⟩
  | .single tag => .element (tag.node pos) []
  | .raw tag body stop =>
    let bodyStart := pos + byteLength tag.chars
    .element ((tag.node pos).closedBy (stop.node (bodyStart + byteLength body)))
      (rawChildren bodyStart body)
  | .container tag children stop =>
    let bodyStart := pos + byteLength tag.chars
    .element ((tag.node pos).stoppingAt (bodyStart + byteLength (charsAll children)) stop)
      (nodesAll bodyStart children)
  | .form header cases blanks =>
    .expansion header.node ⟨pos, pos + byteLength (Written.form header cases blanks).chars⟩
      (casesNodes (pos + 1 + byteLength header.chars) cases)

def nodesAll (pos : Nat) : List Written → List Node
  | [] => []
  | w :: ws => w.node pos :: nodesAll (pos + byteLength w.chars) ws

def WrittenCase.node (pos : Nat) : WrittenCase → Case
  | .mk blanks label gap children =>
    let start := pos + byteLength blanks
    .mk (String.ofList label) ⟨start, pos + byteLength (WrittenCase.mk blanks label gap children).chars⟩
      (nodesAll (start + byteLength label + byteLength gap + 1) children)

def casesNodes (pos : Nat) : List WrittenCase → List Case
  | [] => []
  | c :: cs => c.node pos :: casesNodes (pos + byteLength c.chars) cs
end

/-! ### Pieces that are found again -/

/-- The only occurrence of a pattern is the one that ends the text. -/
def EndsFirst (pattern body : List Char) : Prop :=
  Text.cutFirst? pattern (body ++ pattern) = some (body, [])

def WrittenValue.Proper (after : List Char) : WrittenValue → Prop
  | quoted quote text => (quote = '"' ∨ quote = '\'') ∧ quote ∉ text
  | bare text => unquoted (text ++ after) = text ∧
      ∃ c ∈ (text ++ after).head?, Text.isAsciiBlank c = false ∧ c ≠ '"' ∧ c ≠ '\''

structure Assignment.Proper (after : List Char) (a : Assignment) : Prop where
  before : ∀ c ∈ a.before, Text.isAsciiBlank c = true
  behind : ∀ c ∈ a.after, Text.isAsciiBlank c = true
  value : a.value.Proper after

structure WrittenAttribute.Proper (after : List Char) (a : WrittenAttribute) : Prop where
  nonempty : a.name ≠ []
  name : ∀ c ∈ a.name, isAttributeNameChar c = true
  assigned : ∀ v ∈ a.assigned, v.Proper after
  /-- A bare attribute is over where its name is, and no value follows. -/
  bare : a.assigned = none → StopsBefore isAttributeNameChar after ∧
    (after.dropWhile Text.isAsciiBlank).head? ≠ some '='

def TagPart.Proper (after : List Char) : TagPart → Prop
  | blank c => Text.isAsciiBlank c = true
  | slash => after.head? ≠ some '>'
  | attr a => a.Proper after

def PartsProper (close : List Char) : List TagPart → Prop
  | [] => True
  | part :: parts => part.Proper (partsChars parts ++ close) ∧ PartsProper close parts

structure WrittenTag.Proper (t : WrittenTag) : Prop where
  letter : ∃ c cs, t.name = c :: cs ∧ isLetter c = true
  name : ∀ c ∈ t.name, isTagNameChar c = true
  nameStop : StopsBefore isTagNameChar (partsChars t.parts ++ tagEnd t.selfClosing)
  parts : PartsProper (tagEnd t.selfClosing) t.parts

structure WrittenEnd.Proper (e : WrittenEnd) : Prop where
  name : ∀ c ∈ e.name, isEndNameChar c = true
  blanks : ∀ c ∈ e.blanks, Text.isAsciiBlank c = true

/-- What the end tag of a raw element starts with. -/
def endNeedle (name : List Char) : List Char := ['<', '/'] ++ name.map Text.lower

/-- A comment, or one of the declarations that are kept like comments. -/
inductive CommentProper : List Char → Prop
  | comment (body : List Char) (h : EndsFirst ['-', '-', '>'] body) :
    CommentProper ('<' :: '!' :: '-' :: '-' :: (body ++ ['-', '-', '>']))
  | declaration (d : Char) (body : List Char) (hd : d = '!' ∨ d = '?') (hbody : '>' ∉ body)
    (h : (d = '!' && ['-', '-'].isPrefixOf (body ++ ['>'])) = false) :
    CommentProper ('<' :: d :: (body ++ ['>']))

structure WrittenHeader.Proper (h : WrittenHeader) : Prop where
  switchChars : ∀ c ∈ h.switchValue, isHeaderChar c = true
  switchValue : Text.trim Text.isBlank h.switchValue ≠ []
  kindChars : ∀ c ∈ h.kind, isHeaderChar c = true
  kind : Text.trim Text.isBlank h.kind ≠ []
  word : (Text.trim Text.isBlank h.kind).all isWordChar = true

/-- What ends a run of siblings in front of a text, if it is over there. -/
def stopOf (inCase : Bool) : List Char → Option Stop
  | [] => some .eof
  | c :: cs =>
    match Opening.of inCase c cs with
    | .endTag => some .close
    | .caseEnd => some .caseEnd
    | _ => none

/-- The characters that are read from `pos` on as text when `after` follows them. -/
inductive TextRun (opened : List String) (inCase : Bool) : Nat → List Char → List Char → Prop
  | done (pos : Nat) (after : List Char) : TextRun opened inCase pos [] after
  | char (pos : Nat) (c : Char) (cs after : List Char)
    (hc : Opening.of inCase c (cs ++ after) = .text)
    (h : TextRun opened inCase (pos + c.utf8Size) cs after) : TextRun opened inCase pos (c :: cs) after
  | interpolation (pos : Nat) (body cs after : List Char) (hbody : EndsFirst ['}', '}'] body)
    (h : TextRun opened inCase (pos + (byteLength body + 4)) cs after) :
    TextRun opened inCase pos ('{' :: '{' :: (body ++ '}' :: '}' :: cs)) after
  /-- An interpolation that is not closed takes all there is. -/
  | unclosed (pos : Nat) (body : List Char) (hbody : Text.cutFirst? ['}', '}'] body = none) :
    TextRun opened inCase pos ('{' :: '{' :: body) []
  /-- A brace that opens no expansion form. -/
  | brace (pos : Nat) (cs after : List Char) (hopen : (cs ++ after).head? ≠ some '{')
    (hform : readExpansion? opened pos ⟨pos + 1, cs ++ after⟩ = .ok none)
    (h : TextRun opened inCase (pos + 1) cs after) : TextRun opened inCase pos ('{' :: cs) after

/-- An element without an end tag ends with what is around it: with the text, with a case, or with
    the end tag of another open element. -/
def EndsAround (opened : List String) (inCase : Bool) (name after : List Char) : Prop :=
  stopOf inCase after = some .close → ∃ (e : WrittenEnd) (more : List Char),
    after = e.chars ++ more ∧ e.Proper ∧
      sameName (String.ofList e.name) (String.ofList name) = false ∧
      opened.any (sameName (String.ofList e.name)) = true

def WrittenTag.isSingle (t : WrittenTag) : Bool := t.selfClosing || isVoid (String.ofList t.name)

def WrittenTag.isRaw (t : WrittenTag) : Bool := isRawText (String.ofList t.name)

/-- What the end tag of an element has to be, or what has to follow an element without one. -/
def StopProper (opened : List String) (inCase : Bool) (name after : List Char) :
    Option WrittenEnd → Prop
  | some e => e.Proper ∧ sameName (String.ofList e.name) (String.ofList name) = true
  | none => EndsAround opened inCase name after

def Written.isText : Written → Bool
  | .text _ => true
  | _ => false

/-- The first of some siblings is a text. -/
def startsWithText : List Written → Bool
  | [] => false
  | w :: _ => w.isText

mutual
/-- A piece is found again at `pos` among the open elements when `after` follows it. -/
def Written.Proper (opened : List String) (inCase : Bool) (pos : Nat) (after : List Char) :
    Written → Prop
  | .text cs => cs ≠ [] ∧ TextRun opened inCase pos cs after
  | .comment cs => CommentProper cs
  | .single tag => tag.Proper ∧ tag.isSingle = true
  | .raw tag body stop =>
    tag.Proper ∧ tag.isSingle = false ∧ tag.isRaw = true ∧ stop.Proper ∧
      seek? (endNeedle tag.name) (body ++ stop.chars) = some (body, stop.chars)
  | .container tag children stop =>
    tag.Proper ∧ tag.isSingle = false ∧ tag.isRaw = false ∧
      ProperAll (String.ofList tag.name :: opened) inCase (pos + byteLength tag.chars)
        (stopChars stop ++ after) children ∧
      StopProper opened inCase tag.name after stop
  | .form header cases blanks =>
    header.Proper ∧ CasesProper opened (pos + 1 + byteLength header.chars)
      (blanks ++ '}' :: after) cases ∧ ∀ c ∈ blanks, Text.isAsciiBlank c = true

/-- Siblings are found again: no two texts stand side by side, and the run ends where it does. -/
def ProperAll (opened : List String) (inCase : Bool) (pos : Nat) (after : List Char) :
    List Written → Prop
  | [] => (stopOf inCase after).isSome = true
  | w :: ws => w.Proper opened inCase pos (charsAll ws ++ after) ∧
      (w.isText = true → startsWithText ws = false) ∧
      ProperAll opened inCase (pos + byteLength w.chars) after ws

def WrittenCase.Proper (opened : List String) (pos : Nat) (after : List Char) : WrittenCase → Prop
  | .mk blanks label gap children =>
    (∀ c ∈ blanks, Text.isAsciiBlank c = true) ∧ label ≠ [] ∧
      (∀ c ∈ label, isLabelChar c = true) ∧ (∀ c ∈ gap, Text.isAsciiBlank c = true) ∧
      ProperAll opened true (pos + byteLength blanks + byteLength label + byteLength gap + 1)
        ('}' :: after) children

def CasesProper (opened : List String) (pos : Nat) (after : List Char) : List WrittenCase → Prop
  | [] => True
  | c :: cs => c.Proper opened pos (casesChars cs ++ after) ∧
      CasesProper opened (pos + byteLength c.chars) after cs
end

end RouterShift.Markup
