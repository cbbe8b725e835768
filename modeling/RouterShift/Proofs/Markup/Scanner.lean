import RouterShift.Markup.Reader
import RouterShift.Proofs.Text.Bytes

/-! A scanner of templates by bytes. Its cursor is a byte index that goes forward, and back when an
    expansion form breaks off. It checks what nobody may rely on: that the cursor stays within the
    text, that each range lies on character boundaries, that each round of the loop over siblings
    gains ground, that siblings start behind the start of the construct they stand in, and that a
    case leaves the depth of cases as it was. A check that fails is a fault and ends the scan for
    good, also in a form that would have been given up later. -/

namespace RouterShift.Markup.Scanner

/-- What a scan must never come to. -/
inductive Fault
  /-- The cursor would leave the text. -/
  | outside (pos : Nat)
  /-- A range that is reversed, out of bounds, or starts or stops inside a character. -/
  | range (start stop : Nat)
  /-- A round of the loop over siblings that gains nothing. -/
  | stalled (pos : Nat)
  /-- Siblings that start no further than the construct they stand in. -/
  | nested (construct pos : Nat)
  /-- A case that leaves another depth of cases than it found. -/
  | unbalanced (before after : Nat)
  /-- The whole text ends at the brace that ends a case. -/
  | caseAtRoot
  /-- More rounds and calls than were allowed. -/
  | exhausted
  deriving Repr, DecidableEq

/-- Why a scan gives no nodes. -/
inductive Halt
  | rejected (e : MarkupError)
  | faulty (f : Fault)
  deriving Repr, DecidableEq

/-- The cursor, the names of the elements around it (the innermost first), and how many cases of
    expansion forms are around it. -/
structure State where
  pos : Nat
  opened : List String
  depth : Nat
  deriving Repr, DecidableEq

abbrev Scan := StateT State (Except Halt)

variable {α : Type}

def fault (f : Fault) : Scan α := throw (.faulty f)

def reject (e : MarkupError) : Scan α := throw (.rejected e)

/-- The bytes of a text. -/
def bytesOf (text : String) : List Char := text.toUTF8.toList.map Text.ofByte

section
variable (m : String)

def size : Nat := (bytesOf m).length

def byteAt? (i : Nat) : Option Char := (bytesOf m)[i]?

/-- Where a run of bytes of a class ends. -/
def runEnd (start : Nat) (keep : Char → Bool) : Nat :=
  start + (((bytesOf m).drop start).takeWhile keep).length

/-! ### The cursor -/

def here : Scan Nat := return (← get).pos

/-- The byte `offset` behind the cursor. -/
def peek (offset : Nat) : Scan (Option Char) := return byteAt? m ((← here) + offset)

def moveTo (pos : Nat) : Scan Unit :=
  if pos ≤ size m then modify fun s => { s with pos } else fault (.outside pos)

/-- A range of the text, from front to back. -/
def range (start stop : Nat) : Scan Span :=
  if start ≤ stop then return ⟨start, stop⟩ else fault (.range start stop)

/-- The text along a range. -/
def text (span : Span) : Scan String :=
  match span.slice? m with
  | some part => return part
  | none => fault (.range span.start span.stop)

/-- True when the rest starts with an ASCII text. -/
def startsWith (start : String) : Scan Bool := do
  let pos ← here
  if pos ≤ size m then return start.toList.isPrefixOf ((bytesOf m).drop pos)
  else fault (.outside pos)

/-- Where a text is found first, from `start` on. -/
def find (start : Nat) (needle : String) : Scan (Option Nat) := do
  let rest ← text m ⟨start, size m⟩
  return (Text.cutFirst? needle.toList rest.toList).map fun found =>
    start + Text.byteLength found.1

def readWhile (keep : Char → Bool) : Scan Span := do
  let start ← here
  moveTo m (runEnd m start keep)
  range start (runEnd m start keep)

def skipBlanks : Scan Unit := do
  let start ← here
  moveTo m (runEnd m start Text.isAsciiBlank)

/-! ### Tags -/

/-- The end tag at the cursor, which stays where it is. -/
def endTag? : Scan (Option EndTag) := do
  let start ← here
  let nameSpan ← range (start + 2) (runEnd m (start + 2) isEndNameChar)
  let close := runEnd m nameSpan.stop Text.isAsciiBlank
  if byteAt? m close = some '>' then
    let name ← text m nameSpan
    let span ← range start (close + 1)
    return some ⟨name, span, nameSpan⟩
  else return none

def endTag : Scan EndTag := do
  let start ← here
  match ← endTag? m with
  | some tag => return tag
  | none => reject (.unterminatedTag start)

/-- A closing piece that nothing is open for. -/
def strayClose : Scan α := do
  let start ← here
  let tag ← endTag? m
  reject (.unexpectedClosingTag (tag.elim "\x7d" EndTag.name) start)

/-- The value behind an equals sign. -/
def value (tagStart : Nat) : Scan Span := do
  let start ← here
  match ← peek m 0 with
  | none => reject (.unterminatedTag tagStart)
  | some c =>
    if c = '"' || c = '\'' then
      let close := runEnd m (start + 1) (· != c)
      if byteAt? m close = some c then
        moveTo m (close + 1)
        range (start + 1) close
      else reject (.unterminatedQuote start)
    else
      let stop := start + (unquoted ((bytesOf m).drop start)).length
      moveTo m stop
      range start stop

def attributeAt : Scan Attribute := do
  let start ← here
  let nameSpan ← readWhile m isAttributeNameChar
  if nameSpan.isEmpty then reject (.invalidAttribute start)
  else
    skipBlanks m
    if (← peek m 0) = some '=' then
      moveTo m ((← here) + 1)
      skipBlanks m
      let valueSpan ← value m start
      let name ← text m nameSpan
      let value ← text m valueSpan
      let span ← range start (← here)
      return ⟨name, value, span, some valueSpan⟩
    else
      moveTo m nameSpan.stop
      let name ← text m nameSpan
      return ⟨name, "", nameSpan, none⟩

/-- The attributes up to the end of a start tag, and whether the tag closes itself. -/
def attributesAt (tagStart : Nat) : (fuel : Nat) → Scan (List Attribute × Bool)
  | 0 => fault .exhausted
  | fuel + 1 => do
    skipBlanks m
    let pos ← here
    match ← peek m 0 with
    | none => reject (.unterminatedTag tagStart)
    | some c =>
      if c = '>' then
        moveTo m (pos + 1)
        return ([], false)
      else if c = '/' then
        if (← peek m 1) = some '>' then
          moveTo m (pos + 2)
          return ([], true)
        else
          moveTo m (pos + 1)
          attributesAt tagStart fuel
      else
        let first ← attributeAt m
        let (more, selfClosing) ← attributesAt tagStart fuel
        return (first :: more, selfClosing)

/-! ### Expansion forms -/

/-- The range of one part of a header, with the blanks around it. -/
def headerPart? : Scan (Option Span) := do
  let span ← readWhile m isHeaderChar
  if (← peek m 0) = some ',' then
    if (Text.trimBlank (← text m span)).isEmpty then return none
    else
      moveTo m (span.stop + 1)
      return some span
  else return none

def header? : Scan (Option Header) := do
  match ← headerPart? m with
  | none => return none
  | some switchSpan =>
    match ← headerPart? m with
    | none => return none
    | some kindSpan =>
      let kind := Text.trimBlank (← text m kindSpan)
      if (bytesOf kind).all isWordChar then
        let switchValue ← text m switchSpan
        return some ⟨Text.trimBlank switchValue, kind⟩
      else return none

/-! ### Nodes -/

/-- What opens at the cursor; nothing at the end of the text. -/
def opening : Scan (Option Opening) := do
  let depth := (← get).depth
  match ← peek m 0 with
  | none => return none
  | some c =>
    if c = '<' then
      if ← startsWith m "<!--" then return some .comment
      else if (← startsWith m "<!") || (← startsWith m "<?") then return some .declaration
      else
        match ← peek m 1 with
        | none => return some .text
        | some d =>
          if d = '/' then return some .endTag
          else return some (if isLetter d then .element else .text)
    else if c = '{' then return some (if ← startsWith m "\x7b\x7b" then .interpolation else .brace)
    else return some (if c = '}' && 0 < depth then .caseEnd else .text)

/-- The text node that is still open when something starts at `stop`. -/
def flushText (pending : Option Nat) (stop : Nat) : Scan (List Node) :=
  match pending with
  | none => return []
  | some start => return [.text (← range start stop)]

/-- The cursor has come further than `start`. -/
def advanced (start : Nat) : Scan Unit := do
  let pos ← here
  if start < pos then return () else fault (.stalled pos)

/-- The cursor is further than the start of the construct that siblings are about to be read in. -/
def behind (construct : Nat) : Scan Unit := do
  let pos ← here
  if construct < pos then return () else fault (.nested construct pos)

/-- Back to where a form started that breaks off. -/
def rewind (start : Nat) : Scan (Option α) := do
  moveTo m start
  return none

/-- The body of an element whose content is text, up to its end tag. -/
def rawBody (tag : Tag) : Scan Node := do
  let start ← here
  let rest ← text m ⟨start, size m⟩
  let needle := "</".toList ++ tag.name.toList.map Text.lower
  match Text.cutFirst? needle (rest.toList.map Text.lower) with
  | none => reject (.unterminatedTag tag.startTag.start)
  | some (body, _) =>
    let close := start + Text.byteLength body
    let children ← flushText (if start < close then some start else none) close
    moveTo m close
    let endTag ← endTag m
    moveTo m endTag.span.stop
    return .element (tag.closedBy endTag) children

/-- The element once its children are there. -/
def closing (tag : Tag) (children : List Node) (stop : Stop) : Scan Node := do
  let pos ← here
  match stop with
  | .eof | .caseEnd => return .element (tag.endingAt pos) children
  | .close =>
    let endTag ← endTag m
    if sameName endTag.name tag.name then
      moveTo m endTag.span.stop
      return .element (tag.closedBy endTag) children
    else if (← get).opened.any (sameName endTag.name) then
      return .element (tag.endingAt pos) children
    else reject (.unexpectedClosingTag endTag.name endTag.span.start)

/-- The element behind its start tag; `siblings` scans what stands in it. -/
def body (tag : Tag) (siblings : Scan (List Node × Stop)) : Scan Node := do
  if tag.selfClosing || tag.isVoid then return .element tag []
  else if isRawText tag.name then rawBody m tag
  else
    modify fun s => { s with opened := tag.name :: s.opened }
    behind tag.startTag.start
    let (children, stop) ← siblings
    modify fun s => { s with opened := s.opened.tail }
    closing m tag children stop

mutual
/-- The loop over siblings: those before the cursor, and where a text that is still open starts. -/
def siblings (fuel : Nat) (nodes : List Node) (pending : Option Nat) : Scan (List Node × Stop) :=
  match fuel with
  | 0 => fault .exhausted
  | fuel + 1 => do
    let start ← here
    match ← opening m with
    | none => return (nodes ++ (← flushText pending start), .eof)
    | some .endTag => return (nodes ++ (← flushText pending start), .close)
    | some .caseEnd => return (nodes ++ (← flushText pending start), .caseEnd)
    | some .comment =>
      let before ← flushText pending start
      match ← find m (start + 4) "-->" with
      | none => reject (.unterminatedComment start)
      | some stop =>
        moveTo m (stop + 3)
        let span ← range start (stop + 3)
        advanced start
        siblings fuel (nodes ++ before ++ [.comment span]) none
    | some .declaration =>
      let before ← flushText pending start
      match ← find m start ">" with
      | none => reject (.unterminatedTag start)
      | some stop =>
        moveTo m (stop + 1)
        let span ← range start (stop + 1)
        advanced start
        siblings fuel (nodes ++ before ++ [.comment span]) none
    | some .element =>
      let before ← flushText pending start
      let node ← element fuel
      advanced start
      siblings fuel (nodes ++ before ++ [node]) none
    | some .interpolation =>
      match ← find m (start + 2) "\x7d\x7d" with
      | none => moveTo m (size m)
      | some stop => moveTo m (stop + 2)
      advanced start
      siblings fuel nodes (some (pending.getD start))
    | some .brace =>
      match ← form fuel with
      | some node =>
        let before ← flushText pending start
        advanced start
        siblings fuel (nodes ++ before ++ [node]) none
      | none =>
        moveTo m (start + 1)
        advanced start
        siblings fuel nodes (some (pending.getD start))
    | some .text =>
      moveTo m (start + 1)
      moveTo m (runEnd m (start + 1) isPlain)
      advanced start
      siblings fuel nodes (some (pending.getD start))

/-- The element whose start tag opens at the cursor. -/
def element (fuel : Nat) : Scan Node :=
  match fuel with
  | 0 => fault .exhausted
  | fuel + 1 => do
    let start ← here
    moveTo m (start + 1)
    let nameSpan ← readWhile m isTagNameChar
    let name ← text m nameSpan
    let (attributes, selfClosing) ← attributesAt m start (size m + 1)
    let bodyStart ← here
    let startTag ← range start bodyStart
    body m ⟨name, attributes, startTag, startTag, nameSpan, none, selfClosing⟩
      (siblings fuel [] none)

/-- The expansion form whose brace opens at the cursor; when it breaks off, the cursor is back at
    the brace. -/
def form (fuel : Nat) : Scan (Option Node) :=
  match fuel with
  | 0 => fault .exhausted
  | fuel + 1 => do
    let start ← here
    moveTo m (start + 1)
    match ← header? m with
    | none => rewind m start
    | some header =>
      match ← cases fuel start with
      | none => rewind m start
      | some cases => return some (.expansion header (← range start (← here)) cases)

/-- The cases of the form that started at `construct`, up to the brace that ends it. -/
def cases (fuel : Nat) (construct : Nat) : Scan (Option (List Case)) :=
  match fuel with
  | 0 => fault .exhausted
  | fuel + 1 => do
    skipBlanks m
    let start ← here
    match ← peek m 0 with
    | none => return none
    | some c =>
      if c = '}' then
        moveTo m (start + 1)
        return some []
      else
        let labelSpan ← readWhile m isLabelChar
        skipBlanks m
        if labelSpan.isEmpty || (← peek m 0) != some '{' then return none
        else
          moveTo m ((← here) + 1)
          let depth := (← get).depth
          modify fun s => { s with depth := s.depth + 1 }
          behind construct
          let (children, stop) ← siblings fuel [] none
          modify fun s => { s with depth := s.depth - 1 }
          if (← get).depth = depth then
            match stop with
            | .eof => return none
            | .close => strayClose m
            | .caseEnd =>
              let pos ← here
              moveTo m (pos + 1)
              let label ← text m labelSpan
              let span ← range start (pos + 1)
              let more ← cases fuel construct
              return more.map (.mk label span children :: ·)
          else fault (.unbalanced depth (← get).depth)
end

/-- The root nodes of a template. Two rounds or calls for each byte are enough. -/
def template : Scan (List Node) := do
  let (nodes, stop) ← siblings m (2 * size m + 1) [] none
  match stop with
  | .eof => return nodes
  | .close => strayClose m
  | .caseEnd => fault .caseAtRoot

/-- A scan from the first byte on. -/
def scan : Except Halt (List Node) := (template m).run' ⟨0, [], 0⟩

end

end RouterShift.Markup.Scanner
