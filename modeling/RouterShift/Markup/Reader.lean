import RouterShift.Markup.Node
import RouterShift.Text.Cursor

/-! Reading a template. A reader looks at what opens at its place (`Opening.of`) and reads that
    construct; each construct takes at least one character, which is what every recursion below
    rests on. A single brace is tried as an expansion form; when the form breaks off the brace is
    text and reading goes on right behind it. -/

namespace RouterShift.Markup

open Text (Cursor Read)

/-- Why a text is no template; offsets are those of the construct that is at fault. -/
inductive MarkupError
  | unterminatedComment (offset : Nat)
  | unterminatedTag (offset : Nat)
  | unterminatedQuote (offset : Nat)
  | invalidAttribute (offset : Nat)
  | unexpectedClosingTag (name : String) (offset : Nat)
  deriving Repr, DecidableEq

def MarkupError.message : MarkupError → String
  | .unterminatedComment offset => s!"unterminated comment starting at byte {offset}"
  | .unterminatedTag offset => s!"unterminated tag starting at byte {offset}"
  | .unterminatedQuote offset => s!"unterminated attribute value starting at byte {offset}"
  | .invalidAttribute offset => s!"invalid attribute at byte {offset}"
  | .unexpectedClosingTag name offset => s!"unexpected closing tag </{name}> at byte {offset}"

/-- Why a run of siblings ends. -/
inductive Stop
  /-- The text is at its end. -/
  | eof
  /-- An end tag is next; whose it is, the reader of the parent decides. -/
  | close
  /-- The brace that ends the case of an expansion form is next. -/
  | caseEnd
  deriving Repr, DecidableEq

/-- What opens at a place. -/
inductive Opening
  | comment
  | declaration
  | endTag
  | element
  | interpolation
  | brace
  | caseEnd
  | text
  deriving Repr, DecidableEq

def isLetter (c : Char) : Bool := ('a' ≤ c && c ≤ 'z') || ('A' ≤ c && c ≤ 'Z')

def isWordChar (c : Char) : Bool := isLetter c || ('0' ≤ c && c ≤ '9') || c == '_'

/-- What opens with the character `c` and those after it; a closing brace only counts inside a
    case. -/
def Opening.of (inCase : Bool) (c : Char) (after : List Char) : Opening :=
  if c = '<' then
    match after with
    | [] => .text
    | d :: more =>
      if d = '!' && ['-', '-'].isPrefixOf more then .comment
      else if d = '!' || d = '?' then .declaration
      else if d = '/' then .endTag
      else if isLetter d then .element
      else .text
  else if c = '{' then
    if after.head? = some '{' then .interpolation else .brace
  else if c = '}' && inCase then .caseEnd
  else .text

/-- A character that cannot start markup, wherever it stands. -/
def isPlain (c : Char) : Bool := c != '<' && c != '{' && c != '}'

/-! ### Tags -/

def isTagNameChar (c : Char) : Bool := !Text.isAsciiBlank c && c != '>' && c != '/'

def isEndNameChar (c : Char) : Bool := !Text.isAsciiBlank c && c != '>'

def isAttributeNameChar (c : Char) : Bool :=
  !Text.isAsciiBlank c && c != '=' && c != '>' && c != '/' && c != '"' && c != '\''

/-- The unquoted value at the start of a text: it ends at a blank, at `>` and at `/>`. -/
def unquoted : List Char → List Char
  | [] => []
  | c :: cs =>
    if Text.isAsciiBlank c || c = '>' || (c = '/' && cs.head? = some '>') then []
    else c :: unquoted cs

/-- The end tag at a place, and the place after it. -/
def readEndTag (s : Cursor) : Except MarkupError (EndTag × Cursor) :=
  let nameStart := s.skip 2
  let (name, nameStop) := nameStart.take isEndNameChar
  let close := nameStop.skipWhile Text.isAsciiBlank
  if close.peek = some '>' then
    let next := close.skip 1
    .ok (⟨String.ofList name, ⟨s.pos, next.pos⟩, ⟨nameStart.pos, nameStop.pos⟩⟩, next)
  else .error (.unterminatedTag s.pos)

theorem length_readEndTag {s : Cursor} {tag : EndTag} {next : Cursor}
    (h : readEndTag s = .ok (tag, next)) : next.rest.length ≤ s.rest.length := by
  simp only [readEndTag] at h
  split at h
  · cases h
    have h1 := Cursor.length_take_le (s.skip 2) isEndNameChar
    have h2 := Cursor.length_skipWhile_le ((s.skip 2).take isEndNameChar).2 Text.isAsciiBlank
    simp only [Cursor.length_skip] at h1 h2 ⊢
    omega
  · cases h

/-- The value after an equals sign: where it starts, its characters, and the place after it. -/
def readValue (tagStart : Nat) (s : Cursor) :
    Except MarkupError (Read (s.rest.length + 1) (String × Span)) :=
  match hs : s.rest with
  | [] => .error (.unterminatedTag tagStart)
  | c :: cs =>
    if c = '"' || c = '\'' then
      match hc : (s.skip 1).past? [c] with
      | none => .error (.unterminatedQuote s.pos)
      | some next =>
        let value := cs.takeWhile (· != c)
        let start := (s.skip 1).pos
        .ok ⟨(String.ofList value, ⟨start, start + Text.byteLength value⟩), next, by
          have := Cursor.length_past? hc
          simp only [Cursor.length_skip, hs] at this
          simp at this ⊢; omega⟩
    else
      let value := unquoted s.rest
      let next := s.skip value.length
      .ok ⟨(String.ofList value, ⟨s.pos, next.pos⟩), next, by
        simp only [next, Cursor.length_skip, hs]; omega⟩

/-- The attribute at a place. -/
def readAttribute (s : Cursor) : Except MarkupError (Read s.rest.length Attribute) :=
  let start := s.pos
  match hn : s.take isAttributeNameChar with
  | (name, afterName) =>
    if hempty : name = [] then .error (.invalidAttribute start)
    else
      have hlen : afterName.rest.length < s.rest.length := by
        have h := Cursor.length_add_take s isAttributeNameChar
        rw [hn] at h
        have := List.length_pos_iff.2 hempty
        simp only at h; omega
      let sign := afterName.skipWhile Text.isAsciiBlank
      if sign.peek = some '=' then
        let valueStart := (sign.skip 1).skipWhile Text.isAsciiBlank
        match readValue start valueStart with
        | .error e => .error e
        | .ok r =>
          .ok ⟨⟨String.ofList name, r.value.1, ⟨start, r.next.pos⟩, some r.value.2⟩, r.next, by
            have h1 := Cursor.length_skipWhile_le afterName Text.isAsciiBlank
            have h2 := Cursor.length_skipWhile_le (sign.skip 1) Text.isAsciiBlank
            have h3 := r.short
            simp only [Cursor.length_skip, sign, valueStart] at h1 h2 h3
            omega⟩
      else
        .ok ⟨⟨String.ofList name, "", ⟨start, afterName.pos⟩, none⟩, afterName, hlen⟩

/-- The attributes up to the end of a start tag, and whether the tag closes itself. -/
def readAttributes (tagStart : Nat) (s : Cursor) :
    Except MarkupError (Read s.rest.length (List Attribute × Bool)) :=
  let t := s.skipWhile Text.isAsciiBlank
  have ht : t.rest.length ≤ s.rest.length := Cursor.length_skipWhile_le s _
  match hr : t.rest with
  | [] => .error (.unterminatedTag tagStart)
  | c :: cs =>
    if c = '>' then
      .ok ⟨([], false), t.skip 1, by
        simp only [Cursor.length_skip, hr, List.length_cons] at *; omega⟩
    else if c = '/' then
      if cs.head? = some '>' then
        .ok ⟨([], true), t.skip 2, by
          simp only [Cursor.length_skip, hr, List.length_cons] at *; omega⟩
      else
        have hlt : (t.skip 1).rest.length < s.rest.length := by
          simp only [Cursor.length_skip, hr, List.length_cons] at *; omega
        match readAttributes tagStart (t.skip 1) with
        | .error e => .error e
        | .ok r => .ok ⟨r.value, r.next, by have := r.short; omega⟩
    else
      match readAttribute t with
      | .error e => .error e
      | .ok a =>
        have hlt : a.next.rest.length < s.rest.length := by have := a.short; omega
        match readAttributes tagStart a.next with
        | .error e => .error e
        | .ok r => .ok ⟨(a.value :: r.value.1, r.value.2), r.next, by have := r.short; omega⟩
termination_by s.rest.length

/-- The first place whose text starts with `needle` up to the case of ASCII letters: what stands
    before it and what stands from there on. -/
def seek? (needle : List Char) : List Char → Option (List Char × List Char)
  | [] => if needle.isEmpty then some ([], []) else none
  | c :: cs =>
    if needle.isPrefixOf ((c :: cs).map Text.lower) then some ([], c :: cs)
    else (seek? needle cs).map fun (front, back) => (c :: front, back)

theorem length_seek? {needle cs front back : List Char} (h : seek? needle cs = some (front, back)) :
    back.length ≤ cs.length := by
  induction cs generalizing front with
  | nil => simp only [seek?] at h; split at h <;> simp_all
  | cons c cs ih =>
    simp only [seek?] at h
    split at h
    · cases h; simp
    · simp only [Option.map_eq_some_iff, Prod.exists, Prod.mk.injEq] at h
      obtain ⟨a, b, hab, _, rfl⟩ := h
      have := ih hab
      simp; omega

/-! ### Expansion forms -/

def isHeaderChar (c : Char) : Bool := c != ',' && c != '{' && c != '}' && c != '<'

def isLabelChar (c : Char) : Bool := !Text.isAsciiBlank c && c != '{' && c != '}'

/-- One part of the header of an expansion form, without the blanks around it and the comma that
    ends it. -/
def readHeaderPart? (s : Cursor) : Option (Read s.rest.length (List Char)) :=
  match ht : s.take isHeaderChar with
  | (part, comma) =>
    let trimmed := Text.trim Text.isBlank part
    match hc : comma.rest with
    | [] => none
    | c :: _ =>
      if c = ',' && !trimmed.isEmpty then
        some ⟨trimmed, comma.skip 1, by
          have h := Cursor.length_add_take s isHeaderChar
          rw [ht] at h
          simp only [Cursor.length_skip, hc, List.length_cons] at *
          omega⟩
      else none

/-- The header of an expansion form, from behind its brace to behind its second comma. -/
def readHeader? (s : Cursor) : Option (Read s.rest.length Header) :=
  match readHeaderPart? s with
  | none => none
  | some switched =>
    match readHeaderPart? switched.next with
    | none => none
    | some kind =>
      if kind.value.all isWordChar then
        some ⟨⟨String.ofList switched.value, String.ofList kind.value⟩, kind.next, by
          have h1 := switched.short; have h2 := kind.short; omega⟩
      else none

/-! ### Nodes -/

/-- The text node that is still open when something else starts. -/
def flush (pending : Option Nat) (pos : Nat) : List Node :=
  match pending with
  | none => []
  | some start => [.text ⟨start, pos⟩]

/-- The error for a closing piece that nothing is open for. -/
def strayClose (s : Cursor) : MarkupError :=
  match readEndTag s with
  | .ok (tag, _) => .unexpectedClosingTag tag.name s.pos
  | .error _ => .unexpectedClosingTag "\x7d" s.pos

/-- The element of a start tag that was just read, up to its body. -/
def openTag (start : Nat) (name : List Char) (nameSpan : Span) (attributes : List Attribute)
    (selfClosing : Bool) (bodyStart : Nat) : Tag :=
  ⟨String.ofList name, attributes, ⟨start, bodyStart⟩, ⟨start, bodyStart⟩, nameSpan, none,
    selfClosing⟩

/-- The element once its end tag is known. -/
def Tag.closedBy (tag : Tag) (endTag : EndTag) : Tag :=
  { tag with span := ⟨tag.startTag.start, endTag.span.stop⟩, endTag := some endTag }

/-- The element when something around it ends at `pos`. -/
def Tag.endingAt (tag : Tag) (pos : Nat) : Tag :=
  { tag with span := ⟨tag.startTag.start, pos⟩ }

mutual
/-- The siblings from a place on, up to what ends their run. `opened` are the names of the elements
    around them, `pending` is where a text that is still open starts. -/
def readSiblings (opened : List String) (inCase : Bool) (pending : Option Nat) (s : Cursor) :
    Except MarkupError (Read (s.rest.length + 1) (List Node × Stop)) :=
  match hs : s.rest with
  | [] => .ok ⟨(flush pending s.pos, .eof), s, by simp [hs]⟩
  | c :: cs =>
    match Opening.of inCase c cs with
    | .comment =>
      match hp : (s.skip 4).past? ['-', '-', '>'] with
      | none => .error (.unterminatedComment s.pos)
      | some next =>
        have hlt : next.rest.length < s.rest.length := by
          have := Cursor.length_past? hp
          simp only [Cursor.length_skip, hs, List.length_cons, List.length_nil] at *; omega
        match readSiblings opened inCase none next with
        | .error e => .error e
        | .ok r =>
          let comment := Node.comment ⟨s.pos, next.pos⟩
          .ok ⟨(flush pending s.pos ++ comment :: r.value.1, r.value.2), r.next, by
            have := r.short; simp only [hs, List.length_cons] at *; omega⟩
    | .declaration =>
      match hp : s.past? ['>'] with
      | none => .error (.unterminatedTag s.pos)
      | some next =>
        have hlt : next.rest.length < s.rest.length := by
          have := Cursor.length_past? hp
          simp only [hs, List.length_cons, List.length_nil] at *; omega
        match readSiblings opened inCase none next with
        | .error e => .error e
        | .ok r =>
          let comment := Node.comment ⟨s.pos, next.pos⟩
          .ok ⟨(flush pending s.pos ++ comment :: r.value.1, r.value.2), r.next, by
            have := r.short; simp only [hs, List.length_cons] at *; omega⟩
    | .endTag => .ok ⟨(flush pending s.pos, .close), s, by simp [hs]⟩
    | .caseEnd => .ok ⟨(flush pending s.pos, .caseEnd), s, by simp [hs]⟩
    | .element =>
      have hskip : (s.skip 1).rest.length < s.rest.length := by
        simp only [Cursor.length_skip, hs, List.length_cons]; omega
      match readElement opened inCase s.pos (s.skip 1) with
      | .error e => .error e
      | .ok el =>
        have hlt : el.next.rest.length < s.rest.length := by have := el.short; omega
        match readSiblings opened inCase none el.next with
        | .error e => .error e
        | .ok r =>
          .ok ⟨(flush pending s.pos ++ el.value :: r.value.1, r.value.2), r.next, by
            have := r.short; simp only [hs, List.length_cons] at *; omega⟩
    | .interpolation =>
      match hp : (s.skip 2).past? ['}', '}'] with
      | none => .ok ⟨(flush (some (pending.getD s.pos)) (s.skip s.rest.length).pos, .eof),
          s.skip s.rest.length, by simp only [Cursor.length_skip, hs, List.length_cons]; omega⟩
      | some next =>
        have hlt : next.rest.length < s.rest.length := by
          have := Cursor.length_past? hp
          simp only [Cursor.length_skip, hs, List.length_cons, List.length_nil] at *; omega
        match readSiblings opened inCase (some (pending.getD s.pos)) next with
        | .error e => .error e
        | .ok r => .ok ⟨r.value, r.next, by
            have := r.short; simp only [hs, List.length_cons] at *; omega⟩
    | .brace =>
      have hskip : (s.skip 1).rest.length < s.rest.length := by
        simp only [Cursor.length_skip, hs, List.length_cons]; omega
      match readExpansion? opened s.pos (s.skip 1) with
      | .error e => .error e
      | .ok (some form) =>
        have hlt : form.next.rest.length < s.rest.length := by have := form.short; omega
        match readSiblings opened inCase none form.next with
        | .error e => .error e
        | .ok r =>
          .ok ⟨(flush pending s.pos ++ form.value :: r.value.1, r.value.2), r.next, by
            have := r.short; simp only [hs, List.length_cons] at *; omega⟩
      | .ok none =>
        match readSiblings opened inCase (some (pending.getD s.pos)) (s.skip 1) with
        | .error e => .error e
        | .ok r => .ok ⟨r.value, r.next, by
            have := r.short; simp only [hs, List.length_cons] at *; omega⟩
    | .text =>
      have hlt : ((s.skip 1).skipWhile isPlain).rest.length < s.rest.length := by
        have := Cursor.length_skipWhile_le (s.skip 1) isPlain
        simp only [Cursor.length_skip, hs, List.length_cons] at *; omega
      match readSiblings opened inCase (some (pending.getD s.pos))
        ((s.skip 1).skipWhile isPlain) with
      | .error e => .error e
      | .ok r => .ok ⟨r.value, r.next, by
          have := r.short; simp only [hs, List.length_cons] at *; omega⟩
termination_by s.rest.length

/-- The element whose name starts at a place; `start` is where its tag opened. -/
def readElement (opened : List String) (inCase : Bool) (start : Nat) (s : Cursor) :
    Except MarkupError (Read (s.rest.length + 1) Node) :=
  match hn : s.take isTagNameChar with
  | (name, afterName) =>
    have hname : afterName.rest.length ≤ s.rest.length := by
      have := Cursor.length_take_le s isTagNameChar; rw [hn] at this; exact this
    match readAttributes start afterName with
    | .error e => .error e
    | .ok head =>
      have hhead := head.short
      let tag := openTag start name ⟨s.pos, afterName.pos⟩ head.value.1 head.value.2 head.next.pos
      if tag.selfClosing || tag.isVoid then
        .ok ⟨.element tag [], head.next, by omega⟩
      else if isRawText tag.name then
        match hk : seek? (['<', '/'] ++ name.map Text.lower) head.next.rest with
        | none => .error (.unterminatedTag start)
        | some (body, back) =>
          let close : Cursor := ⟨head.next.pos + Text.byteLength body, back⟩
          match he : readEndTag close with
          | .error e => .error e
          | .ok (endTag, next) =>
            let children := if body.isEmpty then [] else [Node.text ⟨head.next.pos, close.pos⟩]
            .ok ⟨.element (tag.closedBy endTag) children, next, by
              have h1 := length_seek? hk
              have h2 := length_readEndTag he
              simp only [close] at h2; omega⟩
      else
        match readSiblings (tag.name :: opened) inCase none head.next with
        | .error e => .error e
        | .ok body =>
          have hbody := body.short
          have hnext : body.next.rest.length < s.rest.length + 1 := by omega
          match body.value.2 with
          | .eof | .caseEnd =>
            .ok ⟨.element (tag.endingAt body.next.pos) body.value.1, body.next, hnext⟩
          | .close =>
            match he : readEndTag body.next with
            | .error e => .error e
            | .ok (endTag, next) =>
              if sameName endTag.name tag.name then
                .ok ⟨.element (tag.closedBy endTag) body.value.1, next, by
                  have := length_readEndTag he; omega⟩
              else if opened.any (sameName endTag.name) then
                .ok ⟨.element (tag.endingAt body.next.pos) body.value.1, body.next, hnext⟩
              else .error (.unexpectedClosingTag endTag.name endTag.span.start)
termination_by s.rest.length

/-- The expansion form whose brace opened at `start`, from behind the brace; none when it breaks
    off. An error inside one of its cases is an error all the same. -/
def readExpansion? (opened : List String) (start : Nat) (s : Cursor) :
    Except MarkupError (Option (Read (s.rest.length + 1) Node)) :=
  match readHeader? s with
  | none => .ok none
  | some header =>
    have hheader := header.short
    match readCases? opened header.next with
    | .error e => .error e
    | .ok none => .ok none
    | .ok (some cases) =>
      .ok (some ⟨.expansion header.value ⟨start, cases.next.pos⟩ cases.value, cases.next, by
        have := cases.short; omega⟩)
termination_by s.rest.length

/-- The cases up to the brace that ends an expansion form, and the place behind it. -/
def readCases? (opened : List String) (s : Cursor) :
    Except MarkupError (Option (Read (s.rest.length + 1) (List Case))) :=
  let t := s.skipWhile Text.isAsciiBlank
  have ht : t.rest.length ≤ s.rest.length := Cursor.length_skipWhile_le s _
  match hr : t.rest with
  | [] => .ok none
  | c :: _ =>
    if c = '}' then
      .ok (some ⟨[], t.skip 1, by simp only [Cursor.length_skip]; omega⟩)
    else
      match hl : t.take isLabelChar with
      | (label, afterLabel) =>
        let brace := afterLabel.skipWhile Text.isAsciiBlank
        have hbrace : brace.rest.length ≤ t.rest.length := by
          have h1 := Cursor.length_take_le t isLabelChar
          rw [hl] at h1
          have h2 := Cursor.length_skipWhile_le afterLabel Text.isAsciiBlank
          simp only at h1; exact Nat.le_trans h2 h1
        match hb : brace.rest with
        | [] => .ok none
        | d :: _ =>
          if label.isEmpty || d != '{' then .ok none
          else
            have hlt : (brace.skip 1).rest.length < s.rest.length := by
              simp only [Cursor.length_skip, hb, List.length_cons] at *; omega
            match readSiblings opened true none (brace.skip 1) with
            | .error e => .error e
            | .ok body =>
              have hbody := body.short
              match body.value.2 with
              | .eof => .ok none
              | .close => .error (strayClose body.next)
              | .caseEnd =>
                let next := body.next.skip 1
                have hnext : next.rest.length < s.rest.length := by
                  simp only [next, Cursor.length_skip]; omega
                match readCases? opened next with
                | .error e => .error e
                | .ok none => .ok none
                | .ok (some more) =>
                  .ok (some ⟨.mk (String.ofList label) ⟨t.pos, next.pos⟩ body.value.1 :: more.value,
                    more.next, by have := more.short; omega⟩)
termination_by s.rest.length
end

/-- The root nodes of a template. -/
def parse (text : String) : Except MarkupError (List Node) :=
  match readSiblings [] false none (.ofString text) with
  | .error e => .error e
  | .ok run =>
    match run.value.2 with
    | .eof => .ok run.value.1
    | .close | .caseEnd => .error (strayClose run.next)

/-- The root nodes, or none at all for a text that is no template: nothing in it is touched. -/
def parseOrEmpty (text : String) : List Node :=
  match parse text with
  | .ok nodes => nodes
  | .error _ => []

end RouterShift.Markup
