import RouterShift.Markup.Reader

/-! The equations of the reader. What a reader returns carries the proof that it made progress; here
    it is only the value and the place behind it, and each reader is given by one equation about
    these two, which the proofs about reading use in place of the definitions. -/

namespace RouterShift.Markup
open Text (Cursor Read)

/-- What was read and the place behind it. -/
def Read.plain {n : Nat} {α : Type} (r : Read n α) : α × Cursor := (r.value, r.next)

def valueFrom (tagStart : Nat) (s : Cursor) : Except MarkupError ((String × Span) × Cursor) :=
  (readValue tagStart s).map Read.plain

def attributeFrom (s : Cursor) : Except MarkupError (Attribute × Cursor) :=
  (readAttribute s).map Read.plain

def attributesFrom (tagStart : Nat) (s : Cursor) :
    Except MarkupError ((List Attribute × Bool) × Cursor) :=
  (readAttributes tagStart s).map Read.plain

def headerPartFrom? (s : Cursor) : Option (List Char × Cursor) := (readHeaderPart? s).map Read.plain

def headerFrom? (s : Cursor) : Option (Header × Cursor) := (readHeader? s).map Read.plain

def siblingsFrom (opened : List String) (inCase : Bool) (pending : Option Nat) (s : Cursor) :
    Except MarkupError ((List Node × Stop) × Cursor) :=
  (readSiblings opened inCase pending s).map Read.plain

def elementFrom (opened : List String) (inCase : Bool) (start : Nat) (s : Cursor) :
    Except MarkupError (Node × Cursor) :=
  (readElement opened inCase start s).map Read.plain

def formFrom? (opened : List String) (start : Nat) (s : Cursor) :
    Except MarkupError (Option (Node × Cursor)) :=
  (readExpansion? opened start s).map (Option.map Read.plain)

def casesFrom? (opened : List String) (s : Cursor) :
    Except MarkupError (Option (List Case × Cursor)) :=
  (readCases? opened s).map (Option.map Read.plain)

/-! ### Tags -/

theorem valueFrom_eq (tagStart : Nat) (s : Cursor) :
    valueFrom tagStart s =
      match s.rest with
      | [] => .error (.unterminatedTag tagStart)
      | c :: cs =>
        if c = '"' || c = '\'' then
          match (s.skip 1).past? [c] with
          | none => .error (.unterminatedQuote s.pos)
          | some next =>
            let value := cs.takeWhile (· != c)
            let start := (s.skip 1).pos
            .ok ((String.ofList value, ⟨start, start + Text.byteLength value⟩), next)
        else
          let value := unquoted s.rest
          let next := s.skip value.length
          .ok ((String.ofList value, ⟨s.pos, next.pos⟩), next) := by
  obtain ⟨pos, rest⟩ := s
  cases rest with
  | nil => rw [valueFrom, readValue]; rfl
  | cons c cs =>
    rw [valueFrom, readValue]
    by_cases hc : (c = '"' || c = '\'') = true
    · simp only [hc, if_true]
      split
      · next hp => simp only [hp]; rfl
      · next hp => simp only [hp]; rfl
    · simp only [hc]; rfl

theorem attributeFrom_eq (s : Cursor) :
    attributeFrom s =
      let name := (s.take isAttributeNameChar).1
      let afterName := (s.take isAttributeNameChar).2
      let sign := afterName.skipWhile Text.isAsciiBlank
      if name = [] then .error (.invalidAttribute s.pos)
      else if sign.peek = some '=' then
        (valueFrom s.pos ((sign.skip 1).skipWhile Text.isAsciiBlank)).map fun r =>
          (⟨String.ofList name, r.1.1, ⟨s.pos, r.2.pos⟩, some r.1.2⟩, r.2)
      else .ok (⟨String.ofList name, "", ⟨s.pos, afterName.pos⟩, none⟩, afterName) := by
  rw [attributeFrom, readAttribute]
  split
  next name afterName hn =>
  simp only [hn]
  by_cases hempty : name = []
  · simp only [hempty]; rfl
  · by_cases hsign : (afterName.skipWhile Text.isAsciiBlank).peek = some '='
    · simp only [hempty, hsign, valueFrom]
      cases readValue s.pos (((afterName.skipWhile Text.isAsciiBlank).skip 1).skipWhile
        Text.isAsciiBlank) with
      | error e => rfl
      | ok r => rfl
    · simp only [hempty, hsign]; rfl

theorem attributesFrom_eq (tagStart : Nat) (s : Cursor) :
    attributesFrom tagStart s =
      let t := s.skipWhile Text.isAsciiBlank
      match t.rest with
      | [] => .error (.unterminatedTag tagStart)
      | c :: cs =>
        if c = '>' then .ok (([], false), t.skip 1)
        else if c = '/' then
          if cs.head? = some '>' then .ok (([], true), t.skip 2)
          else attributesFrom tagStart (t.skip 1)
        else
          match attributeFrom t with
          | .error e => .error e
          | .ok (a, next) =>
            (attributesFrom tagStart next).map fun r => ((a :: r.1.1, r.1.2), r.2) := by
  rw [attributesFrom, readAttributes]
  simp only
  split
  · next hr => simp only [hr]; rfl
  · next c cs hr =>
    simp only [hr]
    by_cases h1 : c = '>'
    · simp only [h1]; rfl
    · by_cases h2 : c = '/'
      · by_cases h3 : cs.head? = some '>'
        · simp only [h2, h3]; rfl
        · simp only [h2, h3, attributesFrom]
          cases readAttributes tagStart ((s.skipWhile Text.isAsciiBlank).skip 1) with
          | error e => rfl
          | ok r => rfl
      · simp only [h1, h2, attributeFrom]
        cases readAttribute (s.skipWhile Text.isAsciiBlank) with
        | error e => rfl
        | ok a =>
          simp only [attributesFrom, Except.map, Read.plain]
          cases readAttributes tagStart a.next with
          | error e => rfl
          | ok r => rfl

/-! ### Headers -/

theorem headerPartFrom?_eq (s : Cursor) :
    headerPartFrom? s =
      let part := (s.take isHeaderChar).1
      let comma := (s.take isHeaderChar).2
      let trimmed := Text.trim Text.isBlank part
      match comma.rest with
      | [] => none
      | c :: _ => if c = ',' && !trimmed.isEmpty then some (trimmed, comma.skip 1) else none := by
  rw [headerPartFrom?, readHeaderPart?]
  split
  next part comma ht =>
  simp only [ht]
  split
  · next hc => simp only [hc]; rfl
  · next c cs hc =>
    simp only [hc]
    split <;> rfl

theorem headerFrom?_eq (s : Cursor) :
    headerFrom? s =
      match headerPartFrom? s with
      | none => none
      | some (switched, next) =>
        match headerPartFrom? next with
        | none => none
        | some (kind, last) =>
          if kind.all isWordChar then some (⟨String.ofList switched, String.ofList kind⟩, last)
          else none := by
  rw [headerFrom?, readHeader?, headerPartFrom?]
  cases readHeaderPart? s with
  | none => rfl
  | some switched =>
    simp only [Option.map_some, Read.plain, headerPartFrom?]
    cases readHeaderPart? switched.next with
    | none => rfl
    | some kind =>
      simp only [Option.map_some, Read.plain]
      split <;> rfl

/-! ### Nodes -/

/-- What was read of some siblings, with more of them in front. -/
def prepend (nodes : List Node) (r : (List Node × Stop) × Cursor) : (List Node × Stop) × Cursor :=
  ((nodes ++ r.1.1, r.1.2), r.2)

theorem siblingsFrom_eq (opened : List String) (inCase : Bool) (pending : Option Nat) (s : Cursor) :
    siblingsFrom opened inCase pending s =
      match s.rest with
      | [] => .ok ((flush pending s.pos, .eof), s)
      | c :: cs =>
        match Opening.of inCase c cs with
        | .comment =>
          match (s.skip 4).past? ['-', '-', '>'] with
          | none => .error (.unterminatedComment s.pos)
          | some next => (siblingsFrom opened inCase none next).map
              (prepend (flush pending s.pos ++ [.comment ⟨s.pos, next.pos⟩]))
        | .declaration =>
          match s.past? ['>'] with
          | none => .error (.unterminatedTag s.pos)
          | some next => (siblingsFrom opened inCase none next).map
              (prepend (flush pending s.pos ++ [.comment ⟨s.pos, next.pos⟩]))
        | .endTag => .ok ((flush pending s.pos, .close), s)
        | .caseEnd => .ok ((flush pending s.pos, .caseEnd), s)
        | .element =>
          match elementFrom opened inCase s.pos (s.skip 1) with
          | .error e => .error e
          | .ok (el, next) => (siblingsFrom opened inCase none next).map
              (prepend (flush pending s.pos ++ [el]))
        | .interpolation =>
          match (s.skip 2).past? ['}', '}'] with
          | none => .ok ((flush (some (pending.getD s.pos)) (s.skip s.rest.length).pos, .eof),
              s.skip s.rest.length)
          | some next => siblingsFrom opened inCase (some (pending.getD s.pos)) next
        | .brace =>
          match formFrom? opened s.pos (s.skip 1) with
          | .error e => .error e
          | .ok (some (form, next)) => (siblingsFrom opened inCase none next).map
              (prepend (flush pending s.pos ++ [form]))
          | .ok none => siblingsFrom opened inCase (some (pending.getD s.pos)) (s.skip 1)
        | .text => siblingsFrom opened inCase (some (pending.getD s.pos))
            ((s.skip 1).skipWhile isPlain) := by
  obtain ⟨pos, rest⟩ := s
  cases rest with
  | nil => rw [siblingsFrom, readSiblings]; rfl
  | cons c cs =>
    rw [siblingsFrom, readSiblings]
    cases hO : Opening.of inCase c cs with
    | comment =>
      simp only [hO]
      split
      · next hp => simp only [hp]; rfl
      · next n hp =>
        simp only [hp, siblingsFrom]
        cases readSiblings opened inCase none n with
        | error e => rfl
        | ok r => simp [Except.map, prepend, Read.plain]
    | endTag => simp only [hO]; rfl
    | caseEnd => simp only [hO]; rfl
    | element =>
      simp only [hO, elementFrom]
      cases readElement opened inCase pos (Cursor.skip ⟨pos, c :: cs⟩ 1) with
      | error e => rfl
      | ok el =>
        simp only [siblingsFrom, Except.map, Read.plain]
        cases readSiblings opened inCase none el.next with
        | error e => rfl
        | ok r => simp [prepend]
    | declaration =>
      simp only [hO]
      split
      · next hp => simp only [hp]; rfl
      · next n hp =>
        simp only [hp, siblingsFrom]
        cases readSiblings opened inCase none n with
        | error e => rfl
        | ok r => simp [Except.map, prepend, Read.plain]
    | interpolation =>
      simp only [hO]
      split
      · next hp => simp only [hp]; rfl
      · next n hp =>
        simp only [hp, siblingsFrom]
        cases readSiblings opened inCase (some (pending.getD pos)) n with
        | error e => rfl
        | ok r => rfl
    | brace =>
      simp only [hO, formFrom?]
      cases readExpansion? opened pos (Cursor.skip ⟨pos, c :: cs⟩ 1) with
      | error e => rfl
      | ok form =>
        cases form with
        | none =>
          simp only [siblingsFrom, Except.map, Option.map_none]
          cases readSiblings opened inCase (some (pending.getD pos)) (Cursor.skip ⟨pos, c :: cs⟩ 1) with
          | error e => rfl
          | ok r => rfl
        | some form =>
          simp only [siblingsFrom, Except.map, Option.map_some, Read.plain]
          cases readSiblings opened inCase none form.next with
          | error e => rfl
          | ok r => simp [prepend]
    | text =>
      simp only [hO, siblingsFrom]
      cases readSiblings opened inCase (some (pending.getD pos))
        ((Cursor.skip ⟨pos, c :: cs⟩ 1).skipWhile isPlain) with
      | error e => rfl
      | ok r => rfl

/-- What follows the start tag of an element, up to its end. -/
def bodyFrom (opened : List String) (inCase : Bool) (start : Nat) (name : List Char) (tag : Tag)
    (s : Cursor) : Except MarkupError (Node × Cursor) :=
  if tag.selfClosing || tag.isVoid then .ok (.element tag [], s)
  else if isRawText tag.name then
    match seek? (['<', '/'] ++ name.map Text.lower) s.rest with
    | none => .error (.unterminatedTag start)
    | some (body, back) =>
      let close : Cursor := ⟨s.pos + Text.byteLength body, back⟩
      (readEndTag close).map fun r =>
        (.element (tag.closedBy r.1)
          (if body.isEmpty then [] else [Node.text ⟨s.pos, close.pos⟩]), r.2)
  else
    match siblingsFrom (tag.name :: opened) inCase none s with
    | .error e => .error e
    | .ok ((children, stop), next) =>
      match stop with
      | .eof | .caseEnd => .ok (.element (tag.endingAt next.pos) children, next)
      | .close =>
        match readEndTag next with
        | .error e => .error e
        | .ok (endTag, after) =>
          if sameName endTag.name tag.name then .ok (.element (tag.closedBy endTag) children, after)
          else if opened.any (sameName endTag.name) then
            .ok (.element (tag.endingAt next.pos) children, next)
          else .error (.unexpectedClosingTag endTag.name endTag.span.start)

theorem elementFrom_eq (opened : List String) (inCase : Bool) (start : Nat) (s : Cursor) :
    elementFrom opened inCase start s =
      let name := (s.take isTagNameChar).1
      let afterName := (s.take isTagNameChar).2
      match attributesFrom start afterName with
      | .error e => .error e
      | .ok ((attributes, selfClosing), bodyStart) =>
        bodyFrom opened inCase start name
          (openTag start name ⟨s.pos, afterName.pos⟩ attributes selfClosing bodyStart.pos)
          bodyStart := by
  rw [elementFrom, readElement]
  split
  next name afterName hn =>
  simp only [hn]
  rw [attributesFrom]
  cases readAttributes start afterName with
  | error e => rfl
  | ok head =>
    have hhead : (Except.ok head : Except MarkupError _).map Read.plain = .ok (head.value, head.next) :=
      rfl
    simp only [hhead]
    generalize openTag start name ⟨s.pos, afterName.pos⟩ head.value.1 head.value.2 head.next.pos = tag
    simp only [bodyFrom]
    by_cases hsingle : (tag.selfClosing || tag.isVoid) = true
    · rw [if_pos hsingle, if_pos hsingle]; rfl
    · rw [if_neg hsingle, if_neg hsingle]
      by_cases hraw : isRawText tag.name = true
      · rw [if_pos hraw, if_pos hraw]
        split
        · next hk => simp only [hk]; rfl
        · next body back hk =>
          simp only [hk]
          split
          · next he => simp only [he]; rfl
          · next endTag next he => simp only [he]; rfl
      · rw [if_neg hraw, if_neg hraw, siblingsFrom]
        cases readSiblings (tag.name :: opened) inCase none head.next with
        | error e => rfl
        | ok body =>
          obtain ⟨⟨children, stop⟩, next, hshort⟩ := body
          cases stop with
          | eof => rfl
          | caseEnd => rfl
          | close =>
            have hbody : (Except.ok ⟨(children, .close), next, hshort⟩ : Except MarkupError
                (Read (head.next.rest.length + 1) (List Node × Stop))).map Read.plain =
                .ok ((children, .close), next) := rfl
            simp only [hbody]
            split
            · next he => simp only [he]; rfl
            · next endTag after he =>
              simp only [he]
              by_cases hsame : sameName endTag.name tag.name = true
              · rw [if_pos hsame, if_pos hsame]; rfl
              · rw [if_neg hsame, if_neg hsame]
                by_cases hany : opened.any (sameName endTag.name) = true
                · rw [if_pos hany, if_pos hany]; rfl
                · rw [if_neg hany, if_neg hany]; rfl

theorem formFrom?_eq (opened : List String) (start : Nat) (s : Cursor) :
    formFrom? opened start s =
      match headerFrom? s with
      | none => .ok none
      | some (header, next) =>
        match casesFrom? opened next with
        | .error e => .error e
        | .ok none => .ok none
        | .ok (some (cases, last)) =>
          .ok (some (.expansion header ⟨start, last.pos⟩ cases, last)) := by
  rw [formFrom?, readExpansion?, headerFrom?]
  cases readHeader? s with
  | none => rfl
  | some header =>
    simp only [Option.map_some, Read.plain, casesFrom?]
    cases readCases? opened header.next with
    | error e => rfl
    | ok cases =>
      cases cases with
      | none => rfl
      | some cases => rfl

theorem casesFrom?_eq (opened : List String) (s : Cursor) :
    casesFrom? opened s =
      let t := s.skipWhile Text.isAsciiBlank
      match t.rest with
      | [] => .ok none
      | c :: _ =>
        if c = '}' then .ok (some ([], t.skip 1))
        else
          let label := (t.take isLabelChar).1
          let brace := (t.take isLabelChar).2.skipWhile Text.isAsciiBlank
          match brace.rest with
          | [] => .ok none
          | d :: _ =>
            if label.isEmpty || d != '{' then .ok none
            else
              match siblingsFrom opened true none (brace.skip 1) with
              | .error e => .error e
              | .ok ((children, stop), next) =>
                match stop with
                | .eof => .ok none
                | .close => .error (strayClose next)
                | .caseEnd =>
                  (casesFrom? opened (next.skip 1)).map (Option.map fun r =>
                    (.mk (String.ofList label) ⟨t.pos, (next.skip 1).pos⟩ children :: r.1, r.2)) := by
  rw [casesFrom?, readCases?]
  simp only
  split
  · next hr => simp only [hr]; rfl
  · next c cs hr =>
    simp only [hr]
    by_cases hc : c = '}'
    · simp only [hc]; rfl
    · simp only [hc]
      rw [if_neg not_false, if_neg not_false]
      split
      · next hb => simp only [hb]; rfl
      · next d ds hb =>
        simp only [hb]
        by_cases hd : (((s.skipWhile Text.isAsciiBlank).take isLabelChar).1.isEmpty || d != '{') = true
        · rw [if_pos hd, if_pos hd]; rfl
        · rw [if_neg hd, if_neg hd, siblingsFrom]
          cases readSiblings opened true none
            ((((s.skipWhile Text.isAsciiBlank).take isLabelChar).2.skipWhile Text.isAsciiBlank).skip 1) with
          | error e => rfl
          | ok body =>
            obtain ⟨⟨children, stop⟩, next, hshort⟩ := body
            cases stop with
            | eof => rfl
            | close => rfl
            | caseEnd =>
              simp only [Except.map, Read.plain, casesFrom?]
              cases readCases? opened (next.skip 1) with
              | error e => rfl
              | ok more =>
                cases more with
                | none => rfl
                | some more => rfl

end RouterShift.Markup
