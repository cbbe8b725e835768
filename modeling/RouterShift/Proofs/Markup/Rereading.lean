import RouterShift.Proofs.Markup.Tags

/-! Written templates are found again. A text that is written as a proper tree is read as the nodes
    of the tree, at the places where they stand (`siblingsFrom_of_proper`). The induction is over
    the tree; texts are run through character by character, as `TextRun` has them, although the
    reader goes over plain ones in one go. -/

namespace RouterShift.Markup
open Text (Cursor byteLength byteLength_append StopsBefore stopsBefore_cons stopsBefore_append
  isAsciiBlank)

/-! ### Comments and headers -/

theorem EndsFirst.past? {pattern body : List Char} (h : EndsFirst pattern body) (pos : Nat)
    (after : List Char) : (Cursor.mk pos (body ++ (pattern ++ after))).past? pattern =
      some ⟨pos + byteLength (body ++ pattern), after⟩ := by
  refine Cursor.past?_eq_some.2 ⟨body, ?_, rfl⟩
  rw [← List.append_assoc]
  exact (Text.cutFirst?_append after).2 h

theorem opening_declaration {inCase : Bool} {d : Char} {body : List Char} (hd : d = '!' ∨ d = '?')
    (h : (d = '!' && ['-', '-'].isPrefixOf (body ++ ['>'])) = false) (after : List Char) :
    Opening.of inCase '<' (d :: (body ++ '>' :: after)) = .declaration := by
  have hdash : (['-', '-'] : List Char).isPrefixOf (body ++ '>' :: after) =
      (['-', '-'] : List Char).isPrefixOf (body ++ ['>']) := by
    match body with
    | [] => rfl
    | [_] => rfl
    | _ :: _ :: _ => rfl
  have hd' : (d = '!' || d = '?') = true := by simpa using hd
  simp only [Opening.of, if_true, hdash, h, hd']
  rfl

theorem siblingsFrom_comment {cs : List Char} (h : CommentProper cs) (opened : List String)
    (inCase : Bool) (pending : Option Nat) (pos : Nat) (after : List Char) :
    siblingsFrom opened inCase pending ⟨pos, cs ++ after⟩ =
      (siblingsFrom opened inCase none ⟨pos + byteLength cs, after⟩).map
        (prepend (flush pending pos ++ [.comment ⟨pos, pos + byteLength cs⟩])) := by
  rw [siblingsFrom_eq]
  cases h with
  | comment body hbody =>
    have hopen : Opening.of inCase '<' ('!' :: '-' :: '-' :: (body ++ ['-', '-', '>'] ++ after)) =
        .comment := rfl
    have hskip := Cursor.skip_append pos ['<', '!', '-', '-'] (body ++ (['-', '-', '>'] ++ after))
    have hpast := hbody.past? (pos + byteLength ['<', '!', '-', '-']) after
    rw [Nat.add_assoc, ← byteLength_append] at hpast
    simp only [List.cons_append, hopen]
    simp only [List.cons_append, List.append_assoc, List.nil_append, List.length_cons,
      List.length_nil] at hskip hpast ⊢
    simp only [hskip, hpast]
  | declaration d body hd hbody h =>
    have hopen := @opening_declaration inCase d body hd h after
    have hmem : '>' ∉ '<' :: d :: body := by
      rcases hd with rfl | rfl <;> simpa using hbody
    have hpast : (Cursor.mk pos (('<' :: d :: body) ++ '>' :: after)).past? ['>'] =
        some ⟨pos + byteLength ('<' :: d :: body ++ ['>']), after⟩ :=
      Cursor.past?_eq_some.2 ⟨_, Text.cutFirst?_singleton after hmem, rfl⟩
    simp only [List.cons_append, List.append_assoc, List.nil_append] at hpast ⊢
    simp only [hopen, hpast]

theorem headerPartFrom?_of_proper {part : List Char} (hpart : ∀ c ∈ part, isHeaderChar c = true)
    (htrim : Text.trim Text.isBlank part ≠ []) (pos : Nat) (after : List Char) :
    headerPartFrom? ⟨pos, part ++ ',' :: after⟩ =
      some (Text.trim Text.isBlank part, ⟨pos + byteLength part + 1, after⟩) := by
  have htake := Cursor.take_append pos hpart (@stopsBefore_cons isHeaderChar ',' after rfl)
  have hlast : (',' : Char).utf8Size = 1 := rfl
  rw [headerPartFrom?_eq, htake]
  simp [htrim, Cursor.skip_one, hlast]

theorem headerFrom?_of_proper {h : WrittenHeader} (hh : h.Proper) (pos : Nat) (after : List Char) :
    headerFrom? ⟨pos, h.chars ++ after⟩ = some (h.node, ⟨pos + byteLength h.chars, after⟩) := by
  have hchars : h.chars ++ after = h.switchValue ++ ',' :: (h.kind ++ ',' :: after) := by
    simp [WrittenHeader.chars]
  have hpos : pos + byteLength h.switchValue + 1 + byteLength h.kind + 1 =
      pos + byteLength h.chars := by
    simp [WrittenHeader.chars, byteLength, byteLength_append, Char.utf8Size]
    omega
  rw [headerFrom?_eq, hchars, headerPartFrom?_of_proper hh.switchChars hh.switchValue]
  simp only [headerPartFrom?_of_proper hh.kindChars hh.kind, hh.word, if_true, hpos]
  rfl

/-! ### Texts -/

theorem opening_of_isPlain {inCase : Bool} {c : Char} (hc : isPlain c = true) (cs : List Char) :
    Opening.of inCase c cs = .text := by
  simp only [isPlain, Bool.and_eq_true, bne_iff_ne, ne_eq] at hc
  simp [Opening.of, hc]

theorem siblingsFrom_text {opened : List String} {inCase : Bool} {c : Char} {cs : List Char}
    (hc : Opening.of inCase c cs = .text) (pending : Option Nat) (pos : Nat) :
    siblingsFrom opened inCase pending ⟨pos, c :: cs⟩ =
      siblingsFrom opened inCase (some (pending.getD pos))
        ((Cursor.mk (pos + c.utf8Size) cs).skipWhile isPlain) := by
  rw [siblingsFrom_eq]
  simp only [hc, Cursor.skip_one]

/-- Once a text is open, it is no matter whether plain characters are skipped first. -/
theorem siblingsFrom_skipWhile (opened : List String) (inCase : Bool) (start : Nat) (s : Cursor) :
    siblingsFrom opened inCase (some start) (s.skipWhile isPlain) =
      siblingsFrom opened inCase (some start) s := by
  obtain ⟨pos, rest⟩ := s
  cases rest with
  | nil => rfl
  | cons c cs =>
    by_cases hc : isPlain c = true
    · rw [Cursor.skipWhile_cons pos cs hc, siblingsFrom_text (opening_of_isPlain hc cs)]
      rfl
    · rw [Cursor.skipWhile_of_stopsBefore (stopsBefore_cons (Bool.eq_false_iff.2 hc))]

/-- Where a text starts that is open once `cs` has been read. -/
def openText (pending : Option Nat) (pos : Nat) (cs : List Char) : Option Nat :=
  if cs.isEmpty then pending else some (pending.getD pos)

@[simp] theorem openText_nil (pending : Option Nat) (pos : Nat) :
    openText pending pos [] = pending := rfl

@[simp] theorem openText_cons (pending : Option Nat) (pos : Nat) (c : Char) (cs : List Char) :
    openText pending pos (c :: cs) = some (pending.getD pos) := rfl

@[simp] theorem openText_some (start pos : Nat) (cs : List Char) :
    openText (some start) pos cs = some start := by
  cases cs <;> rfl

theorem formFrom?_eq_none {opened : List String} {start : Nat} {s : Cursor} :
    formFrom? opened start s = .ok none ↔ readExpansion? opened start s = .ok none := by
  rw [formFrom?]
  cases readExpansion? opened start s with
  | error e => simp [Except.map]
  | ok form => cases form <;> simp [Except.map]

/-- A text is gone over and stays open. -/
theorem siblingsFrom_textRun {opened : List String} {inCase : Bool} {pos : Nat}
    {cs after : List Char} (h : TextRun opened inCase pos cs after) : ∀ pending : Option Nat,
    siblingsFrom opened inCase pending ⟨pos, cs ++ after⟩ =
      siblingsFrom opened inCase (openText pending pos cs) ⟨pos + byteLength cs, after⟩ := by
  induction h with
  | done pos after => intro pending; rfl
  | char pos c cs after hc h ih =>
    intro pending
    rw [List.cons_append, siblingsFrom_text hc, siblingsFrom_skipWhile, ih, openText_some,
      openText_cons, byteLength, Nat.add_assoc]
  | interpolation pos body cs after hbody h ih =>
    intro pending
    have hopen : Opening.of inCase '{' ('{' :: (body ++ '}' :: '}' :: (cs ++ after))) =
        .interpolation := rfl
    have hskip := Cursor.skip_append pos ['{', '{'] (body ++ (['}', '}'] ++ (cs ++ after)))
    have hpast := hbody.past? (pos + byteLength ['{', '{']) (cs ++ after)
    have hpos : pos + byteLength ['{', '{'] + byteLength (body ++ ['}', '}']) =
        pos + (byteLength body + 4) := by
      simp [byteLength, byteLength_append, Char.utf8Size]; omega
    have hlen : byteLength ('{' :: '{' :: (body ++ '}' :: '}' :: cs)) =
        byteLength body + 4 + byteLength cs := by
      simp [byteLength, byteLength_append, Char.utf8Size]; omega
    rw [hpos] at hpast
    rw [siblingsFrom_eq]
    simp only [List.cons_append, List.append_assoc, List.nil_append, List.length_cons,
      List.length_nil] at hskip hpast ⊢
    simp only [hopen, hskip, hpast, ih, openText_some, openText_cons, hlen, Nat.add_assoc]
  | unclosed pos body hbody =>
    intro pending
    have hopen : Opening.of inCase '{' ('{' :: body) = .interpolation := rfl
    have hskip := Cursor.skip_append pos ['{', '{'] body
    have hpast : (Cursor.mk (pos + byteLength ['{', '{']) body).past? ['}', '}'] = none := by
      simp only [Cursor.past?, hbody, Option.map_none]
    have hall := Cursor.skip_append pos ('{' :: '{' :: body) []
    rw [List.append_nil, siblingsFrom_eq]
    simp only [List.cons_append, List.nil_append, List.length_cons, List.length_nil,
      List.append_nil] at hskip hall
    simp only [hopen, hskip, hpast, List.length_cons, hall, openText_cons, siblingsFrom_eq _ _ _ ⟨_, []⟩]
  | brace pos cs after hbrace hform h ih =>
    intro pending
    have hopen : Opening.of inCase '{' (cs ++ after) = .brace := by
      simp only [Opening.of, if_neg hbrace, if_true]
      rfl
    have hsize : ('{' : Char).utf8Size = 1 := rfl
    rw [siblingsFrom_eq]
    simp only [List.cons_append, hopen, Cursor.skip_one, hsize, formFrom?_eq_none.2 hform, ih,
      openText_some, openText_cons, byteLength, Nat.add_assoc]

/-! ### The bodies of raw elements -/

theorem isPrefixOf_append : ∀ {needle a : List Char} (b : List Char), needle.length ≤ a.length →
    needle.isPrefixOf (a ++ b) = needle.isPrefixOf a
  | [], a, b, _ => by cases a <;> rfl
  | _ :: _, [], _, h => absurd h (by simp)
  | n :: needle, c :: a, b, h => by
    rw [List.cons_append, List.isPrefixOf_cons_cons, List.isPrefixOf_cons_cons,
      isPrefixOf_append b (Nat.le_of_succ_le_succ h)]

theorem seek?_eq_some {needle : List Char} : ∀ {cs front back : List Char},
    seek? needle cs = some (front, back) →
      cs = front ++ back ∧ needle.isPrefixOf (back.map Text.lower) = true
  | [], front, back, h => by
    rw [seek?] at h
    split at h
    · next hn =>
      cases h
      rw [List.isEmpty_iff.1 hn]
      exact ⟨rfl, rfl⟩
    · cases h
  | c :: cs, front, back, h => by
    rw [seek?] at h
    split at h
    · next hstart =>
      cases h
      exact ⟨rfl, hstart⟩
    · simp only [Option.map_eq_some_iff, Prod.exists, Prod.mk.injEq] at h
      obtain ⟨a, b, hab, rfl, rfl⟩ := h
      obtain ⟨rfl, hb⟩ := seek?_eq_some hab
      exact ⟨rfl, hb⟩

/-- Where a needle is found first is decided by the text up to the end of what it is found in. -/
theorem seek?_append {needle back : List Char} (hne : needle ≠ [])
    (hle : needle.length ≤ back.length) (after : List Char) : ∀ {body : List Char},
    seek? needle (body ++ (back ++ after)) = some (body, back ++ after) ↔
      seek? needle (body ++ back) = some (body, back)
  | [] => by
    obtain ⟨c, back, rfl⟩ : ∃ c more, back = c :: more := by
      refine List.exists_cons_of_ne_nil ?_
      rintro rfl
      exact hne (List.length_eq_zero_iff.1 (Nat.le_zero.1 hle))
    have hstart := isPrefixOf_append (after.map Text.lower)
      (show needle.length ≤ ((c :: back).map Text.lower).length by rwa [List.length_map])
    rw [← List.map_append] at hstart
    simp only [List.nil_append, List.cons_append, seek?] at hstart ⊢
    rw [hstart]
    split <;> simp
  | c :: body => by
    have hle' : needle.length ≤ ((c :: (body ++ back)).map Text.lower).length := by
      simp; omega
    have hstart := isPrefixOf_append (after.map Text.lower) hle'
    rw [← List.map_append] at hstart
    have ih := @seek?_append needle back hne hle after body
    simp only [List.cons_append, seek?, List.append_assoc] at hstart ih ⊢
    rw [hstart]
    split
    · simp
    · simp only [Option.map_eq_some_iff, Prod.exists, Prod.mk.injEq, List.cons.injEq, true_and]
      constructor
      · rintro ⟨a, b, h, rfl, rfl⟩; exact ⟨_, _, ih.1 h, rfl, rfl⟩
      · rintro ⟨a, b, h, rfl, rfl⟩; exact ⟨_, _, ih.2 h, rfl, rfl⟩

theorem seek?_endNeedle {name body back : List Char} (after : List Char)
    (h : seek? (endNeedle name) (body ++ back) = some (body, back)) :
    seek? (endNeedle name) (body ++ (back ++ after)) = some (body, back ++ after) := by
  have hle := (List.isPrefixOf_iff_prefix.1 (seek?_eq_some h).2).length_le
  rw [List.length_map] at hle
  exact (seek?_append (by simp [endNeedle]) hle after).2 h

/-! ### Elements -/

theorem opening_of_isLetter {c : Char} (hc : isLetter c = true) (inCase : Bool) (cs : List Char) :
    Opening.of inCase '<' (c :: cs) = .element := by
  have h1 : c ≠ '!' := by rintro rfl; cases hc
  have h2 : c ≠ '?' := by rintro rfl; cases hc
  have h3 : c ≠ '/' := by rintro rfl; cases hc
  simp [Opening.of, h1, h2, h3, hc]

theorem siblingsFrom_element {t : WrittenTag} (ht : t.Proper) {opened : List String} {inCase : Bool}
    {pos : Nat} {after : List Char} {node : Node} {next : Cursor}
    (h : bodyFrom opened inCase pos t.name (t.node pos) ⟨pos + byteLength t.chars, after⟩ =
      .ok (node, next)) (pending : Option Nat) :
    siblingsFrom opened inCase pending ⟨pos, t.chars ++ after⟩ =
      (siblingsFrom opened inCase none next).map (prepend (flush pending pos ++ [node])) := by
  obtain ⟨c, name, hname, hc⟩ := ht.letter
  obtain ⟨more, hmore⟩ : ∃ more, t.chars = '<' :: c :: more := by
    refine ⟨name ++ (partsChars t.parts ++ tagEnd t.selfClosing), ?_⟩
    rw [WrittenTag.chars, hname]
    rfl
  have hel := elementFrom_of_proper ht opened inCase pos after
  have hsize : ('<' : Char).utf8Size = 1 := rfl
  rw [h] at hel
  rw [siblingsFrom_eq]
  rw [hmore] at hel ⊢
  simp only [List.cons_append, opening_of_isLetter hc, Cursor.skip_one, hsize, List.tail_cons]
    at hel ⊢
  rw [hel]

theorem stopOf_end (inCase : Bool) (e : WrittenEnd) (after : List Char) :
    stopOf inCase (e.chars ++ after) = some .close := rfl

theorem siblingsFrom_stop {inCase : Bool} {after : List Char} {stop : Stop}
    (h : stopOf inCase after = some stop) (opened : List String) (pending : Option Nat) (pos : Nat) :
    siblingsFrom opened inCase pending ⟨pos, after⟩ = .ok ((flush pending pos, stop), ⟨pos, after⟩) := by
  rw [siblingsFrom_eq]
  cases after with
  | nil => cases h; rfl
  | cons c cs =>
    rw [stopOf] at h
    cases hO : Opening.of inCase c cs <;> rw [hO] at h <;> cases h
    · simp only [hO]
    · simp only [hO]

theorem bodyFrom_single {t : WrittenTag} (h : t.isSingle = true) (opened : List String)
    (inCase : Bool) (pos : Nat) (s : Cursor) :
    bodyFrom opened inCase pos t.name (t.node pos) s = .ok (.element (t.node pos) [], s) := by
  have hs : ((t.node pos).selfClosing || (t.node pos).isVoid) = true := h
  rw [bodyFrom, if_pos hs]

theorem bodyFrom_raw {t : WrittenTag} {body : List Char} {stop : WrittenEnd}
    (hsingle : t.isSingle = false) (hraw : t.isRaw = true) (hstop : stop.Proper)
    (hseek : seek? (endNeedle t.name) (body ++ stop.chars) = some (body, stop.chars))
    (opened : List String) (inCase : Bool) (pos : Nat) (after : List Char) :
    bodyFrom opened inCase pos t.name (t.node pos)
        ⟨pos + byteLength t.chars, body ++ (stop.chars ++ after)⟩ =
      .ok ((Written.raw t body stop).node pos,
        ⟨pos + byteLength (Written.raw t body stop).chars, after⟩) := by
  have hs : ((t.node pos).selfClosing || (t.node pos).isVoid) = false := hsingle
  have hr : isRawText (t.node pos).name = true := hraw
  have hseek' := seek?_endNeedle after hseek
  rw [endNeedle] at hseek'
  rw [bodyFrom, hs, if_neg Bool.false_ne_true, if_pos hr]
  simp only [hseek', readEndTag_of_proper hstop, Except.map, Written.node, rawChildren,
    Written.chars, byteLength_append, Nat.add_assoc]

theorem bodyFrom_container {t : WrittenTag} {children : List Node} {inside : Nat}
    {stop : Option WrittenEnd} {opened : List String} {inCase : Bool}
    {after : List Char} {s : Cursor} {why : Stop}
    (hsingle : t.isSingle = false) (hraw : t.isRaw = false)
    (hstop : StopProper opened inCase t.name after stop)
    (hwhy : stopOf inCase (stopChars stop ++ after) = some why)
    (h : siblingsFrom (String.ofList t.name :: opened) inCase none s =
      .ok ((children, why), ⟨inside, stopChars stop ++ after⟩)) (pos : Nat) :
    bodyFrom opened inCase pos t.name (t.node pos) s =
      .ok (.element ((t.node pos).stoppingAt inside stop) children,
        ⟨inside + byteLength (stopChars stop), after⟩) := by
  have hs : ((t.node pos).selfClosing || (t.node pos).isVoid) = false := hsingle
  have hr : isRawText (t.node pos).name = false := hraw
  rw [bodyFrom, hs, hr, if_neg Bool.false_ne_true, if_neg Bool.false_ne_true]
  have h' : siblingsFrom ((t.node pos).name :: opened) inCase none s =
      .ok ((children, why), ⟨inside, stopChars stop ++ after⟩) := h
  simp only [h']
  cases stop with
  | some e =>
    obtain ⟨he, hsame⟩ := hstop
    have hsame' : sameName (e.node inside).name (t.node pos).name = true := hsame
    have hread := readEndTag_of_proper he inside after
    cases hwhy.symm.trans (stopOf_end inCase e after)
    simp only [stopChars, Option.elim_some, hread, if_pos hsame', Tag.stoppingAt]
  | none =>
    simp only [stopChars, Option.elim_none, List.nil_append] at hwhy ⊢
    cases why with
    | eof => rfl
    | caseEnd => rfl
    | close =>
      obtain ⟨e, more, rfl, he, hother, houter⟩ := hstop hwhy
      have hother' : ¬ sameName (e.node inside).name (t.node pos).name = true :=
        Bool.eq_false_iff.1 hother
      have houter' : opened.any (sameName (e.node inside).name) = true := houter
      simp only [readEndTag_of_proper he, if_neg hother', if_pos houter', Tag.stoppingAt]
      rfl

/-! ### Forms -/

/-- An expansion form is read once its cases are. -/
theorem siblingsFrom_form {header : WrittenHeader} (hheader : header.Proper) {opened : List String}
    {pos : Nat} {rest : List Char} {cases : List Case} {next : Cursor}
    (h : casesFrom? opened ⟨pos + 1 + byteLength header.chars, rest⟩ = .ok (some (cases, next)))
    (inCase : Bool) (pending : Option Nat) :
    siblingsFrom opened inCase pending ⟨pos, '{' :: (header.chars ++ rest)⟩ =
      (siblingsFrom opened inCase none next).map
        (prepend (flush pending pos ++ [.expansion header.node ⟨pos, next.pos⟩ cases])) := by
  have hsize : ('{' : Char).utf8Size = 1 := rfl
  obtain ⟨c, more, hmore⟩ : ∃ c more, header.chars = c :: more :=
    List.exists_cons_of_ne_nil (by simp [WrittenHeader.chars])
  have hbrace : Opening.of inCase '{' (header.chars ++ rest) = .brace := by
    have hc : c ≠ '{' := by
      rintro rfl
      cases hswitch : header.switchValue with
      | nil =>
        rw [WrittenHeader.chars, hswitch] at hmore
        cases hmore
      | cons d ds =>
        have hd := hheader.switchChars d (by rw [hswitch]; exact List.mem_cons_self)
        rw [WrittenHeader.chars, hswitch] at hmore
        cases hmore
        cases hd
    simp [Opening.of, hmore, hc]
  rw [siblingsFrom_eq]
  simp only [hbrace, Cursor.skip_one, hsize, formFrom?_eq, headerFrom?_of_proper hheader, h]

theorem casesFrom?_done {blanks : List Char} (hblanks : ∀ c ∈ blanks, isAsciiBlank c = true)
    (opened : List String) (pos : Nat) (after : List Char) :
    casesFrom? opened ⟨pos, blanks ++ '}' :: after⟩ =
      .ok (some ([], ⟨pos + byteLength blanks + 1, after⟩)) := by
  have hskip := Cursor.skipWhile_append pos hblanks (@stopsBefore_cons isAsciiBlank '}' after rfl)
  have hsize : ('}' : Char).utf8Size = 1 := rfl
  rw [casesFrom?_eq]
  simp only [hskip, if_true, Cursor.skip_one, hsize]

/-- A case is opened by its label; what comes of it is up to its children. -/
theorem casesFrom?_case {front label gap : List Char}
    (hfront : ∀ c ∈ front, isAsciiBlank c = true) (hne : label ≠ [])
    (hlabel : ∀ c ∈ label, isLabelChar c = true) (hgap : ∀ c ∈ gap, isAsciiBlank c = true)
    (opened : List String) (pos : Nat) (rest : List Char) :
    casesFrom? opened ⟨pos, front ++ (label ++ (gap ++ '{' :: rest))⟩ =
      match siblingsFrom opened true none ⟨pos + byteLength front + byteLength label +
          byteLength gap + 1, rest⟩ with
      | .error e => .error e
      | .ok ((children, stop), next) =>
        match stop with
        | .eof => .ok none
        | .close => .error (strayClose next)
        | .caseEnd => (casesFrom? opened (next.skip 1)).map (Option.map fun r =>
            (.mk (String.ofList label) ⟨pos + byteLength front, (next.skip 1).pos⟩ children :: r.1,
              r.2)) := by
  obtain ⟨c, label', rfl⟩ := List.exists_cons_of_ne_nil hne
  have hc := hlabel c List.mem_cons_self
  have hblank : isAsciiBlank c = false := by
    by_contra hb
    rw [Bool.not_eq_false] at hb
    simp [isLabelChar, hb] at hc
  have hclose : ¬ c = '}' := by rintro rfl; cases hc
  have h1 := Cursor.skipWhile_append pos hfront
    (@stopsBefore_cons isAsciiBlank c (label' ++ (gap ++ '{' :: rest)) hblank)
  have h2 := @Cursor.take_append isLabelChar (c :: label') (gap ++ '{' :: rest)
    (pos + byteLength front) hlabel (stopsBefore_append
      (fun d hd => by simp [isLabelChar, hgap d hd]) (stopsBefore_cons rfl))
  have h3 := Cursor.skipWhile_append (pos + byteLength front + byteLength (c :: label')) hgap
    (@stopsBefore_cons isAsciiBlank '{' rest rfl)
  have hsize : ('{' : Char).utf8Size = 1 := rfl
  rw [casesFrom?_eq]
  simp only [List.cons_append] at h1 h2 h3 ⊢
  simp only [h1, if_neg hclose, h2, h3, List.isEmpty_cons, Bool.false_or, bne_self_eq_false,
    if_neg Bool.false_ne_true]
  rfl

/-! ### Trees -/

theorem prepend_ok (front nodes : List Node) (stop : Stop) (next : Cursor) :
    (Except.ok ((nodes, stop), next) : Except MarkupError _).map (prepend front) =
      .ok ((front ++ nodes, stop), next) := rfl

mutual
/-- A piece that is no text is found, and reading goes on behind it. -/
theorem siblingsFrom_piece : ∀ (w : Written) {opened : List String} {inCase : Bool} {pos : Nat}
    {after : List Char}, w.Proper opened inCase pos after → w.isText = false →
    ∀ pending : Option Nat, siblingsFrom opened inCase pending ⟨pos, w.chars ++ after⟩ =
      (siblingsFrom opened inCase none ⟨pos + byteLength w.chars, after⟩).map
        (prepend (flush pending pos ++ [w.node pos]))
  | .text cs, _, _, _, _, _, ht => by cases ht
  | .comment cs, opened, inCase, pos, after, h, _ => fun pending => by
    rw [Written.Proper] at h
    exact siblingsFrom_comment h opened inCase pending pos after
  | .single tag, opened, inCase, pos, after, h, _ => fun pending => by
    rw [Written.Proper] at h
    exact siblingsFrom_element h.1 (bodyFrom_single h.2 opened inCase pos _) pending
  | .raw tag body stop, opened, inCase, pos, after, h, _ => fun pending => by
    rw [Written.Proper] at h
    obtain ⟨htag, hsingle, hraw, hstop, hseek⟩ := h
    have hbody := bodyFrom_raw hsingle hraw hstop hseek opened inCase pos after
    rw [Written.chars, List.append_assoc, List.append_assoc]
    exact siblingsFrom_element htag hbody pending
  | .container tag children stop, opened, inCase, pos, after, h, _ => fun pending => by
    rw [Written.Proper] at h
    obtain ⟨htag, hsingle, hraw, hchildren, hstop⟩ := h
    obtain ⟨why, hwhy⟩ := stopOf_of_proper children hchildren
    have hread := siblingsFrom_of_proper children hchildren hwhy none fun _ => rfl
    have hbody := bodyFrom_container hsingle hraw hstop hwhy hread pos
    rw [Written.chars, List.append_assoc, List.append_assoc]
    rw [siblingsFrom_element htag hbody, Written.node, byteLength_append, byteLength_append]
    simp only [Nat.add_assoc]
    rfl
  | .form header cases blanks, opened, inCase, pos, after, h, _ => fun pending => by
    rw [Written.Proper] at h
    obtain ⟨hheader, hcases, hblanks⟩ := h
    have hread := casesFrom?_of_proper cases hblanks hcases
    have hchars : (Written.form header cases blanks).chars ++ after =
        '{' :: (header.chars ++ (casesChars cases ++ (blanks ++ '}' :: after))) := by
      simp [Written.chars]
    have hpos : pos + 1 + byteLength header.chars + byteLength (casesChars cases) +
        byteLength blanks + 1 = pos + byteLength (Written.form header cases blanks).chars := by
      simp [Written.chars, byteLength, byteLength_append, Char.utf8Size]
      omega
    rw [hpos] at hread
    rw [hchars, siblingsFrom_form hheader hread]
    rfl

/-- Proper siblings are followed by what ends them. -/
theorem stopOf_of_proper : ∀ (ws : List Written) {opened : List String} {inCase : Bool} {pos : Nat}
    {after : List Char}, ProperAll opened inCase pos after ws → ∃ stop, stopOf inCase after = some stop
  | [], _, _, _, _, h => by
    rw [ProperAll] at h
    exact Option.isSome_iff_exists.1 h
  | w :: ws, _, _, _, _, h => by
    rw [ProperAll] at h
    exact stopOf_of_proper ws h.2.2

/-- Proper siblings are found again, one after the other. -/
theorem siblingsFrom_of_proper : ∀ (ws : List Written) {opened : List String} {inCase : Bool}
    {pos : Nat} {after : List Char} {stop : Stop}, ProperAll opened inCase pos after ws →
    stopOf inCase after = some stop → ∀ pending : Option Nat,
    (startsWithText ws = true → pending = none) →
      siblingsFrom opened inCase pending ⟨pos, charsAll ws ++ after⟩ =
        .ok ((flush pending pos ++ nodesAll pos ws, stop),
          ⟨pos + byteLength (charsAll ws), after⟩)
  | [], opened, inCase, pos, after, stop, _, hstop => fun pending _ => by
    rw [nodesAll, List.append_nil]
    exact siblingsFrom_stop hstop opened pending pos
  | w :: ws, opened, inCase, pos, after, stop, h, hstop => fun pending hpending => by
    rw [ProperAll] at h
    obtain ⟨hw, halone, hws⟩ := h
    have hpos : pos + byteLength (charsAll (w :: ws)) =
        pos + byteLength w.chars + byteLength (charsAll ws) := by
      rw [charsAll, byteLength_append, Nat.add_assoc]
    rw [hpos, charsAll, List.append_assoc, nodesAll]
    by_cases htext : w.isText = true
    · have hread := siblingsFrom_of_proper ws hws hstop (some pos) fun hs => by
        rw [halone htext] at hs; cases hs
      obtain ⟨cs, rfl⟩ : ∃ cs, w = .text cs := by
        cases w <;> first | exact ⟨_, rfl⟩ | cases htext
      rw [Written.Proper] at hw
      obtain ⟨c, more, rfl⟩ := List.exists_cons_of_ne_nil hw.1
      cases hpending htext
      rw [Written.chars] at hread ⊢
      rw [siblingsFrom_textRun hw.2, openText_cons, Option.getD_none, hread]
      rfl
    · rw [Bool.not_eq_true] at htext
      have hread := siblingsFrom_of_proper ws hws hstop none fun _ => rfl
      rw [siblingsFrom_piece w hw htext, hread, prepend_ok, flush, List.nil_append,
        List.append_assoc, List.singleton_append]

/-- Proper cases are found again, up to the brace that ends their form. -/
theorem casesFrom?_of_proper : ∀ (cs : List WrittenCase) {opened : List String} {pos : Nat}
    {blanks after : List Char}, (∀ c ∈ blanks, isAsciiBlank c = true) →
    CasesProper opened pos (blanks ++ '}' :: after) cs →
      casesFrom? opened ⟨pos, casesChars cs ++ (blanks ++ '}' :: after)⟩ =
        .ok (some (casesNodes pos cs,
          ⟨pos + byteLength (casesChars cs) + byteLength blanks + 1, after⟩))
  | [], opened, pos, blanks, after, hblanks, _ => by
    rw [casesChars, List.nil_append, casesFrom?_done hblanks]
    rfl
  | .mk front label gap children :: cs, opened, pos, blanks, after, hblanks, h => by
    rw [CasesProper, WrittenCase.Proper] at h
    obtain ⟨⟨hfront, hne, hlabel, hgap, hchildren⟩, hcs⟩ := h
    have ih := casesFrom?_of_proper cs hblanks hcs
    have hinside := siblingsFrom_of_proper children hchildren rfl none fun _ => rfl
    have hchars : casesChars (.mk front label gap children :: cs) ++ (blanks ++ '}' :: after) =
        front ++ (label ++ (gap ++ '{' ::
          (charsAll children ++ '}' :: (casesChars cs ++ (blanks ++ '}' :: after))))) := by
      simp [casesChars, WrittenCase.chars]
    have hsize : ('}' : Char).utf8Size = 1 := rfl
    have hpos : pos + byteLength front + byteLength label + byteLength gap + 1 +
        byteLength (charsAll children) + 1 =
          pos + byteLength (WrittenCase.mk front label gap children).chars := by
      simp [WrittenCase.chars, byteLength, byteLength_append, Char.utf8Size]
      omega
    rw [hchars, casesFrom?_case hfront hne hlabel hgap]
    simp only [hinside, Cursor.skip_one, hsize, hpos, ih, flush, List.nil_append]
    simp only [Except.map, Option.map_some, casesNodes, WrittenCase.node, casesChars,
      byteLength_append, Nat.add_assoc]
end

end RouterShift.Markup
