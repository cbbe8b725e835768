import RouterShift.Proofs.Markup.Equations
import RouterShift.Proofs.Markup.Written

/-! Tags, read and written. For each piece of a tag there are two statements: the reader finds the
    piece again where it is written, and whatever the reader takes was written as such a piece. The
    second says nothing about what was read; that follows from the first, since a reader has one
    result. -/

namespace RouterShift.Markup
open Text (Cursor byteLength byteLength_append StopsBefore stopsBefore_cons stopsBefore_append
  isAsciiBlank)

theorem head?_append_of_ne_nil {α : Type} {a : List α} (h : a ≠ []) (b : List α) :
    (a ++ b).head? = a.head? := by
  cases a with
  | nil => exact absurd rfl h
  | cons x a => rfl

theorem isEndNameChar_of_isAsciiBlank {c : Char} (h : isAsciiBlank c = true) :
    isEndNameChar c = false := by
  simp [isEndNameChar, h]

theorem isTagNameChar_of_isAsciiBlank {c : Char} (h : isAsciiBlank c = true) :
    isTagNameChar c = false := by
  simp [isTagNameChar, h]

theorem isAttributeNameChar_of_isAsciiBlank {c : Char} (h : isAsciiBlank c = true) :
    isAttributeNameChar c = false := by
  simp [isAttributeNameChar, h]

theorem not_isAsciiBlank_of_isAttributeNameChar {c : Char} (h : isAttributeNameChar c = true) :
    isAsciiBlank c = false := by
  by_contra hb
  rw [Bool.not_eq_false] at hb
  rw [isAttributeNameChar_of_isAsciiBlank hb] at h
  cases h

/-! ### End tags -/

theorem readEndTag_of_proper {e : WrittenEnd} (he : e.Proper) (pos : Nat) (after : List Char) :
    readEndTag ⟨pos, e.chars ++ after⟩ = .ok (e.node pos, ⟨pos + byteLength e.chars, after⟩) := by
  have hskip : (Cursor.mk pos (e.chars ++ after)).skip 2 =
      ⟨pos + 2, e.name ++ (e.blanks ++ '>' :: after)⟩ := by
    have := Cursor.skip_append pos ['<', '/'] (e.name ++ (e.blanks ++ '>' :: after))
    simpa [WrittenEnd.chars, List.append_assoc, byteLength, Char.utf8Size] using this
  have hname : (Cursor.mk (pos + 2) (e.name ++ (e.blanks ++ '>' :: after))).take isEndNameChar =
      (e.name, ⟨pos + 2 + byteLength e.name, e.blanks ++ '>' :: after⟩) :=
    Cursor.take_append _ he.name (stopsBefore_append
      (fun c hc => isEndNameChar_of_isAsciiBlank (he.blanks c hc)) (stopsBefore_cons rfl))
  have hblanks : (Cursor.mk (pos + 2 + byteLength e.name) (e.blanks ++ '>' :: after)).skipWhile
      isAsciiBlank = ⟨pos + 2 + byteLength e.name + byteLength e.blanks, '>' :: after⟩ :=
    Cursor.skipWhile_append _ he.blanks (stopsBefore_cons rfl)
  have hpos : pos + 2 + byteLength e.name + byteLength e.blanks + 1 = pos + byteLength e.chars := by
    simp [WrittenEnd.chars, byteLength, byteLength_append, Char.utf8Size]
    omega
  have hlast : ('>' : Char).utf8Size = 1 := rfl
  simp only [readEndTag, hskip, hname, hblanks, Cursor.peek, List.head?_cons, if_true,
    Cursor.skip_one, hlast, hpos, WrittenEnd.node]

theorem exists_of_readEndTag {s next : Cursor} {tag : EndTag} {cs : List Char}
    (hs : s.rest = '<' :: '/' :: cs) (h : readEndTag s = .ok (tag, next)) :
    ∃ e : WrittenEnd, s.rest = e.chars ++ next.rest ∧ e.Proper := by
  simp only [readEndTag] at h
  split at h
  · next hpeek =>
    cases h
    obtain ⟨name, back, hname, hchars, -, htake⟩ := Cursor.exists_take isEndNameChar (s.skip 2)
    rw [htake] at hpeek ⊢
    obtain ⟨blanks, back', hblanks, hb, -, hskip⟩ := Cursor.exists_skipWhile isAsciiBlank
      ⟨(s.skip 2).pos + byteLength name, back⟩
    rw [hskip] at hpeek ⊢
    obtain ⟨more, rfl⟩ : ∃ more, back' = '>' :: more := List.head?_eq_some_iff.1 hpeek
    refine ⟨⟨name, blanks⟩, ?_, hchars, hb⟩
    have hdrop : (s.skip 2).rest = cs := by simp [Cursor.skip, hs]
    rw [hdrop] at hname
    simp only at hblanks
    rw [hs, hname, hblanks, Cursor.skip_one]
    simp [WrittenEnd.chars, List.append_assoc]
  · cases h

/-! ### Values -/

/-- A value without quotes does not go past a blank or the end of its tag. -/
theorem unquoted_append {c : Char} (hc : isAsciiBlank c = true ∨ c = '>') : ∀ a b : List Char,
    unquoted (a ++ c :: b) = unquoted (a ++ [c])
  | [], b => by
    have hend : (isAsciiBlank c || c = '>') = true := by simpa using hc
    simp [unquoted, hend]
  | d :: a, b => by
    have hhead : (a ++ c :: b).head? = (a ++ [c]).head? := by cases a <;> rfl
    rw [List.cons_append, List.cons_append, unquoted, unquoted, unquoted_append hc a b, hhead]

/-- Nothing of what follows a value belongs to it. -/
theorem unquoted_eq_nil : ∀ {a b : List Char}, unquoted (a ++ b) = a → unquoted b = []
  | [], _, h => h
  | c :: a, b, h => by
    rw [List.cons_append, unquoted] at h
    split at h
    · cases h
    · exact unquoted_eq_nil (List.cons.inj h).2

theorem exists_append_unquoted : ∀ cs : List Char, ∃ b, cs = unquoted cs ++ b
  | [] => ⟨[], rfl⟩
  | c :: cs => by
    rw [unquoted]
    split
    · exact ⟨c :: cs, rfl⟩
    · obtain ⟨b, hb⟩ := exists_append_unquoted cs
      exact ⟨b, congrArg (c :: ·) hb⟩

theorem WrittenValue.proper_append {v : WrittenValue} {a b : List Char} :
    v.Proper (a ++ '>' :: b) ↔ v.Proper (a ++ ['>']) := by
  cases v with
  | quoted quote text => exact Iff.rfl
  | bare text =>
    have hhead : (text ++ (a ++ '>' :: b)).head? = (text ++ (a ++ ['>'])).head? := by
      cases text <;> cases a <;> rfl
    simp only [Proper, hhead]
    rw [← List.append_assoc, ← List.append_assoc, unquoted_append (.inr rfl)]

theorem valueFrom_of_proper {v : WrittenValue} {after : List Char} (hv : v.Proper after)
    (tagStart pos : Nat) :
    valueFrom tagStart ⟨pos, v.chars ++ after⟩ =
      .ok ((String.ofList v.text, ⟨pos + v.margin, pos + v.margin + byteLength v.text⟩),
        ⟨pos + byteLength v.chars, after⟩) := by
  rw [valueFrom_eq]
  cases v with
  | quoted quote text =>
    obtain ⟨hquote, htext⟩ := hv
    have hq : (quote = '"' || quote = '\'') = true := by simpa using hquote
    have hcut : (Cursor.mk (pos + quote.utf8Size) (text ++ quote :: after)).past? [quote] =
        some ⟨pos + quote.utf8Size + byteLength (text ++ [quote]), after⟩ :=
      Cursor.past?_eq_some.2 ⟨text, Text.cutFirst?_singleton after htext, rfl⟩
    have hchars : WrittenValue.chars (.quoted quote text) ++ after =
        quote :: (text ++ quote :: after) := by
      simp [WrittenValue.chars]
    simp only [hchars, hq, if_true, Cursor.skip_one, hcut, Text.takeWhile_ne_append after htext]
    simp only [WrittenValue.text, WrittenValue.margin, WrittenValue.chars, byteLength, Nat.add_assoc]
  | bare text =>
    obtain ⟨htext, c, hc, -, hne, hne'⟩ := hv
    obtain ⟨more, hmore⟩ := List.head?_eq_some_iff.1 hc
    have hq : (c = '"' || c = '\'') = false := by simp [hne, hne']
    have hskip : (Cursor.mk pos (c :: more)).skip text.length =
        ⟨pos + byteLength text, after⟩ := hmore ▸ Cursor.skip_append pos text after
    rw [hmore] at htext
    simp only [WrittenValue.chars, hmore, hq, htext, hskip]
    rfl

theorem exists_of_valueFrom {tagStart : Nat} {s next : Cursor} {x : String × Span}
    (hblank : StopsBefore isAsciiBlank s.rest) (h : valueFrom tagStart s = .ok (x, next)) :
    ∃ v : WrittenValue, s.rest = v.chars ++ next.rest ∧ v.Proper next.rest := by
  rw [valueFrom_eq] at h
  split at h
  · cases h
  · next c cs hs =>
    split at h
    · next hq =>
      split at h
      · cases h
      · next hpast =>
        cases h
        obtain ⟨text, hcut, -⟩ := Cursor.past?_eq_some.1 hpast
        obtain ⟨pos, rest⟩ := s
        obtain rfl := hs
        rw [Cursor.skip_one] at hcut
        refine ⟨.quoted c text, ?_, by simpa using hq, Text.not_mem_of_cutFirst?_singleton hcut⟩
        simpa [WrittenValue.chars] using Text.append_of_cutFirst? hcut
    · next hq =>
      cases h
      obtain ⟨b, hb⟩ := exists_append_unquoted s.rest
      obtain ⟨pos, rest⟩ := s
      have hskip : (Cursor.mk pos rest).skip (unquoted rest).length =
          ⟨pos + byteLength (unquoted rest), b⟩ := by
        have := Cursor.skip_append pos (unquoted rest) b
        rwa [← hb] at this
      refine ⟨.bare (unquoted rest), ?_, ?_, c, ?_, hblank c (by rw [hs]; rfl), ?_⟩
      · rw [hskip]; exact hb
      · rw [hskip, ← hb]
      · rw [hskip, ← hb]
        exact congrArg List.head? hs
      · simpa using hq

/-! ### Attributes -/

theorem WrittenAttribute.proper_append {w : WrittenAttribute} {a b : List Char} :
    w.Proper (a ++ '>' :: b) ↔ w.Proper (a ++ ['>']) := by
  have hhead : (a ++ '>' :: b).head? = (a ++ ['>']).head? := by cases a <;> rfl
  have hstops : StopsBefore isAttributeNameChar (a ++ '>' :: b) ↔
      StopsBefore isAttributeNameChar (a ++ ['>']) := by rw [StopsBefore, StopsBefore, hhead]
  have hsign : ∀ z, ((a ++ '>' :: z).dropWhile isAsciiBlank).head? =
      ((a.dropWhile isAsciiBlank) ++ ['>']).head? := by
    intro z
    rw [List.dropWhile_append]
    split
    · next h => rw [List.isEmpty_iff.1 h]; rfl
    · cases a.dropWhile isAsciiBlank <;> rfl
  constructor
  · rintro ⟨h1, h2, h3, h4⟩
    refine ⟨h1, h2, fun v hv => ?_, fun h => ?_⟩
    · obtain ⟨g1, g2, g3⟩ := h3 v hv
      exact ⟨g1, g2, WrittenValue.proper_append.1 g3⟩
    · rw [hsign, ← hsign b]
      exact ⟨hstops.1 (h4 h).1, (h4 h).2⟩
  · rintro ⟨h1, h2, h3, h4⟩
    refine ⟨h1, h2, fun v hv => ?_, fun h => ?_⟩
    · obtain ⟨g1, g2, g3⟩ := h3 v hv
      exact ⟨g1, g2, WrittenValue.proper_append.2 g3⟩
    · rw [hsign, ← hsign []]
      exact ⟨hstops.2 (h4 h).1, (h4 h).2⟩

theorem WrittenValue.Proper.stopsBefore {v : WrittenValue} {after : List Char}
    (hv : v.Proper after) : StopsBefore isAsciiBlank (v.chars ++ after) := by
  cases v with
  | quoted quote text =>
    refine stopsBefore_cons ?_
    rcases hv.1 with rfl | rfl <;> rfl
  | bare text =>
    obtain ⟨-, c, hc, hblank, -⟩ := hv
    intro d hd
    rw [WrittenValue.chars, hc] at hd
    cases hd
    exact hblank

theorem attributeFrom_of_proper {a : WrittenAttribute} {after : List Char} (ha : a.Proper after)
    (pos : Nat) :
    attributeFrom ⟨pos, a.chars ++ after⟩ =
      .ok (a.node pos, ⟨pos + byteLength a.chars, after⟩) := by
  obtain ⟨name, assigned⟩ := a
  obtain ⟨hne, hname, hassigned, hbare⟩ := ha
  rw [attributeFrom_eq]
  cases assigned with
  | none =>
    obtain ⟨hstops, hsign⟩ := hbare rfl
    have htake := Cursor.take_append pos hname hstops
    have hpeek : ((Cursor.mk (pos + byteLength name) after).skipWhile isAsciiBlank).peek ≠
        some '=' := hsign
    simp only at htake hne
    simp only [WrittenAttribute.chars, Option.elim_none, List.append_nil, htake, if_neg hne,
      if_neg hpeek, WrittenAttribute.node]
  | some v =>
    obtain ⟨hbefore, hbehind, hvalue⟩ := hassigned v rfl
    have hchars : name ++ v.chars ++ after =
        name ++ (v.before ++ '=' :: (v.after ++ (v.value.chars ++ after))) := by
      simp [Assignment.chars]
    have htake : (Cursor.mk pos (name ++ v.chars ++ after)).take isAttributeNameChar =
        (name, ⟨pos + byteLength name, v.before ++ '=' :: (v.after ++ (v.value.chars ++ after))⟩) := by
      rw [hchars]
      refine Cursor.take_append pos hname (stopsBefore_append (fun c hc => ?_) (stopsBefore_cons rfl))
      exact isAttributeNameChar_of_isAsciiBlank (hbefore c hc)
    have hsign := Cursor.skipWhile_append (pos + byteLength name) hbefore
      (@stopsBefore_cons _ '=' (v.after ++ (v.value.chars ++ after)) rfl)
    have hstart := Cursor.skipWhile_append
      (pos + byteLength name + byteLength v.before + ('=' : Char).utf8Size) hbehind hvalue.stopsBefore
    have hpos : pos + byteLength name + byteLength v.before + ('=' : Char).utf8Size +
        byteLength v.after + byteLength v.value.chars = pos + byteLength (name ++ v.chars) := by
      simp [Assignment.chars, byteLength, byteLength_append]
      omega
    simp only at hne
    simp only [WrittenAttribute.chars, Option.elim_some, htake, hsign, hstart, Cursor.peek,
      Cursor.skip_one, List.head?_cons, if_true, if_neg hne, valueFrom_of_proper hvalue, hpos,
      Except.map, WrittenAttribute.node]
    rfl

theorem exists_of_attributeFrom {s next : Cursor} {x : Attribute}
    (h : attributeFrom s = .ok (x, next)) :
    ∃ a : WrittenAttribute, s.rest = a.chars ++ next.rest ∧ a.Proper next.rest := by
  rw [attributeFrom_eq] at h
  obtain ⟨name, after, hrest, hname, hstops, htake⟩ := Cursor.exists_take isAttributeNameChar s
  simp only [htake] at h
  split at h
  · cases h
  · next hne =>
    obtain ⟨before, after', hafter, hbefore, -, hskip⟩ := Cursor.exists_skipWhile isAsciiBlank
      ⟨s.pos + byteLength name, after⟩
    rw [hskip] at h
    simp only at hafter
    split at h
    · next hpeek =>
      obtain ⟨more, rfl⟩ : ∃ more, after' = '=' :: more := List.head?_eq_some_iff.1 hpeek
      rw [Cursor.skip_one] at h
      obtain ⟨behind, value, hmore, hbehind, hvalue, hstart⟩ := Cursor.exists_skipWhile isAsciiBlank
        ⟨s.pos + byteLength name + byteLength before + ('=' : Char).utf8Size, more⟩
      rw [hstart] at h
      simp only at hmore
      cases hv : valueFrom s.pos ⟨s.pos + byteLength name + byteLength before +
          ('=' : Char).utf8Size + byteLength behind, value⟩ with
      | error e => rw [hv] at h; cases h
      | ok r =>
        rw [hv] at h
        cases h
        obtain ⟨v, hchars, hproper⟩ := exists_of_valueFrom hvalue hv
        simp only at hchars
        refine ⟨⟨name, some ⟨before, behind, v⟩⟩, ?_, hne, hname, ?_, ?_⟩
        · rw [hrest, hafter, hmore, hchars]
          simp [WrittenAttribute.chars, Assignment.chars]
        · rintro w ⟨⟩
          exact ⟨hbefore, hbehind, hproper⟩
        · intro hnone; cases hnone
    · next hpeek =>
      cases h
      refine ⟨⟨name, none⟩, ?_, hne, hname, ?_, fun _ => ⟨hstops, ?_⟩⟩
      · simpa [WrittenAttribute.chars] using hrest
      · rintro w ⟨⟩
      · have := congrArg Cursor.rest hskip
        simp only [Cursor.skipWhile, Cursor.take] at this
        rw [this]
        exact hpeek

/-! ### Start tags -/

theorem TagPart.proper_append {part : TagPart} {a b : List Char} :
    part.Proper (a ++ '>' :: b) ↔ part.Proper (a ++ ['>']) := by
  cases part with
  | blank c => exact Iff.rfl
  | slash =>
    have hhead : (a ++ '>' :: b).head? = (a ++ ['>']).head? := by cases a <;> rfl
    rw [Proper, Proper, hhead]
  | attr a => exact WrittenAttribute.proper_append

theorem partsChars_append (as bs : List TagPart) :
    partsChars (as ++ bs) = partsChars as ++ partsChars bs := List.flatMap_append

/-- What stands in a start tag is decided by the tag alone. -/
theorem partsProper_append {selfClosing : Bool} (after : List Char) : ∀ {parts : List TagPart},
    PartsProper (tagEnd selfClosing ++ after) parts ↔ PartsProper (tagEnd selfClosing) parts
  | [] => Iff.rfl
  | part :: parts => by
    obtain ⟨front, hfront⟩ : ∃ front, tagEnd selfClosing = front ++ ['>'] := by
      cases selfClosing
      · exact ⟨[], rfl⟩
      · exact ⟨['/'], rfl⟩
    have hpart : part.Proper (partsChars parts ++ (tagEnd selfClosing ++ after)) ↔
        part.Proper (partsChars parts ++ tagEnd selfClosing) := by
      rw [hfront]
      have := @TagPart.proper_append part (partsChars parts ++ front) after
      simpa only [List.append_assoc, List.cons_append, List.nil_append] using this
    rw [PartsProper, PartsProper, hpart, partsProper_append after]

theorem attributesFrom_of_partsProper {selfClosing : Bool} {after : List Char} (tagStart : Nat) :
    ∀ {parts : List TagPart} (pos : Nat), PartsProper (tagEnd selfClosing ++ after) parts →
      attributesFrom tagStart ⟨pos, partsChars parts ++ (tagEnd selfClosing ++ after)⟩ =
        .ok ((attributesOf pos parts, selfClosing),
          ⟨pos + byteLength (partsChars parts) + byteLength (tagEnd selfClosing), after⟩)
  | [], pos, _ => by
    have hblank : StopsBefore isAsciiBlank (tagEnd selfClosing ++ after) := by
      cases selfClosing <;> exact stopsBefore_cons rfl
    rw [attributesFrom_eq, partsChars, List.flatMap_nil, List.nil_append,
      Cursor.skipWhile_of_stopsBefore hblank]
    cases selfClosing <;> rfl
  | .blank c :: parts, pos, h => by
    obtain ⟨hc, h⟩ := h
    have ih := attributesFrom_of_partsProper tagStart (pos + c.utf8Size) h
    have hchars : partsChars (.blank c :: parts) = c :: partsChars parts := rfl
    have hskip := Cursor.skipWhile_cons pos (partsChars parts ++ (tagEnd selfClosing ++ after)) hc
    rw [attributesFrom_eq] at ih
    rw [attributesFrom_eq, hchars, List.cons_append, hskip, ih]
    simp only [attributesOf, TagPart.chars, byteLength, Nat.add_assoc, Nat.add_zero]
  | .slash :: parts, pos, h => by
    obtain ⟨hslash, h⟩ := h
    have ih := attributesFrom_of_partsProper tagStart (pos + ('/' : Char).utf8Size) h
    have hchars : partsChars (.slash :: parts) = '/' :: partsChars parts := rfl
    have hhead : (partsChars parts ++ (tagEnd selfClosing ++ after)).head? ≠ some '>' := hslash
    have hblank : StopsBefore isAsciiBlank
        ('/' :: (partsChars parts ++ (tagEnd selfClosing ++ after))) := stopsBefore_cons rfl
    have hne : ¬ '/' = '>' := by decide
    rw [attributesFrom_eq, hchars, List.cons_append, Cursor.skipWhile_of_stopsBefore hblank]
    simp only [if_neg hne, if_pos, if_neg hhead, Cursor.skip_one, ih]
    simp only [attributesOf, TagPart.chars, byteLength, Nat.add_assoc, Nat.add_zero]
  | .attr a :: parts, pos, h => by
    obtain ⟨ha, h⟩ := h
    have ih := attributesFrom_of_partsProper tagStart (pos + byteLength a.chars) h
    obtain ⟨c, name, hname⟩ := List.exists_cons_of_ne_nil ha.nonempty
    have hc : isAttributeNameChar c = true := ha.name c (by rw [hname]; exact List.mem_cons_self)
    obtain ⟨more, hmore⟩ : ∃ more, a.chars = c :: more :=
      ⟨name ++ a.assigned.elim [] Assignment.chars, by rw [WrittenAttribute.chars, hname]; rfl⟩
    have hchars : partsChars (.attr a :: parts) ++ (tagEnd selfClosing ++ after) =
        a.chars ++ (partsChars parts ++ (tagEnd selfClosing ++ after)) := List.append_assoc ..
    have hread := attributeFrom_of_proper ha pos
    have hblank : StopsBefore isAsciiBlank
        (a.chars ++ (partsChars parts ++ (tagEnd selfClosing ++ after))) := by
      rw [hmore]
      exact stopsBefore_cons (not_isAsciiBlank_of_isAttributeNameChar hc)
    have hclose : ¬ c = '>' := by rintro rfl; cases hc
    have hslash : ¬ c = '/' := by rintro rfl; cases hc
    rw [attributesFrom_eq, hchars, Cursor.skipWhile_of_stopsBefore hblank]
    simp only [hmore, List.cons_append, if_neg hclose, if_neg hslash] at hread ih ⊢
    rw [hread]
    simp only [ih, Except.map, attributesOf, hmore]
    congr 3
    have : partsChars (.attr a :: parts) = c :: (more ++ partsChars parts) := by
      show a.chars ++ partsChars parts = _
      rw [hmore]; rfl
    rw [this]
    simp only [byteLength, byteLength_append]
    omega

theorem partsChars_blanks (cs : List Char) : partsChars (cs.map .blank) = cs := by
  induction cs with
  | nil => rfl
  | cons c cs ih => exact congrArg (c :: ·) ih

theorem partsProper_blanks {close : List Char} {parts : List TagPart}
    (h : PartsProper close parts) : ∀ {cs : List Char}, (∀ c ∈ cs, isAsciiBlank c = true) →
      PartsProper close (cs.map .blank ++ parts)
  | [], _ => h
  | c :: _, hcs => ⟨hcs c List.mem_cons_self,
      partsProper_blanks h fun d hd => hcs d (List.mem_cons_of_mem c hd)⟩

theorem exists_of_attributesFrom {tagStart : Nat} {s next : Cursor} {attributes : List Attribute}
    {selfClosing : Bool} (h : attributesFrom tagStart s = .ok ((attributes, selfClosing), next)) :
    ∃ parts : List TagPart, s.rest = partsChars parts ++ (tagEnd selfClosing ++ next.rest) ∧
      PartsProper (tagEnd selfClosing ++ next.rest) parts := by
  rw [attributesFrom_eq] at h
  obtain ⟨blanks, rest, hrest, hblanks, hstops, hskip⟩ := Cursor.exists_skipWhile isAsciiBlank s
  have hlen := congrArg List.length hrest
  rw [List.length_append] at hlen
  -- it is enough to take apart what follows the blanks
  suffices hparts : ∃ parts : List TagPart,
      rest = partsChars parts ++ (tagEnd selfClosing ++ next.rest) ∧
        PartsProper (tagEnd selfClosing ++ next.rest) parts by
    obtain ⟨parts, hparts, hproper⟩ := hparts
    refine ⟨blanks.map .blank ++ parts, ?_, partsProper_blanks hproper hblanks⟩
    rw [partsChars_append, partsChars_blanks, hrest, hparts, List.append_assoc]
  simp only [hskip] at h
  split at h
  · cases h
  · next c cs =>
    rw [List.length_cons] at hlen
    split at h
    · next hc =>
      cases h
      exact ⟨[], by rw [hc, Cursor.skip_one]; rfl, trivial⟩
    · split at h
      · next hc =>
        subst hc
        split at h
        · next hhead =>
          cases h
          obtain ⟨more, rfl⟩ := List.head?_eq_some_iff.1 hhead
          exact ⟨[], rfl, trivial⟩
        · next hhead =>
          rw [Cursor.skip_one] at h
          obtain ⟨parts, hparts, hproper⟩ := exists_of_attributesFrom h
          simp only at hparts
          refine ⟨.slash :: parts, congrArg ('/' :: ·) hparts, ?_, hproper⟩
          rw [TagPart.Proper, ← hparts]
          exact hhead
      · split at h
        · cases h
        · next a after ha =>
          obtain ⟨w, hw, hproper⟩ := exists_of_attributeFrom ha
          have hpos : 0 < w.chars.length := by
            rw [WrittenAttribute.chars, List.length_append]
            have := List.length_pos_iff.2 hproper.nonempty
            omega
          have hlen' := congrArg List.length hw
          rw [List.length_append] at hlen'
          simp only [List.length_cons] at hlen'
          cases hmore : attributesFrom tagStart after with
          | error e => rw [hmore] at h; cases h
          | ok r =>
            rw [hmore] at h
            cases h
            obtain ⟨parts, hparts, hparts'⟩ := exists_of_attributesFrom hmore
            refine ⟨.attr w :: parts, ?_, ?_, hparts'⟩
            · simp only at hw
              rw [hw, hparts]
              exact (List.append_assoc ..).symm
            · rw [TagPart.Proper, ← hparts]
              exact hproper
termination_by s.rest.length
decreasing_by all_goals simp_all; omega

theorem isTagNameChar_of_isLetter {c : Char} (h : isLetter c = true) : isTagNameChar c = true := by
  by_contra hc
  have hc' : c = ' ' ∨ c = '\t' ∨ c = '\n' ∨ c = '\x0c' ∨ c = '\r' ∨ c = '>' ∨ c = '/' := by
    simp [isTagNameChar, isAsciiBlank] at hc
    tauto
  rcases hc' with rfl | rfl | rfl | rfl | rfl | rfl | rfl <;> cases h

/-- Behind its opening character a start tag is read as it is written. -/
theorem elementFrom_of_proper {t : WrittenTag} (ht : t.Proper) (opened : List String)
    (inCase : Bool) (pos : Nat) (after : List Char) :
    elementFrom opened inCase pos ⟨pos + 1, t.chars.tail ++ after⟩ =
      bodyFrom opened inCase pos t.name (t.node pos) ⟨pos + byteLength t.chars, after⟩ := by
  have hchars : t.chars.tail ++ after =
      t.name ++ (partsChars t.parts ++ (tagEnd t.selfClosing ++ after)) := by
    simp [WrittenTag.chars]
  have hstops : StopsBefore isTagNameChar
      (partsChars t.parts ++ (tagEnd t.selfClosing ++ after)) := by
    have hne : partsChars t.parts ++ tagEnd t.selfClosing ≠ [] := by
      cases t.selfClosing <;> simp [tagEnd]
    rw [StopsBefore, ← List.append_assoc, head?_append_of_ne_nil hne]
    exact ht.nameStop
  have htake := Cursor.take_append (pos + 1) ht.name hstops
  have hattrs := attributesFrom_of_partsProper pos (pos + 1 + byteLength t.name)
    ((partsProper_append after).2 ht.parts)
  have hpos : pos + 1 + byteLength t.name + byteLength (partsChars t.parts) +
      byteLength (tagEnd t.selfClosing) = pos + byteLength t.chars := by
    have : ('<' : Char).utf8Size = 1 := rfl
    simp only [WrittenTag.chars, byteLength, byteLength_append]
    omega
  rw [hpos] at hattrs
  rw [elementFrom_eq, hchars, htake]
  simp only [hattrs]
  rfl

theorem exists_tag_of_elementFrom {opened : List String} {inCase : Bool} {s next : Cursor} {c : Char}
    {cs : List Char} {pos : Nat} {node : Node} (hpos : s.pos = pos + 1) (hs : s.rest = c :: cs)
    (hc : isLetter c = true) (h : elementFrom opened inCase pos s = .ok (node, next)) :
    ∃ (t : WrittenTag) (after : List Char), '<' :: s.rest = t.chars ++ after ∧ t.Proper ∧
      bodyFrom opened inCase pos t.name (t.node pos) ⟨pos + byteLength t.chars, after⟩ =
        .ok (node, next) := by
  obtain ⟨name, back, hrest, hname, hstops, htake⟩ := Cursor.exists_take isTagNameChar s
  have hcs : ∃ name', name = c :: name' := by
    cases name with
    | nil =>
      rw [List.nil_append] at hrest
      have := hstops c (by rw [← hrest, hs]; rfl)
      rw [isTagNameChar_of_isLetter hc] at this
      cases this
    | cons d name' =>
      rw [hs, List.cons_append, List.cons.injEq] at hrest
      exact ⟨name', by rw [hrest.1]⟩
  have hread := h
  rw [elementFrom_eq, htake] at hread
  simp only at hread
  split at hread
  · cases hread
  · next attributes selfClosing bodyStart hattrs =>
    obtain ⟨parts, hparts, hproper⟩ := exists_of_attributesFrom hattrs
    simp only at hparts
    have ht : WrittenTag.Proper ⟨name, parts, selfClosing⟩ := by
      refine ⟨?_, hname, ?_, (partsProper_append bodyStart.rest).1 hproper⟩
      · obtain ⟨name', rfl⟩ := hcs
        exact ⟨c, name', rfl, hc⟩
      · have hne : partsChars parts ++ tagEnd selfClosing ≠ [] := by
          cases selfClosing <;> simp [tagEnd]
        rw [hparts, StopsBefore, ← List.append_assoc, head?_append_of_ne_nil hne] at hstops
        exact hstops
    have hchars : '<' :: s.rest = WrittenTag.chars ⟨name, parts, selfClosing⟩ ++ bodyStart.rest := by
      rw [hrest, hparts]
      simp [WrittenTag.chars]
    refine ⟨⟨name, parts, selfClosing⟩, bodyStart.rest, hchars, ht, ?_⟩
    rw [← elementFrom_of_proper ht, ← h]
    obtain ⟨p, rest⟩ := s
    simp only at hpos hchars
    rw [hpos]
    congr 2
    rw [WrittenTag.chars, List.tail_cons]
    rw [WrittenTag.chars, List.cons_append, List.cons.injEq] at hchars
    exact hchars.2.symm

/-! ### Attributes one blank apart -/

/-- Attributes with a blank in front of each. -/
def spaced (attributes : List WrittenAttribute) : List TagPart :=
  attributes.flatMap fun a => [.blank ' ', .attr a]

/-- A bare attribute, or one with its value in quotes right behind the equals sign. -/
structure WrittenAttribute.IsQuoted (a : WrittenAttribute) : Prop where
  nonempty : a.name ≠ []
  name : ∀ c ∈ a.name, isAttributeNameChar c = true
  assigned : ∀ v ∈ a.assigned, ∃ quote text, v = ⟨[], [], .quoted quote text⟩ ∧
    (quote = '"' ∨ quote = '\'') ∧ quote ∉ text

/-- What follows the name of such a tag, or one of its attributes: a blank and the next attribute,
    or the end of the tag. -/
theorem spaced_stops (selfClosing : Bool) {attributes : List WrittenAttribute}
    (h : ∀ a ∈ attributes, a.IsQuoted) :
    let after := partsChars (spaced attributes) ++ tagEnd selfClosing
    StopsBefore isAttributeNameChar after ∧ StopsBefore isTagNameChar after ∧
      (after.dropWhile isAsciiBlank).head? ≠ some '=' := by
  cases attributes with
  | nil =>
    cases selfClosing
    · exact ⟨stopsBefore_cons rfl, stopsBefore_cons rfl, by decide⟩
    · exact ⟨stopsBefore_cons rfl, stopsBefore_cons rfl, by decide⟩
  | cons a attributes =>
    have ha := h a List.mem_cons_self
    obtain ⟨c, cs, hname⟩ := List.exists_cons_of_ne_nil ha.nonempty
    have hc := ha.name c (by rw [hname]; exact List.mem_cons_self)
    obtain ⟨more, hmore⟩ : ∃ more, partsChars (spaced (a :: attributes)) ++ tagEnd selfClosing =
        ' ' :: c :: more := by
      simp [spaced, partsChars, TagPart.chars, WrittenAttribute.chars, hname]
    have hblank := not_isAsciiBlank_of_isAttributeNameChar hc
    have hne : c ≠ '=' := by rintro rfl; cases hc
    simp only [hmore]
    refine ⟨stopsBefore_cons rfl, stopsBefore_cons rfl, ?_⟩
    have hspace : isAsciiBlank ' ' = true := rfl
    simp [hspace, hblank, hne]

theorem partsProper_spaced (selfClosing : Bool) : ∀ {attributes : List WrittenAttribute},
    (∀ a ∈ attributes, a.IsQuoted) → PartsProper (tagEnd selfClosing) (spaced attributes)
  | [], _ => trivial
  | a :: attributes, h => by
    have ha := h a List.mem_cons_self
    have hrest : ∀ b ∈ attributes, b.IsQuoted := fun b hb => h b (List.mem_cons_of_mem a hb)
    obtain ⟨hstops, -, hsign⟩ := spaced_stops selfClosing hrest
    refine ⟨(rfl : isAsciiBlank ' ' = true), ⟨ha.nonempty, ha.name, ?_, ?_⟩,
      partsProper_spaced selfClosing hrest⟩
    · intro v hv
      obtain ⟨quote, text, rfl, hquote, htext⟩ := ha.assigned v hv
      exact ⟨fun c hc => (by cases hc), fun c hc => (by cases hc), hquote, htext⟩
    · intro _
      exact ⟨hstops, hsign⟩

theorem spacedTag_proper {name : List Char} {attributes : List WrittenAttribute}
    (selfClosing : Bool) (hletter : ∃ c cs, name = c :: cs ∧ isLetter c = true)
    (hname : ∀ c ∈ name, isTagNameChar c = true) (h : ∀ a ∈ attributes, a.IsQuoted) :
    WrittenTag.Proper ⟨name, spaced attributes, selfClosing⟩ :=
  ⟨hletter, hname, (spaced_stops selfClosing h).2.1, partsProper_spaced selfClosing h⟩

end RouterShift.Markup
