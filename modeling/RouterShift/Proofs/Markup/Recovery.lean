import RouterShift.Proofs.Markup.Rereading

/-! Whatever the reader accepts was written as a proper tree. The induction is on the length of what
    is still to be read; each construct the reader takes leaves less. Together with the way back
    this says what the templates are: `parse` gives the nodes of a proper tree, and nothing else
    (`parse_eq_ok_iff`). -/

namespace RouterShift.Markup
open Text (Cursor byteLength byteLength_append StopsBefore stopsBefore_cons stopsBefore_append
  isAsciiBlank)

/-- What each kind of opening says about the text. -/
theorem opening_spec (inCase : Bool) (c : Char) (cs : List Char) :
    match Opening.of inCase c cs with
    | .comment => c = '<' ∧ ∃ more, cs = '!' :: '-' :: '-' :: more
    | .declaration => c = '<' ∧ ∃ d more, cs = d :: more ∧ (d = '!' ∨ d = '?') ∧
        (d = '!' && ['-', '-'].isPrefixOf more) = false
    | .endTag => c = '<' ∧ ∃ more, cs = '/' :: more
    | .element => c = '<' ∧ ∃ d more, cs = d :: more ∧ isLetter d = true
    | .interpolation => c = '{' ∧ ∃ more, cs = '{' :: more
    | .brace => c = '{' ∧ cs.head? ≠ some '{'
    | .caseEnd => c = '}' ∧ inCase = true
    | .text => True := by
  by_cases hlt : c = '<'
  · subst hlt
    cases cs with
    | nil => trivial
    | cons d more =>
      by_cases hcomment : (d = '!' && ['-', '-'].isPrefixOf more) = true
      · have hd : d = '!' ∧ ['-', '-'].isPrefixOf more = true := by simpa using hcomment
        obtain ⟨rfl, hdash⟩ := hd
        obtain ⟨rest, rfl⟩ := List.isPrefixOf_iff_prefix.1 hdash
        exact ⟨rfl, rest, rfl⟩
      · rw [Bool.not_eq_true] at hcomment
        by_cases hdecl : (d = '!' || d = '?') = true
        · simp only [Opening.of, if_true, hcomment, hdecl, Bool.false_eq_true, if_false]
          exact ⟨trivial, d, more, rfl, by simpa using hdecl, hcomment⟩
        · rw [Bool.not_eq_true] at hdecl
          by_cases hslash : d = '/'
          · subst hslash
            exact ⟨rfl, more, rfl⟩
          · by_cases hletter : isLetter d = true
            · rw [opening_of_isLetter hletter]
              exact ⟨rfl, d, more, rfl, hletter⟩
            · simp [Opening.of, hcomment, hdecl, hslash, hletter]
  · by_cases hbrace : c = '{'
    · subst hbrace
      by_cases hhead : cs.head? = some '{'
      · obtain ⟨more, rfl⟩ := List.head?_eq_some_iff.1 hhead
        exact ⟨rfl, more, rfl⟩
      · simp [Opening.of, hhead]
    · by_cases hclose : (c = '}' && inCase) = true
      · have : c = '}' ∧ inCase = true := by simpa using hclose
        obtain ⟨rfl, rfl⟩ := this
        exact ⟨rfl, rfl⟩
      · simp [Opening.of, hlt, hbrace, hclose]

theorem exists_of_stopOf_close {inCase : Bool} : ∀ {cs : List Char},
    stopOf inCase cs = some .close → ∃ more, cs = '<' :: '/' :: more
  | [], h => by cases h
  | c :: cs, h => by
    rw [stopOf] at h
    have hspec := opening_spec inCase c cs
    cases hO : Opening.of inCase c cs <;> rw [hO] at h hspec <;> cases h
    obtain ⟨rfl, more, rfl⟩ := hspec
    exact ⟨more, rfl⟩

theorem exists_of_stopOf_caseEnd {inCase : Bool} : ∀ {cs : List Char},
    stopOf inCase cs = some .caseEnd → ∃ more, cs = '}' :: more
  | [], h => by cases h
  | c :: cs, h => by
    rw [stopOf] at h
    have hspec := opening_spec inCase c cs
    cases hO : Opening.of inCase c cs <;> rw [hO] at h hspec <;> cases h
    obtain ⟨rfl, -⟩ := hspec
    exact ⟨cs, rfl⟩

/-! ### Runs in parts -/

/-- A run of siblings, taken apart: the rest of a text that may be open, then the nodes. -/
structure Parts (opened : List String) (inCase : Bool) (s : Cursor) (after text : List Char)
    (ws : List Written) : Prop where
  rest : s.rest = text ++ (charsAll ws ++ after)
  alone : startsWithText ws = false
  run : TextRun opened inCase s.pos text (charsAll ws ++ after)
  proper : ProperAll opened inCase (s.pos + byteLength text) after ws

/-- Siblings behind a text, which may be empty. -/
def textBefore (text : List Char) (ws : List Written) : List Written :=
  if text.isEmpty then ws else .text text :: ws

theorem charsAll_textBefore (text : List Char) (ws : List Written) :
    charsAll (textBefore text ws) = text ++ charsAll ws := by
  cases text <;> rfl

section
variable {opened : List String} {inCase : Bool} {pos : Nat} {s : Cursor}
  {after text rest : List Char} {ws : List Written} {stop : Stop}

theorem Parts.read (h : Parts opened inCase s after text ws)
    (hstop : stopOf inCase after = some stop) (pending : Option Nat) :
    siblingsFrom opened inCase pending s =
      .ok ((flush (openText pending s.pos text) (s.pos + byteLength text) ++
          nodesAll (s.pos + byteLength text) ws, stop),
        ⟨s.pos + byteLength text + byteLength (charsAll ws), after⟩) := by
  obtain ⟨pos, rest⟩ := s
  obtain ⟨rfl, halone, hrun, hproper⟩ := h
  rw [siblingsFrom_textRun hrun]
  exact siblingsFrom_of_proper ws hproper hstop _ fun hs => by rw [halone] at hs; cases hs

theorem Parts.properAll (h : Parts opened inCase s after text ws) :
    ProperAll opened inCase s.pos after (textBefore text ws) := by
  cases text with
  | nil => exact h.proper
  | cons c cs =>
    rw [textBefore, List.isEmpty_cons, if_neg Bool.false_ne_true, ProperAll, Written.Proper]
    exact ⟨⟨List.cons_ne_nil c cs, h.run⟩, fun _ => h.alone, h.proper⟩

theorem Parts.piece {w : Written} (hw : w.Proper opened inCase pos rest) (htext : w.isText = false)
    (h : Parts opened inCase ⟨pos + byteLength w.chars, rest⟩ after text ws) :
    Parts opened inCase ⟨pos, w.chars ++ rest⟩ after [] (w :: textBefore text ws) := by
  have hrest : rest = charsAll (textBefore text ws) ++ after := by
    rw [charsAll_textBefore, List.append_assoc]
    exact h.rest
  refine ⟨?_, htext, .done _ _, ?_⟩
  · rw [List.nil_append, charsAll, List.append_assoc, ← hrest]
  · rw [ProperAll, ← hrest]
    exact ⟨hw, fun h => (by rw [htext] at h; cases h), h.properAll⟩

theorem Parts.nothing (hstop : stopOf inCase s.rest = some stop) :
    Parts opened inCase s s.rest [] [] := by
  refine ⟨rfl, rfl, .done _ _, ?_⟩
  rw [ProperAll, hstop]
  rfl

theorem Parts.char {c : Char} (hc : Opening.of inCase c rest = .text)
    (h : Parts opened inCase ⟨pos + c.utf8Size, rest⟩ after text ws) :
    Parts opened inCase ⟨pos, c :: rest⟩ after (c :: text) ws := by
  obtain ⟨rfl, halone, hrun, hproper⟩ := h
  refine ⟨rfl, halone, .char pos c text _ hc hrun, ?_⟩
  rw [byteLength, ← Nat.add_assoc]
  exact hproper

theorem Parts.interpolation {body : List Char} {next : Cursor} (hbody : EndsFirst ['}', '}'] body)
    (hpos : next.pos = pos + 2 + byteLength (body ++ ['}', '}']))
    (h : Parts opened inCase next after text ws) :
    Parts opened inCase ⟨pos, '{' :: '{' :: (body ++ ['}', '}'] ++ next.rest)⟩ after
      ('{' :: '{' :: (body ++ '}' :: '}' :: text)) ws := by
  obtain ⟨hrest, halone, hrun, hproper⟩ := h
  have hnext : next.pos = pos + (byteLength body + 4) := by
    rw [hpos]
    simp [byteLength, byteLength_append, Char.utf8Size]
    omega
  have hend : pos + byteLength ('{' :: '{' :: (body ++ '}' :: '}' :: text)) =
      next.pos + byteLength text := by
    rw [hnext]
    simp [byteLength, byteLength_append, Char.utf8Size]
    omega
  refine ⟨?_, halone, .interpolation pos body text _ hbody (hnext ▸ hrun), ?_⟩
  · rw [hrest]
    simp
  · rw [hend]
    exact hproper

theorem Parts.brace (hbrace : rest.head? ≠ some '{')
    (hform : readExpansion? opened pos ⟨pos + 1, rest⟩ = .ok none)
    (h : Parts opened inCase ⟨pos + 1, rest⟩ after text ws) :
    Parts opened inCase ⟨pos, '{' :: rest⟩ after ('{' :: text) ws := by
  obtain ⟨rfl, halone, hrun, hproper⟩ := h
  refine ⟨rfl, halone, .brace pos text _ hbrace hform hrun, ?_⟩
  rw [byteLength, ← Nat.add_assoc]
  exact hproper

theorem Parts.plain : ∀ {a : List Char} {pos : Nat}, (∀ c ∈ a, isPlain c = true) →
    Parts opened inCase ⟨pos + byteLength a, rest⟩ after text ws →
    Parts opened inCase ⟨pos, a ++ rest⟩ after (a ++ text) ws
  | [], _, _, h => h
  | c :: a, pos, ha, h => by
    have hc := ha c List.mem_cons_self
    refine .char (opening_of_isPlain hc _) ?_
    refine Parts.plain (fun d hd => ha d (List.mem_cons_of_mem c hd)) ?_
    rw [Nat.add_assoc]
    exact h

end

/-! ### Pieces -/

theorem exists_comment {s next : Cursor} {more : List Char}
    (hs : s.rest = '<' :: '!' :: '-' :: '-' :: more)
    (h : (s.skip 4).past? ['-', '-', '>'] = some next) :
    ∃ cs, CommentProper cs ∧ s.rest = cs ++ next.rest ∧ next.pos = s.pos + byteLength cs := by
  obtain ⟨body, hcut, hpos⟩ := Cursor.past?_eq_some.1 h
  have hskip : s.skip 4 = ⟨s.pos + byteLength ['<', '!', '-', '-'], more⟩ := by
    have := Cursor.skip_append s.pos ['<', '!', '-', '-'] more
    obtain ⟨pos, rest⟩ := s
    obtain rfl := hs
    exact this
  rw [hskip] at hcut hpos
  obtain ⟨rfl, hends⟩ := Text.cutFirst?_eq_some.1 hcut
  refine ⟨_, .comment body hends, ?_, ?_⟩
  · rw [hs]
    simp
  · rw [hpos, Nat.add_assoc, ← byteLength_append]
    rfl

theorem exists_declaration {s next : Cursor} {d : Char} {more : List Char}
    (hs : s.rest = '<' :: d :: more) (hd : d = '!' ∨ d = '?')
    (hdash : (d = '!' && ['-', '-'].isPrefixOf more) = false) (h : s.past? ['>'] = some next) :
    ∃ cs, CommentProper cs ∧ s.rest = cs ++ next.rest ∧ next.pos = s.pos + byteLength cs := by
  obtain ⟨front, hcut, hpos⟩ := Cursor.past?_eq_some.1 h
  have hne : '>' ∉ front := Text.not_mem_of_cutFirst?_singleton hcut
  have hrest := Text.append_of_cutFirst? hcut
  rw [hs] at hrest
  obtain ⟨body, rfl⟩ : ∃ body, front = '<' :: d :: body := by
    match front, hrest with
    | [], hrest => cases hrest
    | [_], hrest =>
      simp only [List.cons_append, List.nil_append, List.cons.injEq] at hrest
      rcases hd with rfl | rfl <;> cases hrest.2.1
    | a :: b :: body, hrest =>
      simp only [List.cons_append, List.cons.injEq] at hrest
      exact ⟨body, by rw [hrest.1, hrest.2.1]⟩
  have hmore : more = body ++ '>' :: next.rest := by simpa using hrest
  have hbody : '>' ∉ body := fun hmem => hne (by simp [hmem])
  refine ⟨_, .declaration d body hd hbody ?_, ?_, ?_⟩
  · rw [hmore] at hdash
    match body with
    | [] => exact Bool.and_false _
    | [x] => simp [List.isPrefixOf]
    | _ :: _ :: _ => exact hdash
  · rw [hs, hmore]
    simp
  · rw [hpos]
    rfl

theorem exists_of_headerPartFrom? {s next : Cursor} {x : List Char}
    (h : headerPartFrom? s = some (x, next)) :
    ∃ part, s.rest = part ++ ',' :: next.rest ∧ (∀ c ∈ part, isHeaderChar c = true) ∧
      Text.trim Text.isBlank part ≠ [] ∧ x = Text.trim Text.isBlank part := by
  rw [headerPartFrom?_eq] at h
  obtain ⟨part, after, hrest, hpart, -, htake⟩ := Cursor.exists_take isHeaderChar s
  simp only [htake] at h
  split at h
  · cases h
  · next c cs =>
    split at h
    · next hc =>
      cases h
      simp only [Bool.and_eq_true, decide_eq_true_eq, Bool.not_eq_true'] at hc
      obtain ⟨rfl, hne⟩ := hc
      refine ⟨part, by rw [Cursor.skip_one]; exact hrest, hpart, ?_, rfl⟩
      intro hnil
      rw [hnil] at hne
      cases hne
    · cases h

theorem exists_of_headerFrom? {s next : Cursor} {header : Header}
    (h : headerFrom? s = some (header, next)) :
    ∃ w : WrittenHeader, s.rest = w.chars ++ next.rest ∧ w.Proper := by
  rw [headerFrom?_eq] at h
  split at h
  · cases h
  · next switched behind hswitch =>
    split at h
    · cases h
    · next kind last hkind =>
      split at h
      · next hword =>
        cases h
        obtain ⟨part, hpart, hchars, hne, -⟩ := exists_of_headerPartFrom? hswitch
        obtain ⟨part', hpart', hchars', hne', rfl⟩ := exists_of_headerPartFrom? hkind
        refine ⟨⟨part, part'⟩, ?_, hchars, hne, hchars', hne', hword⟩
        rw [hpart, hpart']
        simp [WrittenHeader.chars]
      · cases h

/-! ### Raw bodies -/

theorem eq_of_lower_eq {c d : Char} (h : Text.lower c = d) (hd : ¬ ('a' ≤ d ∧ d ≤ 'z')) :
    c = d := by
  rw [Text.lower] at h
  split at h
  · next hc =>
    exfalso
    apply hd
    simp only [Bool.and_eq_true, decide_eq_true_eq] at hc
    have h1 : 65 ≤ c.toNat := hc.1
    have h2 : c.toNat ≤ 90 := hc.2
    have hvalid : Nat.isValidChar (c.toNat + 32) := Or.inl (by omega)
    have hnat : d.toNat = c.toNat + 32 := by
      rw [← h, Char.ofNat, dif_pos hvalid]
      rfl
    exact ⟨show 97 ≤ d.toNat by omega, show d.toNat ≤ 122 by omega⟩
  · exact h

/-- A needle is found at an opening that reads as an end tag. -/
theorem eq_cons_of_endNeedle {name back : List Char}
    (h : (endNeedle name).isPrefixOf (back.map Text.lower) = true) :
    ∃ more, back = '<' :: '/' :: more := by
  match back, h with
  | [], h => cases h
  | [_], h => simp [endNeedle] at h
  | a :: b :: more, h =>
    simp only [endNeedle, List.cons_append, List.map_cons, List.isPrefixOf_cons_cons,
      Bool.and_eq_true, beq_iff_eq] at h
    have ha := eq_of_lower_eq h.1.symm (by decide)
    have hb := eq_of_lower_eq h.2.1.symm (by decide)
    exact ⟨more, by rw [ha, hb]⟩

/-- A needle lies within the end tag it is found at. -/
theorem length_endNeedle_le {name after : List Char} {e : WrittenEnd}
    (hname : ∀ c ∈ name, isTagNameChar c = true)
    (h : (endNeedle name).isPrefixOf ((e.chars ++ after).map Text.lower) = true) :
    (endNeedle name).length ≤ e.chars.length := by
  by_contra hlt
  have hpre : e.chars.map Text.lower <+: endNeedle name := by
    refine List.prefix_of_prefix_length_le (List.prefix_append _ (after.map Text.lower))
      (List.map_append ▸ List.isPrefixOf_iff_prefix.1 h) ?_
    rw [List.length_map]
    omega
  -- the character that ends the tag is in no needle
  have hmem : '>' ∈ endNeedle name := by
    refine hpre.subset (List.mem_map.2 ⟨'>', ?_, rfl⟩)
    simp [WrittenEnd.chars]
  rcases List.mem_append.1 hmem with hmem | hmem
  · simp at hmem
  · obtain ⟨c, hc, hlower⟩ := List.mem_map.1 hmem
    obtain rfl := eq_of_lower_eq hlower (by decide)
    cases hname _ hc

/-! ### Trees -/

theorem exists_of_map_prepend {x : Except MarkupError ((List Node × Stop) × Cursor)}
    {front nodes : List Node} {stop : Stop} {next : Cursor}
    (h : x.map (prepend front) = .ok ((nodes, stop), next)) :
    ∃ more, x = .ok ((more, stop), next) := by
  cases x with
  | error e => cases h
  | ok r => cases h; exact ⟨r.1.1, rfl⟩

theorem length_of_map_plain {n : Nat} {α : Type} {x : Except MarkupError (Text.Read n α)} {a : α}
    {next : Cursor} (h : x.map Read.plain = .ok (a, next)) : next.rest.length < n := by
  cases x with
  | error e => cases h
  | ok r => cases h; exact r.short

theorem length_of_headerFrom? {s next : Cursor} {header : Header}
    (h : headerFrom? s = some (header, next)) : next.rest.length < s.rest.length := by
  rw [headerFrom?] at h
  cases hread : readHeader? s with
  | none => rw [hread] at h; cases h
  | some r => rw [hread] at h; cases h; exact r.short

theorem length_of_map_map_plain {n : Nat} {α : Type}
    {x : Except MarkupError (Option (Text.Read n α))} {a : α} {next : Cursor}
    (h : x.map (Option.map Read.plain) = .ok (some (a, next))) : next.rest.length < n := by
  match x, h with
  | .ok (some r), h => cases h; exact r.short

theorem length_of_casesFrom? {opened : List String} {s next : Cursor} {cases : List Case}
    (h : casesFrom? opened s = .ok (some (cases, next))) :
    next.rest.length < s.rest.length + 1 := length_of_map_map_plain h

/-- Siblings that are read from fewer than `n` characters were written as such. -/
def Recovers (n : Nat) : Prop :=
  ∀ {opened : List String} {inCase : Bool} {pending : Option Nat} {s next : Cursor}
    {nodes : List Node} {stop : Stop}, s.rest.length < n →
    siblingsFrom opened inCase pending s = .ok ((nodes, stop), next) →
      ∃ text ws, Parts opened inCase s next.rest text ws

section
variable {n : Nat} {opened : List String} {inCase : Bool} {pos : Nat}

/-- What was written for siblings decides what was read. -/
theorem Parts.eq_of_siblingsFrom {s next : Cursor} {text : List Char} {ws : List Written}
    {nodes : List Node} {stop : Stop} (hparts : Parts opened inCase s next.rest text ws)
    (h : siblingsFrom opened inCase none s = .ok ((nodes, stop), next)) :
    stopOf inCase next.rest = some stop ∧ nodes = nodesAll s.pos (textBefore text ws) ∧
      next.pos = s.pos + byteLength (charsAll (textBefore text ws)) := by
  obtain ⟨stop', hstop⟩ := stopOf_of_proper ws hparts.proper
  have hread := hparts.read hstop none
  rw [h, Except.ok.injEq, Prod.mk.injEq, Prod.mk.injEq] at hread
  obtain ⟨⟨rfl, rfl⟩, hnext⟩ := hread
  refine ⟨hstop, ?_, ?_⟩
  · cases text <;> rfl
  · rw [hnext, charsAll_textBefore, byteLength_append, Nat.add_assoc]

/-- The characters up to a place were written as one piece that is no text. -/
def WrittenAs (opened : List String) (inCase : Bool) (pos : Nat) (cs : List Char) (next : Cursor) :
    Prop :=
  ∃ w : Written, w.isText = false ∧ cs = w.chars ++ next.rest ∧
    w.Proper opened inCase pos next.rest ∧ next.pos = pos + byteLength w.chars

theorem WrittenAs.comment {w cs : List Char} {next : Cursor} (hw : CommentProper w)
    (hcs : cs = w ++ next.rest) (hpos : next.pos = pos + byteLength w) :
    WrittenAs opened inCase pos cs next :=
  ⟨.comment w, rfl, hcs, by rw [Written.Proper]; exact hw, hpos⟩

/-- What follows a piece was written behind it. -/
theorem Recovers.behind (hn : Recovers n) {pending : Option Nat} {cs : List Char}
    {next after : Cursor} {front nodes : List Node} {stop : Stop}
    (hw : WrittenAs opened inCase pos cs next) (hlt : next.rest.length < n)
    (h : (siblingsFrom opened inCase pending next).map (prepend front) =
      .ok ((nodes, stop), after)) :
    ∃ text ws, Parts opened inCase ⟨pos, cs⟩ after.rest text ws := by
  obtain ⟨w, htext, rfl, hproper, hpos⟩ := hw
  obtain ⟨_, hmore⟩ := exists_of_map_prepend h
  obtain ⟨text, ws, hparts⟩ := hn hlt hmore
  obtain ⟨p, rest⟩ := next
  obtain rfl : p = pos + byteLength w.chars := hpos
  exact ⟨[], _, hparts.piece hproper htext⟩

/-! ### Elements -/

theorem writtenAs_of_raw {t : WrittenTag} {rest : List Char} {node : Node} {next : Cursor}
    (ht : t.Proper) (hsingle : t.isSingle = false) (hraw : t.isRaw = true)
    (h : bodyFrom opened inCase pos t.name (t.node pos) ⟨pos + byteLength t.chars, rest⟩ =
      .ok (node, next)) :
    WrittenAs opened inCase pos (t.chars ++ rest) next := by
  have hsingle' : ((t.node pos).selfClosing || (t.node pos).isVoid) = false := hsingle
  have hraw' : isRawText (t.node pos).name = true := hraw
  rw [bodyFrom, hsingle', if_neg Bool.false_ne_true, if_pos hraw'] at h
  split at h
  · cases h
  · next body back hseek =>
    obtain ⟨rfl, hneedle⟩ := seek?_eq_some hseek
    obtain ⟨more, hback⟩ := eq_cons_of_endNeedle hneedle
    simp only at h
    cases hend : readEndTag ⟨pos + byteLength t.chars + byteLength body, back⟩ with
    | error e => rw [hend] at h; cases h
    | ok r =>
      obtain ⟨tag, after⟩ := r
      rw [hend] at h
      cases h
      obtain ⟨e, hchars, he⟩ := exists_of_readEndTag hback hend
      simp only at hchars
      subst hchars
      have hfound := readEndTag_of_proper he (pos + byteLength t.chars + byteLength body) after.rest
      rw [hend, Except.ok.injEq, Prod.mk.injEq] at hfound
      refine ⟨.raw t body e, rfl, ?_, ?_, ?_⟩
      · rw [Written.chars]
        simp
      · rw [Written.Proper]
        refine ⟨ht, hsingle, hraw, he, ?_⟩
        exact (seek?_append (List.cons_ne_nil _ _) (length_endNeedle_le ht.name hneedle)
          after.rest).1 hseek
      · rw [hfound.2, Written.chars, byteLength_append, byteLength_append]
        simp only [Nat.add_assoc]

/-- Siblings inside a start tag make an element that ends behind them. -/
theorem Parts.container {t : WrittenTag} {rest text : List Char} {ws : List Written}
    {next : Cursor} (stop : Option WrittenEnd) (ht : t.Proper) (hsingle : t.isSingle = false)
    (hraw : t.isRaw = false)
    (hparts : Parts (String.ofList t.name :: opened) inCase ⟨pos + byteLength t.chars, rest⟩
      (stopChars stop ++ next.rest) text ws)
    (hstop : StopProper opened inCase t.name next.rest stop)
    (hpos : next.pos = pos + byteLength t.chars + byteLength (charsAll (textBefore text ws)) +
      byteLength (stopChars stop)) :
    WrittenAs opened inCase pos (t.chars ++ rest) next := by
  have hrest : rest = charsAll (textBefore text ws) ++ (stopChars stop ++ next.rest) := by
    rw [charsAll_textBefore, List.append_assoc]
    exact hparts.rest
  refine ⟨.container t (textBefore text ws) stop, rfl, ?_, ?_, ?_⟩
  · rw [Written.chars, hrest]
    simp only [List.append_assoc]
  · rw [Written.Proper]
    exact ⟨ht, hsingle, hraw, hparts.properAll, hstop⟩
  · rw [hpos, Written.chars]
    simp only [byteLength_append, Nat.add_assoc]

/-- An element with children ends with its own end tag, or with what is around it. -/
theorem Recovers.container (hn : Recovers n) {t : WrittenTag} {rest : List Char} {node : Node}
    {next : Cursor} (ht : t.Proper) (hsingle : t.isSingle = false) (hraw : t.isRaw = false)
    (hlt : rest.length < n)
    (h : bodyFrom opened inCase pos t.name (t.node pos) ⟨pos + byteLength t.chars, rest⟩ =
      .ok (node, next)) :
    WrittenAs opened inCase pos (t.chars ++ rest) next := by
  have hsingle' : ((t.node pos).selfClosing || (t.node pos).isVoid) = false := hsingle
  have hraw' : isRawText (t.node pos).name = false := hraw
  rw [bodyFrom, hsingle', hraw', if_neg Bool.false_ne_true, if_neg Bool.false_ne_true] at h
  split at h
  · cases h
  · next children stop inside hread =>
    obtain ⟨text, ws, hparts⟩ := hn hlt hread
    obtain ⟨hstop, -, hpos⟩ := hparts.eq_of_siblingsFrom hread
    have hopen (hends : EndsAround opened inCase t.name inside.rest) :
        WrittenAs opened inCase pos (t.chars ++ rest) inside :=
      Parts.container none ht hsingle hraw hparts hends hpos
    cases stop with
    | eof =>
      cases h
      exact hopen fun hclose => by rw [hstop] at hclose; cases hclose
    | caseEnd =>
      cases h
      exact hopen fun hclose => by rw [hstop] at hclose; cases hclose
    | close =>
      obtain ⟨more, hmore⟩ := exists_of_stopOf_close hstop
      simp only at h
      split at h
      · cases h
      · next endTag after hend =>
        obtain ⟨e, hchars, he⟩ := exists_of_readEndTag hmore hend
        have hfound := readEndTag_of_proper he inside.pos after.rest
        rw [← hchars, hend, Except.ok.injEq, Prod.mk.injEq] at hfound
        obtain ⟨rfl, hafter⟩ := hfound
        split at h
        · next hsame =>
          cases h
          rw [hchars] at hparts
          refine Parts.container (some e) ht hsingle hraw hparts ⟨he, hsame⟩ ?_
          rw [hafter, hpos]
          rfl
        · next hother =>
          split at h
          · next houter =>
            cases h
            exact hopen fun _ => ⟨e, after.rest, hchars, he, Bool.eq_false_iff.2 hother, houter⟩
          · cases h

theorem Recovers.body (hn : Recovers n) {t : WrittenTag} {rest : List Char} {node : Node}
    {next : Cursor} (ht : t.Proper) (hlt : rest.length < n)
    (h : bodyFrom opened inCase pos t.name (t.node pos) ⟨pos + byteLength t.chars, rest⟩ =
      .ok (node, next)) :
    WrittenAs opened inCase pos (t.chars ++ rest) next := by
  cases hsingle : t.isSingle with
  | true =>
    rw [bodyFrom_single hsingle] at h
    cases h
    exact ⟨.single t, rfl, rfl, by rw [Written.Proper]; exact ⟨ht, hsingle⟩, rfl⟩
  | false =>
    cases hraw : t.isRaw with
    | true => exact writtenAs_of_raw ht hsingle hraw h
    | false => exact hn.container ht hsingle hraw hlt h

theorem Recovers.element (hn : Recovers n) {cs : List Char} {c : Char} {node : Node}
    {next : Cursor} (hletter : isLetter c = true) (hlt : cs.length + 1 < n)
    (h : elementFrom opened inCase pos ⟨pos + 1, c :: cs⟩ = .ok (node, next)) :
    WrittenAs opened inCase pos ('<' :: c :: cs) next := by
  obtain ⟨t, rest, hrest, ht, hbody⟩ := exists_tag_of_elementFrom rfl rfl hletter h
  have hlen := congrArg List.length hrest
  have hpos : 0 < t.chars.length := by simp [WrittenTag.chars]
  simp only [List.length_append, List.length_cons] at hlen
  have hw := hn.body ht (show rest.length < n by omega) hbody
  rwa [← hrest] at hw

/-! ### Forms -/

/-- Cases up to the brace that ends the form, in front of `after`. -/
def CasesWritten (opened : List String) (s : Cursor) (after : List Char) : Prop :=
  ∃ (cs : List WrittenCase) (blanks : List Char),
    s.rest = casesChars cs ++ (blanks ++ '}' :: after) ∧
      (∀ c ∈ blanks, isAsciiBlank c = true) ∧
        CasesProper opened s.pos (blanks ++ '}' :: after) cs

/-- One more case in front. -/
theorem CasesWritten.cons {blanks label gap cs text more after : List Char} {ws : List Written}
    {inside : Nat} (hblanks : ∀ c ∈ blanks, isAsciiBlank c = true) (hne : label ≠ [])
    (hlabel : ∀ c ∈ label, isLabelChar c = true) (hgap : ∀ c ∈ gap, isAsciiBlank c = true)
    (hparts : Parts opened true
      ⟨pos + byteLength blanks + byteLength label + byteLength gap + 1, cs⟩ ('}' :: more) text ws)
    (hinside : inside = pos + byteLength blanks + byteLength label + byteLength gap + 1 +
      byteLength (charsAll (textBefore text ws)))
    (h : CasesWritten opened ⟨inside + 1, more⟩ after) :
    CasesWritten opened ⟨pos, blanks ++ (label ++ (gap ++ '{' :: cs))⟩ after := by
  obtain ⟨cases, blanks', hmore, hblanks', hproper⟩ := h
  have hcs : cs = charsAll (textBefore text ws) ++ '}' :: more := by
    rw [charsAll_textBefore, List.append_assoc]
    exact hparts.rest
  simp only at hmore
  have hend : pos + byteLength (WrittenCase.mk blanks label gap (textBefore text ws)).chars =
      inside + 1 := by
    rw [hinside]
    simp [WrittenCase.chars, byteLength, byteLength_append, Char.utf8Size]
    omega
  refine ⟨.mk blanks label gap (textBefore text ws) :: cases, blanks', ?_, hblanks', ?_⟩
  · rw [hcs, hmore]
    simp [casesChars, WrittenCase.chars]
  · rw [CasesProper, WrittenCase.Proper, hend, ← hmore]
    exact ⟨⟨hblanks, hne, hlabel, hgap, hparts.properAll⟩, hproper⟩

theorem Recovers.cases (hn : Recovers n) {s next : Cursor} {cases : List Case}
    (hle : s.rest.length ≤ n) (h : casesFrom? opened s = .ok (some (cases, next))) :
    CasesWritten opened s next.rest := by
  rw [casesFrom?_eq] at h
  obtain ⟨blanks, rest, hrest, hblanks, -, hskip⟩ := Cursor.exists_skipWhile isAsciiBlank s
  have hs : s = ⟨s.pos, blanks ++ rest⟩ := by rw [← hrest]
  have hlen := congrArg List.length hrest
  simp only [hskip] at h
  split at h
  · cases h
  · next c cs =>
    split at h
    · next hc =>
      cases h
      refine ⟨[], blanks, ?_, hblanks, by rw [CasesProper]; trivial⟩
      rw [hrest, hc, Cursor.skip_one]
      rfl
    · obtain ⟨label, back, hback, hlabel, -, htake⟩ := Cursor.exists_take isLabelChar
        ⟨s.pos + byteLength blanks, c :: cs⟩
      obtain ⟨gap, rest, hgap, hgapBlank, -, hskip'⟩ := Cursor.exists_skipWhile isAsciiBlank
        ⟨s.pos + byteLength blanks + byteLength label, back⟩
      obtain rfl : back = gap ++ rest := hgap
      have hback : c :: cs = label ++ (gap ++ rest) := hback
      rw [hback] at hs hlen
      simp only [htake, hskip'] at h
      split at h
      · cases h
      · next d ds =>
        split at h
        · cases h
        · next hopen =>
          simp only [Bool.or_eq_true, List.isEmpty_iff, bne_iff_ne, ne_eq, not_or,
            not_not] at hopen
          obtain ⟨hne, rfl⟩ := hopen
          have hsize : ('{' : Char).utf8Size = 1 := rfl
          simp only [List.length_append, List.length_cons] at hlen
          simp only [Cursor.skip_one, hsize] at h
          split at h
          · cases h
          · next children stop inside hread =>
            cases stop with
            | eof => cases h
            | close => cases h
            | caseEnd =>
              obtain ⟨text, ws, hparts⟩ := hn (by simp only; omega) hread
              obtain ⟨hstop, -, hpos⟩ := hparts.eq_of_siblingsFrom hread
              obtain ⟨more, hmore⟩ := exists_of_stopOf_caseEnd hstop
              obtain ⟨p, rest⟩ := inside
              obtain rfl : rest = '}' :: more := hmore
              have hnext : (Cursor.mk p ('}' :: more)).skip 1 = ⟨p + 1, more⟩ := rfl
              have hless := length_of_map_plain hread
              simp only [List.length_cons] at hless
              have hshort : more.length < s.rest.length := by omega
              simp only [hnext] at h
              cases hcases : casesFrom? opened ⟨p + 1, more⟩ with
              | error e => rw [hcases] at h; cases h
              | ok found =>
                rw [hcases] at h
                cases found with
                | none => cases h
                | some found =>
                  cases h
                  rw [hs]
                  exact .cons hblanks hne hlabel hgapBlank hparts hpos
                    (Recovers.cases hn (by simp only; omega) hcases)
termination_by s.rest.length

theorem Recovers.form (hn : Recovers n) {header : Header} {rest : List Char} {next last : Cursor}
    {cases : List Case} (hle : next.rest.length ≤ n)
    (hheader : headerFrom? ⟨pos + 1, rest⟩ = some (header, next))
    (h : casesFrom? opened next = .ok (some (cases, last))) :
    WrittenAs opened inCase pos ('{' :: rest) last := by
  obtain ⟨w, hrest, hw⟩ := exists_of_headerFrom? hheader
  simp only at hrest
  have hread := headerFrom?_of_proper hw (pos + 1) next.rest
  rw [← hrest, hheader, Option.some.injEq, Prod.mk.injEq] at hread
  obtain ⟨cs, blanks, hchars, hblanks, hcs⟩ := hn.cases hle h
  have hpos : next.pos = pos + 1 + byteLength w.chars := by rw [hread.2]
  rw [hpos] at hcs
  have hlast := casesFrom?_of_proper cs hblanks hcs
  rw [← hchars, ← hpos, h, Except.ok.injEq, Option.some.injEq, Prod.mk.injEq] at hlast
  refine ⟨.form w cs blanks, rfl, ?_, ?_, ?_⟩
  · rw [Written.chars, hrest, hchars]
    simp
  · rw [Written.Proper]
    exact ⟨hw, hcs, hblanks⟩
  · rw [hlast.2, hpos]
    simp [Written.chars, byteLength, byteLength_append, Char.utf8Size]
    omega

/-! ### Siblings -/

/-- An interpolation belongs to a text; one that does not end takes all there is. -/
theorem Recovers.interpolation (hn : Recovers n) {pending : Option Nat} {more : List Char}
    {next : Cursor} {nodes : List Node} {stop : Stop} (hlt : more.length < n)
    (h : (match (Cursor.mk (pos + 2) more).past? ['}', '}'] with
      | none => Except.ok ((flush (some (pending.getD pos))
          ((Cursor.mk pos ('{' :: '{' :: more)).skip ('{' :: '{' :: more).length).pos, Stop.eof),
          (Cursor.mk pos ('{' :: '{' :: more)).skip ('{' :: '{' :: more).length)
      | some after => siblingsFrom opened inCase (some (pending.getD pos)) after) =
        .ok ((nodes, stop), next)) :
    ∃ text ws, Parts opened inCase ⟨pos, '{' :: '{' :: more⟩ next.rest text ws := by
  split at h
  · next hpast =>
    have hbody : Text.cutFirst? ['}', '}'] more = none := by
      simpa [Cursor.past?] using hpast
    have hall := Cursor.skip_append pos ('{' :: '{' :: more) []
    rw [List.append_nil] at hall
    rw [hall] at h
    cases h
    refine ⟨'{' :: '{' :: more, [], ?_, rfl, .unclosed pos more hbody, ?_⟩
    · simp [charsAll]
    · rw [ProperAll]; rfl
  · next after hpast =>
    obtain ⟨body, hcut, hpos⟩ := Cursor.past?_eq_some.1 hpast
    obtain ⟨rfl, hends⟩ := Text.cutFirst?_eq_some.1 hcut
    have hshort := Cursor.length_past? hpast
    simp only [List.length_cons] at hshort hlt
    obtain ⟨text, ws, hparts⟩ := hn (by omega) h
    exact ⟨_, ws, hparts.interpolation hends hpos⟩

/-- A brace opens a form or, where the form breaks off, belongs to a text. -/
theorem Recovers.brace (hn : Recovers n) {pending : Option Nat} {cs : List Char} {next : Cursor}
    {nodes : List Node} {stop : Stop} (hbrace : cs.head? ≠ some '{') (hlt : cs.length < n)
    (h : (match formFrom? opened pos ⟨pos + 1, cs⟩ with
      | .error e => Except.error e
      | .ok (some (form, after)) => (siblingsFrom opened inCase none after).map
          (prepend (flush pending pos ++ [form]))
      | .ok none => siblingsFrom opened inCase (some (pending.getD pos)) ⟨pos + 1, cs⟩) =
        .ok ((nodes, stop), next)) :
    ∃ text ws, Parts opened inCase ⟨pos, '{' :: cs⟩ next.rest text ws := by
  split at h
  · cases h
  · next form after hform =>
    rw [formFrom?_eq] at hform
    split at hform
    · cases hform
    · next header behind hheader =>
      have hshort := length_of_headerFrom? hheader
      split at hform
      · cases hform
      · cases hform
      · next cases last hcases =>
        cases hform
        have hshort' := length_of_casesFrom? hcases
        simp only at hshort
        exact hn.behind (hn.form (by omega) hheader hcases) (by omega) h
  · next hform =>
    obtain ⟨text, ws, hparts⟩ := hn hlt h
    exact ⟨_, ws, hparts.brace hbrace (formFrom?_eq_none.1 hform)⟩

theorem Recovers.siblings (hn : Recovers n) {pending : Option Nat} {s next : Cursor}
    {nodes : List Node} {stop : Stop} (hle : s.rest.length ≤ n)
    (h : siblingsFrom opened inCase pending s = .ok ((nodes, stop), next)) :
    ∃ text ws, Parts opened inCase s next.rest text ws := by
  rw [siblingsFrom_eq] at h
  obtain ⟨pos, rest⟩ := s
  cases rest with
  | nil =>
    cases h
    exact ⟨[], [], .nothing rfl⟩
  | cons c cs =>
    have hspec := opening_spec inCase c cs
    simp only [List.length_cons] at h hle
    cases hO : Opening.of inCase c cs with
    | comment =>
      rw [hO] at h hspec
      obtain ⟨rfl, more, rfl⟩ := hspec
      simp only at h
      split at h
      · cases h
      · next after hpast =>
        obtain ⟨w, hw, hrest, hpos⟩ := exists_comment rfl hpast
        have hlt := Cursor.length_past? hpast
        simp only [Cursor.length_skip, List.length_cons] at hlt hle
        exact hn.behind (.comment hw hrest hpos) (by omega) h
    | declaration =>
      rw [hO] at h hspec
      obtain ⟨rfl, d, more, rfl, hd, hdash⟩ := hspec
      simp only at h
      split at h
      · cases h
      · next after hpast =>
        obtain ⟨w, hw, hrest, hpos⟩ := exists_declaration rfl hd hdash hpast
        have hlt := Cursor.length_past? hpast
        simp only [List.length_cons, List.length_nil] at hlt hle
        exact hn.behind (.comment hw hrest hpos) (by omega) h
    | endTag =>
      rw [hO] at h
      cases h
      refine ⟨[], [], .nothing (?_ : _ = some Stop.close)⟩
      simp only [stopOf, hO]
    | caseEnd =>
      rw [hO] at h
      cases h
      refine ⟨[], [], .nothing (?_ : _ = some Stop.caseEnd)⟩
      simp only [stopOf, hO]
    | element =>
      rw [hO] at h hspec
      obtain ⟨rfl, d, more, rfl, hletter⟩ := hspec
      simp only [Cursor.skip_one] at h
      split at h
      · cases h
      · next el after hel =>
        have hshort := length_of_map_plain hel
        simp only [List.length_cons] at hshort hle
        exact hn.behind (hn.element hletter (by omega) hel) (by omega) h
    | interpolation =>
      rw [hO] at h hspec
      obtain ⟨rfl, more, rfl⟩ := hspec
      simp only [List.length_cons] at hle
      exact hn.interpolation (by omega) h
    | brace =>
      rw [hO] at h hspec
      obtain ⟨rfl, hbrace⟩ := hspec
      simp only [Cursor.skip_one] at h
      exact hn.brace hbrace hle h
    | text =>
      rw [hO] at h
      simp only [Cursor.skip_one] at h
      obtain ⟨a, b, hab, ha, -, hskip⟩ := Cursor.exists_skipWhile isPlain
        ⟨pos + c.utf8Size, cs⟩
      rw [hskip] at h
      have hlen := congrArg List.length hab
      simp only [List.length_append] at hlen hab
      obtain ⟨text, ws, hparts⟩ := hn (by simp only; omega) h
      subst hab
      exact ⟨_, ws, .char hO (.plain ha hparts)⟩
end

theorem recovers : ∀ n, Recovers n
  | 0 => fun hlt _ => absurd hlt (Nat.not_lt_zero _)
  | n + 1 => fun hlt h => Recovers.siblings (@recovers n) (Nat.le_of_lt_succ hlt) h

/-! ### Templates -/

theorem parse_eq (text : String) :
    parse text =
      match siblingsFrom [] false none (.ofString text) with
      | .error e => .error e
      | .ok ((nodes, stop), next) =>
        match stop with
        | .eof => .ok nodes
        | .close | .caseEnd => .error (strayClose next) := by
  rw [parse, siblingsFrom]
  cases readSiblings [] false none (.ofString text) with
  | error e => rfl
  | ok run =>
    obtain ⟨⟨nodes, stop⟩, next, hshort⟩ := run
    rfl

theorem stopOf_eq_eof {inCase : Bool} {cs : List Char} : stopOf inCase cs = some .eof ↔ cs = [] := by
  constructor
  · intro h
    cases cs with
    | nil => rfl
    | cons c cs =>
      rw [stopOf] at h
      cases hO : Opening.of inCase c cs <;> rw [hO] at h <;> cases h
  · rintro rfl; rfl

/-- A template written out in full. -/
def IsTemplate (ws : List Written) : Prop := ProperAll [] false 0 [] ws

theorem IsTemplate.parse {ws : List Written} (h : IsTemplate ws) :
    parse (String.ofList (charsAll ws)) = .ok (nodesAll 0 ws) := by
  have hread := siblingsFrom_of_proper ws h (stopOf_eq_eof.2 rfl) none fun _ => rfl
  rw [List.append_nil] at hread
  rw [parse_eq, Cursor.ofString, String.toList_ofList, hread]
  rfl

/-- What is read as a template is what is written as one. -/
theorem parse_eq_ok_iff {text : String} {nodes : List Node} :
    parse text = .ok nodes ↔
      ∃ ws, IsTemplate ws ∧ text.toList = charsAll ws ∧ nodes = nodesAll 0 ws := by
  constructor
  · intro h
    rw [parse_eq] at h
    split at h
    · cases h
    · next found stop next hread =>
      obtain ⟨front, ws, hparts⟩ := recovers _ (Nat.lt_succ_self _) hread
      obtain ⟨hstop, hnodes, -⟩ := hparts.eq_of_siblingsFrom hread
      cases stop with
      | close => cases h
      | caseEnd => cases h
      | eof =>
        cases h
        have hproper := hparts.properAll
        have hrest : text.toList = front ++ (charsAll ws ++ next.rest) := hparts.rest
        rw [stopOf_eq_eof.1 hstop] at hproper hrest
        refine ⟨textBefore front ws, hproper, ?_, hnodes⟩
        rw [charsAll_textBefore, hrest, List.append_nil]
  · rintro ⟨ws, hws, htext, rfl⟩
    rw [← hws.parse, ← htext, String.ofList_toList]

end RouterShift.Markup
