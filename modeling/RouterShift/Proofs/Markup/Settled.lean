import RouterShift.Proofs.Markup.Onward

/-! Texts that stay texts. A brace in a text is one that opens no expansion form, and that may be
    due to what stands behind the text. In a settled text it is not: each brace breaks off within
    the text, so what follows the text may be rewritten. -/

namespace RouterShift.Markup
open Text (Cursor StopsBefore stopsBefore_cons stopsBefore_append byteLength isAsciiBlank)

/-- The expansion form that a brace in front of a text would open breaks off within the text, at the
    latest in front of its first case. -/
def breaksOff (cs : List Char) : Bool :=
  match headerFrom? ⟨0, cs⟩ with
  | none => true
  | some (_, behind) =>
    let label := (behind.skipWhile isAsciiBlank).take isLabelChar
    match (label.2.skipWhile isAsciiBlank).rest with
    | [] => false
    | d :: _ => label.1.isEmpty == (d == '{')

/-- Every brace of a text breaks off, those of interpolations apart. -/
def isSettled (cs : List Char) : Bool :=
  match cs with
  | [] => true
  | '{' :: '{' :: cs =>
    match hcut : Text.cutFirst? ['}', '}'] cs with
    | none => true
    | some (_, rest) =>
      have : rest.length < cs.length := Text.length_lt_of_cutFirst? hcut (List.cons_ne_nil _ _)
      isSettled rest
  | '{' :: cs => breaksOff cs && isSettled cs
  | _ :: cs => isSettled cs
termination_by cs.length

theorem isSettled_char {c : Char} (hc : c ≠ '{') (cs : List Char) :
    isSettled (c :: cs) = isSettled cs := by
  rw [isSettled]
  · rintro more rfl
    exact absurd rfl hc
  · rintro rfl
    exact absurd rfl hc

theorem isSettled_interpolation {body : List Char} (hbody : EndsFirst ['}', '}'] body)
    (cs : List Char) : isSettled ('{' :: '{' :: (body ++ '}' :: '}' :: cs)) = isSettled cs := by
  have hcut : Text.cutFirst? ['}', '}'] (body ++ '}' :: '}' :: cs) = some (body, cs) := by
    have := (Text.cutFirst?_append cs).2 hbody
    rwa [List.append_assoc] at this
  rw [isSettled]
  split
  · next h => rw [hcut] at h; cases h
  · next h => rw [hcut] at h; cases h; rfl

theorem isSettled_brace {cs : List Char} (hcs : cs.head? ≠ some '{') :
    isSettled ('{' :: cs) = (breaksOff cs && isSettled cs) := by
  rw [isSettled]
  rintro more rfl
  exact hcs rfl

/-! ### What stands behind -/

theorem isPlain_of_isHeaderChar {c : Char} (h : isHeaderChar c = true) : isPlain c = true := by
  simp only [isHeaderChar, Bool.and_eq_true, bne_iff_ne] at h
  simp [isPlain, h]

theorem WrittenHeader.Proper.plain {header : WrittenHeader} (h : header.Proper) :
    ∀ c ∈ header.chars, isPlain c = true := by
  intro c hc
  have hchars : header.chars = header.switchValue ++ ([','] ++ (header.kind ++ [','])) := rfl
  rw [hchars, List.mem_append, List.mem_append, List.mem_append, List.mem_singleton] at hc
  rcases hc with hc | rfl | hc | rfl
  · exact isPlain_of_isHeaderChar (h.switchChars c hc)
  · rfl
  · exact isPlain_of_isHeaderChar (h.kindChars c hc)
  · rfl

/-- Plain characters do not reach past a text. -/
theorem exists_append_of_plain {a b cs cont : List Char} (h : cs ++ cont = a ++ b)
    (ha : ∀ c ∈ a, isPlain c = true) (hcont : StopsBefore isPlain cont) :
    ∃ more, cs = a ++ more ∧ b = more ++ cont := by
  rcases List.append_eq_append_iff.1 h with ⟨front, rfl, rfl⟩ | ⟨more, rfl, rfl⟩
  · cases front with
    | nil => exact ⟨[], by simp, by simp⟩
    | cons c front =>
      have hc := hcont c rfl
      rw [ha c (by simp)] at hc
      cases hc
  · exact ⟨more, rfl, rfl⟩

theorem stopsBefore_append_of_ne_nil {keep : Char → Bool} {a b : List Char} (ha : a ≠ [])
    (h : StopsBefore keep a) : StopsBefore keep (a ++ b) := by
  rw [StopsBefore, head?_append_of_ne_nil ha]
  exact h

/-- The cases that a text does not get to are not there. -/
theorem casesFrom?_eq_none {behind : Cursor} {d : Char} {ds : List Char} (opened : List String)
    (pos : Nat) (cont : List Char)
    (hbrace : (((behind.skipWhile isAsciiBlank).take isLabelChar).2.skipWhile isAsciiBlank).rest =
      d :: ds)
    (hd : (((behind.skipWhile isAsciiBlank).take isLabelChar).1.isEmpty == (d == '{')) = true) :
    casesFrom? opened ⟨pos, behind.rest ++ cont⟩ = .ok none := by
  obtain ⟨blanks, rest, hrest, hblanks, hstop, hskip⟩ := Cursor.exists_skipWhile isAsciiBlank behind
  rw [hskip] at hbrace hd
  obtain ⟨label, rest', hrest', hlabel, hstop', htake⟩ := Cursor.exists_take isLabelChar
    ⟨behind.pos + byteLength blanks, rest⟩
  rw [htake] at hbrace hd
  obtain ⟨gap, rest'', hrest'', hgap, hstop'', hskip'⟩ := Cursor.exists_skipWhile isAsciiBlank
    ⟨behind.pos + byteLength blanks + byteLength label, rest'⟩
  rw [hskip'] at hbrace
  simp only at hbrace hd hrest' hrest''
  subst hbrace hrest'' hrest'
  have hne : gap ++ d :: ds ≠ [] := by simp
  have hne' : label ++ (gap ++ d :: ds) ≠ [] := by simp
  have h1 := Cursor.skipWhile_append pos hblanks (@stopsBefore_append_of_ne_nil _ _ cont hne' hstop)
  have h2 := Cursor.take_append (pos + byteLength blanks) hlabel
    (@stopsBefore_append_of_ne_nil _ _ cont hne hstop')
  have h3 := Cursor.skipWhile_append (pos + byteLength blanks + byteLength label) hgap
    (@stopsBefore_append_of_ne_nil _ _ cont (List.cons_ne_nil d ds) hstop'')
  rw [casesFrom?_eq, hrest]
  simp only [List.append_assoc] at h1 h2 h3 ⊢
  simp only [h1, h2, h3]
  cases label with
  | nil =>
    have hgap' : gap = [] := by
      cases gap with
      | nil => rfl
      | cons c gap =>
        have hc := hstop c rfl
        rw [hgap c List.mem_cons_self] at hc
        cases hc
    subst hgap'
    obtain rfl : d = '{' := by simpa using hd
    simp
  | cons c label =>
    have hc := hlabel c List.mem_cons_self
    have hclose : ¬ c = '}' := by rintro rfl; cases hc
    have hd' : d ≠ '{' := by simpa using hd
    simp [hclose, hd']

theorem formFrom?_of_breaksOff {cs cont : List Char} (h : breaksOff cs = true)
    (hcont : StopsBefore isPlain cont) (opened : List String) (start pos : Nat) :
    formFrom? opened start ⟨pos, cs ++ cont⟩ = .ok none := by
  rw [formFrom?_eq]
  cases hheader : headerFrom? ⟨pos, cs ++ cont⟩ with
  | none => rfl
  | some r =>
    obtain ⟨header, ⟨last, rest⟩⟩ := r
    obtain ⟨w, hchars, hw⟩ := exists_of_headerFrom? hheader
    obtain ⟨more, rfl, rfl⟩ := exists_append_of_plain hchars hw.plain hcont
    rw [breaksOff, headerFrom?_of_proper hw] at h
    simp only at h ⊢
    split at h
    · cases h
    · next d ds hbrace => rw [casesFrom?_eq_none opened last cont hbrace h]

/-! ### Texts in front of another text -/

/-- A text takes the place of another behind some siblings: it starts the same way, or with a tag. -/
def StartsLike (after cont : List Char) : Prop :=
  cont.head? = after.head? ∨ cont.head? = some '<'

section
variable {after cont : List Char}

theorem StartsLike.append (h : StartsLike after cont) (cs : List Char) :
    StartsLike (cs ++ after) (cs ++ cont) := by
  cases cs with
  | nil => exact h
  | cons c cs => exact .inl rfl

theorem StartsLike.stopsBefore (h : StartsLike after cont) (hafter : StopsBefore isPlain after) :
    StopsBefore isPlain cont := by
  rcases h with h | h
  · rw [StopsBefore, h]
    exact hafter
  · intro c hc
    rw [h] at hc
    cases hc
    rfl

theorem StartsLike.opening_eq_text (h : StartsLike after cont) {inCase : Bool} {c : Char}
    (hc : Opening.of inCase c after = .text) : Opening.of inCase c cont = .text := by
  by_cases hlt : c = '<'
  · subst hlt
    cases cont with
    | nil => rfl
    | cons d more =>
      rcases h with h | h
      · obtain ⟨more', rfl⟩ := List.head?_eq_some_iff.1 h.symm
        -- which opening it is, if any, the one character behind decides
        simp only [Opening.of, if_true] at hc ⊢
        by_cases hd : (d = '!' || d = '?') = true
        · rw [hd] at hc
          split at hc <;> cases hc
        · have hd' : d ≠ '!' := by rintro rfl; exact hd rfl
          simp only [hd', decide_false, Bool.false_and] at hc ⊢
          exact hc
      · cases h
        rfl
  · simp only [Opening.of, if_neg hlt] at hc ⊢
    by_cases hbrace : c = '{'
    · rw [if_pos hbrace] at hc
      split at hc <;> cases hc
    · rw [if_neg hbrace] at hc ⊢
      exact hc

end

theorem ne_brace_of_opening {inCase : Bool} {c : Char} {cs : List Char}
    (h : Opening.of inCase c cs = .text) : c ≠ '{' := by
  rintro rfl
  simp only [Opening.of, if_neg (by decide : ¬ '{' = '<'), if_true] at h
  split at h <;> cases h

/-- An interpolation that is not closed is not closed either by a text without closing braces. -/
theorem cutFirst?_append_eq_none : ∀ {body cont : List Char},
    Text.cutFirst? ['}', '}'] body = none → '}' ∉ cont →
      Text.cutFirst? ['}', '}'] (body ++ cont) = none
  | [], [], _, _ => rfl
  | [], c :: cont, h, hcont => by
    have hc : ¬ '}' = c := by rintro rfl; exact hcont List.mem_cons_self
    have ih := cutFirst?_append_eq_none h fun hmem => hcont (List.mem_cons_of_mem c hmem)
    rw [List.nil_append] at ih ⊢
    rw [Text.cutFirst?, ih]
    simp [Text.afterStart?, hc]
  | c :: body, cont, h, hcont => by
    rw [Text.cutFirst?] at h
    cases hstart : Text.afterStart? ['}', '}'] (c :: body) with
    | some rest => rw [hstart] at h; cases h
    | none =>
      rw [hstart] at h
      have ih := cutFirst?_append_eq_none (Option.map_eq_none_iff.1 h) hcont
      have hstart' : Text.afterStart? ['}', '}'] (c :: (body ++ cont)) = none := by
        rw [Text.afterStart?_eq_none] at hstart ⊢
        intro rest heq
        simp only [List.cons_append, List.nil_append, List.cons.injEq] at heq
        obtain ⟨rfl, heq⟩ := heq
        cases body with
        | nil =>
          rw [List.nil_append] at heq
          exact hcont (heq ▸ List.mem_cons_self)
        | cons d body =>
          obtain ⟨rfl, -⟩ := List.cons.inj heq
          exact hstart body rfl
      rw [List.cons_append, Text.cutFirst?, hstart', ih]
      rfl

/-- A settled text is read as a text in front of another text, too. -/
theorem Run.settled {around opened : List String} {inCase : Bool} {P : Stop → List Char → Prop}
    {pos : Nat} {cs after cont : List Char} (htext : TextRun around inCase pos cs after)
    (hsettled : isSettled cs = true) (hstart : StartsLike after cont)
    (hplain : StopsBefore isPlain cont)
    (hover : after = [] → '}' ∉ cont ∧ Run opened inCase P []) (h : Run opened inCase P cont) :
    Run opened inCase P (cs ++ cont) := by
  induction htext with
  | done pos after => exact h
  | char pos c cs after hc _ ih =>
    rw [isSettled_char (ne_brace_of_opening hc)] at hsettled
    have hc' := (hstart.append cs).opening_eq_text hc
    have hone : ∀ pos, TextRun opened inCase pos [c] (cs ++ cont) :=
      fun pos => .char pos c [] _ hc' (.done _ _)
    have := Run.textRun hone (ih hsettled hstart hover)
    simpa using this
  | interpolation pos body cs after hbody _ ih =>
    rw [isSettled_interpolation hbody] at hsettled
    have hrun := ih hsettled hstart hover
    have := Run.textRun (fun pos => .interpolation pos body [] (cs ++ cont) hbody (.done _ _)) hrun
    simpa using this
  | unclosed pos body hbody =>
    obtain ⟨hcont, heof⟩ := hover rfl
    have := Run.textRun (fun pos => .unclosed pos (body ++ cont)
      (cutFirst?_append_eq_none hbody hcont)) heof
    simpa using this
  | brace pos cs after hopen _ _ ih =>
    have hbrace : cs.head? ≠ some '{' := by
      cases cs with
      | nil => simp
      | cons c cs => exact hopen
    rw [isSettled_brace hbrace, Bool.and_eq_true] at hsettled
    have hopen' : (cs ++ cont).head? ≠ some '{' := by
      rcases hstart.append cs with h | h
      · rw [h]
        exact hopen
      · rw [h]
        decide
    have hone : ∀ pos, TextRun opened inCase pos ['{'] (cs ++ cont) := by
      intro pos
      refine .brace pos [] _ hopen' ?_ (.done _ _)
      exact formFrom?_eq_none.1 (formFrom?_of_breaksOff hsettled.1 hplain opened pos (pos + 1))
    have := Run.textRun hone (ih hsettled.2 hstart hover)
    simpa using this

end RouterShift.Markup
