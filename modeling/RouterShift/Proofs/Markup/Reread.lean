import RouterShift.Proofs.Markup.Replaced
import RouterShift.Proofs.Markup.Settled

/-! A migrated template is read again. The induction goes over the template as it is written, from
    the end: what a piece becomes is read on if what comes behind it is (`resumesAll`). The elements
    that are open in the migrated text are those of the template under their new names, and some
    more outlets, which had no end tag and whose place another one's took; an end tag finds its
    element among them all the same. -/

namespace RouterShift.Markup
open Text (StopsBefore stopsBefore_cons stopsBefore_append isAsciiBlank)
open Edit (after)

/-- Siblings that end at `cont` may stand in place of siblings that end at `after`, inside of the
    elements `inner` and maybe more. -/
structure Resumes (opened : List String) (inCase : Bool) (final : Stop → List Char → Prop)
    (inner : List String) (after cont : List Char) : Prop where
  start : StartsLike after cont
  /-- At the end of the text there may be end tags that were put in, and nothing else. -/
  ended : after = [] → '}' ∉ cont ∧ final .eof []
  readsOn : ∀ more, inner.Sublist more → ReadsOn opened inCase final more cont

/-- A text that may be the content of an outlet. -/
def Embeds (inCase : Bool) (body : List Char) : Prop :=
  ∀ (opened : List String) (final : Stop → List Char → Prop) (inner : List String)
    (cont : List Char), Resumes opened inCase final inner outletEnd.toList cont →
      ∀ more, inner.Sublist more → ReadsOn opened inCase final more (body ++ cont)

mutual
/-- What is asked of a template, for the text it becomes to be read piece by piece again: no value
    that is pasted has a double quote in it, texts are settled, and what an element has for text
    that becomes an outlet may be the content of one. -/
def Written.Stable (inCase : Bool) : Written → Prop
  | .text cs => isSettled cs = true
  | .comment _ => True
  | .single tag => ∀ value ∈ tag.pasted, '"' ∉ value
  | .raw tag body _ =>
    (∀ value ∈ tag.pasted, '"' ∉ value) ∧ (tag.view?.isSome = true → Embeds inCase body)
  | .container tag children _ => (∀ value ∈ tag.pasted, '"' ∉ value) ∧ StableAll inCase children
  | .form _ cases _ => StableCases cases

def StableAll (inCase : Bool) : List Written → Prop
  | [] => True
  | w :: ws => w.Stable inCase ∧ StableAll inCase ws

def StableCases : List WrittenCase → Prop
  | [] => True
  | .mk _ _ _ children :: cs => StableAll true children ∧ StableCases cs
end

/-! ### Behind a text -/

theorem stopsBefore_isPlain_stop {inCase : Bool} : ∀ {cs : List Char},
    (stopOf inCase cs).isSome = true → StopsBefore isPlain cs
  | [], _ => by intro c hc; cases hc
  | c :: cs, h => by
    obtain ⟨stop, hstop⟩ := Option.isSome_iff_exists.1 h
    have hne : isPlain c = false := by
      by_contra hplain
      rw [Bool.not_eq_false] at hplain
      rw [stopOf, opening_of_isPlain hplain] at hstop
      cases hstop
    exact stopsBefore_cons hne

/-! ### What elements become -/

/-- The end of an element once it is migrated. -/
def WrittenTag.ending (t : WrittenTag) (isDone : Bool) : Option WrittenEnd → List Char
  | some e => (e.replaced t).chars
  | none => if t.view?.isSome && !isDone then outletEndTag.chars else []

theorem after_single (tag : WrittenTag) : after (Written.single tag).pieces =
    tag.replaced.chars ++ if tag.view?.isSome then outletEndTag.chars else [] := by
  rw [Written.pieces]
  cases hview : tag.view? with
  | some name =>
    simp [WrittenTag.chars_replaced_outlet hview, chars_outletEndTag]
  | none => simp [WrittenTag.chars_replaced hview]

theorem after_raw (tag : WrittenTag) (body : List Char) (stop : WrittenEnd) :
    after (Written.raw tag body stop).pieces =
      tag.replaced.chars ++ (body ++ (stop.replaced tag).chars) := by
  rw [Written.pieces]
  cases hview : tag.view? with
  | some name =>
    simp [WrittenTag.chars_replaced_outlet hview, WrittenEnd.chars_replaced_outlet hview]
  | none => simp [WrittenTag.chars_replaced hview, WrittenEnd.chars_replaced hview]

theorem after_container (tag : WrittenTag) (children : List Written) (stop : Option WrittenEnd) :
    after (Written.container tag children stop).pieces = tag.replaced.chars ++
      (after (piecesAll children) ++ tag.ending (insertsLast children) stop) := by
  rw [Written.pieces]
  cases hview : tag.view? with
  | some name =>
    simp only [Edit.after_cons, Edit.after_append, Edit.Piece.after_swap,
      WrittenTag.chars_replaced_outlet hview]
    cases stop with
    | some e => simp [outletStop, WrittenTag.ending, WrittenEnd.chars_replaced_outlet hview]
    | none =>
      cases insertsLast children <;>
        simp [outletStop, WrittenTag.ending, hview, chars_outletEndTag]
  | none =>
    simp only [Edit.after_append, WrittenTag.chars_replaced hview]
    cases stop with
    | some e => simp [stopPieces, WrittenTag.ending, WrittenEnd.chars_replaced hview]
    | none => simp [stopPieces, WrittenTag.ending, hview]

/-- Every piece starts with the character it started with; but for a text, it opens something. -/
theorem Written.head_pieces (w : Written) {opened : List String} {inCase : Bool} {pos : Nat}
    {back : List Char} (h : w.Proper opened inCase pos back) : ∃ c x y,
      w.chars = c :: x ∧ after w.pieces = c :: y ∧ (w.isText = false → isPlain c = false) := by
  cases w with
  | text cs =>
    rw [Written.Proper] at h
    obtain ⟨c, x, rfl⟩ := List.exists_cons_of_ne_nil h.1
    exact ⟨c, x, x, by rw [Written.chars], by simp [Written.pieces], fun h => by cases h⟩
  | comment cs =>
    rw [Written.Proper] at h
    obtain ⟨x, rfl⟩ : ∃ x, cs = '<' :: x := by cases h <;> exact ⟨_, rfl⟩
    exact ⟨'<', x, x, by rw [Written.chars], by simp [Written.pieces], fun _ => rfl⟩
  | single tag =>
    rw [Written.chars, after_single]
    exact ⟨'<', _, _, rfl, rfl, fun _ => rfl⟩
  | raw tag body stop =>
    rw [Written.chars, after_raw]
    exact ⟨'<', _, _, rfl, rfl, fun _ => rfl⟩
  | container tag children stop =>
    rw [Written.chars, after_container]
    exact ⟨'<', _, _, rfl, rfl, fun _ => rfl⟩
  | form header cases blanks =>
    rw [Written.chars, Written.pieces]
    exact ⟨'{', _, _, rfl, rfl, fun _ => rfl⟩

theorem stopsBefore_isPlain : ∀ (ws : List Written) {opened : List String} {inCase : Bool}
    {pos : Nat} {back : List Char}, ProperAll opened inCase pos back ws →
      startsWithText ws = false → StopsBefore isPlain (charsAll ws ++ back)
  | [], _, _, _, _, h, _ => by
    rw [ProperAll] at h
    exact stopsBefore_isPlain_stop h
  | w :: ws, _, _, _, _, h, htext => by
    rw [ProperAll] at h
    obtain ⟨c, x, y, hchars, -, hc⟩ := w.head_pieces h.1
    rw [charsAll, hchars]
    exact stopsBefore_cons (hc htext)

/-! ### Ends -/

theorem outletEndTag_proper : outletEndTag.Proper :=
  ⟨List.all_eq_true.1 (by decide), fun c hc => by cases hc⟩

theorem sameName_outlet {t : WrittenTag} (h : t.view?.isSome = true) :
    sameName (String.ofList outletEndTag.name) (String.ofList t.replaced.name) = true := by
  obtain ⟨name, hname⟩ := Option.isSome_iff_exists.1 h
  rw [WrittenTag.replaced, hname]
  exact (by decide : sameName (String.ofList Vocabulary.routerOutlet.toList)
    (String.ofList Vocabulary.routerOutlet.toList) = true)

section
variable {opened : List String} {inCase : Bool} {final : Stop → List Char → Prop}
  {inner : List String} {name : String} {back cont : List Char}

/-- The end tag of an element leads out of it. -/
theorem Resumes.stop {e e' : WrittenEnd} (he : e'.Proper)
    (hname : sameName (String.ofList e'.name) name = true)
    (h : Resumes opened inCase final inner back cont) (rest : List Char) :
    Resumes opened inCase final (name :: inner) (e.chars ++ rest) (e'.chars ++ cont) :=
  ⟨.inl rfl, fun hnil => (by cases hnil), fun _ hsub => ReadsOn.stop he hname h.readsOn hsub⟩

/-- So does an end tag that was put in, -/
theorem Resumes.inserted (hname : sameName (String.ofList outletEndTag.name) name = true)
    (h : Resumes opened inCase final inner back cont) :
    Resumes opened inCase final (name :: inner) back (outletEndTag.chars ++ cont) := by
  have hmem : '}' ∉ outletEndTag.chars := by decide
  refine ⟨.inr rfl, fun hnil => ?_,
    fun _ hsub => ReadsOn.stop outletEndTag_proper hname h.readsOn hsub⟩
  obtain ⟨hcont, hfinal⟩ := h.ended hnil
  refine ⟨fun hin => ?_, hfinal⟩
  rcases List.mem_append.1 hin with hin | hin
  · exact hmem hin
  · exact hcont hin

/-- and without one, an element is one of those that may be open as well. -/
theorem Resumes.implicit (h : Resumes opened inCase final inner back cont) :
    Resumes opened inCase final (name :: inner) back cont :=
  ⟨h.start, h.ended, fun more hsub => h.readsOn more ((List.sublist_cons_self name inner).trans hsub)⟩

theorem Resumes.ending {t : WrittenTag} {around : List String} {stop : Option WrittenEnd}
    (hstop : StopProper around inCase t.name back stop) (isDone : Bool)
    (h : Resumes opened inCase final inner back cont) :
    Resumes opened inCase final (String.ofList t.replaced.name :: inner) (stopChars stop ++ back)
      (t.ending isDone stop ++ cont) := by
  cases stop with
  | some e => exact h.stop (WrittenEnd.proper_replaced hstop.1) (sameName_replaced hstop.2) back
  | none =>
    rw [WrittenTag.ending]
    split
    · next hview => exact h.inserted (sameName_outlet (Bool.and_eq_true_iff.1 hview).1)
    · exact h.implicit

/-! ### Pieces without siblings in them -/

theorem Resumes.single {around : List String} {pos : Nat} {tag : WrittenTag}
    (h : (Written.single tag).Proper around inCase pos back)
    (hpasted : ∀ value ∈ tag.pasted, '"' ∉ value)
    (hback : Resumes opened inCase final inner back cont) {more : List String}
    (hsub : inner.Sublist more) :
    ReadsOn opened inCase final more (after (Written.single tag).pieces ++ cont) := by
  rw [Written.Proper] at h
  have hproper := tag.proper_replaced h.1 hpasted
  have hquiet := tag.isQuiet_replaced hpasted
  rw [after_single, List.append_assoc]
  cases hview : tag.view? with
  | none =>
    rw [Option.isSome_none, if_neg Bool.false_ne_true, List.nil_append]
    refine Run.single hproper ?_ hquiet (hback.readsOn more hsub)
    rw [(WrittenTag.kind_replaced hview).1]
    exact h.2
  | some name =>
    obtain ⟨hsingle, hraw⟩ := WrittenTag.kind_replaced_outlet hview
    have hend := hback.inserted (@sameName_outlet tag (by rw [hview]; rfl))
    rw [Option.isSome_some, if_pos rfl]
    exact ReadsOn.start hproper hsingle hraw hquiet (hend.readsOn _ (hsub.cons_cons _))

/-- A raw element stays one, or its text becomes the content of an outlet. -/
theorem Resumes.raw {around : List String} {pos : Nat} {tag : WrittenTag} {body : List Char}
    {stop : WrittenEnd} (h : (Written.raw tag body stop).Proper around inCase pos back)
    (hstable : (Written.raw tag body stop).Stable inCase)
    (hback : Resumes opened inCase final inner back cont) {more : List String}
    (hsub : inner.Sublist more) :
    ReadsOn opened inCase final more (after (Written.raw tag body stop).pieces ++ cont) := by
  rw [Written.Proper] at h
  rw [Written.Stable] at hstable
  obtain ⟨htag, hsingle, hraw, hstop, hseek⟩ := h
  obtain ⟨hpasted, hbody⟩ := hstable
  have hproper := tag.proper_replaced htag hpasted
  have hquiet := tag.isQuiet_replaced hpasted
  rw [after_raw, List.append_assoc, List.append_assoc]
  cases hview : tag.view? with
  | none =>
    have hkind := WrittenTag.kind_replaced hview
    have hout := isOutlet_of_isRaw hraw
    have hname : tag.replaced.name = tag.name := by
      rw [WrittenTag.name_replaced hview, hout, after_namePiece_false]
    have hchars : (stop.replaced tag).chars = stop.chars := by
      rw [WrittenEnd.chars_replaced hview, hout]
      simp [WrittenEnd.pieces, WrittenEnd.chars, namePiece]
    rw [hchars]
    refine Run.raw hproper (hkind.1.trans hsingle) (hkind.2.trans hraw) hstop ?_ hquiet
      (hback.readsOn more hsub)
    rw [hname]
    exact hseek
  | some name =>
    obtain ⟨hsingle', hraw'⟩ := WrittenTag.kind_replaced_outlet hview
    have hsome : tag.view?.isSome = true := by rw [hview]; rfl
    have hstop' : stop.replaced tag = outletEndTag := by rw [WrittenEnd.replaced, hview]
    have hend := @Resumes.stop _ _ _ _ _ _ _ outletEndTag _ outletEndTag_proper
      (sameName_outlet hsome) hback []
    rw [List.append_nil, chars_outletEndTag] at hend
    rw [hstop', chars_outletEndTag]
    exact ReadsOn.start hproper hsingle' hraw' hquiet (hbody hsome _ _ _ _ hend _ (hsub.cons_cons _))

theorem WrittenTag.kind_replaced_container {tag : WrittenTag} (hsingle : tag.isSingle = false)
    (hraw : tag.isRaw = false) : tag.replaced.isSingle = false ∧ tag.replaced.isRaw = false := by
  cases hview : tag.view? with
  | none =>
    have hkind := WrittenTag.kind_replaced hview
    exact ⟨hkind.1.trans hsingle, hkind.2.trans hraw⟩
  | some name => exact WrittenTag.kind_replaced_outlet hview

end

/-! ### Trees -/

mutual
/-- What a piece becomes is read on. -/
theorem Written.readsOn : ∀ (w : Written) {around : List String} {inCase : Bool} {pos : Nat}
    {back : List Char} {opened : List String} {final : Stop → List Char → Prop}
    {inner : List String} {cont : List Char}, w.Proper around inCase pos back → w.Stable inCase →
    (w.isText = true → StopsBefore isPlain back) → Resumes opened inCase final inner back cont →
    ∀ more, inner.Sublist more → ReadsOn opened inCase final more (after w.pieces ++ cont)
  | .text cs, _, inCase, _, _, opened, final, _, _, h, hstable, hplain, hback => by
    rw [Written.Proper] at h
    rw [Written.Stable] at hstable
    intro more hsub
    have hpieces : after (Written.text cs).pieces = cs := by simp [Written.pieces]
    rw [hpieces]
    refine Run.settled h.2 hstable hback.start (hback.start.stopsBefore (hplain rfl)) (fun hnil => ?_)
      (hback.readsOn more hsub)
    obtain ⟨hcont, hfinal⟩ := hback.ended hnil
    exact ⟨hcont, ReadsOn.over (stopOf_eq_eof.2 rfl) (by decide) hfinal more⟩
  | .comment cs, _, _, _, _, _, _, _, _, h, _, _, hback => by
    rw [Written.Proper] at h
    intro more hsub
    have hpieces : after (Written.comment cs).pieces = cs := by simp [Written.pieces]
    rw [hpieces]
    exact Run.comment h (hback.readsOn more hsub)
  | .single tag, _, _, _, _, _, _, _, _, h, hstable, _, hback => by
    rw [Written.Stable] at hstable
    exact fun more hsub => hback.single h hstable hsub
  | .raw tag body stop, _, _, _, _, _, _, _, _, h, hstable, _, hback =>
    fun more hsub => hback.raw h hstable hsub
  | .container tag children stop, _, inCase, _, back, opened, final, inner, cont, h, hstable, _,
      hback => by
    rw [Written.Proper] at h
    rw [Written.Stable] at hstable
    obtain ⟨htag, hsingle, hraw, hchildren, hstop⟩ := h
    obtain ⟨hpasted, hstable⟩ := hstable
    intro more hsub
    have hend := hback.ending hstop (insertsLast children)
    have hinside := resumesAll children hchildren hstable hend
    have hkind := WrittenTag.kind_replaced_container hsingle hraw
    rw [after_container, List.append_assoc, List.append_assoc]
    exact ReadsOn.start (tag.proper_replaced htag hpasted) hkind.1 hkind.2
      (tag.isQuiet_replaced hpasted) (hinside.readsOn _ (hsub.cons_cons _))
  | .form header cases blanks, _, inCase, _, back, opened, final, _, cont, h, hstable, _, hback => by
    rw [Written.Proper] at h
    rw [Written.Stable] at hstable
    obtain ⟨hheader, hcases, hblanks⟩ := h
    intro more hsub
    have hrun := @casesRun cases _ _ _ _ cont hcases hstable (more ++ opened) hblanks
    have hpieces : after (Written.form header cases blanks).pieces ++ cont =
        '{' :: (header.chars ++ (after (casesPieces cases) ++ (blanks ++ '}' :: cont))) := by
      simp [Written.pieces]
    rw [hpieces]
    exact Run.form hheader hrun (hback.readsOn more hsub)

/-- What siblings become is read on. -/
theorem resumesAll : ∀ (ws : List Written) {around : List String} {inCase : Bool} {pos : Nat}
    {back : List Char} {opened : List String} {final : Stop → List Char → Prop}
    {inner : List String} {cont : List Char}, ProperAll around inCase pos back ws →
    StableAll inCase ws → Resumes opened inCase final inner back cont →
      Resumes opened inCase final inner (charsAll ws ++ back) (after (piecesAll ws) ++ cont)
  | [], _, _, _, _, _, _, _, _, _, _, hback => by
    rw [charsAll, piecesAll, Edit.after_nil]
    exact hback
  | w :: ws, _, _, _, _, _, _, _, _, h, hstable, hback => by
    rw [ProperAll] at h
    rw [StableAll] at hstable
    obtain ⟨hw, halone, hws⟩ := h
    have ih := resumesAll ws hws hstable.2 hback
    have hread := w.readsOn hw hstable.1 (fun htext => stopsBefore_isPlain ws hws (halone htext)) ih
    obtain ⟨c, x, y, hchars, hpieces, -⟩ := w.head_pieces hw
    rw [charsAll, piecesAll, Edit.after_append, List.append_assoc, List.append_assoc]
    refine ⟨?_, fun hnil => ?_, hread⟩
    · rw [hchars, hpieces]
      exact .inl rfl
    · rw [hchars] at hnil
      cases hnil

/-- What cases become is read as cases. -/
theorem casesRun : ∀ (cs : List WrittenCase) {around : List String} {pos : Nat}
    {blanks back cont : List Char}, CasesProper around pos (blanks ++ '}' :: back) cs →
    StableCases cs → ∀ opened : List String, (∀ c ∈ blanks, isAsciiBlank c = true) →
      CasesRun opened cont (after (casesPieces cs) ++ (blanks ++ '}' :: cont))
  | [], _, _, _, _, _, _, _, _, hblanks => by
    rw [casesPieces, Edit.after_nil]
    exact .done hblanks
  | .mk front label gap children :: cs, _, _, blanks, back, cont, h, hstable, opened, hblanks => by
    rw [CasesProper, WrittenCase.Proper] at h
    rw [StableCases] at hstable
    obtain ⟨⟨hfront, hne, hlabel, hgap, hchildren⟩, hcs⟩ := h
    have ih := @casesRun cs _ _ _ _ cont hcs hstable.2 opened hblanks
    generalize hrest : after (casesPieces cs) ++ (blanks ++ '}' :: cont) = rest at ih
    have hchars : after (casesPieces (.mk front label gap children :: cs)) ++
        (blanks ++ '}' :: cont) =
          front ++ (label ++ (gap ++ '{' :: (after (piecesAll children) ++ '}' :: rest))) := by
      rw [← hrest]
      simp [casesPieces]
    have hend : Resumes opened true (fun stop more => stop = .caseEnd ∧ more = '}' :: rest) []
        ('}' :: (casesChars cs ++ (blanks ++ '}' :: back))) ('}' :: rest) := by
      refine ⟨.inl rfl, fun hnil => (by cases hnil), fun more _ => ?_⟩
      exact @ReadsOn.over _ _ _ _ .caseEnd rfl (by decide) ⟨rfl, rfl⟩ more
    have hinside := resumesAll children hchildren hstable.1 hend
    rw [hchars]
    exact .case hfront hne hlabel hgap (hinside.readsOn [] (List.Sublist.refl [])) ih
end

end RouterShift.Markup
