import RouterShift.Proofs.Markup.Scanning

/-! The scanner does what the reader does (`scan_eq`), so none of its checks ever fails: a scan ends
    with the nodes of the reader or with its error. The induction is on the characters that are left
    to read, also where the cursor goes back: what follows a form that breaks off starts behind its
    brace, so it has less to read than the form had. -/

namespace RouterShift.Markup.Scanner
open Grammar (Passes)
open Text (Cursor byteLength byteLength_append bytes)

variable {m : String} {c d : Cursor} {opened : List String} {depth : Nat} {s : State}

/-! ### Checks that hold -/

/-- A place with less to read is further on. -/
theorem Reaches.lt (h : Reaches c d) (hlt : d.rest.length < c.rest.length) : c.pos < d.pos := by
  obtain ⟨part, hrest, hpos⟩ := h
  have hne : part ≠ [] := by
    rintro rfl
    rw [hrest] at hlt
    exact absurd hlt (Nat.lt_irrefl _)
  have := Text.byteLength_pos hne
  omega

theorem Reaches.length_le (h : Reaches c d) : d.rest.length ≤ c.rest.length := by
  obtain ⟨part, hrest, -⟩ := h
  rw [hrest, List.length_append]
  omega

theorem length_skip_one {x : Char} {xs : List Char} (h : c.rest = x :: xs) :
    (c.skip 1).rest.length + 1 = c.rest.length := by
  rw [Cursor.length_skip, h, List.length_cons, Nat.add_sub_cancel]

theorem length_le_byteLength : ∀ cs : List Char, cs.length ≤ byteLength cs
  | [] => Nat.le_refl 0
  | x :: xs => by
    have := length_le_byteLength xs
    have := x.utf8Size_pos
    rw [byteLength, List.length_cons]
    omega

theorem Stands.length_le (h : Stands m c) : c.rest.length ≤ size m := by
  have := length_le_byteLength c.rest
  rw [h.size_eq]
  omega

/-- A text that is still open starts no later than the cursor stands. -/
def Pends (pending : Option Nat) (pos : Nat) : Prop := ∀ start ∈ pending, start ≤ pos

theorem Pends.none (pos : Nat) : Pends none pos := fun _ h => by cases h

theorem Pends.le {pending : Option Nat} {pos pos' : Nat} (h : Pends pending pos) (hle : pos ≤ pos') :
    Pends pending pos' := fun start hs => Nat.le_trans (h start hs) hle

theorem Pends.getD {pending : Option Nat} {pos : Nat} (h : Pends pending pos) :
    Pends (some (pending.getD pos)) pos := by
  rintro start ⟨⟩
  cases pending with
  | none => exact Nat.le_refl pos
  | some start => exact h start rfl

theorem run_flushText {pending : Option Nat} {stop : Nat} (h : Pends pending stop) :
    (flushText pending stop).run s = .ok (flush pending stop, s) := by
  cases pending with
  | none => rfl
  | some start => rw [flushText, run_bind_ok (run_range (h start rfl) _)]; rfl

theorem run_advanced {start : Nat} (h : start < s.pos) : (advanced start).run s = .ok ((), s) := by
  rw [advanced, run_bind_ok (run_here _), if_pos h]; rfl

theorem run_behind {construct : Nat} (h : construct < s.pos) :
    (behind construct).run s = .ok ((), s) := by
  rw [behind, run_bind_ok (run_here _), if_pos h]; rfl

/-! ### Where siblings stop -/

section
variable {inCase : Bool} {nodes : List Node} {next : Cursor}

theorem stopOf_of_siblingsFrom {stop : Stop}
    (h : siblingsFrom opened inCase none c = .ok ((nodes, stop), next)) :
    stopOf inCase next.rest = some stop := by
  obtain ⟨text, ws, hparts⟩ := recovers _ (Nat.lt_succ_self _) h
  exact (hparts.eq_of_siblingsFrom h).1

theorem stopOf_ne_caseEnd (cs : List Char) : stopOf false cs ≠ some .caseEnd := by
  intro h
  cases cs with
  | nil => cases h
  | cons x xs =>
    rw [stopOf] at h
    have hspec := opening_spec false x xs
    cases hO : Opening.of false x xs <;> rw [hO] at h hspec <;> cases h
    cases hspec.2

end

/-! ### Elements -/

section
variable {name : List Char} {tag : Tag} {inCase : Bool}

theorem reads_rawBody (h : Stands m c) (hname : tag.name = String.ofList name)
    (hsingle : (tag.selfClosing || tag.isVoid) = false) (hraw : isRawText tag.name = true) :
    Reads (rawBody m tag) opened depth c
      (bodyFrom opened inCase tag.startTag.start name tag c) := by
  rw [bodyFrom, hsingle, if_neg Bool.false_ne_true, if_pos hraw]
  refine Reads.of_run ((run_bind_ok (run_here _)).trans
    (run_bind_ok (run_text h (passes_end h)))) (.refl c) ?_
  have hlower := cutFirst?_lower (show ['<', '/'] ++ name.map Text.lower ≠ [] by simp) c.rest
  dsimp only
  simp only [hname, String.toList_ofList, show "</".toList = ['<', '/'] from rfl]
  cases hseek : seek? (['<', '/'] ++ name.map Text.lower) c.rest with
  | none =>
    rw [hseek, Option.map_none, Option.map_eq_none_iff] at hlower
    rw [hlower]
    rfl
  | some found =>
    obtain ⟨body, back⟩ := found
    obtain ⟨hrest, hprefix⟩ := seek?_eq_some hseek
    have hneedle : (endNeedle name).isPrefixOf (back.map Text.lower) = true := hprefix
    obtain ⟨more, hback⟩ := eq_cons_of_endNeedle hneedle
    have hpass : Passes c ⟨c.pos + byteLength body, back⟩ body := ⟨hrest, rfl⟩
    have hclose := h.next ⟨_, hpass⟩
    rw [hseek, Option.map_some, Option.map_eq_some_iff] at hlower
    obtain ⟨⟨body', rest'⟩, hcut, hlength⟩ := hlower
    have hlength : byteLength body' = byteLength body := hlength
    have hpends : Pends (if c.pos < c.pos + byteLength body then some c.pos else none)
        (c.pos + byteLength body) := by
      split
      · rintro start ⟨⟩; exact Nat.le_add_right _ _
      · exact .none _
    have hflush : flush (if c.pos < c.pos + byteLength body then some c.pos else none)
        (c.pos + byteLength body) =
          if body.isEmpty then [] else [Node.text ⟨c.pos, c.pos + byteLength body⟩] := by
      cases body with
      | nil => simp [byteLength, flush]
      | cons x xs => simp [Text.byteLength_pos (List.cons_ne_nil x xs), flush]
    rw [hcut]
    dsimp only
    rw [hlength, ← hflush]
    refine Reads.of_run ((run_bind_ok (run_flushText hpends)).trans
      (run_bind_ok (run_moveTo hclose))) ⟨_, hpass⟩ ?_
    have hend : (endTag m).run ⟨c.pos + byteLength body, opened, depth⟩ = _ :=
      run_endTag hclose hback
    obtain ⟨endTag, next, hread, hreach, hspan⟩ | hread := readEndTag_spec ⟨_, back⟩
    · rw [hread] at hend ⊢
      refine Reads.ok ?_ hreach
      rw [run_bind_ok hend, hspan, run_bind_ok (run_moveTo (hclose.next hreach))]
      rfl
    · rw [hread] at hend ⊢
      exact run_bind_error hend

theorem reads_closing {children : List Node} {stop : Stop} (h : Stands m d)
    (hsingle : (tag.selfClosing || tag.isVoid) = false) (hraw : isRawText tag.name = false)
    (hread : siblingsFrom (tag.name :: opened) inCase none c = .ok ((children, stop), d))
    (start : Nat) :
    Reads (closing m tag children stop) opened depth d (bodyFrom opened inCase start name tag c) := by
  rw [bodyFrom, hsingle, hraw, if_neg Bool.false_ne_true, if_neg Bool.false_ne_true, hread]
  refine Reads.of_run (run_bind_ok (run_here _)) (.refl d) ?_
  have hstop := stopOf_of_siblingsFrom hread
  cases stop with
  | eof => exact .ok rfl (.refl d)
  | caseEnd => exact .ok rfl (.refl d)
  | close =>
    obtain ⟨more, hmore⟩ := exists_of_stopOf_close hstop
    dsimp only
    have hend : (endTag m).run ⟨d.pos, opened, depth⟩ = _ := run_endTag h hmore
    obtain ⟨endTag, next, hread, hreach, hspan⟩ | hread := readEndTag_spec d
    · rw [hread] at hend ⊢
      refine Reads.of_run (run_bind_ok hend) (.refl d) ?_
      dsimp only
      split
      · refine .ok ?_ hreach
        rw [hspan, run_bind_ok (run_moveTo (h.next hreach))]
        rfl
      · have hget : (get : Scan State).run ⟨d.pos, opened, depth⟩ =
            .ok (⟨d.pos, opened, depth⟩, ⟨d.pos, opened, depth⟩) := rfl
        refine Reads.of_run (run_bind_ok hget) (.refl d) ?_
        dsimp only
        split
        · exact .ok rfl (.refl d)
        · rfl
    · rw [hread] at hend ⊢
      exact run_bind_error hend

end

/-! ### Nodes -/

/-- Siblings of fewer than `n` characters are scanned as they are read. A round of the loop and a
    call are allowed for each character. -/
def Follows (m : String) (n : Nat) : Prop :=
  ∀ {fuel : Nat} {nodes : List Node} {pending : Option Nat} {opened : List String} {depth : Nat}
    {c : Cursor}, Stands m c → c.rest.length < n → 2 * c.rest.length + 1 ≤ fuel →
    Pends pending c.pos →
      Reads (siblings m fuel nodes pending) opened depth c
        ((siblingsFrom opened (decide (0 < depth)) pending c).map (prepend nodes))

section
variable {n fuel : Nat}

theorem Follows.body (hn : Follows m n) (h : Stands m c) {tag : Tag} {name : List Char} {start : Nat}
    (hname : tag.name = String.ofList name) (hstart : tag.startTag.start = start)
    (hpos : start < c.pos) (hlt : c.rest.length < n) (hfuel : 2 * c.rest.length + 1 ≤ fuel) :
    Reads (body m tag (siblings m fuel [] none)) opened depth c
      (bodyFrom opened (decide (0 < depth)) start name tag c) := by
  subst hstart
  rw [Scanner.body]
  cases hsingle : tag.selfClosing || tag.isVoid with
  | true =>
    rw [bodyFrom, hsingle]
    exact .ok rfl (.refl c)
  | false =>
    rw [if_neg Bool.false_ne_true]
    cases hraw : isRawText tag.name with
    | true => exact reads_rawBody h hname hsingle hraw
    | false =>
      rw [if_neg Bool.false_ne_true]
      have hpush : (modify fun s => { s with opened := tag.name :: s.opened } : Scan PUnit).run
          ⟨c.pos, opened, depth⟩ = .ok ((), ⟨c.pos, tag.name :: opened, depth⟩) := rfl
      have hinside : Reads (siblings m fuel [] none) (tag.name :: opened) depth c _ :=
        hn h hlt hfuel (.none _)
      cases hread : siblingsFrom (tag.name :: opened) (decide (0 < depth)) none c with
      | error e =>
        rw [hread] at hinside
        rw [bodyFrom, hsingle, hraw, if_neg Bool.false_ne_true, if_neg Bool.false_ne_true, hread]
        exact (run_bind_ok hpush).trans ((run_bind_ok (run_behind hpos)).trans
          (run_bind_error hinside))
      | ok r =>
        obtain ⟨⟨children, stop⟩, next⟩ := r
        rw [hread] at hinside
        have hpop : (modify fun s => { s with opened := s.opened.tail } : Scan PUnit).run
            ⟨next.pos, tag.name :: opened, depth⟩ = .ok ((), ⟨next.pos, opened, depth⟩) := rfl
        refine Reads.of_run ((run_bind_ok hpush).trans ((run_bind_ok (run_behind hpos)).trans
          ((run_bind_ok hinside.1).trans (run_bind_ok hpop)))) hinside.2 ?_
        exact reads_closing (h.next hinside.2) hsingle hraw hread _

theorem Follows.element (hn : Follows m n) (h : Stands m c) {xs : List Char}
    (hrest : c.rest = '<' :: xs) (hle : c.rest.length ≤ n) (hfuel : 2 * c.rest.length ≤ fuel) :
    Reads (element m fuel) opened depth c
      (elementFrom opened (decide (0 < depth)) c.pos (c.skip 1)) := by
  have hlen := length_skip_one hrest
  cases fuel with
  | zero => omega
  | succ fuel =>
    have hone : (c.skip 1).pos = c.pos + 1 :=
      pos_skip_one (by decide) (show c.peek = some '<' by rw [Cursor.peek, hrest]; rfl)
    have hskip := h.next (reaches_skip c 1)
    have hpass := passes_take (c.skip 1) isTagNameChar
    have hshort := Cursor.length_take_le (c.skip 1) isTagNameChar
    have hname : (readWhile m isTagNameChar).run ⟨(c.skip 1).pos, opened, depth⟩ = _ :=
      run_readWhile hskip uniform_isTagNameChar
    rw [element, elementFrom_eq]
    refine Reads.of_run (run_bind_ok (run_here _)) (.refl c) ?_
    dsimp only
    rw [← hone]
    refine Reads.of_run (run_bind_ok (run_moveTo hskip)) (reaches_skip c 1) ?_
    generalize (c.skip 1).take isTagNameChar = taken at hpass hname hshort
    obtain ⟨name, afterName⟩ := taken
    have hafter := hskip.next ⟨_, hpass⟩
    have hshort : afterName.rest.length ≤ (c.skip 1).rest.length := hshort
    refine Reads.of_run ((run_bind_ok hname).trans (run_bind_ok (run_text hskip hpass)))
      ⟨_, hpass⟩ ?_
    have hattrs : Reads (attributesAt m c.pos (size m + 1)) opened depth afterName _ :=
      reads_attributesAt hafter (Nat.lt_succ_of_le hafter.length_le)
    cases hread : attributesFrom c.pos afterName with
    | error e =>
      rw [hread] at hattrs
      exact run_bind_error hattrs
    | ok r =>
      obtain ⟨⟨attributes, selfClosing⟩, body⟩ := r
      rw [hread] at hattrs
      have hbody := hafter.next hattrs.2
      have hreach : Reaches c body :=
        ((reaches_skip c 1).trans ⟨_, hpass⟩).trans hattrs.2
      have hshort' := length_of_map_plain hread
      refine Reads.of_run ((run_bind_ok hattrs.1).trans ((run_bind_ok (run_here _)).trans
        (run_bind_ok (run_range hreach.le _)))) hattrs.2 ?_
      exact hn.body hbody rfl rfl (hreach.lt (by omega)) (by omega) (by omega)

/-! ### Forms -/

/-- A case that is closed at its brace is kept, with those behind it. -/
theorem tries_caseEnd {construct : Nat} {t : Cursor} {label more : List Char}
    {children : List Node} (ht : Stands m t) (hlabel : Passes t d label) (h : Stands m c)
    (hreach : Reaches t c) (hmore : c.rest = '\x7d' :: more)
    (hrec : Tries (Scanner.cases m fuel construct) opened depth (c.skip 1)
      (casesFrom? opened (c.skip 1))) :
    Tries (do
        let pos ← here
        moveTo m (pos + 1)
        let label ← text m ⟨t.pos, d.pos⟩
        let span ← range t.pos (pos + 1)
        let more ← Scanner.cases m fuel construct
        return more.map (.mk label span children :: ·)) opened depth c
      ((casesFrom? opened (c.skip 1)).map (Option.map fun r =>
        (.mk (String.ofList label) ⟨t.pos, (c.skip 1).pos⟩ children :: r.1, r.2))) := by
  have hpeek : c.peek = some '\x7d' := by rw [Cursor.peek, hmore]; rfl
  have hone : (c.skip 1).pos = c.pos + 1 := pos_skip_one (by decide) hpeek
  have hout := reaches_skip c 1
  generalize c.skip 1 = last at hrec hone hout
  have hmove : (moveTo m (c.pos + 1)).run ⟨c.pos, opened, depth⟩ =
      .ok ((), ⟨last.pos, opened, depth⟩) := by
    rw [← hone]; exact run_moveTo (h.next hout)
  have hrange : (range t.pos (c.pos + 1)).run ⟨last.pos, opened, depth⟩ = _ :=
    run_range (by rw [← hone]; exact (hreach.trans hout).le) _
  refine Tries.of_run ((run_bind_ok (run_here _)).trans ((run_bind_ok hmove).trans
    ((run_bind_ok (run_text ht hlabel)).trans (run_bind_ok hrange)))) hout ?_
  rw [← hone]
  cases hcases : casesFrom? opened last with
  | error e =>
    rw [hcases] at hrec
    exact run_bind_error hrec
  | ok found =>
    rw [hcases] at hrec
    cases found with
    | none =>
      obtain ⟨after, hrun⟩ := hrec
      exact ⟨after, run_bind_ok hrun⟩
    | some found => exact ⟨run_bind_ok hrec.1, hrec.2⟩

/-- What stands in a case is scanned one form deeper, and the depth is the old one behind it. -/
theorem Follows.caseBody {construct : Nat} {t : Cursor} {label : List Char} (hn : Follows m n)
    (ht : Stands m t) (hlabel : Passes t d label) (h : Stands m c) (hreach : Reaches t c)
    (hpos : construct < c.pos) (hlt : c.rest.length < n) (hfuel : 2 * c.rest.length + 1 ≤ fuel)
    (hrec : ∀ {last : Cursor}, Reaches c last → last.rest.length < c.rest.length →
      Tries (Scanner.cases m fuel construct) opened depth last (casesFrom? opened last)) :
    Tries (do
        let depth := (← get).depth
        modify fun s => { s with depth := s.depth + 1 }
        behind construct
        let (children, stop) ← Scanner.siblings m fuel [] none
        modify fun s => { s with depth := s.depth - 1 }
        if (← get).depth = depth then
          match stop with
          | .eof => return none
          | .close => strayClose m
          | .caseEnd =>
            let pos ← here
            moveTo m (pos + 1)
            let label ← text m ⟨t.pos, d.pos⟩
            let span ← range t.pos (pos + 1)
            let more ← Scanner.cases m fuel construct
            return more.map (.mk label span children :: ·)
        else fault (.unbalanced depth (← get).depth)) opened depth c
      (match siblingsFrom opened true none c with
      | .error e => .error e
      | .ok ((children, stop), next) =>
        match stop with
        | .eof => .ok none
        | .close => .error (Markup.strayClose next)
        | .caseEnd =>
          (casesFrom? opened (next.skip 1)).map (Option.map fun r =>
            (.mk (String.ofList label) ⟨t.pos, (next.skip 1).pos⟩ children :: r.1, r.2))) := by
  have hget : ∀ s : State, (get : Scan State).run s = .ok (s, s) := fun s => rfl
  have hdeeper : (modify fun s => { s with depth := s.depth + 1 } : Scan PUnit).run
      ⟨c.pos, opened, depth⟩ = .ok ((), ⟨c.pos, opened, depth + 1⟩) := rfl
  have hinside : Reads (siblings m fuel [] none) opened (depth + 1) c
      ((siblingsFrom opened true none c).map (prepend [])) :=
    hn h hlt hfuel (.none _)
  cases hread : siblingsFrom opened true none c with
  | error e =>
    rw [hread] at hinside
    exact (run_bind_ok (hget _)).trans ((run_bind_ok hdeeper).trans
      ((run_bind_ok (run_behind hpos)).trans (run_bind_error hinside)))
  | ok r =>
    obtain ⟨⟨children, stop⟩, next⟩ := r
    rw [hread] at hinside
    have hback : (modify fun s => { s with depth := s.depth - 1 } : Scan PUnit).run
        ⟨next.pos, opened, depth + 1⟩ = .ok ((), ⟨next.pos, opened, depth⟩) := rfl
    have hstop := stopOf_of_siblingsFrom hread
    have hnext := h.next hinside.2
    refine Tries.of_run ((run_bind_ok (hget _)).trans ((run_bind_ok hdeeper).trans
      ((run_bind_ok (run_behind hpos)).trans ((run_bind_ok hinside.1).trans
        ((run_bind_ok hback).trans (run_bind_ok (hget _))))))) hinside.2 ?_
    dsimp only
    rw [if_pos rfl]
    cases stop with
    | eof => exact ⟨next.pos, rfl⟩
    | close =>
      obtain ⟨more, hmore⟩ := exists_of_stopOf_close hstop
      exact run_strayClose hnext hmore
    | caseEnd =>
      obtain ⟨more, hmore⟩ := exists_of_stopOf_caseEnd hstop
      have hlen := length_skip_one hmore
      have hless : next.rest.length ≤ c.rest.length := hinside.2.length_le
      exact tries_caseEnd ht hlabel hnext (hreach.trans hinside.2) hmore
        (hrec (hinside.2.trans (reaches_skip next 1)) (by omega))

theorem Follows.cases {construct : Nat} (hn : Follows m n) : ∀ {fuel : Nat} {c : Cursor},
    Stands m c → construct < c.pos → c.rest.length ≤ n → 2 * c.rest.length + 1 ≤ fuel →
      Tries (Scanner.cases m fuel construct) opened depth c (casesFrom? opened c)
  | 0, _, _, _, _, hfuel => absurd hfuel (Nat.not_succ_le_zero _)
  | fuel + 1, c, h, hpos, hle, hfuel => by
    have hblank := reaches_skipWhile c Text.isAsciiBlank
    have ht := h.next hblank
    have hskip : (skipBlanks m).run ⟨c.pos, opened, depth⟩ = _ := run_skipBlanks h
    rw [casesFrom?_eq, Scanner.cases]
    generalize c.skipWhile Text.isAsciiBlank = t at hblank ht hskip
    have hpeek : (peek m 0).run ⟨t.pos, opened, depth⟩ = _ := run_peek ht
    refine Tries.of_run ((run_bind_ok hskip).trans ((run_bind_ok (run_here _)).trans
      (run_bind_ok hpeek))) hblank ?_
    obtain ⟨pos, rest⟩ := t
    cases rest with
    | nil => exact ⟨pos, rfl⟩
    | cons x xs =>
      obtain ⟨b, hb, hsame⟩ := exists_head?_bytes x xs
      dsimp only
      rw [hb]
      dsimp only
      by_cases hend : x = '\x7d'
      · rw [if_pos hend, if_pos ((hsame '\x7d' (by decide)).2 hend)]
        refine ⟨?_, reaches_skip _ 1⟩
        rw [← pos_skip_one (c := ⟨pos, x :: xs⟩) (by decide) (congrArg some hend),
          run_bind_ok (run_moveTo (ht.next (reaches_skip _ 1)))]
        rfl
      · rw [if_neg hend, if_neg fun h => hend ((hsame '\x7d' (by decide)).1 h)]
        have hpass := passes_take ⟨pos, x :: xs⟩ isLabelChar
        have hlabel : (readWhile m isLabelChar).run ⟨pos, opened, depth⟩ = _ :=
          run_readWhile ht uniform_isLabelChar
        generalize (Cursor.mk pos (x :: xs)).take isLabelChar = taken at hpass hlabel
        obtain ⟨label, afterLabel⟩ := taken
        have hafter := ht.next ⟨_, hpass⟩
        have hgap := reaches_skipWhile afterLabel Text.isAsciiBlank
        have hskip' : (skipBlanks m).run ⟨afterLabel.pos, opened, depth⟩ = _ := run_skipBlanks hafter
        have hempty : Span.isEmpty ⟨pos, afterLabel.pos⟩ = label.isEmpty := by
          rw [Bool.eq_iff_iff, List.isEmpty_iff]
          exact isEmpty_of_passes hpass
        dsimp only at hlabel ⊢
        generalize afterLabel.skipWhile Text.isAsciiBlank = brace at hgap hskip'
        have hbrace := hafter.next hgap
        have hto : Reaches ⟨pos, x :: xs⟩ brace := Reaches.trans ⟨_, hpass⟩ hgap
        have hpeek' : (peek m 0).run ⟨brace.pos, opened, depth⟩ = _ := run_peek hbrace
        refine Tries.of_run ((run_bind_ok hlabel).trans ((run_bind_ok hskip').trans
          (run_bind_ok hpeek'))) hto ?_
        rw [hempty]
        obtain ⟨gap, rest⟩ := brace
        cases rest with
        | nil =>
          have hcond : (label.isEmpty || ((bytes []).head? != some '\x7b')) = true := Bool.or_true _
          rw [if_pos hcond]
          exact ⟨gap, rfl⟩
        | cons d ds =>
          obtain ⟨e, he, hone⟩ := exists_head?_bytes d ds
          have hopen : (label.isEmpty || (some e != some '\x7b')) = (label.isEmpty || d != '\x7b') := by
            rw [Bool.eq_iff_iff]
            simp [hone '\x7b' (by decide)]
          dsimp only
          rw [he, hopen]
          cases hcond : label.isEmpty || d != '\x7b' with
          | true => exact ⟨gap, rfl⟩
          | false =>
            obtain ⟨-, hd⟩ := Bool.or_eq_false_iff.1 hcond
            obtain rfl : d = '\x7b' := by simpa using hd
            rw [if_neg Bool.false_ne_true, if_neg Bool.false_ne_true]
            have hone := pos_skip_one (c := ⟨gap, '\x7b' :: ds⟩) (by decide) rfl
            have hin := reaches_skip ⟨gap, '\x7b' :: ds⟩ 1
            have hlen := length_skip_one (c := ⟨gap, '\x7b' :: ds⟩) rfl
            generalize (Cursor.mk gap ('\x7b' :: ds)).skip 1 = inner at hone hin hlen
            have hinner := hbrace.next hin
            have hmove : (moveTo m (gap + 1)).run ⟨gap, opened, depth⟩ =
                .ok ((), ⟨inner.pos, opened, depth⟩) := by
              rw [← hone]; exact run_moveTo hinner
            have hfar := (hblank.trans (hto.trans hin)).le
            have hless := (hblank.trans hto).length_le
            refine Tries.of_run ((run_bind_ok (run_here _)).trans (run_bind_ok hmove)) hin ?_
            -- what follows the brace has less to read, so it is scanned with less fuel
            have hahead : construct < inner.pos := by omega
            have hlt : inner.rest.length < n := by omega
            have hfuel' : 2 * inner.rest.length + 1 ≤ fuel := by omega
            have hcase := hn.caseBody (d := afterLabel) ht hpass hinner (hto.trans hin) hahead hlt
              hfuel' fun hlast hshort => Follows.cases hn (hinner.next hlast)
                (Nat.lt_of_lt_of_le hahead hlast.le) (by omega) (by omega)
            exact hcase

/-- A form that breaks off leaves the cursor at its brace. -/
theorem Follows.form (hn : Follows m n) (h : Stands m c) {xs : List Char}
    (hrest : c.rest = '\x7b' :: xs) (hle : c.rest.length ≤ n) (hfuel : 2 * c.rest.length ≤ fuel)
    (opened : List String) (depth : Nat) :
    match formFrom? opened c.pos (c.skip 1) with
    | .error e => (form m fuel).run ⟨c.pos, opened, depth⟩ = .error (.rejected e)
    | .ok none => (form m fuel).run ⟨c.pos, opened, depth⟩ = .ok (none, ⟨c.pos, opened, depth⟩)
    | .ok (some (node, next)) => (form m fuel).run ⟨c.pos, opened, depth⟩ =
        .ok (some node, ⟨next.pos, opened, depth⟩) ∧ Reaches c next := by
  have hlen := length_skip_one hrest
  cases fuel with
  | zero => omega
  | succ fuel =>
    have hone : (c.skip 1).pos = c.pos + 1 :=
      pos_skip_one (by decide) (show c.peek = some '\x7b' by rw [Cursor.peek, hrest]; rfl)
    have hskip := reaches_skip c 1
    generalize c.skip 1 = inner at hlen hone hskip
    have hinner := h.next hskip
    have hmove : (moveTo m (c.pos + 1)).run ⟨c.pos, opened, depth⟩ =
        .ok ((), ⟨inner.pos, opened, depth⟩) := by
      rw [← hone]; exact run_moveTo hinner
    have hrewind : ∀ pos, (rewind m c.pos : Scan (Option Node)).run ⟨pos, opened, depth⟩ =
        .ok (none, ⟨c.pos, opened, depth⟩) := fun pos => run_bind_ok (run_moveTo h)
    have hheader : Tries (header? m) opened depth inner _ := tries_header? hinner
    rw [formFrom?_eq, Scanner.form]
    rw [run_bind_ok (run_here _), run_bind_ok hmove]
    cases hread : headerFrom? inner with
    | none =>
      rw [hread] at hheader
      obtain ⟨pos, hrun⟩ := hheader
      exact (run_bind_ok hrun).trans (hrewind pos)
    | some r =>
      obtain ⟨header, next⟩ := r
      rw [hread] at hheader
      have hshort := length_of_headerFrom? hread
      have hreach := hskip.trans hheader.2
      have hcases : Tries (Scanner.cases m fuel c.pos) opened depth next (casesFrom? opened next) :=
        hn.cases (h.next hreach) (hreach.lt (by omega)) (by omega) (by omega)
      rw [run_bind_ok hheader.1]
      dsimp only
      cases hfound : casesFrom? opened next with
      | error e =>
        rw [hfound] at hcases
        exact run_bind_error hcases
      | ok found =>
        rw [hfound] at hcases
        cases found with
        | none =>
          obtain ⟨pos, hrun⟩ := hcases
          exact (run_bind_ok hrun).trans (hrewind pos)
        | some found =>
          refine ⟨?_, hreach.trans hcases.2⟩
          rw [run_bind_ok hcases.1, run_bind_ok (run_here _),
            run_bind_ok (run_range (hreach.trans hcases.2).le _)]
          rfl

/-! ### Siblings -/

theorem Stands.skip_all (h : Stands m c) : c.skip c.rest.length = ⟨size m, []⟩ := by
  rw [Cursor.skip, List.take_length, List.drop_length, h.size_eq]

/-- One byte further is within the text, though it may be inside a character. -/
theorem run_step {pos : Nat} {x : Char} {xs : List Char} (h : Stands m ⟨pos, x :: xs⟩) :
    (moveTo m (pos + 1)).run s = .ok ((), ⟨pos + 1, s.opened, s.depth⟩) := by
  have hle : pos + 1 ≤ size m := by
    have hsize : size m = pos + (x.utf8Size + byteLength xs) := h.size_eq
    have := x.utf8Size_pos
    omega
  rw [moveTo, if_pos hle]
  rfl

/-- The bytes that the first one leaves of its character go by with the plain ones behind it. -/
theorem runEnd_text {pos : Nat} {x : Char} {xs : List Char} (h : Stands m ⟨pos, x :: xs⟩) :
    runEnd m (pos + 1) isPlain =
      (((Cursor.mk pos (x :: xs)).skip 1).skipWhile isPlain).pos := by
  have hplain : ∀ b ∈ (bytes [x]).drop 1, isPlain b = true := by
    intro b hb
    rcases Nat.lt_or_ge x.toNat 128 with hx | hx
    · rw [Text.bytes_ascii hx] at hb
      cases hb
    · have hbeyond := Text.le_toNat_of_mem_bytes hx (List.mem_of_mem_drop hb)
      simp [isPlain, bne, Text.beq_ascii hbeyond]
  have hlength : (bytes [x]).length = x.utf8Size := by
    rw [Text.length_bytes]; rfl
  have hdrop : (bytesOf m).drop (pos + 1) = (bytes [x]).drop 1 ++ bytes xs := by
    rw [← List.drop_drop, h.drop, Text.bytes_cons, List.drop_append_of_le_length]
    rw [hlength]
    exact x.utf8Size_pos
  have := x.utf8Size_pos
  rw [runEnd, hdrop, List.takeWhile_append_of_pos hplain, Text.takeWhile_bytes uniform_isPlain,
    List.length_append, List.length_drop, hlength, Text.length_bytes, Cursor.skip_one]
  show _ = pos + x.utf8Size + byteLength (xs.takeWhile isPlain)
  omega

theorem map_prepend (a b : List Node) (r : Except MarkupError ((List Node × Stop) × Cursor)) :
    (r.map (prepend b)).map (prepend a) = r.map (prepend (a ++ b)) := by
  cases r with
  | error e => rfl
  | ok r => simp [Except.map, prepend]

/-- The loop goes on where a construct ends, and has come further. -/
theorem Follows.goesOn {nodes : List Node} {pending : Option Nat} (hn : Follows m n)
    (h : Stands m c) (hreach : Reaches c d) (hlt : d.rest.length < c.rest.length)
    (hle : c.rest.length ≤ n) (hfuel : 2 * c.rest.length + 1 ≤ fuel + 1)
    (hpending : Pends pending d.pos) :
    Reads (do advanced c.pos; Scanner.siblings m fuel nodes pending) opened depth d
      ((siblingsFrom opened (decide (0 < depth)) pending d).map (prepend nodes)) := by
  refine Reads.of_run (run_bind_ok (run_advanced (hreach.lt hlt))) (.refl d) ?_
  exact hn (h.next hreach) (by omega) (by omega) hpending

/-- A comment or a declaration goes up to the place where `needle` ends, looked for from `d` on. -/
theorem Follows.piece {nodes : List Node} {pending : Option Nat} (hn : Follows m n)
    (h : Stands m c) (hfrom : Reaches c d) (needle : String) (hne : 0 < needle.toList.length)
    (err : MarkupError) (hle : c.rest.length ≤ n) (hfuel : 2 * c.rest.length + 1 ≤ fuel + 1)
    (hpending : Pends pending c.pos) :
    Reads (do
        let before ← flushText pending c.pos
        match ← find m d.pos needle with
        | none => reject err
        | some stop =>
          moveTo m (stop + byteLength needle.toList)
          let span ← range c.pos (stop + byteLength needle.toList)
          advanced c.pos
          Scanner.siblings m fuel (nodes ++ before ++ [.comment span]) none) opened depth c
      (Except.map (prepend nodes)
        (match d.past? needle.toList with
        | none => .error err
        | some next => (siblingsFrom opened (decide (0 < depth)) none next).map
            (prepend (flush pending c.pos ++ [.comment ⟨c.pos, next.pos⟩])))) := by
  refine Reads.of_run (run_bind_ok (run_flushText hpending)) (.refl c) ?_
  have hfind := run_find_past? (h.next hfrom) needle ⟨c.pos, opened, depth⟩
  cases hpast : d.past? needle.toList with
  | none =>
    rw [hpast] at hfind
    exact run_bind_ok hfind
  | some next =>
    rw [hpast] at hfind
    obtain ⟨stop, hrun, hpos, hreach⟩ := hfind
    have hlt := Cursor.length_past? hpast
    have hshort := hfrom.length_le
    have hto := hfrom.trans hreach
    dsimp only
    rw [map_prepend, ← List.append_assoc]
    refine Reads.of_run (run_bind_ok hrun) (.refl c) ?_
    dsimp only
    rw [← hpos]
    refine Reads.of_run ((run_bind_ok (run_moveTo (h.next hto))).trans
      (run_bind_ok (run_range hto.le _))) hto ?_
    exact hn.goesOn h hto (by omega) hle hfuel (.none _)

theorem Follows.onElement {nodes : List Node} {pending : Option Nat} (hn : Follows m n)
    (h : Stands m c) {xs : List Char} (hrest : c.rest = '<' :: xs) (hle : c.rest.length ≤ n)
    (hfuel : 2 * c.rest.length + 1 ≤ fuel + 1) (hpending : Pends pending c.pos) :
    Reads (do
        let before ← flushText pending c.pos
        let node ← Scanner.element m fuel
        advanced c.pos
        Scanner.siblings m fuel (nodes ++ before ++ [node]) none) opened depth c
      (Except.map (prepend nodes)
        (match elementFrom opened (decide (0 < depth)) c.pos (c.skip 1) with
        | .error e => .error e
        | .ok (node, next) => (siblingsFrom opened (decide (0 < depth)) none next).map
            (prepend (flush pending c.pos ++ [node])))) := by
  have helement : Reads (Scanner.element m fuel) opened depth c _ :=
    hn.element h hrest hle (by omega)
  refine Reads.of_run (run_bind_ok (run_flushText hpending)) (.refl _) ?_
  cases hread : elementFrom opened (decide (0 < depth)) c.pos (c.skip 1) with
  | error e =>
    rw [hread] at helement
    exact run_bind_error helement
  | ok r =>
    obtain ⟨node, next⟩ := r
    rw [hread] at helement
    have hshort := length_of_map_plain hread
    rw [length_skip_one hrest] at hshort
    dsimp only
    rw [map_prepend, ← List.append_assoc]
    refine Reads.of_run (run_bind_ok helement.1) helement.2 ?_
    exact hn.goesOn h helement.2 hshort hle hfuel (.none _)

/-- An interpolation is text up to its end; one that does not end takes the rest of the text. -/
theorem Follows.onInterpolation {nodes : List Node} {pending : Option Nat} (hn : Follows m n)
    (h : Stands m c) {xs : List Char} (hrest : c.rest = '\x7b' :: '\x7b' :: xs)
    (hle : c.rest.length ≤ n) (hfuel : 2 * c.rest.length + 1 ≤ fuel + 1)
    (hpending : Pends pending c.pos) :
    Reads (do
        match ← find m (c.pos + 2) "\x7d\x7d" with
        | none => moveTo m (size m)
        | some stop => moveTo m (stop + 2)
        advanced c.pos
        Scanner.siblings m fuel nodes (some (pending.getD c.pos))) opened depth c
      (Except.map (prepend nodes)
        (match (c.skip 2).past? ['\x7d', '\x7d'] with
        | none => .ok ((flush (some (pending.getD c.pos)) (c.skip c.rest.length).pos, .eof),
            c.skip c.rest.length)
        | some next =>
          siblingsFrom opened (decide (0 < depth)) (some (pending.getD c.pos)) next)) := by
  have hfrom := reaches_skip c 2
  have hstart : (c.skip 2).pos = c.pos + 2 := by
    rw [Cursor.skip, hrest]
    rfl
  have hfind := run_find_past? (h.next hfrom) "\x7d\x7d" ⟨c.pos, opened, depth⟩
  rw [hstart, show "\x7d\x7d".toList = ['\x7d', '\x7d'] from rfl] at hfind
  cases hpast : (c.skip 2).past? ['\x7d', '\x7d'] with
  | none =>
    rw [hpast] at hfind
    have hend := passes_end h
    have hread : siblingsFrom opened (decide (0 < depth)) (some (pending.getD c.pos))
        ⟨size m, []⟩ = .ok ((flush (some (pending.getD c.pos)) (size m), .eof), ⟨size m, []⟩) := by
      rw [siblingsFrom_eq]
    dsimp only
    rw [h.skip_all, ← hread]
    refine Reads.of_run ((run_bind_ok hfind).trans
      (run_bind_ok (run_moveTo (h.next ⟨_, hend⟩)))) ⟨_, hend⟩ ?_
    exact hn.goesOn h ⟨_, hend⟩ (by rw [hrest]; exact Nat.succ_pos _) hle hfuel
      (hpending.getD.le (Reaches.le ⟨_, hend⟩))
  | some next =>
    rw [hpast] at hfind
    obtain ⟨stop, hrun, hpos, hreach⟩ := hfind
    have hlt := Cursor.length_past? hpast
    have hshort := hfrom.length_le
    have hto := hfrom.trans hreach
    have hpos : next.pos = stop + 2 := hpos
    refine Reads.of_run (run_bind_ok hrun) (.refl _) ?_
    dsimp only
    rw [← hpos]
    refine Reads.of_run (run_bind_ok (run_moveTo (h.next hto))) hto ?_
    refine hn.goesOn h hto ?_ hle hfuel (hpending.getD.le hto.le)
    simp only [List.length_cons] at hlt
    omega

/-- A brace opens a form or, where the form breaks off, is text. -/
theorem Follows.onBrace {nodes : List Node} {pending : Option Nat} (hn : Follows m n)
    (h : Stands m c) {xs : List Char} (hrest : c.rest = '\x7b' :: xs) (hle : c.rest.length ≤ n)
    (hfuel : 2 * c.rest.length + 1 ≤ fuel + 1) (hpending : Pends pending c.pos) :
    Reads (do
        match ← Scanner.form m fuel with
        | some node =>
          let before ← flushText pending c.pos
          advanced c.pos
          Scanner.siblings m fuel (nodes ++ before ++ [node]) none
        | none =>
          moveTo m (c.pos + 1)
          advanced c.pos
          Scanner.siblings m fuel nodes (some (pending.getD c.pos))) opened depth c
      (Except.map (prepend nodes)
        (match formFrom? opened c.pos (c.skip 1) with
        | .error e => .error e
        | .ok (some (form, next)) => (siblingsFrom opened (decide (0 < depth)) none next).map
            (prepend (flush pending c.pos ++ [form]))
        | .ok none => siblingsFrom opened (decide (0 < depth)) (some (pending.getD c.pos))
            (c.skip 1))) := by
  have hform := hn.form h hrest hle (show 2 * c.rest.length ≤ fuel by omega) opened depth
  have hlen := length_skip_one hrest
  cases hread : formFrom? opened c.pos (c.skip 1) with
  | error e =>
    rw [hread] at hform
    exact run_bind_error hform
  | ok found =>
    rw [hread] at hform
    cases found with
    | none =>
      have hone : (c.skip 1).pos = c.pos + 1 :=
        pos_skip_one (by decide) (show c.peek = some '\x7b' by rw [Cursor.peek, hrest]; rfl)
      have hto := reaches_skip c 1
      dsimp only
      refine Reads.of_run (run_bind_ok hform) (.refl _) ?_
      dsimp only
      rw [← hone]
      refine Reads.of_run (run_bind_ok (run_moveTo (h.next hto))) hto ?_
      exact hn.goesOn h hto (by omega) hle hfuel (hpending.getD.le hto.le)
    | some found =>
      obtain ⟨node, next⟩ := found
      have hshort := length_of_map_map_plain hread
      dsimp only
      rw [map_prepend, ← List.append_assoc]
      refine Reads.of_run ((run_bind_ok hform.1).trans
        (run_bind_ok (run_flushText hpending))) hform.2 ?_
      exact hn.goesOn h hform.2 (by omega) hle hfuel (.none _)

theorem Follows.onText {nodes : List Node} {pending : Option Nat} {pos : Nat} {x : Char}
    {xs : List Char} (hn : Follows m n) (h : Stands m ⟨pos, x :: xs⟩)
    (hle : (x :: xs).length ≤ n) (hfuel : 2 * (x :: xs).length + 1 ≤ fuel + 1)
    (hpending : Pends pending pos) :
    Reads (do
        moveTo m (pos + 1)
        moveTo m (runEnd m (pos + 1) isPlain)
        advanced pos
        Scanner.siblings m fuel nodes (some (pending.getD pos))) opened depth ⟨pos, x :: xs⟩
      ((siblingsFrom opened (decide (0 < depth)) (some (pending.getD pos))
        (((Cursor.mk pos (x :: xs)).skip 1).skipWhile isPlain)).map (prepend nodes)) := by
  have hto := (reaches_skip ⟨pos, x :: xs⟩ 1).trans (reaches_skipWhile _ isPlain)
  have hlen := Cursor.length_skip ⟨pos, x :: xs⟩ 1
  have hle' := Cursor.length_skipWhile_le ((Cursor.mk pos (x :: xs)).skip 1) isPlain
  rw [runEnd_text h]
  refine Reads.of_run ((run_bind_ok (run_step h)).trans
    (run_bind_ok (run_moveTo (h.next hto)))) hto ?_
  refine hn.goesOn h hto ?_ hle hfuel (hpending.getD.le hto.le)
  rw [List.length_cons, Nat.add_sub_cancel] at hlen
  rw [List.length_cons]
  omega

/-- One round of the loop, by what opens at the cursor. -/
theorem Follows.siblings {nodes : List Node} {pending : Option Nat} (hn : Follows m n)
    (h : Stands m c) (hle : c.rest.length ≤ n) (hfuel : 2 * c.rest.length + 1 ≤ fuel)
    (hpending : Pends pending c.pos) :
    Reads (Scanner.siblings m fuel nodes pending) opened depth c
      ((siblingsFrom opened (decide (0 < depth)) pending c).map (prepend nodes)) := by
  cases fuel with
  | zero => omega
  | succ fuel =>
    rw [siblingsFrom_eq, Scanner.siblings]
    refine Reads.of_run ((run_bind_ok (run_here _)).trans (run_bind_ok (run_opening h))) (.refl c) ?_
    obtain ⟨pos, rest⟩ := c
    cases rest with
    | nil => exact .ok (run_bind_ok (run_flushText hpending)) (.refl _)
    | cons x xs =>
      have hspec := opening_spec (decide (0 < depth)) x xs
      dsimp only
      cases hO : Opening.of (decide (0 < depth)) x xs with
      | endTag => exact .ok (run_bind_ok (run_flushText hpending)) (.refl _)
      | caseEnd => exact .ok (run_bind_ok (run_flushText hpending)) (.refl _)
      | comment =>
        rw [hO] at hspec
        obtain ⟨rfl, more, rfl⟩ := hspec
        exact hn.piece h (reaches_skip _ 4) "-->" (by decide) _ hle hfuel hpending
      | declaration =>
        exact hn.piece h (.refl _) ">" (by decide) _ hle hfuel hpending
      | element =>
        rw [hO] at hspec
        obtain ⟨rfl, d, more, rfl, -⟩ := hspec
        exact hn.onElement h rfl hle hfuel hpending
      | interpolation =>
        rw [hO] at hspec
        obtain ⟨rfl, more, rfl⟩ := hspec
        exact hn.onInterpolation h rfl hle hfuel hpending
      | brace =>
        rw [hO] at hspec
        obtain ⟨rfl, -⟩ := hspec
        exact hn.onBrace h rfl hle hfuel hpending
      | text => exact hn.onText h hle hfuel hpending

end

theorem follows (m : String) : ∀ n, Follows m n
  | 0 => fun _ hlt => absurd hlt (Nat.not_lt_zero _)
  | n + 1 => fun h hlt hfuel hpending =>
    Follows.siblings (follows m n) h (Nat.le_of_lt_succ hlt) hfuel hpending

/-- A scan is a reading. It ends with the nodes of the template or with why the text is none, and
    never comes to a fault. -/
theorem scan_eq (m : String) : scan m =
    match parse m with
    | .ok nodes => .ok nodes
    | .error e => .error (.rejected e) := by
  have h : Stands m (.ofString m) := .refl _
  have hlen := h.length_le
  have hroot : Reads (siblings m (2 * size m + 1) [] none) [] 0 (.ofString m)
      ((siblingsFrom [] false none (.ofString m)).map (prepend [])) :=
    follows m _ h (Nat.lt_succ_self _) (by omega) (.none _)
  have hscan : scan m = ((template m).run ⟨(Cursor.ofString m).pos, [], 0⟩).map Prod.fst := rfl
  rw [hscan, parse_eq, template]
  cases hread : siblingsFrom [] false none (.ofString m) with
  | error e =>
    rw [hread] at hroot
    rw [run_bind_error hroot]
    rfl
  | ok r =>
    obtain ⟨⟨nodes, stop⟩, next⟩ := r
    rw [hread] at hroot
    have hstop := stopOf_of_siblingsFrom hread
    rw [run_bind_ok hroot.1]
    cases stop with
    | eof => rfl
    | close =>
      obtain ⟨more, hmore⟩ := exists_of_stopOf_close hstop
      have hstray : (strayClose m : Scan (List Node)).run ⟨next.pos, [], 0⟩ = _ :=
        run_strayClose (h.next hroot.2) hmore
      dsimp only
      rw [hstray]
      rfl
    | caseEnd => exact absurd hstop (stopOf_ne_caseEnd _)

end RouterShift.Markup.Scanner
