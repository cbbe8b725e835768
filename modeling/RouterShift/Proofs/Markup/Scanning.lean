import RouterShift.Proofs.Grammar.Peg
import RouterShift.Proofs.Markup.Recovery
import RouterShift.Proofs.Markup.Scanner

/-! The parts of a scan below the nodes. Each part of the scanner, started at a place where the
    reader reads, comes to what the reader comes to, at the same place or with the same error; no
    check of the scanner fails on the way. -/

namespace RouterShift.Markup.Scanner
open Grammar (Passes)
open Text (Cursor byteLength byteLength_append bytes bytes_append length_bytes head?_bytes Uniform
  uniform_of uniform_ne uniform_isAsciiBlank isAsciiBlank_beyond beq_ascii not_le_ascii)

variable {α β : Type} {m : String} {s s' : State} {a : α} {c d : Cursor} {part : List Char}
  {opened : List String} {depth : Nat}

/-! ### Places in a text -/

theorem bytesOf_eq (text : String) : bytesOf text = bytes text.toList := by
  rw [bytesOf, Text.toList_toUTF8]; rfl

/-- A place further on in the same text. -/
def Reaches (c d : Cursor) : Prop := ∃ part, Passes c d part

theorem Reaches.refl (c : Cursor) : Reaches c c := ⟨[], .nil c⟩

theorem Reaches.trans {e : Cursor} : Reaches c d → Reaches d e → Reaches c e
  | ⟨_, h⟩, ⟨_, h'⟩ => ⟨_, h.append h'⟩

theorem Reaches.le : Reaches c d → c.pos ≤ d.pos
  | ⟨_, h⟩ => by rw [h.pos]; omega

theorem passes_take (c : Cursor) (keep : Char → Bool) :
    Passes c (c.take keep).2 (c.take keep).1 := by
  obtain ⟨a, b, hrest, -, -, htake⟩ := Cursor.exists_take keep c
  rw [htake]
  exact ⟨hrest, rfl⟩

theorem passes_skip (c : Cursor) (n : Nat) : Passes c (c.skip n) (c.rest.take n) :=
  ⟨(List.take_append_drop n c.rest).symm, rfl⟩

theorem reaches_take (c : Cursor) (keep : Char → Bool) : Reaches c (c.take keep).2 :=
  ⟨_, passes_take c keep⟩

theorem reaches_skip (c : Cursor) (n : Nat) : Reaches c (c.skip n) := ⟨_, passes_skip c n⟩

theorem reaches_skipWhile (c : Cursor) (keep : Char → Bool) : Reaches c (c.skipWhile keep) :=
  reaches_take c keep

/-- A place of a text. -/
def Stands (m : String) (c : Cursor) : Prop := Reaches (.ofString m) c

theorem Stands.next (h : Stands m c) (hr : Reaches c d) : Stands m d := h.trans hr

theorem Stands.drop (h : Stands m c) : (bytesOf m).drop c.pos = bytes c.rest := by
  obtain ⟨front, hrest, hpos⟩ := h
  have hrest : m.toList = front ++ c.rest := hrest
  have hpos : c.pos = byteLength front := by rw [hpos]; exact Nat.zero_add _
  rw [bytesOf_eq, hrest, bytes_append, hpos, ← length_bytes, List.drop_left]

theorem Stands.size_eq (h : Stands m c) : size m = c.pos + byteLength c.rest := by
  obtain ⟨front, hrest, hpos⟩ := h
  have hrest : m.toList = front ++ c.rest := hrest
  have hpos : c.pos = byteLength front := by rw [hpos]; exact Nat.zero_add _
  rw [size, bytesOf_eq, hrest, length_bytes, byteLength_append, hpos]

theorem Stands.pos_le (h : Stands m c) : c.pos ≤ size m := by rw [h.size_eq]; omega

theorem Stands.slice (h : Stands m c) (hp : Passes c d part) :
    Span.slice? ⟨c.pos, d.pos⟩ m = some (String.ofList part) := by
  obtain ⟨front, hrest, hpos⟩ := h
  have hrest : m.toList = front ++ c.rest := hrest
  have hpos : c.pos = byteLength front := by rw [hpos]; exact Nat.zero_add _
  have hslice : Text.slice? m.toList c.pos d.pos = some part :=
    Text.slice?_eq_some.2 ⟨front, d.rest, by rw [hrest, hp.rest, List.append_assoc], hpos.symm,
      hp.pos.symm⟩
  rw [Span.slice?, hslice]
  rfl

/-- A range is empty when nothing stands in it. -/
theorem isEmpty_of_passes (h : Passes c d part) : Span.isEmpty ⟨c.pos, d.pos⟩ = true ↔ part = [] := by
  show (c.pos == d.pos) = true ↔ _
  rw [beq_iff_eq, ← Text.byteLength_eq_zero, h.pos]
  omega

/-! ### Rules -/

section
variable {c : Char}

theorem isLetter_beyond (hc : 128 ≤ c.toNat) : isLetter c = false := by
  simp [isLetter, not_le_ascii hc]

theorem uniform_isTagNameChar : Uniform isTagNameChar := uniform_of (b := true) fun c hc => by
  simp [isTagNameChar, isAsciiBlank_beyond hc, bne, beq_ascii hc]

theorem uniform_isEndNameChar : Uniform isEndNameChar := uniform_of (b := true) fun c hc => by
  simp [isEndNameChar, isAsciiBlank_beyond hc, bne, beq_ascii hc]

theorem uniform_isAttributeNameChar : Uniform isAttributeNameChar :=
  uniform_of (b := true) fun c hc => by
    simp [isAttributeNameChar, isAsciiBlank_beyond hc, bne, beq_ascii hc]

theorem uniform_isHeaderChar : Uniform isHeaderChar := uniform_of (b := true) fun c hc => by
  simp [isHeaderChar, bne, beq_ascii hc]

theorem uniform_isLabelChar : Uniform isLabelChar := uniform_of (b := true) fun c hc => by
  simp [isLabelChar, isAsciiBlank_beyond hc, bne, beq_ascii hc]

theorem uniform_isPlain : Uniform isPlain := uniform_of (b := true) fun c hc => by
  simp [isPlain, bne, beq_ascii hc]

theorem uniform_isWordChar : Uniform isWordChar := uniform_of (b := false) fun c hc => by
  simp [isWordChar, isLetter_beyond hc, not_le_ascii hc, beq_ascii hc]

end

/-- Bytes beyond ASCII belong to an unquoted value. -/
theorem unquoted_beyond {bs : List Char} (h : ∀ b ∈ bs, 128 ≤ b.toNat) (rest : List Char) :
    unquoted (bs ++ rest) = bs ++ unquoted rest := by
  induction bs with
  | nil => rfl
  | cons b bs ih =>
    have hb := h b List.mem_cons_self
    have hgt : b ≠ '>' := by rw [← beq_eq_false_iff_ne]; exact beq_ascii hb (by decide)
    have hslash : b ≠ '/' := by rw [← beq_eq_false_iff_ne]; exact beq_ascii hb (by decide)
    rw [List.cons_append, unquoted]
    simp [isAsciiBlank_beyond hb, hgt, hslash, ih fun b hb => h b (.tail _ hb)]

/-- The unquoted value in the bytes of a text. -/
theorem unquoted_bytes (cs : List Char) : unquoted (bytes cs) = bytes (unquoted cs) := by
  induction cs with
  | nil => rfl
  | cons c cs ih =>
    rcases Nat.lt_or_ge c.toNat 128 with hc | hc
    · have hone := Text.bytes_ascii hc
      rw [Text.bytes_cons, hone, List.singleton_append, unquoted, unquoted]
      simp only [head?_bytes (a := '>') (by decide)]
      split
      · rfl
      · rw [ih, Text.bytes_cons, hone, List.singleton_append]
    · have hmem : ∀ b ∈ [c], 128 ≤ b.toNat := by simpa using hc
      have hbeyond : ∀ cs : List Char, unquoted (c :: cs) = c :: unquoted cs :=
        unquoted_beyond hmem
      rw [Text.bytes_cons, unquoted_beyond fun b hb => Text.le_toNat_of_mem_bytes hc hb, ih, hbeyond,
        Text.bytes_cons c (unquoted cs)]

/-! ### Steps -/

theorem run_bind_ok {x : Scan α} {f : α → Scan β} (h : x.run s = .ok (a, s')) :
    (x >>= f).run s = (f a).run s' := by
  rw [StateT.run_bind, h]; rfl

theorem run_bind_error {x : Scan α} {f : α → Scan β} {e : Halt} (h : x.run s = .error e) :
    (x >>= f).run s = .error e := by
  rw [StateT.run_bind, h]; rfl

theorem run_here (s : State) : here.run s = .ok (s.pos, s) := rfl

theorem run_range {start stop : Nat} (h : start ≤ stop) (s : State) :
    (range start stop).run s = .ok (⟨start, stop⟩, s) := by
  rw [range, if_pos h]; rfl

theorem run_peek (h : Stands m c) : (peek m 0).run ⟨c.pos, opened, depth⟩ =
    .ok ((bytes c.rest).head?, ⟨c.pos, opened, depth⟩) := by
  rw [← h.drop, List.head?_drop]; rfl

theorem run_moveTo (h : Stands m d) : (moveTo m d.pos).run s =
    .ok ((), ⟨d.pos, s.opened, s.depth⟩) := by
  rw [moveTo, if_pos h.pos_le]; rfl

theorem run_text (h : Stands m c) (hp : Passes c d part) :
    (text m ⟨c.pos, d.pos⟩).run s = .ok (String.ofList part, s) := by
  rw [text, h.slice hp]; rfl

theorem runEnd_eq (h : Stands m c) {keep : Char → Bool} (hkeep : Uniform keep) :
    runEnd m c.pos keep = (c.skipWhile keep).pos := by
  rw [runEnd, h.drop, Text.takeWhile_bytes hkeep, length_bytes]
  rfl

theorem run_readWhile (h : Stands m c) {keep : Char → Bool} (hkeep : Uniform keep) :
    (readWhile m keep).run ⟨c.pos, opened, depth⟩ =
      .ok (⟨c.pos, (c.take keep).2.pos⟩, ⟨(c.take keep).2.pos, opened, depth⟩) := by
  have hreach := reaches_take c keep
  have hend : runEnd m c.pos keep = (c.take keep).2.pos := runEnd_eq h hkeep
  rw [readWhile, run_bind_ok (run_here _)]
  dsimp only
  rw [hend, run_bind_ok (run_moveTo (h.next hreach)), run_range hreach.le]

theorem run_skipBlanks (h : Stands m c) : (skipBlanks m).run ⟨c.pos, opened, depth⟩ =
    .ok ((), ⟨(c.skipWhile Text.isAsciiBlank).pos, opened, depth⟩) := by
  rw [skipBlanks, run_bind_ok (run_here _)]
  dsimp only
  rw [runEnd_eq h uniform_isAsciiBlank, run_moveTo (h.next (reaches_skipWhile _ _))]

theorem passes_end (h : Stands m c) : Passes c ⟨size m, []⟩ c.rest :=
  ⟨(List.append_nil _).symm, h.size_eq⟩

theorem run_find (h : Stands m c) (needle : String) : (find m c.pos needle).run s =
    .ok ((Text.cutFirst? needle.toList c.rest).map fun found => c.pos + byteLength found.1, s) := by
  rw [find, run_bind_ok (run_text h (passes_end h)), String.toList_ofList]
  rfl

/-! ### Tags -/

theorem byteAt?_eq (h : Stands m c) : byteAt? m c.pos = (bytes c.rest).head? := by
  rw [← h.drop, List.head?_drop]; rfl

theorem byteAt?_eq_some (h : Stands m c) {x : Char} (hx : x.toNat < 128) :
    byteAt? m c.pos = some x ↔ c.peek = some x := by
  rw [byteAt?_eq h, head?_bytes hx]; rfl

theorem utf8Size_ascii {x : Char} (hx : x.toNat < 128) : x.utf8Size = 1 := by
  have hlength := length_bytes [x]
  rw [Text.bytes_ascii hx] at hlength
  simpa [byteLength] using hlength.symm

/-- One step over an ASCII character. -/
theorem pos_skip_one {x : Char} (hx : x.toNat < 128) (h : c.peek = some x) :
    (c.skip 1).pos = c.pos + 1 := by
  obtain ⟨more, hmore⟩ := List.head?_eq_some_iff.1 h
  simp [Cursor.skip, hmore, byteLength, utf8Size_ascii hx]

theorem run_endTag? (h : Stands m c) {more : List Char} (hrest : c.rest = '<' :: '/' :: more) :
    (endTag? m).run ⟨c.pos, opened, depth⟩ =
      .ok ((readEndTag c).toOption.map Prod.fst, ⟨c.pos, opened, depth⟩) := by
  have hskip : (c.skip 2).pos = c.pos + 2 := by
    simp [Cursor.skip, hrest, byteLength, Char.utf8Size]
  have hname := h.next (reaches_skip c 2)
  have hpass := passes_take (c.skip 2) isEndNameChar
  have hend : runEnd m (c.skip 2).pos isEndNameChar = ((c.skip 2).take isEndNameChar).2.pos :=
    runEnd_eq hname uniform_isEndNameChar
  rw [endTag?, run_bind_ok (run_here _)]
  dsimp only
  rw [← hskip, hend, run_bind_ok (run_range (reaches_take _ _).le _), readEndTag]
  generalize (c.skip 2).take isEndNameChar = taken at hpass
  obtain ⟨name, stop⟩ := taken
  have hstop := hname.next ⟨_, hpass⟩
  have hclose := hstop.next (reaches_skipWhile stop Text.isAsciiBlank)
  dsimp only
  rw [runEnd_eq hstop uniform_isAsciiBlank]
  by_cases hgt : (stop.skipWhile Text.isAsciiBlank).peek = some '>'
  · have hle := (((reaches_skip c 2).trans ⟨_, hpass⟩).trans
      ((reaches_skipWhile stop Text.isAsciiBlank).trans (reaches_skip _ 1))).le
    rw [if_pos ((byteAt?_eq_some hclose (by decide)).2 hgt), run_bind_ok (run_text hname hpass),
      ← pos_skip_one (by decide) hgt, run_bind_ok (run_range hle _)]
    simp only [hgt, if_true]
    rfl
  · rw [if_neg fun h => hgt ((byteAt?_eq_some hclose (by decide)).1 h)]
    simp only [hgt, if_false]
    rfl

/-- An end tag that is read is read from its first byte to its last; the only error is that it does
    not end. -/
theorem readEndTag_spec (c : Cursor) : (∃ tag next, readEndTag c = .ok (tag, next) ∧
      Reaches c next ∧ tag.span = ⟨c.pos, next.pos⟩) ∨
    readEndTag c = .error (.unterminatedTag c.pos) := by
  simp only [readEndTag]
  split
  · exact .inl ⟨_, _, rfl, (reaches_skip c 2).trans ((reaches_take _ _).trans
      ((reaches_skipWhile _ _).trans (reaches_skip _ 1))), rfl⟩
  · exact .inr rfl

theorem run_endTag (h : Stands m c) {more : List Char} (hrest : c.rest = '<' :: '/' :: more) :
    (endTag m).run ⟨c.pos, opened, depth⟩ =
      match readEndTag c with
      | .error e => .error (.rejected e)
      | .ok (tag, _) => .ok (tag, ⟨c.pos, opened, depth⟩) := by
  rw [endTag, run_bind_ok (run_here _), run_bind_ok (run_endTag? h hrest)]
  obtain ⟨tag, next, hread, -⟩ | hread := readEndTag_spec c
  · rw [hread]; rfl
  · rw [hread]; rfl

theorem run_strayClose (h : Stands m c) {more : List Char} (hrest : c.rest = '<' :: '/' :: more) :
    (strayClose m : Scan α).run ⟨c.pos, opened, depth⟩ =
      .error (.rejected (Markup.strayClose c)) := by
  rw [strayClose, run_bind_ok (run_here _), run_bind_ok (run_endTag? h hrest), Markup.strayClose]
  obtain ⟨tag, next, hread, -⟩ | hread := readEndTag_spec c
  · rw [hread]; rfl
  · rw [hread]; rfl

/-- The first byte of a text that is not empty, told from any ASCII character. -/
theorem exists_head?_bytes (x : Char) (xs : List Char) :
    ∃ b, (bytes (x :: xs)).head? = some b ∧ ∀ y : Char, y.toNat < 128 → (b = y ↔ x = y) := by
  obtain ⟨b, more, hb, -⟩ := Text.exists_bytes_cons x xs
  refine ⟨b, by rw [hb]; rfl, fun y hy => ?_⟩
  have := head?_bytes hy (x :: xs)
  rw [hb] at this
  simpa using this

/-- Up to a character, as far as there is one. -/
theorem past?_singleton (c : Cursor) (x : Char) : c.past? [x] =
    if (c.skipWhile (· != x)).peek = some x then some ((c.skipWhile (· != x)).skip 1) else none := by
  obtain ⟨front, rest, hrest, hfront, hstop, hskip⟩ := Cursor.exists_skipWhile (· != x) c
  have hmem : x ∉ front := fun h => by simpa using hfront x h
  rw [hskip]
  cases rest with
  | nil =>
    rw [List.append_nil] at hrest
    have hcut : Text.cutFirst? [x] c.rest = none := by
      cases hcut : Text.cutFirst? [x] c.rest with
      | none => rfl
      | some found =>
        have := Text.append_of_cutFirst? hcut
        rw [← hrest, this] at hmem
        simp at hmem
    simp [Cursor.past?, hcut, Cursor.peek]
  | cons y rest =>
    obtain rfl : y = x := by simpa using hstop y rfl
    rw [if_pos (show (Cursor.mk _ (y :: rest)).peek = some y from rfl), Cursor.past?, hrest,
      Text.cutFirst?_singleton rest hmem]
    simp [Cursor.skip, byteLength]

/-- The range of a value that the reader reads, and its text. -/
theorem run_value (h : Stands m c) (tagStart : Nat) (opened : List String) (depth : Nat) :
    match valueFrom tagStart c with
    | .error e => (value m tagStart).run ⟨c.pos, opened, depth⟩ = .error (.rejected e)
    | .ok ((value', span), next) =>
      (value m tagStart).run ⟨c.pos, opened, depth⟩ = .ok (span, ⟨next.pos, opened, depth⟩) ∧
        Reaches c next ∧ ∀ s, (text m span).run s = .ok (value', s) := by
  rw [valueFrom_eq, value, run_bind_ok (run_here _), run_bind_ok (run_peek h)]
  obtain ⟨pos, rest⟩ := c
  cases rest with
  | nil => rfl
  | cons x xs =>
    obtain ⟨b, hb, hsame⟩ := exists_head?_bytes x xs
    simp only [hb]
    by_cases hquote : x = '"' ∨ x = '\''
    · have hascii : x.toNat < 128 := by rcases hquote with rfl | rfl <;> decide
      obtain rfl : b = x := (hsame x hascii).2 rfl
      have hq : (decide (b = '"') || decide (b = '\'')) = true := by simpa using hquote
      have hone : (Cursor.mk pos (b :: xs)).skip 1 = ⟨pos + 1, xs⟩ := by
        rw [Cursor.skip_one, utf8Size_ascii hascii]
      have hnext : Stands m ⟨pos + 1, xs⟩ := h.next (hone ▸ reaches_skip _ 1)
      have hpass := passes_take ⟨pos + 1, xs⟩ (· != b)
      have hclose := hnext.next ⟨_, hpass⟩
      have hend : runEnd m (pos + 1) (· != b) = (Cursor.take ⟨pos + 1, xs⟩ (· != b)).2.pos :=
        runEnd_eq hnext (uniform_ne hascii)
      rw [if_pos hq, if_pos hq, hone, past?_singleton, Cursor.skipWhile]
      dsimp only
      rw [hend]
      by_cases hpeek : (Cursor.take ⟨pos + 1, xs⟩ (· != b)).2.peek = some b
      · have hpos := pos_skip_one hascii hpeek
        rw [if_pos hpeek, if_pos ((byteAt?_eq_some hclose hascii).2 hpeek), ← hpos,
          run_bind_ok (run_moveTo (hclose.next (reaches_skip _ 1))),
          run_range (Reaches.le ⟨_, hpass⟩)]
        refine ⟨rfl, ?_, fun s => run_text hnext hpass⟩
        exact (hone ▸ reaches_skip _ 1).trans (Reaches.trans ⟨_, hpass⟩ (reaches_skip _ 1))
      · rw [if_neg hpeek, if_neg fun h => hpeek ((byteAt?_eq_some hclose hascii).1 h)]
        rfl
    · have hq : (decide (x = '"') || decide (x = '\'')) = false := by simpa using hquote
      have hq' : (decide (b = '"') || decide (b = '\'')) = false := by
        simpa [hsame '"' (by decide), hsame '\'' (by decide)] using hquote
      have htake : (x :: xs).take (unquoted (x :: xs)).length = unquoted (x :: xs) := by
        obtain ⟨after, hafter⟩ := exists_append_unquoted (x :: xs)
        exact (List.prefix_iff_eq_take.1 ⟨after, hafter.symm⟩).symm
      have hpass := passes_skip ⟨pos, x :: xs⟩ (unquoted (x :: xs)).length
      have hstop : pos + (unquoted ((bytesOf m).drop pos)).length =
          ((Cursor.mk pos (x :: xs)).skip (unquoted (x :: xs)).length).pos := by
        rw [show (bytesOf m).drop pos = bytes (x :: xs) from h.drop, unquoted_bytes, length_bytes,
          Cursor.skip, htake]
      rw [hq, hq']
      simp only [Bool.false_eq_true, if_false]
      have hle : pos ≤ _ := (reaches_skip ⟨pos, x :: xs⟩ (unquoted (x :: xs)).length).le
      rw [hstop, run_bind_ok (run_moveTo (h.next (reaches_skip _ _))), run_range hle]
      refine ⟨rfl, reaches_skip _ _, fun s => ?_⟩
      rw [run_text h hpass, htake]

/-! ### Attributes -/

/-- What a part of the scanner does at a place where a reader reads: it comes to the same result at
    the same place, or is rejected with the same error. -/
def Reads (x : Scan α) (opened : List String) (depth : Nat) (c : Cursor)
    (r : Except MarkupError (α × Cursor)) : Prop :=
  match r with
  | .error e => x.run ⟨c.pos, opened, depth⟩ = .error (.rejected e)
  | .ok (a, next) => x.run ⟨c.pos, opened, depth⟩ = .ok (a, ⟨next.pos, opened, depth⟩) ∧
      Reaches c next

theorem Reads.ok {x : Scan α} (hrun : x.run ⟨c.pos, opened, depth⟩ = .ok (a, ⟨d.pos, opened, depth⟩))
    (hreach : Reaches c d) : Reads x opened depth c (.ok (a, d)) := ⟨hrun, hreach⟩

/-- The scanner gets from one place to another before it does what the reader does. -/
theorem Reads.of_run {x y : Scan α} {r : Except MarkupError (α × Cursor)}
    (hrun : x.run ⟨c.pos, opened, depth⟩ = y.run ⟨d.pos, opened, depth⟩) (hreach : Reaches c d)
    (h : Reads y opened depth d r) : Reads x opened depth c r := by
  cases r with
  | error e => exact hrun.trans h
  | ok r => exact ⟨hrun.trans h.1, hreach.trans h.2⟩

theorem Reads.map {x : Scan α} {r : Except MarkupError (α × Cursor)} (f : α → β)
    (hx : Reads x opened depth c r) :
    Reads (x >>= fun a => pure (f a)) opened depth c (r.map fun r => (f r.1, r.2)) := by
  cases r with
  | error e => exact run_bind_error hx
  | ok r => exact ⟨run_bind_ok hx.1, hx.2⟩

theorem reads_attributeAt (h : Stands m c) :
    Reads (attributeAt m) opened depth c (attributeFrom c) := by
  have hpass := passes_take c isAttributeNameChar
  have hname : (readWhile m isAttributeNameChar).run ⟨c.pos, opened, depth⟩ = _ :=
    run_readWhile h uniform_isAttributeNameChar
  rw [attributeFrom_eq, attributeAt]
  generalize c.take isAttributeNameChar = taken at hpass hname
  obtain ⟨name, after⟩ := taken
  have hafter := h.next ⟨_, hpass⟩
  have hsign := hafter.next (reaches_skipWhile after Text.isAsciiBlank)
  have hreach := Reaches.trans ⟨_, hpass⟩ (reaches_skipWhile after Text.isAsciiBlank)
  have hempty : Span.isEmpty ⟨c.pos, after.pos⟩ = true ↔ name = [] := isEmpty_of_passes hpass
  dsimp only at hname ⊢
  by_cases hnil : name = []
  · rw [if_pos hnil]
    show StateT.run _ _ = _
    rw [run_bind_ok (run_here _), run_bind_ok hname, if_pos (hempty.2 hnil)]
    rfl
  · rw [if_neg hnil]
    by_cases hpeek : (after.skipWhile Text.isAsciiBlank).peek = some '='
    · have hvalue := (hsign.next (reaches_skip _ 1)).next (reaches_skipWhile _ Text.isAsciiBlank)
      have hstart : (attributeAt m).run ⟨c.pos, opened, depth⟩ = (do
          let valueSpan ← value m c.pos
          let name' ← text m ⟨c.pos, after.pos⟩
          let value ← text m valueSpan
          let span ← range c.pos (← here)
          return ⟨name', value, span, some valueSpan⟩ : Scan Attribute).run
            ⟨(((after.skipWhile Text.isAsciiBlank).skip 1).skipWhile Text.isAsciiBlank).pos, opened,
              depth⟩ := by
        rw [attributeAt, run_bind_ok (run_here _), run_bind_ok hname,
          if_neg (fun h => hnil (hempty.1 h)), run_bind_ok (run_skipBlanks hafter),
          run_bind_ok (run_peek hsign), if_pos ((head?_bytes (by decide) _).2 hpeek),
          run_bind_ok (run_here _)]
        dsimp only
        rw [← pos_skip_one (by decide) hpeek,
          run_bind_ok (run_moveTo (hsign.next (reaches_skip _ 1))),
          run_bind_ok (run_skipBlanks (hsign.next (reaches_skip _ 1)))]
      have hreach' := (hreach.trans (reaches_skip _ 1)).trans
        (reaches_skipWhile _ Text.isAsciiBlank)
      have hrun := run_value hvalue c.pos opened depth
      rw [attributeAt] at hstart
      rw [if_pos hpeek]
      cases hval : valueFrom c.pos
          (((after.skipWhile Text.isAsciiBlank).skip 1).skipWhile Text.isAsciiBlank) with
      | error e =>
        rw [hval] at hrun
        exact hstart.trans (run_bind_error hrun)
      | ok r =>
        obtain ⟨⟨v, span⟩, next⟩ := r
        rw [hval] at hrun
        obtain ⟨hrun, hnext, htext⟩ := hrun
        refine ⟨hstart.trans ?_, hreach'.trans hnext⟩
        rw [run_bind_ok hrun, run_bind_ok (run_text h hpass), run_bind_ok (htext _),
          run_bind_ok (run_here _), run_bind_ok (run_range (hreach'.trans hnext).le _)]
        rfl
    · rw [if_neg hpeek]
      refine ⟨?_, ⟨_, hpass⟩⟩
      rw [run_bind_ok (run_here _), run_bind_ok hname, if_neg (fun h => hnil (hempty.1 h)),
        run_bind_ok (run_skipBlanks hafter), run_bind_ok (run_peek hsign),
        if_neg (fun h => hpeek ((head?_bytes (by decide) _).1 h)),
        run_bind_ok (run_moveTo hafter), run_bind_ok (run_text h hpass)]
      rfl

theorem run_peekAt (h : Stands m d) {offset : Nat} (hd : d.pos = c.pos + offset) :
    (peek m offset).run ⟨c.pos, opened, depth⟩ =
      .ok ((bytes d.rest).head?, ⟨c.pos, opened, depth⟩) := by
  rw [← byteAt?_eq h, hd]; rfl

theorem reads_attributesAt {tagStart : Nat} : ∀ {fuel : Nat} {c : Cursor}, Stands m c →
    c.rest.length < fuel →
      Reads (attributesAt m tagStart fuel) opened depth c (attributesFrom tagStart c)
  | 0, _, _, hlt => absurd hlt (Nat.not_lt_zero _)
  | fuel + 1, c, h, hlt => by
    have hblank := reaches_skipWhile c Text.isAsciiBlank
    have ht := h.next hblank
    have hskip : (skipBlanks m).run ⟨c.pos, opened, depth⟩ = _ := run_skipBlanks h
    have hle := Cursor.length_skipWhile_le c Text.isAsciiBlank
    rw [attributesFrom_eq, attributesAt]
    generalize c.skipWhile Text.isAsciiBlank = t at hblank ht hskip hle
    obtain ⟨pos, rest⟩ := t
    refine Reads.of_run (run_bind_ok hskip) hblank ?_
    refine Reads.of_run (run_bind_ok (run_here _)) (.refl _) ?_
    refine Reads.of_run (run_bind_ok (run_peek ht)) (.refl _) ?_
    cases rest with
    | nil => rfl
    | cons x xs =>
      obtain ⟨b, hb, hsame⟩ := exists_head?_bytes x xs
      have hnext := ht.next (reaches_skip _ 1)
      have hone : ∀ y : Char, y.toNat < 128 → x = y →
          ((Cursor.mk pos (x :: xs)).skip 1).pos = pos + 1 := fun y hy hxy =>
        pos_skip_one hy (congrArg some hxy)
      simp only [hb]
      by_cases hgt : x = '>'
      · obtain rfl : b = '>' := (hsame '>' (by decide)).2 hgt
        rw [if_pos hgt, if_pos rfl]
        refine Reads.ok ?_ (reaches_skip _ 1)
        dsimp only
        rw [← hone '>' (by decide) hgt, run_bind_ok (run_moveTo hnext)]
        rfl
      · have hgt' : b ≠ '>' := fun h => hgt ((hsame '>' (by decide)).1 h)
        rw [if_neg hgt, if_neg hgt']
        by_cases hslash : x = '/'
        · obtain rfl : b = '/' := (hsame '/' (by decide)).2 hslash
          have hpos := hone '/' (by decide) hslash
          rw [if_pos hslash, if_pos rfl]
          refine Reads.of_run (run_bind_ok (run_peekAt hnext hpos)) (.refl _) ?_
          have hlen : ((Cursor.mk pos (x :: xs)).skip 1).rest = xs := rfl
          by_cases hhead : xs.head? = some '>'
          · rw [if_pos hhead, hlen, if_pos ((head?_bytes (by decide) _).2 hhead)]
            have hpos2 : ((Cursor.mk pos (x :: xs)).skip 2).pos = pos + 2 := by
              obtain ⟨more, rfl⟩ := List.head?_eq_some_iff.1 hhead
              simp [Cursor.skip, byteLength, hslash, Char.utf8Size]
            refine Reads.ok ?_ (reaches_skip _ 2)
            rw [← hpos2, run_bind_ok (run_moveTo (ht.next (reaches_skip _ 2)))]
            rfl
          · rw [if_neg hhead, hlen, if_neg fun h => hhead ((head?_bytes (by decide) _).1 h), ← hpos]
            refine Reads.of_run (run_bind_ok (run_moveTo hnext)) (reaches_skip _ 1) ?_
            refine reads_attributesAt hnext ?_
            rw [hlen]
            simp only [List.length_cons] at hle
            omega
        · rw [if_neg hslash, if_neg fun h => hslash ((hsame '/' (by decide)).1 h)]
          have hfirst : Reads _ opened depth _ _ := reads_attributeAt ht
          cases hread : attributeFrom ⟨pos, x :: xs⟩ with
          | error e =>
            rw [hread] at hfirst
            exact run_bind_error hfirst
          | ok r =>
            obtain ⟨a, next⟩ := r
            rw [hread] at hfirst
            have hshort := length_of_map_plain hread
            have hmore : Reads (attributesAt m tagStart fuel) opened depth next _ :=
              reads_attributesAt (ht.next hfirst.2) (by omega)
            exact Reads.of_run (run_bind_ok hfirst.1) hfirst.2 (hmore.map fun r => (a :: r.1, r.2))

/-! ### Headers -/

/-- What a part of the scanner does that may give up: when the reader gives up it does so too,
    wherever that leaves its cursor. -/
def Tries (x : Scan (Option α)) (opened : List String) (depth : Nat) (c : Cursor)
    (r : Except MarkupError (Option (α × Cursor))) : Prop :=
  match r with
  | .error e => x.run ⟨c.pos, opened, depth⟩ = .error (.rejected e)
  | .ok none => ∃ pos, x.run ⟨c.pos, opened, depth⟩ = .ok (none, ⟨pos, opened, depth⟩)
  | .ok (some (a, next)) =>
    x.run ⟨c.pos, opened, depth⟩ = .ok (some a, ⟨next.pos, opened, depth⟩) ∧ Reaches c next

theorem Tries.of_run {x y : Scan (Option α)} {r : Except MarkupError (Option (α × Cursor))}
    (hrun : x.run ⟨c.pos, opened, depth⟩ = y.run ⟨d.pos, opened, depth⟩) (hreach : Reaches c d)
    (h : Tries y opened depth d r) : Tries x opened depth c r := by
  match r, h with
  | .error e, h => exact hrun.trans h
  | .ok none, ⟨pos, h⟩ => exact ⟨pos, hrun.trans h⟩
  | .ok (some r), h => exact ⟨hrun.trans h.1, hreach.trans h.2⟩

theorem trimBlank_ofList (cs : List Char) :
    Text.trimBlank (String.ofList cs) = String.ofList (Text.trim Text.isBlank cs) := by
  rw [Text.trimBlank, String.toList_ofList]; rfl

theorem isEmpty_ofList (cs : List Char) : (String.ofList cs).isEmpty = cs.isEmpty := by
  cases cs with
  | nil => rfl
  | cons c cs =>
    rw [List.isEmpty_cons, Bool.eq_false_iff, ne_eq, String.isEmpty_iff]
    exact fun h => by simpa using congrArg String.toList h

/-- The range of a part of a header that the reader reads, and its text. -/
theorem run_headerPart? (h : Stands m c) (opened : List String) (depth : Nat) :
    match headerPartFrom? c with
    | none => ∃ pos, (headerPart? m).run ⟨c.pos, opened, depth⟩ = .ok (none, ⟨pos, opened, depth⟩)
    | some (part, next) => ∃ span, (headerPart? m).run ⟨c.pos, opened, depth⟩ =
        .ok (some span, ⟨next.pos, opened, depth⟩) ∧ Reaches c next ∧
          ∃ written, part = Text.trim Text.isBlank written ∧
            ∀ s, (text m span).run s = .ok (String.ofList written, s) := by
  have hpass := passes_take c isHeaderChar
  have hread : (readWhile m isHeaderChar).run ⟨c.pos, opened, depth⟩ = _ :=
    run_readWhile h uniform_isHeaderChar
  rw [headerPartFrom?_eq, headerPart?]
  generalize c.take isHeaderChar = taken at hpass hread
  obtain ⟨part, comma⟩ := taken
  have hcomma := h.next ⟨_, hpass⟩
  have hpeek : (peek m 0).run ⟨comma.pos, opened, depth⟩ = _ := run_peek hcomma
  have hempty : (Text.trimBlank (String.ofList part)).isEmpty =
      (Text.trim Text.isBlank part).isEmpty := by rw [trimBlank_ofList, isEmpty_ofList]
  rw [run_bind_ok hread, run_bind_ok hpeek]
  obtain ⟨pos, rest⟩ := comma
  cases rest with
  | nil => exact ⟨pos, rfl⟩
  | cons x xs =>
    dsimp only
    by_cases hx : x = ','
    · subst hx
      have hone := pos_skip_one (by decide) (show (Cursor.mk pos (',' :: xs)).peek = some ',' from rfl)
      rw [if_pos ((head?_bytes (by decide) _).2 rfl), run_bind_ok (run_text h hpass), hempty]
      cases hblank : (Text.trim Text.isBlank part).isEmpty with
      | true => exact ⟨pos, rfl⟩
      | false =>
        refine ⟨⟨c.pos, pos⟩, ?_, Reaches.trans ⟨_, hpass⟩ (reaches_skip _ 1), part, rfl,
          fun s => run_text h hpass⟩
        rw [if_neg Bool.false_ne_true, ← hone, run_bind_ok (run_moveTo (hcomma.next (reaches_skip _ 1)))]
        rfl
    · have hcomma : (bytes (x :: xs)).head? ≠ some ',' := fun h =>
        hx (Option.some.inj ((head?_bytes (by decide) _).1 h))
      rw [if_neg hcomma]
      simp only [hx, decide_false, Bool.false_and, Bool.false_eq_true, if_false]
      exact ⟨pos, rfl⟩

theorem tries_header? (h : Stands m c) : Tries (header? m) opened depth c (.ok (headerFrom? c)) := by
  have hswitch := run_headerPart? h opened depth
  rw [headerFrom?_eq, header?]
  cases hfirst : headerPartFrom? c with
  | none =>
    rw [hfirst] at hswitch
    obtain ⟨pos, hrun⟩ := hswitch
    exact ⟨pos, run_bind_ok hrun⟩
  | some r =>
    obtain ⟨switched, next⟩ := r
    rw [hfirst] at hswitch
    obtain ⟨switchSpan, hrun, hreach, written, rfl, htext⟩ := hswitch
    refine Tries.of_run (run_bind_ok hrun) hreach ?_
    have hkind := run_headerPart? (h.next hreach) opened depth
    dsimp only
    cases hsecond : headerPartFrom? next with
    | none =>
      rw [hsecond] at hkind
      obtain ⟨pos, hrun⟩ := hkind
      exact ⟨pos, run_bind_ok hrun⟩
    | some r =>
      obtain ⟨kind, last⟩ := r
      rw [hsecond] at hkind
      obtain ⟨kindSpan, hrun, hreach, written', rfl, htext'⟩ := hkind
      refine Tries.of_run ((run_bind_ok hrun).trans (run_bind_ok (htext' _))) hreach ?_
      have hall : (bytesOf (Text.trimBlank (String.ofList written'))).all isWordChar =
          (Text.trim Text.isBlank written').all isWordChar := by
        rw [trimBlank_ofList, bytesOf_eq, String.toList_ofList, Text.all_bytes uniform_isWordChar]
      dsimp only
      rw [hall]
      cases (Text.trim Text.isBlank written').all isWordChar with
      | false => exact ⟨last.pos, rfl⟩
      | true =>
        refine ⟨?_, .refl last⟩
        rw [if_pos rfl, run_bind_ok (htext _), trimBlank_ofList, trimBlank_ofList]
        rfl

/-! ### Openings -/

theorem run_startsWith (h : Stands m c) {start : String}
    (hstart : start.toList.all (·.toNat < 128) = true) :
    (startsWith m start).run ⟨c.pos, opened, depth⟩ =
      .ok (start.toList.isPrefixOf c.rest, ⟨c.pos, opened, depth⟩) := by
  rw [startsWith, run_bind_ok (run_here _), if_pos h.pos_le, h.drop,
    Text.isPrefixOf_bytes fun x hx => of_decide_eq_true (List.all_eq_true.1 hstart x hx)]
  rfl

theorem uniform_isLetter : Uniform isLetter := uniform_of fun _ => isLetter_beyond

/-- What a rule finds in the first byte of a text. -/
theorem eq_of_head?_bytes {keep : Char → Bool} (hkeep : Uniform keep) {x b : Char} {xs : List Char}
    (hb : (bytes (x :: xs)).head? = some b) : keep b = keep x := by
  obtain ⟨b', more, hb', ⟨-, rfl, -⟩ | ⟨hx, hbeyond⟩⟩ := Text.exists_bytes_cons x xs
  · rw [hb'] at hb; cases hb; rfl
  · rw [hb'] at hb; cases hb; exact hkeep _ _ hbeyond hx

theorem run_opening (h : Stands m c) : (opening m).run ⟨c.pos, opened, depth⟩ =
    .ok (match c.rest with
      | [] => none
      | x :: xs => some (Opening.of (decide (0 < depth)) x xs), ⟨c.pos, opened, depth⟩) := by
  have hget : (get : Scan State).run ⟨c.pos, opened, depth⟩ = .ok (⟨c.pos, opened, depth⟩, _) := rfl
  obtain ⟨pos, rest⟩ := c
  rw [opening, run_bind_ok hget]
  dsimp only
  rw [run_bind_ok (run_peek h)]
  cases rest with
  | nil => rfl
  | cons x xs =>
    obtain ⟨b, hb, hsame⟩ := exists_head?_bytes x xs
    dsimp only
    rw [hb]
    dsimp only
    by_cases hlt : x = '<'
    · obtain rfl : b = '<' := (hsame '<' (by decide)).2 hlt
      subst hlt
      have hnext := h.next (reaches_skip _ 1)
      have hpeek : (peek m 1).run ⟨pos, opened, depth⟩ = _ :=
        run_peekAt hnext (pos_skip_one (by decide) rfl)
      rw [if_pos rfl, run_bind_ok (run_startsWith h (by decide))]
      cases xs with
      | nil =>
        rw [if_neg (by simp), run_bind_ok (run_startsWith h (by decide)),
          run_bind_ok (run_startsWith h (by decide)), if_neg (by simp), run_bind_ok hpeek]
        rfl
      | cons d more =>
        have hcomment : "<!--".toList.isPrefixOf ('<' :: d :: more) =
            (decide (d = '!') && ['-', '-'].isPrefixOf more) := by
          simp only [@eq_comm Char d]
          rfl
        have hdecl : ("<!".toList.isPrefixOf ('<' :: d :: more) ||
            "<?".toList.isPrefixOf ('<' :: d :: more)) = (decide (d = '!') || decide (d = '?')) := by
          simp [List.isPrefixOf, @eq_comm Char d, Bool.beq_eq_decide_eq]
        obtain ⟨b, hb, hsame⟩ := exists_head?_bytes d more
        have hletter := eq_of_head?_bytes uniform_isLetter hb
        dsimp only
        rw [hcomment, Opening.of, if_pos rfl]
        split
        · rfl
        · rw [run_bind_ok (run_startsWith h (by decide)), run_bind_ok (run_startsWith h (by decide))]
          dsimp only
          rw [hdecl]
          split
          · rfl
          · rw [run_bind_ok hpeek]
            simp only [Cursor.skip, List.drop_one, List.tail_cons, hb, hsame '/' (by decide), hletter]
            split
            · rfl
            · rfl
    · rw [if_neg fun h => hlt ((hsame '<' (by decide)).1 h)]
      by_cases hbrace : x = '\x7b'
      · obtain rfl : b = '\x7b' := (hsame '\x7b' (by decide)).2 hbrace
        subst hbrace
        have hdouble : "\x7b\x7b".toList.isPrefixOf ('\x7b' :: xs) =
            decide (xs.head? = some '\x7b') := by
          cases xs with
          | nil => rfl
          | cons d more => simp [List.isPrefixOf, @eq_comm Char d, Bool.beq_eq_decide_eq]
        rw [if_pos rfl, run_bind_ok (run_startsWith h (by decide))]
        dsimp only
        rw [hdouble]
        by_cases hd : xs.head? = some '\x7b'
        · simp only [Opening.of, hd, decide_true]
          rfl
        · simp only [Opening.of, hd, decide_false]
          rfl
      · rw [if_neg fun h => hbrace ((hsame '\x7b' (by decide)).1 h)]
        simp only [Opening.of, hlt, hbrace, hsame '\x7d' (by decide), if_false]
        rfl

/-! ### Finding -/

/-- Where a pattern is found is where the reader finds it. -/
theorem run_find_past? (h : Stands m c) (needle : String) (s : State) :
    match c.past? needle.toList with
    | none => (find m c.pos needle).run s = .ok (none, s)
    | some next => ∃ stop, (find m c.pos needle).run s = .ok (some stop, s) ∧
        next.pos = stop + byteLength needle.toList ∧ Reaches c next := by
  rw [run_find h, Cursor.past?]
  cases hcut : Text.cutFirst? needle.toList c.rest with
  | none => rfl
  | some found =>
    obtain ⟨front, rest⟩ := found
    refine ⟨_, rfl, rfl, front ++ needle.toList, Text.append_of_cutFirst? hcut, ?_⟩
    rw [byteLength_append, ← Nat.add_assoc]

theorem utf8Size_lower (x : Char) : (Text.lower x).utf8Size = x.utf8Size := by
  by_cases hx : ('A' ≤ x && x ≤ 'Z') = true
  · have hx' : 'A' ≤ x ∧ x ≤ 'Z' := by simpa using hx
    have hlo : 65 ≤ x.toNat := hx'.1
    have hhi : x.toNat ≤ 90 := hx'.2
    have hvalid : Nat.isValidChar (x.toNat + 32) := .inl (by omega)
    have hnat : (Char.ofNat (x.toNat + 32)).toNat = x.toNat + 32 := by
      rw [Char.ofNat, dif_pos hvalid]; rfl
    rw [Text.lower, if_pos hx, utf8Size_ascii (by omega), utf8Size_ascii (by omega)]
  · rw [Text.lower, if_neg hx]

/-- The search for the end of a raw body goes through the text in lower case; a place that it finds
    there is the place in the text. -/
theorem cutFirst?_lower {needle : List Char} (hne : needle ≠ []) : ∀ cs : List Char,
    (Text.cutFirst? needle (cs.map Text.lower)).map (byteLength ∘ Prod.fst) =
      (seek? needle cs).map (byteLength ∘ Prod.fst)
  | [] => by simp [Text.cutFirst?, seek?, hne]
  | x :: xs => by
    have ih := cutFirst?_lower hne xs
    rw [List.map_cons, Text.cutFirst?, seek?, List.map_cons]
    cases hstart : Text.afterStart? needle (Text.lower x :: xs.map Text.lower) with
    | some rest =>
      have hprefix : needle.isPrefixOf (Text.lower x :: xs.map Text.lower) = true :=
        List.isPrefixOf_iff_prefix.2 ⟨rest, (Text.afterStart?_eq_some.1 hstart).symm⟩
      rw [if_pos hprefix]
      rfl
    | none =>
      have hprefix : ¬ needle.isPrefixOf (Text.lower x :: xs.map Text.lower) = true := fun h => by
        obtain ⟨rest, hrest⟩ := List.isPrefixOf_iff_prefix.1 h
        rw [Text.afterStart?_eq_some.2 hrest.symm] at hstart
        cases hstart
      rw [if_neg hprefix]
      dsimp only
      cases hcut : Text.cutFirst? needle (xs.map Text.lower) with
      | none =>
        rw [hcut] at ih
        cases hseek : seek? needle xs with
        | none => rfl
        | some found => rw [hseek] at ih; cases ih
      | some found =>
        rw [hcut] at ih
        cases hseek : seek? needle xs with
        | none => rw [hseek] at ih; cases ih
        | some found' =>
          rw [hseek] at ih
          have hlength : byteLength found.1 = byteLength found'.1 := Option.some.inj ih
          simp [byteLength, utf8Size_lower, hlength]

end RouterShift.Markup.Scanner
