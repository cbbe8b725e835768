import RouterShift.Path
import RouterShift.Proofs.Text.Split

/-! The components of paths that are put together or taken apart by their text. What is joined to an
    absolute path adds its own components (`components_join`), and the parent lacks the last one
    (`components_parent?`), however the path was spelled. -/

namespace RouterShift

namespace Path

/-! ### Components of a text -/

/-- What the pieces of a text between slashes name. -/
def named (cs : List Char) : List Component :=
  (Text.splitAt (· == '/') cs).filterMap Component.ofPiece?

@[simp] theorem named_nil : named [] = [] := rfl

theorem slash_notMem_of_mem_splitAt {text piece : List Char}
    (h : piece ∈ Text.splitAt (· == '/') text) : '/' ∉ piece :=
  fun hslash => absurd (Text.of_mem_splitAt h '/' hslash) (by simp)

theorem named_append (a b : List Char) : named (a ++ '/' :: b) = named a ++ named b := by
  rw [named, Text.splitAt_append rfl, List.filterMap_append]
  rfl

/-- A slash at the end of the first text separates as well. -/
theorem named_append_of_getLast? {a : List Char} (h : a = [] ∨ a.getLast? = some '/')
    (b : List Char) : named (a ++ b) = named a ++ named b := by
  rcases h with rfl | h
  · rfl
  · obtain ⟨front, rfl⟩ := List.getLast?_eq_some_iff.1 h
    rw [List.append_assoc, List.singleton_append, named_append, named_append, named_nil,
      List.append_nil]

/-- The components of an absolute path: the root, and what stands behind the slash. -/
theorem componentsOf_slash (cs : List Char) : componentsOf ('/' :: cs) = .root :: named cs := by
  rw [componentsOf]
  simp [Text.splitAt, Component.ofPiece?, named]

/-- Pieces name nothing but names and steps back. -/
theorem of_mem_named {cs : List Char} {c : Component} (h : c ∈ named cs) :
    c = .parent ∨ ∃ s, c = .name s := by
  obtain ⟨piece, -, hpiece⟩ := List.mem_filterMap.1 h
  rw [Component.ofPiece?] at hpiece
  split at hpiece
  · cases hpiece
  · split at hpiece
    · cases hpiece
      exact .inl rfl
    · cases hpiece
      exact .inr ⟨_, rfl⟩

/-- An absolute path has a slash in front, and its components are named behind it. -/
theorem eq_slash_of_components {p : Path} {cs : List Component}
    (h : p.components = .root :: cs) : ∃ text, p.text.toList = '/' :: text ∧ cs = named text := by
  have htext : ∃ text, p.text.toList = '/' :: text := by
    rw [components, componentsOf] at h
    split at h
    · next hhead => exact (List.head?_eq_some_iff.1 hhead).imp fun _ htext => htext
    · split at h
      · cases h
      · have hroot : .root ∈ named p.text.toList := by
          rw [named, h]
          exact List.mem_cons_self
        rcases of_mem_named hroot with h | ⟨s, h⟩ <;> cases h
  obtain ⟨text, htext⟩ := htext
  rw [components, htext, componentsOf_slash, List.cons.injEq] at h
  exact ⟨text, htext, h.2.symm⟩

/-- Behind a slash that does not start the text, pieces are named as anywhere. -/
theorem componentsOf_append {a : List Char} (ha : a ≠ []) (b : List Char) :
    componentsOf (a ++ '/' :: b) = componentsOf a ++ named b := by
  rw [componentsOf, componentsOf]
  have hsplit : Text.splitAt (· == '/') (a ++ '/' :: b) =
      Text.splitAt (· == '/') a ++ Text.splitAt (· == '/') b := Text.splitAt_append rfl a b
  rw [hsplit, List.filterMap_append, List.head?_append_of_ne_nil _ ha,
    List.head?_append_of_ne_nil _ (Text.splitAt_ne_nil a)]
  split
  · rfl
  · split <;> rfl

theorem componentsOf_append_of_getLast? {a : List Char} (ha : a.getLast? = some '/')
    (b : List Char) : componentsOf (a ++ b) = componentsOf a ++ named b := by
  obtain ⟨front, rfl⟩ := List.getLast?_eq_some_iff.1 ha
  rw [List.append_assoc, List.singleton_append]
  by_cases hfront : front = []
  · rw [hfront, List.nil_append, List.nil_append, componentsOf_slash, componentsOf_slash]
    rfl
  · rw [componentsOf_append hfront, componentsOf_append hfront, named_nil, List.append_nil]

theorem join_eq_of_text_eq {p : Path} (hp : p.text.toList = []) (text : String) :
    p.join text = ⟨text⟩ := by
  rw [join, hp]
  split <;> rfl

/-- What is joined to a path of any text adds what its own pieces name. -/
theorem components_join_of_ne {p : Path} (hp : p.text.toList ≠ []) {text : String}
    (htext : text.toList.head? ≠ some '/') :
    (p.join text).components = p.components ++ named text.toList := by
  rw [join, if_neg htext]
  cases hlast : p.text.toList.getLast? with
  | none => exact absurd (List.getLast?_eq_none_iff.1 hlast) hp
  | some last =>
    dsimp only
    split
    · next hslash =>
      rw [components, String.toList_append, componentsOf_append_of_getLast? (hslash ▸ hlast),
        components]
    · have hslash : "/".toList = ['/'] := rfl
      rw [components, String.toList_append, String.toList_append, hslash, List.append_assoc,
        List.singleton_append, componentsOf_append hp, components]

theorem components_join {p : Path} {cs : List Component} (hp : p.components = .root :: cs)
    {text : String} (htext : text.toList.head? ≠ some '/') :
    (p.join text).components = .root :: (cs ++ named text.toList) := by
  obtain ⟨front, hfront, -⟩ := eq_slash_of_components hp
  rw [components_join_of_ne (by rw [hfront]; exact List.cons_ne_nil _ _) htext, hp, List.cons_append]

/-! ### Parents -/

section
variable {α β : Type} {f : α → Option β} {q : α → Bool} (h : ∀ a, q a = true ↔ f a = none)

include h in
theorem filterMap_dropWhile (as : List α) : (as.dropWhile q).filterMap f = as.filterMap f := by
  induction as with
  | nil => rfl
  | cons a as ih =>
    rw [List.dropWhile_cons]
    split
    · next ha => rw [ih, List.filterMap_cons_none ((h a).1 ha)]
    · rfl

include h in
theorem filterMap_tail_dropWhile (as : List α) :
    (as.dropWhile q).tail.filterMap f = (as.filterMap f).tail := by
  rw [← filterMap_dropWhile h as]
  cases hkept : as.dropWhile q with
  | nil => rfl
  | cons a rest =>
    -- what is kept begins with something that counts
    have ha : ¬ q a = true := by
      have hne := List.head_dropWhile_not q (by rw [hkept]; simp : as.dropWhile q ≠ [])
      simpa [hkept] using hne
    obtain ⟨b, hb⟩ := Option.ne_none_iff_exists'.1 fun hnone => ha ((h a).2 hnone)
    rw [List.filterMap_cons_some hb]
    rfl

end

/-- A piece that is dropped names nothing. -/
theorem ofPiece?_eq_none_iff (piece : List Char) :
    (decide (piece = []) || decide (piece = ['.'])) = true ↔ Component.ofPiece? piece = none := by
  rw [Component.ofPiece?]
  split
  · simp_all
  · split <;> simp_all

/-- What is left of the pieces names what they name. -/
theorem filterMap_kept (pieces : List (List Char)) :
    (pieces.reverse.dropWhile fun q => decide (q = []) || decide (q = ['.'])).reverse.filterMap
      Component.ofPiece? = pieces.filterMap Component.ofPiece? := by
  rw [List.filterMap_reverse, filterMap_dropWhile ofPiece?_eq_none_iff, List.filterMap_reverse,
    List.reverse_reverse]

/-- Idle pieces at the end are dropped, but for a `.` that is all a relative path has. -/
theorem dropIdle_cases (isRelative : Bool) (pieces : List (List Char)) :
    dropIdle isRelative pieces =
        (pieces.reverse.dropWhile fun q => decide (q = []) || decide (q = ['.'])).reverse ∨
      dropIdle isRelative pieces = [['.']] ∧ [['.']] <+: pieces ∧
        pieces.filterMap Component.ofPiece? = [] := by
  rw [← filterMap_kept pieces]
  unfold dropIdle
  split
  · next more hkept =>
    split
    · exact .inr ⟨rfl, ⟨more, rfl⟩, by rw [hkept]; rfl⟩
    · exact .inl hkept.symm
  · exact .inl rfl

theorem filterMap_dropIdle (isRelative : Bool) (pieces : List (List Char)) :
    (dropIdle isRelative pieces).filterMap Component.ofPiece? =
      pieces.filterMap Component.ofPiece? := by
  rcases dropIdle_cases isRelative pieces with h | ⟨h, -, hnone⟩
  · rw [h, filterMap_kept]
  · rw [h, hnone]
    rfl

/-- Of what the pieces name the last is dropped. -/
theorem filterMap_dropLastComponent (isRelative : Bool) (pieces : List (List Char)) :
    (dropLastComponent isRelative pieces).filterMap Component.ofPiece? =
      (pieces.filterMap Component.ofPiece?).dropLast := by
  rw [dropLastComponent, filterMap_dropIdle]
  rcases dropIdle_cases isRelative pieces with h | ⟨h, -, hnone⟩
  · rw [h, List.dropLast_reverse, List.filterMap_reverse,
      filterMap_tail_dropWhile ofPiece?_eq_none_iff, List.filterMap_reverse, List.tail_reverse,
      List.reverse_reverse]
  · rw [h, hnone]
    rfl

theorem prefix_kept (pieces : List (List Char)) :
    (pieces.reverse.dropWhile fun q => decide (q = []) || decide (q = ['.'])).reverse <+: pieces :=
  List.reverse_suffix.1 (by rw [List.reverse_reverse]; exact List.dropWhile_suffix _)

theorem prefix_dropIdle (isRelative : Bool) (pieces : List (List Char)) :
    dropIdle isRelative pieces <+: pieces := by
  rcases dropIdle_cases isRelative pieces with h | ⟨h, hdot, -⟩
  · rw [h]
    exact prefix_kept pieces
  · rw [h]
    exact hdot

theorem prefix_dropLastComponent (isRelative : Bool) (pieces : List (List Char)) :
    dropLastComponent isRelative pieces <+: pieces :=
  (prefix_dropIdle _ _).trans ((List.dropLast_prefix _).trans (prefix_dropIdle _ _))

theorem named_intercalate {pieces : List (List Char)} (h : ∀ piece ∈ pieces, '/' ∉ piece) :
    named (List.intercalate ['/'] pieces) = pieces.filterMap Component.ofPiece? := by
  cases pieces with
  | nil => rfl
  | cons piece pieces => rw [named, Text.splitAt_intercalate (List.cons_ne_nil _ _) h]

/-- A part of a text put together from its first pieces is a beginning of it. -/
theorem prefix_intercalate {front pieces : List (List Char)} (h : front <+: pieces) :
    List.intercalate ['/'] front <+: List.intercalate ['/'] pieces := by
  obtain ⟨more, rfl⟩ := h
  induction front with
  | nil => exact List.nil_prefix
  | cons piece front ih =>
    rcases front with - | ⟨next, front⟩
    · rcases more with - | ⟨next, more⟩
      · exact List.prefix_rfl
      · exact ⟨'/' :: List.intercalate ['/'] (next :: more), by simp [List.intercalate]⟩
    · obtain ⟨rest, hrest⟩ := ih
      refine ⟨rest, ?_⟩
      simp only [List.cons_append] at hrest ⊢
      rw [List.intercalate_cons_cons, List.intercalate_cons_cons, ← hrest]
      simp

/-- What the pieces before the last component name. -/
theorem named_dropLastComponent (isRelative : Bool) (text : List Char) :
    named (List.intercalate ['/'] (dropLastComponent isRelative (Text.splitAt (· == '/') text))) =
      (named text).dropLast := by
  rw [named_intercalate, filterMap_dropLastComponent, named]
  exact fun piece hpiece =>
    slash_notMem_of_mem_splitAt ((prefix_dropLastComponent _ _).subset hpiece)

/-- The parent of an absolute path has its components but for the last one. -/
theorem components_parent? {p parent : Path} {cs : List Component}
    (hp : p.components = .root :: cs) (h : p.parent? = some parent) :
    cs ≠ [] ∧ parent.components = .root :: cs.dropLast := by
  obtain ⟨text, htext, hcs⟩ := eq_slash_of_components hp
  have hpieces : (Text.splitAt (· == '/') p.text.toList).drop 1 =
      Text.splitAt (· == '/') text := by
    rw [htext]
    rfl
  have habsolute : p.isAbsolute = true := by simp [isAbsolute, htext]
  unfold parent? at h
  dsimp only at h
  rw [hp, hpieces, if_pos habsolute] at h
  cases cs with
  | nil => cases h
  | cons c cs =>
    refine ⟨List.cons_ne_nil c cs, ?_⟩
    split at h
    · cases h
    · cases h
    · cases h
      rw [components, String.toList_append, String.toList_ofList, List.singleton_append,
        componentsOf_slash, String.toList_ofList, named_dropLastComponent, hcs]

theorem isAbsolute_iff (p : Path) : p.isAbsolute = true ↔ p.text.toList.head? = some '/' :=
  beq_iff_eq

/-- The parent of a relative path is relative, and names what its pieces name but for the last. -/
theorem relative_parent? {p parent : Path} (hp : p.isAbsolute = false)
    (h : p.parent? = some parent) :
    parent.isAbsolute = false ∧ named parent.text.toList = (named p.text.toList).dropLast := by
  unfold parent? at h
  dsimp only at h
  rw [hp, if_neg Bool.false_ne_true] at h
  split at h
  · cases h
  · cases h
  · have hparent := Option.some.inj h
    rw [← hparent, String.toList_ofList]
    refine ⟨?_, named_dropLastComponent true _⟩
    have hprefix := prefix_intercalate
      (prefix_dropLastComponent true (Text.splitAt (· == '/') p.text.toList))
    rw [Text.intercalate_splitAt] at hprefix
    obtain ⟨rest, hrest⟩ := hprefix
    rw [← Bool.not_eq_true, isAbsolute_iff] at hp ⊢
    intro hslash
    rw [String.toList_ofList] at hslash
    rw [← hrest, List.head?_append, hslash] at hp
    exact hp rfl

/-- The last piece of a text. -/
theorem exists_last_piece (text : List Char) : ∃ front piece, text = front ++ piece ∧
    '/' ∉ piece ∧ (front = [] ∨ front.getLast? = some '/') := by
  induction text with
  | nil => exact ⟨[], [], rfl, by simp, .inl rfl⟩
  | cons c text ih =>
    obtain ⟨front, piece, rfl, hpiece, rfl | hfront⟩ := ih
    · by_cases hc : c = '/'
      · exact ⟨[c], piece, rfl, hpiece, .inr (by simp [hc])⟩
      · exact ⟨[], c :: piece, rfl, by simp [Ne.symm hc, hpiece], .inl rfl⟩
    · exact ⟨c :: front, piece, rfl, hpiece, .inr (by simp [List.getLast?_cons, hfront])⟩

theorem named_piece {piece : List Char} (h : '/' ∉ piece) :
    named piece = (Component.ofPiece? piece).toList := by
  have hnamed : named (List.intercalate ['/'] [piece]) = [piece].filterMap Component.ofPiece? :=
    named_intercalate (by simpa using h)
  rw [List.intercalate_singleton] at hnamed
  rw [hnamed]
  cases hpiece : Component.ofPiece? piece <;> simp [hpiece]

/-- A text behind a slash that names nothing ends in a slash, or in a dot behind one. -/
theorem end_of_named_eq_nil {text : List Char} (h : named text = []) :
    ['/'] <:+ '/' :: text ∨ ['/', '.'] <:+ '/' :: text := by
  obtain ⟨front, piece, rfl, hpiece, hfront⟩ := exists_last_piece text
  rw [named_append_of_getLast? hfront, named_piece hpiece, List.append_eq_nil_iff] at h
  have hidle := (ofPiece?_eq_none_iff piece).2 (Option.toList_eq_nil_iff.1 h.2)
  have hslash : ['/'] <:+ '/' :: front := by
    rcases hfront with rfl | hfront
    · exact List.suffix_rfl
    · obtain ⟨before, rfl⟩ := List.getLast?_eq_some_iff.1 hfront
      exact ⟨'/' :: before, rfl⟩
  obtain ⟨before, hbefore⟩ := hslash
  simp only [Bool.or_eq_true, decide_eq_true_eq] at hidle
  rcases hidle with rfl | rfl
  · exact .inl ⟨before, by rw [hbefore, List.append_nil]⟩
  · exact .inr ⟨before, by rw [← List.cons_append, ← hbefore]; simp⟩

/-! ### Spelling components -/

/-- A component that is read off its own spelling; names are neither empty nor dots alone, and no
    slash stands in them. -/
def IsSpelled : Component → Prop
  | .name s => Component.ofPiece? s.toList = some (.name s) ∧ '/' ∉ s.toList
  | _ => True

theorem isSpelled_of_ofPiece? {piece : List Char} {c : Component} (hslash : '/' ∉ piece)
    (h : Component.ofPiece? piece = some c) : IsSpelled c := by
  have hpiece := h
  rw [Component.ofPiece?] at h
  split at h
  · cases h
  · split at h
    · cases h
      trivial
    · cases h
      rw [IsSpelled, String.toList_ofList]
      exact ⟨hpiece, hslash⟩

theorem isSpelled_of_mem_named {cs : List Char} {c : Component} (h : c ∈ named cs) :
    IsSpelled c := by
  obtain ⟨piece, hmem, hpiece⟩ := List.mem_filterMap.1 h
  exact isSpelled_of_ofPiece? (slash_notMem_of_mem_splitAt hmem) hpiece

/-- The components of a path, but for a root or a `.` at its start, are those its pieces name. -/
theorem components_cases (p : Path) :
    p.components = .root :: named p.text.toList ∨ p.components = .here :: named p.text.toList ∨
      p.components = named p.text.toList := by
  rw [components, componentsOf]
  split
  · exact .inl rfl
  · split
    · exact .inr (.inl rfl)
    · exact .inr (.inr rfl)

theorem isSpelled_of_mem_components {p : Path} {c : Component} (h : c ∈ p.components) :
    IsSpelled c := by
  rcases components_cases p with hp | hp | hp
  all_goals rw [hp] at h
  · rcases List.mem_cons.1 h with rfl | h
    · trivial
    · exact isSpelled_of_mem_named h
  · rcases List.mem_cons.1 h with rfl | h
    · trivial
    · exact isSpelled_of_mem_named h
  · exact isSpelled_of_mem_named h

theorem root_notMem_named (cs : List Char) : .root ∉ named cs := fun h => by
  rcases of_mem_named h with h | ⟨s, h⟩ <;> cases h

/-- Behind the first component all are named. -/
theorem mem_named_of_mem_tail {p : Path} {c : Component} (h : c ∈ p.components.tail) :
    c ∈ named p.text.toList := by
  rcases components_cases p with hp | hp | hp
  all_goals rw [hp] at h
  · exact h
  · exact h
  · exact List.mem_of_mem_tail h

/-- A root only starts a path. -/
theorem root_notMem_tail_components (p : Path) : .root ∉ p.components.tail :=
  fun h => root_notMem_named _ (mem_named_of_mem_tail h)

/-- All components are named but a root and a `.`. -/
theorem filter_components (p : Path) :
    (p.components.filter fun c => c != .root && c != .here) = named p.text.toList := by
  have hnamed : ((named p.text.toList).filter fun c => c != .root && c != .here) =
      named p.text.toList := List.filter_eq_self.2 fun c hc => by
    rcases of_mem_named hc with rfl | ⟨s, rfl⟩ <;> rfl
  rcases components_cases p with hp | hp | hp
  · rw [hp, List.filter_cons_of_neg (by decide), hnamed]
  · rw [hp, List.filter_cons_of_neg (by decide), hnamed]
  · rw [hp, hnamed]

section
variable {c : Component} (hc : IsSpelled c) (hstep : c = .parent ∨ ∃ s, c = .name s)

include hc hstep in
theorem named_render : named c.render.toList = [c] := by
  rcases hstep with rfl | ⟨s, rfl⟩
  · rfl
  · rw [Component.render, named_piece hc.2, hc.1]
    rfl

include hc hstep in
theorem head?_render : c.render.toList.head? ≠ some '/' := by
  rcases hstep with rfl | ⟨s, rfl⟩
  · decide
  · exact fun h => hc.2 (List.mem_of_mem_head? h)

include hc in
/-- One component written alone. -/
theorem componentsOf_render : componentsOf c.render.toList = [c] := by
  cases c with
  | root => rfl
  | here => rfl
  | parent => rfl
  | name s =>
    have hpiece : Text.splitAt (· == '/') s.toList = [s.toList] :=
      Text.splitAt_of_forall fun x hx => by
        have hne : x ≠ '/' := fun h => hc.2 (h ▸ hx)
        simpa using hne
    have hdot : s.toList ≠ ['.'] := fun h => by
      have hpiece := hc.1
      rw [h] at hpiece
      cases hpiece
    have hslash : s.toList.head? ≠ some '/' := head?_render hc (.inr ⟨s, rfl⟩)
    rw [Component.render, componentsOf, if_neg hslash, hpiece]
    simp [hdot, hc.1]

end

/-- Components spelled one by one are read back. -/
theorem components_foldl_join {cs : List Component} (hcs : ∀ c ∈ cs, IsSpelled c)
    (hstep : ∀ c ∈ cs, c = .parent ∨ ∃ s, c = .name s) {p : Path} (hp : p.text.toList ≠ []) :
    (cs.foldl (fun p c => p.join c.render) p).components = p.components ++ cs := by
  induction cs generalizing p with
  | nil => rw [List.foldl_nil, List.append_nil]
  | cons c cs ih =>
    have hmem : c ∈ c :: cs := List.mem_cons_self
    have hjoin := components_join_of_ne hp (head?_render (hcs c hmem) (hstep c hmem))
    rw [named_render (hcs c hmem) (hstep c hmem)] at hjoin
    have hne : (p.join c.render).text.toList ≠ [] := by
      intro hnil
      have hcomponents : (p.join c.render).components = [] := by
        rw [components, hnil]
        rfl
      rw [hjoin] at hcomponents
      simp at hcomponents
    rw [List.foldl_cons, ih (fun d hd => hcs d (List.mem_cons_of_mem c hd))
      (fun d hd => hstep d (List.mem_cons_of_mem c hd)) hne, hjoin, List.append_assoc,
      List.singleton_append]

theorem components_ofComponents {cs : List Component} (hcs : ∀ c ∈ cs, IsSpelled c)
    (hstep : ∀ c ∈ cs.tail, c = .parent ∨ ∃ s, c = .name s) : (ofComponents cs).components = cs := by
  cases cs with
  | nil => rfl
  | cons c cs =>
    have hc := hcs c List.mem_cons_self
    have hne : c.render.toList ≠ [] := by
      intro hnil
      have hcomponents := componentsOf_render hc
      rw [hnil] at hcomponents
      cases hcomponents
    have hfirst : (⟨c.render⟩ : Path).components = [c] := componentsOf_render hc
    have hrest := components_foldl_join (p := ⟨c.render⟩)
      (fun d hd => hcs d (List.mem_cons_of_mem c hd)) hstep hne
    rw [ofComponents, List.foldl_cons, join_eq_of_text_eq rfl, hrest, hfirst, List.singleton_append]

/-! ### Paths below another -/

theorem isIdle_iff (piece : List Char) : isIdle piece = true ↔ Component.ofPiece? piece = none :=
  ofPiece?_eq_none_iff piece

/-- Pieces that name nothing are passed over, but not counted. -/
theorem filterMap_dropNamed (n : ℕ) (pieces : List (List Char)) :
    (dropNamed n pieces).filterMap Component.ofPiece? =
      (pieces.filterMap Component.ofPiece?).drop n := by
  induction pieces generalizing n with
  | nil => cases n <;> rfl
  | cons piece pieces ih =>
    cases n with
    | zero => rw [dropNamed, filterMap_dropWhile isIdle_iff, List.drop_zero]
    | succ n =>
      rw [dropNamed]
      split
      · next hidle => rw [ih, List.filterMap_cons_none ((isIdle_iff piece).1 hidle)]
      · next hidle =>
        obtain ⟨c, hc⟩ := Option.ne_none_iff_exists'.1 fun hnone => hidle ((isIdle_iff piece).2 hnone)
        rw [ih, List.filterMap_cons_some hc, List.drop_succ_cons]

theorem dropNamed_suffix (n : ℕ) (pieces : List (List Char)) : dropNamed n pieces <:+ pieces := by
  induction pieces generalizing n with
  | nil => cases n <;> exact List.suffix_rfl
  | cons piece pieces ih =>
    cases n with
    | zero => exact List.dropWhile_suffix _
    | succ n =>
      rw [dropNamed]
      split <;> exact (ih _).trans (List.suffix_cons _ _)

/-- What is left begins with a piece that names something. -/
theorem isIdle_of_head?_dropNamed (n : ℕ) (pieces : List (List Char)) {piece : List Char}
    (h : (dropNamed n pieces).head? = some piece) : isIdle piece = false := by
  induction pieces generalizing n with
  | nil => cases n <;> cases h
  | cons first pieces ih =>
    cases n with
    | zero =>
      have hhead := List.head?_dropWhile_not isIdle (first :: pieces)
      rw [dropNamed] at h
      rw [h] at hhead
      exact hhead
    | succ n =>
      rw [dropNamed] at h
      split at h <;> exact ih _ h

/-- Pieces of which the first names something are a relative path, with the components they name. -/
theorem componentsOf_intercalate {pieces : List (List Char)} (h : ∀ piece ∈ pieces, '/' ∉ piece)
    (hhead : ∀ piece, pieces.head? = some piece → isIdle piece = false) :
    componentsOf (List.intercalate ['/'] pieces) = pieces.filterMap Component.ofPiece? := by
  rcases pieces with - | ⟨piece, pieces⟩
  · rfl
  have hidle := hhead piece rfl
  rw [isIdle, Bool.or_eq_false_iff, decide_eq_false_iff_not, decide_eq_false_iff_not] at hidle
  have hslash : (List.intercalate ['/'] (piece :: pieces)).head? ≠ some '/' := by
    obtain ⟨rest, hrest⟩ :=
      prefix_intercalate (show [piece] <+: piece :: pieces from ⟨pieces, rfl⟩)
    rw [← hrest, List.intercalate_singleton, List.head?_append_of_ne_nil _ hidle.1]
    exact fun hslash => h piece List.mem_cons_self (List.mem_of_mem_head? hslash)
  rw [componentsOf, if_neg hslash, Text.splitAt_intercalate (List.cons_ne_nil _ _) h]
  simp [hidle.2]

/-- A `.` that starts a relative path is kept. -/
theorem head?_splitAt_dropIdle (text : List Char) :
    (Text.splitAt (· == '/') (List.intercalate ['/'] (dropIdle true
      (Text.splitAt (· == '/') text)))).head? = some ['.'] ↔
        (Text.splitAt (· == '/') text).head? = some ['.'] := by
  have hpieces : ∀ piece ∈ dropIdle true (Text.splitAt (· == '/') text), '/' ∉ piece :=
    fun piece hpiece => slash_notMem_of_mem_splitAt ((prefix_dropIdle _ _).subset hpiece)
  obtain ⟨more, hmore⟩ := prefix_dropIdle true (Text.splitAt (· == '/') text)
  cases hkept : dropIdle true (Text.splitAt (· == '/') text) with
  | nil =>
    have hdot : (Text.splitAt (· == '/') text).head? ≠ some ['.'] := by
      intro hdot
      obtain ⟨rest, hrest⟩ := List.head?_eq_some_iff.1 hdot
      rw [hrest] at hkept
      rcases dropIdle_cases true (['.'] :: rest) with hnone | ⟨hone, -⟩
      · rw [hkept] at hnone
        rw [dropIdle, if_pos rfl] at hkept
        · cases hkept
        · exact hnone.symm
      · rw [hkept] at hone
        cases hone
    simp [hdot, Text.splitAt]
  | cons piece kept =>
    rw [hkept] at hpieces hmore
    rw [Text.splitAt_intercalate (List.cons_ne_nil _ _) hpieces, ← hmore]
    rfl

/-- The end of a spelling that names nothing does not count. -/
theorem components_trimmed (p : Path) : p.trimmed.components = p.components := by
  have hpieces (isRelative : Bool) (text : List Char) :
      ∀ piece ∈ dropIdle isRelative (Text.splitAt (· == '/') text), '/' ∉ piece :=
    fun piece hpiece => slash_notMem_of_mem_splitAt ((prefix_dropIdle _ _).subset hpiece)
  rw [trimmed]
  split
  · next habsolute =>
    obtain ⟨text, htext⟩ := List.head?_eq_some_iff.1 ((isAbsolute_iff p).1 habsolute)
    have hdrop : (Text.splitAt (· == '/') p.text.toList).drop 1 = Text.splitAt (· == '/') text := by
      rw [htext]
      rfl
    rw [hdrop, components, String.toList_append, String.toList_ofList, List.singleton_append,
      componentsOf_slash, components, htext, componentsOf_slash, String.toList_ofList,
      named_intercalate (hpieces false text), filterMap_dropIdle]
    rfl
  · next hrelative =>
    rw [isAbsolute_iff] at hrelative
    obtain ⟨rest, hrest⟩ := prefix_intercalate
      (prefix_dropIdle true (Text.splitAt (· == '/') p.text.toList))
    rw [Text.intercalate_splitAt] at hrest
    have hhead : (List.intercalate ['/'] (dropIdle true
        (Text.splitAt (· == '/') p.text.toList))).head? ≠ some '/' := by
      intro hslash
      rw [← hrest, List.head?_append, hslash] at hrelative
      exact hrelative rfl
    rw [components, String.toList_ofList, componentsOf, components, componentsOf, if_neg hrelative,
      if_neg hhead]
    have hnamed : named (List.intercalate ['/'] (dropIdle true
        (Text.splitAt (· == '/') p.text.toList))) = named p.text.toList := by
      rw [named_intercalate (hpieces true _), filterMap_dropIdle, named]
    simp only [head?_splitAt_dropIdle]
    rw [← named, ← named, hnamed]

/-- The pieces of a path below another one name what those of that one name, and what it adds. -/
theorem named_of_components {p base : Path} {ds : List Component} (hbase : base.components ≠ [])
    (hp : p.components = base.components ++ ds) :
    named p.text.toList = named base.text.toList ++ ds := by
  have htail : ∀ c ∈ ds, c ∈ named p.text.toList := by
    intro c hc
    refine mem_named_of_mem_tail ?_
    rw [hp, List.tail_append_of_ne_nil hbase]
    exact List.mem_append_right _ hc
  rw [← filter_components p, ← filter_components base, hp, List.filter_append]
  congr 1
  exact List.filter_eq_self.2 fun c hc => by
    rcases of_mem_named (htail c hc) with rfl | ⟨s, rfl⟩ <;> rfl

/-- What a path is called from one above it names what it adds to that one. -/
theorem components_below? {p base : Path} {ds : List Component}
    (hp : p.components = base.components ++ ds) :
    ∃ q, p.below? base = some q ∧ q.components = ds := by
  have hbelow : p.isBelow base = true := by
    rw [isBelow, hp]
    exact List.isPrefixOf_iff_prefix.2 (List.prefix_append _ _)
  rw [below?, if_pos hbelow]
  by_cases hbase : base.components = []
  · rw [if_pos hbase]
    exact ⟨_, rfl, by rw [components_trimmed, hp, hbase, List.nil_append]⟩
  rw [if_neg hbase]
  refine ⟨_, rfl, ?_⟩
  change componentsOf (String.ofList (List.intercalate ['/'] ((dropNamed
    (named base.text.toList).length (Text.splitAt (· == '/') p.text.toList)).reverse.dropWhile
      isIdle).reverse)).toList = ds
  generalize hleft : dropNamed (named base.text.toList).length
    (Text.splitAt (· == '/') p.text.toList) = left
  have hfront : (left.reverse.dropWhile isIdle).reverse <+: left := prefix_kept left
  have hslash : ∀ piece ∈ left, '/' ∉ piece := by
    rw [← hleft]
    exact fun piece hpiece => slash_notMem_of_mem_splitAt ((dropNamed_suffix _ _).subset hpiece)
  have hhead : ∀ piece, (left.reverse.dropWhile isIdle).reverse.head? = some piece →
      isIdle piece = false := by
    intro piece hpiece
    obtain ⟨more, hmore⟩ := hfront
    refine isIdle_of_head?_dropNamed (named base.text.toList).length
      (Text.splitAt (· == '/') p.text.toList) ?_
    rw [hleft, ← hmore, List.head?_append, hpiece]
    rfl
  have hnames : (left.reverse.dropWhile isIdle).reverse.filterMap Component.ofPiece? =
      left.filterMap Component.ofPiece? := filterMap_kept left
  have hnamed : (Text.splitAt (· == '/') p.text.toList).filterMap Component.ofPiece? =
      named base.text.toList ++ ds := named_of_components hbase hp
  rw [String.toList_ofList,
    componentsOf_intercalate (fun piece hpiece => hslash piece (hfront.subset hpiece)) hhead,
    hnames, ← hleft, filterMap_dropNamed, hnamed, List.drop_left]

example : (⟨"./a//b.ts"⟩ : Path).below? ⟨"."⟩ = some ⟨"a//b.ts"⟩ := by decide

end Path
end RouterShift
