import Mathlib.Data.List.TakeWhile
import Mathlib.Logic.Relation
import RouterShift.Proofs.Markup.Recovery

/-! The reader as a machine. It holds the names of the open elements and goes over the text from left
    to right, one construct at a time, where the reader builds a tree: an end tag closes the
    innermost element of its name, and the elements that are open inside of that one end in front of
    it. What comes of a single brace is given to the machine (`Point.move`). With the forms that the
    reader finds it comes to the end of just the texts that are templates (`parse_isOk_iff`). -/

namespace RouterShift.Markup
open Text (Cursor byteLength)

/-- What comes of a brace that is tried as an expansion form. -/
inductive Attempt
  /-- It opens none, and is text. -/
  | breaksOff
  /-- It opens a form that ends at a place. -/
  | opens (next : Cursor)
  /-- Reading ends there. -/
  | fails
  deriving Repr, DecidableEq

/-- Where reading is: the names of the open elements, the innermost first, and the place. -/
structure Point where
  opened : List String
  place : Cursor
  deriving Repr, DecidableEq

/-- What is next. -/
inductive Move
  /-- The text is at its end. -/
  | ended
  /-- What is there cannot be read. -/
  | stuck
  | on (next : Point)
  deriving Repr, DecidableEq

/-- Over a brace. -/
def Attempt.move (p : Point) : Attempt → Move
  | .breaksOff => .on ⟨p.opened, p.place.skip 1⟩
  | .opens next => .on ⟨p.opened, next⟩
  | .fails => .stuck

namespace Point

/-- Over the start tag at a point, and over the text and the end tag of an element that has text for
    its content. -/
def start (p : Point) : Move :=
  let name := ((p.place.skip 1).take isTagNameChar).1
  match attributesFrom p.place.pos ((p.place.skip 1).take isTagNameChar).2 with
  | .error _ => .stuck
  | .ok ((_, selfClosing), body) =>
    if selfClosing || isVoid (String.ofList name) then .on ⟨p.opened, body⟩
    else if isRawText (String.ofList name) then
      match seek? (endNeedle name) body.rest with
      | none => .stuck
      | some (text, back) =>
        match readEndTag ⟨body.pos + byteLength text, back⟩ with
        | .error _ => .stuck
        | .ok (_, next) => .on ⟨p.opened, next⟩
    else .on ⟨String.ofList name :: p.opened, body⟩

/-- Over the end tag at a point, out of the innermost element that has its name. -/
def stop (p : Point) : Move :=
  match readEndTag p.place with
  | .error _ => .stuck
  | .ok (e, next) =>
    match p.opened.dropWhile fun name => !sameName e.name name with
    | [] => .stuck
    | _ :: outer => .on ⟨outer, next⟩

/-- Over one construct, outside of the cases of expansion forms. -/
def move (form : Point → Attempt) (p : Point) : Move :=
  match p.place.rest with
  | [] => .ended
  | c :: cs =>
    match Opening.of false c cs with
    | .comment =>
      match (p.place.skip 4).past? ['-', '-', '>'] with
      | none => .stuck
      | some next => .on ⟨p.opened, next⟩
    | .declaration =>
      match p.place.past? ['>'] with
      | none => .stuck
      | some next => .on ⟨p.opened, next⟩
    | .endTag => p.stop
    | .element => p.start
    | .interpolation =>
      match (p.place.skip 2).past? ['}', '}'] with
      | none => .ended
      | some next => .on ⟨p.opened, next⟩
    | .brace => (form p).move p
    | .caseEnd | .text => .on ⟨p.opened, (p.place.skip 1).skipWhile isPlain⟩

/-- A single brace is next. -/
def isBrace (p : Point) : Bool :=
  match p.place.rest with
  | [] => false
  | c :: cs => Opening.of false c cs = .brace

end Point

/-- What the reader makes of a brace. -/
def attempt (p : Point) : Attempt :=
  match formFrom? p.opened p.place.pos (p.place.skip 1) with
  | .error _ => .fails
  | .ok none => .breaksOff
  | .ok (some (_, next)) => .opens next

/-- No brace opens a form: all of them are text. -/
def noForm (_ : Point) : Attempt := .breaksOff

/-- Reading comes to the end of the text. -/
inductive Accepts (form : Point → Attempt) : Point → Prop
  | ended (p : Point) (h : p.move form = .ended) : Accepts form p
  | on (p q : Point) (h : p.move form = .on q) (hq : Accepts form q) : Accepts form p

/-- Reading comes from one point to another one. -/
def Reads (form : Point → Attempt) : Point → Point → Prop :=
  Relation.ReflTransGen fun p q => p.move form = .on q

/-- The beginning of a text. -/
def atStart (text : String) : Point := ⟨[], .ofString text⟩

/-! ### How some siblings end -/

/-- How a run of siblings ends, and where. -/
def ending (x : Except MarkupError ((List Node × Stop) × Cursor)) :
    Except MarkupError (Stop × Cursor) :=
  x.map fun r => (r.1.2, r.2)

theorem ending_prepend (front : List Node) (x : Except MarkupError ((List Node × Stop) × Cursor)) :
    ending (x.map (prepend front)) = ending x := by
  cases x <;> rfl

/-- It is no matter for how siblings end whether a text is open in front of them. -/
theorem ending_pending (opened : List String) (inCase : Bool) (pending pending' : Option Nat)
    (s : Cursor) :
    ending (siblingsFrom opened inCase pending s) = ending (siblingsFrom opened inCase pending' s) := by
  rw [siblingsFrom_eq, siblingsFrom_eq opened inCase pending']
  obtain ⟨pos, rest⟩ := s
  cases rest with
  | nil => rfl
  | cons c cs =>
    have hskip : ((Cursor.mk pos (c :: cs)).skip 1).rest.length < (c :: cs).length := by
      rw [Cursor.length_skip, List.length_cons]
      omega
    cases hO : Opening.of inCase c cs with
    | comment =>
      simp only [hO]
      split
      · rfl
      · rw [ending_prepend, ending_prepend]
    | declaration =>
      simp only [hO]
      split
      · rfl
      · rw [ending_prepend, ending_prepend]
    | endTag => simp only [hO]; rfl
    | caseEnd => simp only [hO]; rfl
    | element =>
      simp only [hO]
      split
      · rfl
      · rw [ending_prepend, ending_prepend]
    | interpolation =>
      simp only [hO]
      split
      · rfl
      · next next hpast =>
        have hlt : next.rest.length < (c :: cs).length := by
          have := Cursor.length_past? hpast
          simp only [Cursor.length_skip, List.length_cons, List.length_nil] at this ⊢
          omega
        exact ending_pending opened inCase _ _ next
    | brace =>
      simp only [hO]
      split
      · rfl
      · rw [ending_prepend, ending_prepend]
      · exact ending_pending opened inCase _ _ _
    | text =>
      simp only [hO]
      have hlt := Nat.lt_of_le_of_lt
        (Cursor.length_skipWhile_le ((Cursor.mk pos (c :: cs)).skip 1) isPlain) hskip
      exact ending_pending opened inCase _ _ _
termination_by s.rest.length
decreasing_by all_goals assumption

/-! ### The machine is the reader -/

/-- From where some siblings end, inside of open elements, reading comes to the end of the text. -/
def Finishes : List String → Except MarkupError (Stop × Cursor) → Prop
  | _, .error _ => False
  | [], .ok (stop, _) => stop = .eof
  | name :: outer, .ok (stop, next) =>
    match stop with
    | .eof | .caseEnd => Finishes outer (ending (siblingsFrom outer false none next))
    | .close =>
      match readEndTag next with
      | .error _ => False
      | .ok (e, after) =>
        if sameName e.name name then Finishes outer (ending (siblingsFrom outer false none after))
        else outer.any (sameName e.name) = true ∧
          Finishes outer (ending (siblingsFrom outer false none next))

/-- Reading comes to the end of the text from a point. -/
def Point.Finishes (p : Point) : Prop :=
  Markup.Finishes p.opened (ending (siblingsFrom p.opened false none p.place))

/-- After a move everything is as before, or reading ends one way or the other. -/
def Move.Finishes : Move → Prop
  | .ended => True
  | .stuck => False
  | .on next => next.Finishes

section
variable {opened : List String} {s next : Cursor}

theorem finishes_error (opened : List String) (e : MarkupError) :
    Finishes opened (.error e) ↔ False := by
  cases opened <;> exact Iff.rfl

/-- Where the text ends, all open elements do. -/
theorem finishes_eof : ∀ opened : List String, ∀ {s : Cursor}, s.rest = [] →
    Finishes opened (.ok (.eof, s))
  | [], _, _ => rfl
  | _ :: outer, s, hs => by
    have hend : ending (siblingsFrom outer false none s) = .ok (.eof, s) := by
      rw [siblingsFrom_eq]
      simp only [hs]
      rfl
    rw [Finishes, hend]
    exact finishes_eof outer hs

/-- An end tag closes the innermost element of its name, whichever one has to read it. -/
theorem finishes_close (hs : stopOf false s.rest = some .close) : ∀ opened : List String,
    Finishes opened (.ok (.close, s)) ↔ (Point.mk opened s).stop.Finishes
  | [] => by
    rw [Finishes, Point.stop]
    cases readEndTag s with
    | error e => simp [Move.Finishes]
    | ok r => simp [Move.Finishes]
  | name :: outer => by
    have ih := finishes_close hs outer
    have hend : ending (siblingsFrom outer false none s) = .ok (.close, s) := by
      obtain ⟨pos, rest⟩ := s
      rw [siblingsFrom_stop hs]
      rfl
    rw [Point.stop] at ih ⊢
    rw [Finishes, hend]
    cases hread : readEndTag s with
    | error e => simp [Move.Finishes]
    | ok r =>
      obtain ⟨e, after⟩ := r
      simp only [hread] at ih ⊢
      by_cases hsame : sameName e.name name = true
      · rw [if_pos hsame, List.dropWhile_cons_of_neg (by simp [hsame])]
        exact Iff.rfl
      · rw [if_neg hsame, List.dropWhile_cons_of_pos (by simp [hsame]), ih]
        refine ⟨fun h => h.2, fun h => ⟨?_, h⟩⟩
        by_contra hnone
        have hall : (outer.dropWhile fun name => !sameName e.name name) = [] := by
          rw [List.dropWhile_eq_nil_iff]
          intro x hx
          simp only [List.any_eq_true, not_exists, not_and, Bool.not_eq_true] at hnone
          rw [hnone x hx]
          rfl
        rw [hall] at h
        exact h

/-- The element at a point is read as the machine goes over its start tag. -/
theorem finishes_start {c : Char} {cs : List Char} (hs : s.rest = c :: cs)
    (hO : Opening.of false c cs = .element) (opened : List String) :
    Finishes opened (ending (siblingsFrom opened false none s)) ↔
      (Point.mk opened s).start.Finishes := by
  rw [siblingsFrom_eq]
  simp only [hs, hO]
  rw [elementFrom_eq, Point.start]
  simp only
  generalize (s.skip 1).take isTagNameChar = found
  obtain ⟨name, afterName⟩ := found
  simp only
  cases attributesFrom s.pos afterName with
  | error e => exact finishes_error opened e
  | ok r =>
    obtain ⟨⟨attributes, selfClosing⟩, body⟩ := r
    simp only
    generalize htag : openTag s.pos name ⟨(s.skip 1).pos, afterName.pos⟩ attributes selfClosing
      body.pos = tag
    have hname : tag.name = String.ofList name := by rw [← htag]; rfl
    have hclosing : tag.selfClosing = selfClosing := by rw [← htag]; rfl
    rw [bodyFrom, Tag.isVoid, hname, hclosing]
    by_cases hsingle : (selfClosing || isVoid (String.ofList name)) = true
    · rw [if_pos hsingle, if_pos hsingle]
      simp only [ending_prepend]
      exact Iff.rfl
    rw [if_neg hsingle, if_neg hsingle]
    by_cases hraw : isRawText (String.ofList name) = true
    · rw [if_pos hraw, if_pos hraw, endNeedle]
      cases seek? (['<', '/'] ++ name.map Text.lower) body.rest with
      | none => exact finishes_error opened _
      | some cut =>
        obtain ⟨text, back⟩ := cut
        simp only
        cases readEndTag ⟨body.pos + byteLength text, back⟩ with
        | error e => exact finishes_error opened e
        | ok r =>
          exact iff_of_eq (congrArg (Finishes opened) (ending_prepend _ _))
    · rw [if_neg hraw, if_neg hraw, Move.Finishes, Point.Finishes]
      simp only
      cases siblingsFrom (String.ofList name :: opened) false none body with
      | error e => exact (finishes_error opened e).trans (finishes_error _ e).symm
      | ok r =>
        obtain ⟨⟨children, stop⟩, next⟩ := r
        have hend : ending (.ok ((children, stop), next)) = .ok (stop, next) := rfl
        rw [hend]
        cases stop with
        | eof => simp only [ending_prepend, Finishes]
        | caseEnd => simp only [ending_prepend, Finishes]
        | close =>
          simp only [Finishes]
          cases readEndTag next with
          | error e => exact finishes_error opened e
          | ok r =>
            obtain ⟨e, after⟩ := r
            simp only
            by_cases hsame : sameName e.name (String.ofList name) = true
            · simp only [if_pos hsame, ending_prepend]
            · simp only [if_neg hsame]
              by_cases houter : opened.any (sameName e.name) = true
              · rw [if_pos houter]
                refine Iff.trans ?_ (and_iff_right houter).symm
                exact iff_of_eq (congrArg (Finishes opened) (ending_prepend _ _))
              · rw [if_neg houter]
                exact (finishes_error opened _).trans (iff_of_false id fun h => houter h.1)

end

/-- One move of the machine is one construct of the reader. -/
theorem Point.finishes_iff (p : Point) : p.Finishes ↔ (p.move attempt).Finishes := by
  obtain ⟨opened, s⟩ := p
  rw [Point.Finishes, move]
  simp only
  cases hs : s.rest with
  | nil =>
    rw [siblingsFrom_eq]
    simp only [hs]
    exact iff_of_true (finishes_eof opened hs) trivial
  | cons c cs =>
    have hspec := opening_spec false c cs
    simp only
    cases hO : Opening.of false c cs with
    | comment =>
      rw [siblingsFrom_eq]
      simp only [hs, hO]
      cases (s.skip 4).past? ['-', '-', '>'] with
      | none => exact finishes_error opened _
      | some next => exact iff_of_eq (congrArg (Markup.Finishes opened) (ending_prepend _ _))
    | declaration =>
      rw [siblingsFrom_eq]
      simp only [hs, hO]
      cases s.past? ['>'] with
      | none => exact finishes_error opened _
      | some next => exact iff_of_eq (congrArg (Markup.Finishes opened) (ending_prepend _ _))
    | endTag =>
      have hclose : stopOf false s.rest = some .close := by
        rw [hs, stopOf, hO]
      refine Iff.trans ?_ (finishes_close hclose opened)
      obtain ⟨pos, rest⟩ := s
      rw [siblingsFrom_stop hclose]
      exact Iff.rfl
    | caseEnd =>
      rw [hO] at hspec
      cases hspec.2
    | element => exact finishes_start hs hO opened
    | interpolation =>
      rw [siblingsFrom_eq]
      simp only [hs, hO]
      cases (s.skip 2).past? ['}', '}'] with
      | none =>
        refine iff_of_true (finishes_eof opened ?_) trivial
        rw [Cursor.skip, ← hs, List.drop_length]
      | some next =>
        simp only
        rw [ending_pending opened false _ none]
        exact Iff.rfl
    | brace =>
      rw [siblingsFrom_eq]
      simp only [hs, hO, attempt]
      cases formFrom? opened s.pos (s.skip 1) with
      | error e => exact finishes_error opened e
      | ok form =>
        cases form with
        | none =>
          simp only
          rw [ending_pending opened false _ none]
          exact Iff.rfl
        | some form => exact iff_of_eq (congrArg (Markup.Finishes opened) (ending_prepend _ _))
    | text =>
      rw [siblingsFrom_eq]
      simp only [hs, hO]
      rw [ending_pending opened false _ none]
      exact Iff.rfl

/-! ### Every move goes over something -/

section
variable {p q : Point}

theorem Point.length_start (hne : p.place.rest ≠ []) (h : p.start = .on q) :
    q.place.rest.length < p.place.rest.length := by
  have hpos := List.length_pos_iff.2 hne
  have hname := Cursor.length_take_le (p.place.skip 1) isTagNameChar
  rw [Cursor.length_skip] at hname
  rw [start] at h
  split at h
  · cases h
  · next _ selfClosing body hread =>
    have hbody := length_of_map_plain hread
    split at h
    · cases h
      simp only
      omega
    · split at h
      · split at h
        · cases h
        · next text back hseek =>
          have hback := length_seek? hseek
          split at h
          · cases h
          · next _ _ hend =>
            have hlast := length_readEndTag hend
            cases h
            simp only at hlast ⊢
            omega
      · cases h
        simp only
        omega

theorem Point.length_stop {more : List Char} (hs : p.place.rest = '<' :: '/' :: more)
    (h : p.stop = .on q) : q.place.rest.length < p.place.rest.length := by
  rw [stop] at h
  split at h
  · cases h
  · next e next hread =>
    obtain ⟨w, hchars, -⟩ := exists_of_readEndTag hs hread
    have hlen := congrArg List.length hchars
    rw [List.length_append] at hlen
    have hpos : 0 < w.chars.length := by simp [WrittenEnd.chars]
    split at h
    · cases h
    · cases h
      simp only
      omega

/-- What is left behind a form is less than what there was in front of it. -/
def Shortens (form : Point → Attempt) : Prop :=
  ∀ {p : Point} {next : Cursor}, p.place.rest ≠ [] → form p = .opens next →
    next.rest.length < p.place.rest.length

theorem shortens_attempt : Shortens attempt := by
  intro p next hne h
  have hpos := List.length_pos_iff.2 hne
  rw [attempt] at h
  split at h
  · cases h
  · cases h
  · next _ last hform =>
    cases h
    have hshort := length_of_map_map_plain hform
    rw [Cursor.length_skip] at hshort
    omega

theorem shortens_noForm : Shortens noForm := by
  intro _ _ _ h
  cases h

theorem Point.length_move {form : Point → Attempt} (hshortens : Shortens form)
    (h : p.move form = .on q) : q.place.rest.length < p.place.rest.length := by
  have hskip (n : Nat) := Cursor.length_skip p.place n
  rw [move] at h
  cases hs : p.place.rest with
  | nil => rw [hs] at h; cases h
  | cons c cs =>
    have hspec := opening_spec false c cs
    have hne : p.place.rest ≠ [] := hs ▸ List.cons_ne_nil c cs
    have hpos := List.length_pos_iff.2 hne
    rw [← hs]
    rw [hs] at h
    simp only at h
    cases hO : Opening.of false c cs with
    | comment =>
      rw [hO] at h
      simp only at h
      split at h
      · cases h
      · next next hpast =>
        have := Cursor.length_past? hpast
        rw [hskip] at this
        cases h
        simp only
        omega
    | declaration =>
      rw [hO] at h
      simp only at h
      split at h
      · cases h
      · next next hpast =>
        have := Cursor.length_past? hpast
        rw [List.length_singleton] at this
        cases h
        simp only
        omega
    | endTag =>
      rw [hO] at h hspec
      obtain ⟨rfl, more, rfl⟩ := hspec
      exact length_stop hs h
    | element =>
      rw [hO] at h
      exact length_start hne h
    | interpolation =>
      rw [hO] at h
      simp only at h
      split at h
      · cases h
      · next next hpast =>
        have := Cursor.length_past? hpast
        rw [hskip] at this
        cases h
        simp only
        omega
    | brace =>
      rw [hO] at h
      simp only at h
      cases hform : form p with
      | breaksOff =>
        rw [hform] at h
        cases h
        simp only [hskip]
        omega
      | opens next =>
        rw [hform] at h
        cases h
        exact hshortens hne hform
      | fails => rw [hform] at h; cases h
    | caseEnd =>
      rw [hO] at hspec
      cases hspec.2
    | text =>
      rw [hO] at h
      cases h
      have := Cursor.length_skipWhile_le (p.place.skip 1) isPlain
      rw [hskip] at this
      simp only
      omega

end

/-! ### Templates -/

/-- Reading finishes from a point when the machine comes to the end from there. -/
theorem Point.finishes_iff_accepts (p : Point) : p.Finishes ↔ Accepts attempt p := by
  constructor
  · intro h
    rw [finishes_iff] at h
    cases hmove : p.move attempt with
    | ended => exact .ended p hmove
    | stuck => rw [hmove] at h; exact h.elim
    | on q =>
      have hlt := length_move shortens_attempt hmove
      rw [hmove] at h
      exact .on p q hmove ((finishes_iff_accepts q).1 h)
  · intro h
    induction h with
    | ended p hended =>
      rw [finishes_iff, hended]
      trivial
    | on p q hon _ ih =>
      rw [finishes_iff, hon]
      exact ih
termination_by p.place.rest.length

/-- The texts that are templates are those that the machine comes to the end of. -/
theorem parse_isOk_iff (text : String) :
    (parse text).isOk = true ↔ Accepts attempt (atStart text) := by
  rw [← Point.finishes_iff_accepts, parse_eq, Point.Finishes, atStart]
  simp only
  cases siblingsFrom [] false none (.ofString text) with
  | error e => exact iff_of_false Bool.false_ne_true id
  | ok r =>
    obtain ⟨⟨nodes, stop⟩, next⟩ := r
    cases stop with
    | eof => exact iff_of_true rfl rfl
    | close => exact iff_of_false Bool.false_ne_true fun h => by cases h
    | caseEnd => exact iff_of_false Bool.false_ne_true fun h => by cases h

end RouterShift.Markup
