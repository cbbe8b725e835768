import RouterShift.Proofs.Markup.Machine

/-! Templates with and without their expansion forms. A single brace is tried as a form, and is text
    where none opens. With no forms at all the machine reads every single brace as text. What it
    accepts then, and behind each form as well, is a template if the content of no case that is tried
    ends in an error or at an end tag (`parse_isOk_of_plain`). Everywhere else a form that is tried
    only breaks off (`attempt_fails_iff`). -/

namespace RouterShift.Markup
open Text (Cursor isAsciiBlank)

/-! ### Runs of the machine -/

section
variable {form form' : Point → Attempt} {p q : Point}

theorem Point.move_of_not_brace (h : p.isBrace = false) : p.move form = p.move form' := by
  rw [isBrace] at h
  rw [move, move]
  cases hs : p.place.rest with
  | nil => rfl
  | cons c cs =>
    rw [hs] at h
    simp only at h ⊢
    cases hO : Opening.of false c cs with
    | brace => rw [hO] at h; cases h
    | _ => rfl

theorem Point.move_of_brace (h : p.isBrace = true) : p.move form = (form p).move p := by
  rw [isBrace] at h
  rw [move]
  cases hs : p.place.rest with
  | nil => rw [hs] at h; cases h
  | cons c cs =>
    rw [hs] at h
    simp only at h ⊢
    simp only [of_decide_eq_true h]

theorem Accepts.next (h : Accepts form p) (hmove : p.move form = .on q) : Accepts form q := by
  cases h with
  | ended _ hended => rw [hended] at hmove; cases hmove
  | on _ r hr haccepts =>
    rw [hr, Move.on.injEq] at hmove
    exact hmove ▸ haccepts

theorem Accepts.not_stuck (h : Accepts form p) : p.move form ≠ .stuck := by
  intro hstuck
  cases h with
  | ended _ hended => rw [hended] at hstuck; cases hstuck
  | on _ _ hon _ => rw [hon] at hstuck; cases hstuck

end

theorem Attempt.move_eq_stuck {a : Attempt} {p : Point} : a.move p = .stuck ↔ a = .fails := by
  cases a <;> simp [move]

/-- Reading that is stuck nowhere comes to the end. -/
theorem Shortens.accepts {form : Point → Attempt} (hshortens : Shortens form) (start : Point)
    (h : ∀ p, Reads form start p → p.move form ≠ .stuck) : Accepts form start := by
  cases hmove : start.move form with
  | ended => exact .ended start hmove
  | stuck => exact absurd hmove (h start .refl)
  | on q =>
    have hlt := Point.length_move hshortens hmove
    exact .on start q hmove (hshortens.accepts q fun p hreads => h p (.head hmove hreads))
termination_by start.place.rest.length

/-! ### Going over a text -/

section
variable {form : Point → Attempt} {p start : Point}

/-- The end of the text is within a number of moves. -/
def Point.accepts (form : Point → Attempt) : Nat → Point → Bool
  | 0, _ => false
  | n + 1, p =>
    match p.move form with
    | .ended => true
    | .stuck => false
    | .on q => q.accepts form n

theorem Accepts.of_accepts : ∀ {n : Nat} {p : Point}, p.accepts form n = true → Accepts form p
  | n + 1, p, h => by
    rw [Point.accepts] at h
    cases hmove : p.move form with
    | ended => exact .ended p hmove
    | stuck => rw [hmove] at h; cases h
    | on q =>
      rw [hmove] at h
      exact .on p q hmove (of_accepts h)

theorem Accepts.accepts (hshortens : Shortens form) (h : Accepts form p) :
    ∀ n, p.place.rest.length < n → p.accepts form n = true := by
  induction h with
  | ended p hended =>
    intro n hn
    obtain ⟨n, rfl⟩ := Nat.exists_eq_add_one_of_ne_zero (Nat.ne_zero_of_lt hn)
    rw [Point.accepts, hended]
  | on p q hon _ ih =>
    intro n hn
    obtain ⟨n, rfl⟩ := Nat.exists_eq_add_one_of_ne_zero (Nat.ne_zero_of_lt hn)
    have := Point.length_move hshortens hon
    rw [Point.accepts, hon]
    exact ih n (by omega)

instance (p : Point) : Decidable (Accepts noForm p) :=
  decidable_of_iff (p.accepts noForm (p.place.rest.length + 1) = true)
    ⟨.of_accepts, fun h => h.accepts shortens_noForm _ (Nat.lt_succ_self _)⟩

/-- A property holds at each point that is read within a number of moves, and there are no more. -/
def Point.along (form : Point → Attempt) (good : Point → Bool) : Nat → Point → Bool
  | 0, _ => false
  | n + 1, p => good p &&
    match p.move form with
    | .ended | .stuck => true
    | .on q => q.along form good n

theorem Reads.of_along {good : Point → Bool} : ∀ {n : Nat} {start : Point},
    start.along form good n = true → Reads form start p → good p = true
  | n + 1, start, h, hreads => by
    rw [Point.along, Bool.and_eq_true] at h
    obtain rfl | ⟨q, hmove, hrest⟩ := hreads.cases_head
    · exact h.1
    · rw [hmove] at h
      exact of_along h.2 hrest

end

/-! ### Where a form breaks off -/

/-- Where the content of the case at a place begins. -/
def caseBody? (s : Cursor) : Option Cursor :=
  let found := (s.skipWhile isAsciiBlank).take isLabelChar
  let brace := found.2.skipWhile isAsciiBlank
  match brace.rest with
  | [] => none
  | d :: _ => if found.1.isEmpty || d != '{' then none else some (brace.skip 1)

/-- How the content of a case ends, and where. -/
def caseEnding (opened : List String) (body : Cursor) : Except MarkupError (Stop × Cursor) :=
  ending (siblingsFrom opened true none body)

/-- From a place where a case may be next, reading comes to the content of a case. -/
inductive Comes (opened : List String) : Cursor → Cursor → Prop
  | first (s body : Cursor) (h : caseBody? s = some body) : Comes opened s body
  | later (s body inside last : Cursor) (h : caseBody? s = some body)
    (hend : caseEnding opened body = .ok (.caseEnd, inside))
    (hlater : Comes opened (inside.skip 1) last) : Comes opened s last

/-- The content of a case that is tried at a brace begins at a place. -/
def Point.Tries (p : Point) (body : Cursor) : Prop :=
  ∃ header next, headerFrom? (p.place.skip 1) = some (header, next) ∧ Comes p.opened next body

/-- The content of a case ends in an error, or at an end tag. -/
def CaseFails (opened : List String) (body : Cursor) : Prop :=
  ∀ stop next, caseEnding opened body = .ok (stop, next) → stop = .close

section
variable {opened : List String} {s body inside : Cursor}

theorem caseFails_of_error {e : MarkupError} (h : caseEnding opened body = .error e) :
    CaseFails opened body := by
  intro _ _ hok
  rw [h] at hok
  cases hok

theorem caseFails_of_ok {stop : Stop} (h : caseEnding opened body = .ok (stop, inside)) :
    CaseFails opened body ↔ stop = .close := by
  refine ⟨fun hfails => hfails stop inside h, ?_⟩
  rintro rfl _ _ hok
  rw [h] at hok
  cases hok
  rfl

theorem length_of_caseBody? (h : caseBody? s = some body) :
    body.rest.length < s.rest.length := by
  have hblank := Cursor.length_skipWhile_le s isAsciiBlank
  have hlabel := Cursor.length_take_le (s.skipWhile isAsciiBlank) isLabelChar
  have hgap := Cursor.length_skipWhile_le ((s.skipWhile isAsciiBlank).take isLabelChar).2
    isAsciiBlank
  rw [caseBody?] at h
  split at h
  · cases h
  · next d ds hbrace =>
    split at h
    · cases h
    · cases h
      rw [Cursor.length_skip]
      rw [hbrace, List.length_cons] at hgap ⊢
      omega

theorem length_of_caseEnding {stop : Stop} (h : caseEnding opened body = .ok (stop, inside)) :
    inside.rest.length ≤ body.rest.length := by
  rw [caseEnding] at h
  cases hread : siblingsFrom opened true none body with
  | error e => rw [hread] at h; cases h
  | ok r =>
    rw [hread] at h
    cases h
    exact Nat.le_of_lt_succ (length_of_map_plain hread)

/-- Where no case begins, none is in error. -/
theorem casesFrom?_of_no_body (opened : List String) (h : caseBody? s = none) :
    ∃ r, casesFrom? opened s = .ok r := by
  rw [casesFrom?_eq]
  rw [caseBody?] at h
  simp only at h ⊢
  split
  · exact ⟨none, rfl⟩
  · split
    · exact ⟨_, rfl⟩
    · split
      · exact ⟨none, rfl⟩
      · next d ds hbrace =>
        rw [hbrace] at h
        simp only at h
        split at h
        · next hopen => exact ⟨none, if_pos hopen⟩
        · cases h

/-- Where a case begins, its content decides how reading goes on. -/
theorem casesFrom?_of_body (opened : List String) (h : caseBody? s = some body) :
    ∃ case : List Node → Nat → Case, casesFrom? opened s =
      match siblingsFrom opened true none body with
      | .error e => .error e
      | .ok ((children, stop), next) =>
        match stop with
        | .eof => .ok none
        | .close => .error (strayClose next)
        | .caseEnd => (casesFrom? opened (next.skip 1)).map (Option.map fun r =>
            (case children (next.skip 1).pos :: r.1, r.2)) := by
  rw [casesFrom?_eq]
  rw [caseBody?] at h
  simp only at h ⊢
  split at h
  · cases h
  · next d ds hbrace =>
    split at h
    · cases h
    · next hopen =>
      cases h
      simp only [hbrace, if_neg hopen]
      simp only [Bool.or_eq_true, List.isEmpty_iff, not_or] at hopen
      have hlabel := hopen.1
      simp only [Cursor.take] at hlabel
      cases ht : (s.skipWhile isAsciiBlank).rest with
      | nil => rw [ht] at hlabel; exact absurd rfl hlabel
      | cons c cs =>
        -- what closes the form is not in a label
        have hc : c ≠ '}' := by
          rintro rfl
          rw [ht] at hlabel
          exact hlabel rfl
        simp only [if_neg hc]
        exact ⟨fun children stop => .mk _ ⟨_, stop⟩ children, rfl⟩

theorem comes_iff (h : caseBody? s = some body) {last : Cursor} : Comes opened s last ↔
    last = body ∨ ∃ inside, caseEnding opened body = .ok (.caseEnd, inside) ∧
      Comes opened (inside.skip 1) last := by
  constructor
  · intro hcomes
    cases hcomes with
    | first _ _ hfirst =>
      rw [h] at hfirst
      cases hfirst
      exact .inl rfl
    | later _ _ inside _ hfirst hend hlater =>
      rw [h] at hfirst
      cases hfirst
      exact .inr ⟨inside, hend, hlater⟩
  · rintro (rfl | ⟨inside, hend, hlater⟩)
    · exact .first s _ h
    · exact .later s body inside last h hend hlater

/-- Reading the cases of a form ends in an error just when it comes to a case that fails. -/
theorem casesFrom?_fails_iff (opened : List String) (s : Cursor) :
    (∃ e, casesFrom? opened s = .error e) ↔ ∃ body, Comes opened s body ∧ CaseFails opened body := by
  cases hbody : caseBody? s with
  | none =>
    obtain ⟨r, hr⟩ := casesFrom?_of_no_body opened hbody
    refine iff_of_false ?_ ?_
    · rintro ⟨e, he⟩
      rw [hr] at he
      cases he
    · rintro ⟨body, hcomes, -⟩
      cases hcomes with
      | first _ _ h => rw [hbody] at h; cases h
      | later _ _ _ _ h => rw [hbody] at h; cases h
  | some body =>
    obtain ⟨case, hcase⟩ := casesFrom?_of_body opened hbody
    cases hread : siblingsFrom opened true none body with
    | error e =>
      rw [hcase, hread]
      exact iff_of_true ⟨e, rfl⟩
        ⟨body, .first s body hbody, caseFails_of_error (congrArg ending hread)⟩
    | ok r =>
      obtain ⟨⟨children, stop⟩, inside⟩ := r
      have hend : caseEnding opened body = .ok (stop, inside) := congrArg ending hread
      have hlt := length_of_caseBody? hbody
      have hle := length_of_caseEnding hend
      rw [hcase, hread]
      simp only [comes_iff hbody, hend, Except.ok.injEq, Prod.mk.injEq]
      cases stop with
      | eof =>
        refine iff_of_false (by simp) ?_
        rintro ⟨last, rfl | ⟨_, ⟨h, -⟩, -⟩, hfails⟩
        · cases (caseFails_of_ok hend).1 hfails
        · cases h
      | close =>
        exact iff_of_true ⟨_, rfl⟩ ⟨body, .inl rfl, (caseFails_of_ok hend).2 rfl⟩
      | caseEnd =>
        have hrec := casesFrom?_fails_iff opened (inside.skip 1)
        have hmap : ∀ {f : Option (List Case × Cursor) → Option (List Case × Cursor)},
            (∃ e, (casesFrom? opened (inside.skip 1)).map f = .error e) ↔
              ∃ e, casesFrom? opened (inside.skip 1) = .error e := by
          intro f
          cases casesFrom? opened (inside.skip 1) <;> simp [Except.map]
        rw [hmap, hrec]
        constructor
        · rintro ⟨last, hlater, hfails⟩
          exact ⟨last, .inr ⟨inside, ⟨rfl, rfl⟩, hlater⟩, hfails⟩
        · rintro ⟨last, rfl | ⟨_, ⟨-, rfl⟩, hlater⟩, hfails⟩
          · cases (caseFails_of_ok hend).1 hfails
          · exact ⟨last, hlater, hfails⟩
termination_by s.rest.length
decreasing_by
  rw [Cursor.length_skip]
  omega

end

/-- A brace that is tried ends reading just when it comes to a case that fails. In its header, in a
    label and at the end of the text a form only breaks off. -/
theorem attempt_fails_iff {p : Point} :
    attempt p = .fails ↔ ∃ body, p.Tries body ∧ CaseFails p.opened body := by
  rw [attempt, formFrom?_eq]
  cases hheader : headerFrom? (p.place.skip 1) with
  | none =>
    refine iff_of_false (by simp) ?_
    rintro ⟨_, ⟨_, _, h, -⟩, -⟩
    rw [hheader] at h
    cases h
  | some found =>
    obtain ⟨header, next⟩ := found
    have htries : ∀ body, p.Tries body ↔ Comes p.opened next body := by
      intro body
      constructor
      · rintro ⟨_, _, h, hcomes⟩
        rw [hheader] at h
        cases h
        exact hcomes
      · exact fun hcomes => ⟨header, next, hheader, hcomes⟩
    simp only [htries]
    rw [← casesFrom?_fails_iff]
    cases casesFrom? p.opened next with
    | error e => exact iff_of_true rfl ⟨e, rfl⟩
    | ok found => cases found <;> exact iff_of_false (by simp) (by simp)

/-! ### Templates -/

/-- Along a reading of a text with its forms, plain reading accepts what is ahead if it does so
    behind every form. -/
theorem Accepts.along {start p : Point} (h : Accepts noForm start)
    (hforms : ∀ p next, Reads attempt start p → p.isBrace = true → attempt p = .opens next →
      Accepts noForm ⟨p.opened, next⟩) (hreads : Reads attempt start p) : Accepts noForm p := by
  induction hreads with
  | refl => exact h
  | @tail q r hq hmove ih =>
    by_cases hbrace : q.isBrace = true
    · rw [Point.move_of_brace hbrace] at hmove
      cases hform : attempt q with
      | breaksOff =>
        rw [hform] at hmove
        cases hmove
        refine ih.next ?_
        rw [Point.move_of_brace hbrace]
        rfl
      | opens next =>
        rw [hform] at hmove
        cases hmove
        exact hforms q next hq hbrace hform
      | fails => rw [hform] at hmove; cases hmove
    · rw [Bool.not_eq_true] at hbrace
      exact ih.next (Point.move_of_not_brace hbrace ▸ hmove)

/-- A text that can be read with no forms in it, also behind every form that the reader finds, is a
    template if in no form that is tried a case fails. And then each brace that is read opens a form
    or is text, wherever the form that was tried breaks off. -/
theorem parse_isOk_of_plain {text : String} (h : Accepts noForm (atStart text))
    (hforms : ∀ p next, Reads attempt (atStart text) p → p.isBrace = true →
      attempt p = .opens next → Accepts noForm ⟨p.opened, next⟩)
    (hcases : ∀ p, Reads attempt (atStart text) p → p.isBrace = true →
      ∀ body, p.Tries body → ¬ CaseFails p.opened body) :
    (parse text).isOk = true ∧ ∀ p, Reads attempt (atStart text) p → p.isBrace = true →
      (∃ next, attempt p = .opens next) ∨ p.move attempt = .on ⟨p.opened, p.place.skip 1⟩ := by
  have hnone : ∀ p, Reads attempt (atStart text) p → p.isBrace = true → attempt p ≠ .fails := by
    intro p hreads hbrace hfails
    obtain ⟨body, htries, hcase⟩ := attempt_fails_iff.1 hfails
    exact hcases p hreads hbrace body htries hcase
  constructor
  · rw [parse_isOk_iff]
    refine shortens_attempt.accepts _ fun p hreads hstuck => ?_
    by_cases hbrace : p.isBrace = true
    · rw [Point.move_of_brace hbrace, Attempt.move_eq_stuck] at hstuck
      exact hnone p hreads hbrace hstuck
    · -- what is not a brace is read as it is with no forms
      rw [Bool.not_eq_true] at hbrace
      refine (h.along hforms hreads).not_stuck ?_
      rw [Point.move_of_not_brace hbrace, hstuck]
  · intro p hreads hbrace
    rw [Point.move_of_brace hbrace]
    cases hform : attempt p with
    | breaksOff => exact .inr rfl
    | opens next => exact .inl ⟨next, rfl⟩
    | fails => exact absurd hform (hnone p hreads hbrace)

/-- The brace does not end reading, and plain reading accepts what stands behind a form. -/
def Point.passes (p : Point) : Bool :=
  match attempt p with
  | .opens next => decide (Accepts noForm ⟨p.opened, next⟩)
  | .breaksOff => true
  | .fails => false

theorem parse_isOk_of_plain_braces :
    (parse "<p>\x7bn, k, a \x7bx\x7d\x7d \x7by\x7d</p>\x7bn, k, b \x7bz").isOk = true ∧
      ∀ p, Reads attempt (atStart "<p>\x7bn, k, a \x7bx\x7d\x7d \x7by\x7d</p>\x7bn, k, b \x7bz") p →
        p.isBrace = true → (∃ next, attempt p = .opens next) ∨
          p.move attempt = .on ⟨p.opened, p.place.skip 1⟩ := by
  have hplain : Accepts noForm
      (atStart "<p>\x7bn, k, a \x7bx\x7d\x7d \x7by\x7d</p>\x7bn, k, b \x7bz") := by decide +kernel
  have hpasses : (atStart "<p>\x7bn, k, a \x7bx\x7d\x7d \x7by\x7d</p>\x7bn, k, b \x7bz").along attempt
      Point.passes 20 = true := by decide +kernel
  refine parse_isOk_of_plain hplain (fun p next hreads _ hopens => ?_)
    fun p hreads _ body htries hfails => ?_
  · have hgood := Reads.of_along hpasses hreads
    rw [Point.passes, hopens] at hgood
    exact of_decide_eq_true hgood
  · have hgood := Reads.of_along hpasses hreads
    rw [Point.passes, attempt_fails_iff.2 ⟨body, htries, hfails⟩] at hgood
    cases hgood

/-- A form takes what is in its cases, and so a start tag whose end tag stands behind the form. -/
theorem plain_accepts_not_parse :
    Accepts noForm (atStart "\x7bn, k, a \x7b<b>\x7d\x7d</b>") ∧
      (parse "\x7bn, k, a \x7b<b>\x7d\x7d</b>").isOk = false := by
  decide +kernel

-- an end tag in a case ends reading, not only the form that is tried
example : Accepts noForm (atStart "<p>\x7bn, k, a \x7b</p>") ∧
    (parse "<p>\x7bn, k, a \x7b</p>").isOk = false := by
  decide +kernel

end RouterShift.Markup
