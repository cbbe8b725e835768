import Mathlib.Data.Prod.Lex
import RouterShift.Proofs.Version.Reading
import RouterShift.Version.Range

/-! What a range admits. A range is written as alternatives between `||`: a wildcard, or comparators
    between blanks, each an operator in front of a version. Put into the form of a requirement it is
    read with just the comparators that were written, and the requirement admits a release if and
    only if they all hold of its three numbers (`admits_written`). -/

namespace RouterShift
open Text (StopsBefore isDigit)
open Version (Numeral Numerals triple)

namespace Range
open Comparator (sign)

variable {a b c cs tail : List Char} {major minor patch : Nat}

/-! ### Comparators brought into form -/

/-- A text with `x` written as `*` wherever it is all that stands between two dots. -/
def starred (cs : List Char) : List Char :=
  List.intercalate ['.'] ((Text.splitAt (· == '.') cs).map star)

/-- No part between dots is a single `x`. -/
def Unstarred (cs : List Char) : Prop :=
  ∀ part ∈ Text.splitAt (· == '.') cs, part ≠ ['x'] ∧ part ≠ ['X']

theorem star_eq_self {part : List Char} (h : part ≠ ['x'] ∧ part ≠ ['X']) : star part = part := by
  rw [star, if_neg]
  simpa using h

theorem starred_eq_self (h : Unstarred cs) : starred cs = cs := by
  rw [starred, List.map_congr_left fun part hpart => star_eq_self (h part hpart), List.map_id']
  exact Text.intercalate_splitAt '.' cs

/-- Operators are not taken for the text they stand before. -/
theorem isOperatorChar_of_mem_sign (op : Option Operator) :
    ∀ d ∈ sign op, isOperatorChar d = true := by
  rw [← List.all_eq_true]
  rcases op with _ | op
  · rfl
  · cases op <;> rfl

/-- A `v` in front of a version, or none. -/
def mark (marked : Bool) : List Char := if marked then ['v'] else []

theorem isOperatorChar_of_isDigit {d : Char} (h : isDigit d = true) : isOperatorChar d = false := by
  have hne (e : Char) (he : isDigit e = false) : d ≠ e := Version.ne_of_isDigit h he
  simp [isOperatorChar, hne '<' rfl, hne '>' rfl, hne '=' rfl, hne '~' rfl, hne '^' rfl]

theorem after?_mark (marked : Bool) (h : Numeral a major) (cs : List Char) :
    (Version.after? 'v' (mark marked ++ (a ++ cs))).getD (mark marked ++ (a ++ cs)) = a ++ cs := by
  cases marked with
  | true => rw [mark, if_pos rfl, List.singleton_append, Version.after?_cons, Option.getD_some]
  | false =>
    obtain ⟨d, a, rfl⟩ := List.exists_cons_of_ne_nil h.ne_nil
    have hd : d ≠ 'v' := Version.ne_of_isDigit (h.digits d List.mem_cons_self) rfl
    rw [mark, if_neg Bool.false_ne_true, List.nil_append, Version.after?_eq_none, Option.getD_none]
    simpa using hd

/-- The operator is told from the version behind it, and of that a `v` in front is dropped. -/
theorem comparatorText_eq (op : Option Operator) (marked : Bool)
    (h : Numerals a b c major minor patch) :
    comparatorText (sign op ++ (mark marked ++ triple a b c tail)) =
      let body := starred (triple a b c tail)
      if sign op = [] || sign op = ['='] then if body.contains '*' then body else '=' :: body
      else if body.contains '*' then sign op ++ Text.dropEnd ['.', '*'] body
      else sign op ++ body := by
  have hstop : StopsBefore isOperatorChar (mark marked ++ triple a b c tail) := by
    cases marked with
    | true => exact Text.stopsBefore_cons rfl
    | false => exact h.major.stopsBefore (fun d => isOperatorChar_of_isDigit) _
  obtain ⟨htake, hdrop⟩ := Text.takeWhile_append_of_stopsBefore hstop
    (isOperatorChar_of_mem_sign op)
  have hbody := after?_mark marked h.major ('.' :: (b ++ '.' :: (c ++ tail)))
  rw [← triple] at hbody
  rw [comparatorText, htake, hdrop, hbody, ← starred]

/-- A comparator without wildcards keeps its operator, and gets the exact one if it has none. -/
theorem comparatorText_triple (op : Option Operator) (marked : Bool)
    (h : Numerals a b c major minor patch) (hplain : Unstarred (triple a b c tail))
    (hstar : '*' ∉ tail) :
    comparatorText (sign op ++ (mark marked ++ triple a b c tail)) =
      sign (some (op.getD .exact)) ++ triple a b c tail := by
  have hnone : (triple a b c tail).contains '*' = false := by
    rw [List.contains_eq_mem, decide_eq_false_iff_not, Version.mem_triple]
    rintro ((hd | hd | hd) | hd | hd)
    · exact h.major.notMem rfl hd
    · exact h.minor.notMem rfl hd
    · exact h.patch.notMem rfl hd
    · cases hd
    · exact hstar hd
  simp only [comparatorText_eq op marked h, starred_eq_self hplain, hnone]
  rcases op with _ | op
  · rfl
  · cases op <;> rfl

/-- An alternative with a dot and no hyphen between spaces is the comparators between its blanks. -/
theorem requirement?_of_dot (hdot : '.' ∈ cs)
    (hcut : Text.cutFirst? [' ', '-', ' '] (Text.trim Text.isBlank cs) = none) :
    requirement? cs = Requirement.ofChars? (List.intercalate [',', ' ']
      ((joinOperators [] (Text.words Text.isBlank cs)).map comparatorText)) := by
  have hform : anyForms.any (·.toList == Text.trim Text.isBlank cs) = false := by
    have hforms : ∀ form ∈ anyForms, '.' ∉ form.toList := by decide
    rw [List.any_eq_false]
    intro form hform heq
    refine hforms form hform ?_
    rw [eq_of_beq heq]
    exact (Text.mem_trim rfl).2 hdot
  simp only [requirement?, hform, hcut, Text.words_trim, Bool.false_eq_true, if_false]
  cases hcomparators : (joinOperators [] (Text.words Text.isBlank cs)).map comparatorText with
  | nil => rfl
  | cons comparator comparators => rfl

/-! ### Written ranges -/

/-- White space, or nothing. -/
def Blanks : Type := {cs : List Char // ∀ c ∈ cs, Text.isBlank c = true}

/-- A comparator as it is written: an operator or none, blanks, a `v` or none, and a version of
    three numbers of 64 bits. -/
structure Term where
  op : Option Operator
  gap : Blanks
  marked : Bool
  major : Fin Text.wordLimit
  minor : Fin Text.wordLimit
  patch : Fin Text.wordLimit

namespace Term

/-- Three numbers in decimal with dots between them. -/
def number (t : Term) : List Char :=
  triple (Nat.toDigits 10 t.major) (Nat.toDigits 10 t.minor) (Nat.toDigits 10 t.patch) []

def text (t : Term) : List Char := sign t.op ++ (t.gap.val ++ (mark t.marked ++ t.number))

/-- The comparator without the blanks behind its operator. -/
def joined (t : Term) : List Char := sign t.op ++ (mark t.marked ++ t.number)

/-- The comparator that is meant. -/
def comparator (t : Term) : Comparator :=
  ⟨t.op.getD .exact, t.major, some t.minor, some t.patch, []⟩

/-- The comparator in the form of a requirement. -/
def formed (t : Term) : List Char := sign (some t.comparator.op) ++ t.number

/-- Triples are ordered by the first number in which they differ. -/
def place (major minor patch : Nat) : ℕ ×ₗ ℕ ×ₗ ℕ := toLex (major, toLex (minor, patch))

/-- What a comparator asks of a release. -/
def Holds (t : Term) (v : Version) : Prop :=
  let this := place t.major t.minor t.patch
  let that := place v.major v.minor v.patch
  match t.op with
  | none | some .exact => that = this
  | some .greater => this < that
  | some .greaterEq => this ≤ that
  | some .less => that < this
  | some .lessEq => that ≤ this
  | some .tilde => v.major = t.major ∧ v.minor = t.minor ∧ t.patch ≤ v.patch
  | some .caret => this ≤ that ∧ v.major = t.major ∧
      (v.major = 0 → v.minor = t.minor ∧ (v.minor = 0 → v.patch = t.patch))

end Term

/-- Comparators with blanks between them. -/
inductive Terms
  | one (t : Term)
  | more (t : Term) (gap : Blanks) (hgap : gap.val ≠ []) (rest : Terms)

namespace Terms

def toList : Terms → List Term
  | one t => [t]
  | more t _ _ rest => t :: rest.toList

def text : Terms → List Char
  | one t => t.text
  | more t gap _ rest => t.text ++ (gap.val ++ rest.text)

end Terms

/-- One of the forms that any release satisfies, or up to 32 comparators. -/
inductive Alternative
  | any (form : String) (h : form ∈ ["", "*", "x", "X", "latest"])
  | all (terms : Terms) (h : terms.toList.length ≤ 32)

namespace Alternative

def text : Alternative → List Char
  | any form _ => form.toList
  | all terms _ => terms.text

def Holds : Alternative → Version → Prop
  | any _ _, _ => True
  | all terms _, v => ∀ t ∈ terms.toList, t.Holds v

end Alternative

/-- An alternative as it stands in a range, with blanks around it. -/
structure Part where
  before : Blanks
  alternative : Alternative
  after : Blanks

def Part.text (part : Part) : List Char :=
  part.before.val ++ (part.alternative.text ++ part.after.val)

/-- A range as it is written: parts with `||` between them, at least one. -/
structure Written where
  parts : List Part
  ne_nil : parts ≠ []

def Written.text (range : Written) : String :=
  String.ofList (List.intercalate ['|', '|'] (range.parts.map Part.text))

/-! ### Terms are read as they were meant -/

theorem joinOperators_word (pending : List Char) {token : List Char} (h : '.' ∈ token)
    (rest : List (List Char)) :
    joinOperators pending (token :: rest) = (pending ++ token) :: joinOperators [] rest := by
  have hall : token.all isOperatorChar = false := List.all_eq_false.2 ⟨'.', h, by decide⟩
  rw [joinOperators, hall, if_neg Bool.false_ne_true]

theorem joinOperators_sign (pending : List Char) (op : Option Operator) (rest : List (List Char)) :
    joinOperators pending (sign op :: rest) = joinOperators (pending ++ sign op) rest := by
  rw [joinOperators, List.all_eq_true.2 (isOperatorChar_of_mem_sign op), if_pos rfl]

/-- No blank stands in a sign. -/
theorem isBlank_of_mem_sign (op : Option Operator) : ∀ d ∈ sign op, Text.isBlank d = false := by
  have hall : (sign op).all (!Text.isBlank ·) = true := by
    rcases op with _ | op
    · rfl
    · cases op <;> rfl
  simpa using hall

theorem unstarred_triple (h : Numerals a b c major minor patch) : Unstarred (triple a b c []) := by
  have hsplit {cs : List Char} {n : Nat} (hcs : Numeral cs n) :
      Text.splitAt (· == '.') cs = [cs] :=
    Text.splitAt_of_forall fun d hd => beq_eq_false_iff_ne.2
      (Version.ne_of_isDigit (hcs.digits d hd) rfl)
  have hpart {cs : List Char} {n : Nat} (hcs : Numeral cs n) : cs ≠ ['x'] ∧ cs ≠ ['X'] := by
    constructor
    · rintro rfl
      exact hcs.notMem (d := 'x') rfl List.mem_cons_self
    · rintro rfl
      exact hcs.notMem (d := 'X') rfl List.mem_cons_self
  intro part hmem
  rw [triple, List.append_nil, Text.splitAt_append rfl, Text.splitAt_append rfl, hsplit h.major,
    hsplit h.minor, hsplit h.patch] at hmem
  simp only [List.cons_append, List.nil_append, List.mem_cons, List.not_mem_nil, or_false] at hmem
  rcases hmem with rfl | rfl | rfl
  · exact hpart h.major
  · exact hpart h.minor
  · exact hpart h.patch

namespace Term

variable {rest : List Char}

theorem numerals (t : Term) : Numerals (Nat.toDigits 10 t.major) (Nat.toDigits 10 t.minor)
    (Nat.toDigits 10 t.patch) t.major t.minor t.patch :=
  ⟨Version.numeral_toDigits t.major.isLt, Version.numeral_toDigits t.minor.isLt,
    Version.numeral_toDigits t.patch.isLt⟩

/-- What a number is written with: digits and dots. -/
theorem of_mem_number {t : Term} {d : Char} (h : d ∈ t.number) : isDigit d = true ∨ d = '.' := by
  rw [number, Version.mem_triple] at h
  rcases h with (hd | hd | hd) | hd | hd
  · exact .inl (t.numerals.major.digits d hd)
  · exact .inl (t.numerals.minor.digits d hd)
  · exact .inl (t.numerals.patch.digits d hd)
  · exact .inr hd
  · cases hd

theorem dot_mem_body (t : Term) : '.' ∈ mark t.marked ++ t.number :=
  List.mem_append_right _ (Version.mem_triple.2 (.inr (.inl rfl)))

theorem isBlank_of_mem_body {t : Term} :
    ∀ d ∈ mark t.marked ++ t.number, Text.isBlank d = false := by
  intro d hd
  rcases List.mem_append.1 hd with hd | hd
  · cases hmarked : t.marked with
    | true =>
      rw [hmarked] at hd
      obtain rfl := List.mem_singleton.1 hd
      rfl
    | false =>
      rw [hmarked] at hd
      cases hd
  · rcases of_mem_number hd with hd | rfl
    · exact Version.isBlank_of_isVersionChar (Version.isVersionChar_of_isDigit hd)
    · rfl

/-- Blanks between an operator and its version do not matter. -/
theorem joinOperators_text (t : Term) (hrest : ∀ d ∈ rest.head?, Text.isBlank d = true) :
    joinOperators [] (Text.words Text.isBlank (t.text ++ rest)) =
      t.joined :: joinOperators [] (Text.words Text.isBlank rest) := by
  have hbody : mark t.marked ++ t.number ≠ [] :=
    List.ne_nil_of_mem t.dot_mem_body
  have hwords : Text.words Text.isBlank (mark t.marked ++ t.number ++ rest) =
      (mark t.marked ++ t.number) :: Text.words Text.isBlank rest :=
    Text.words_word_append hbody isBlank_of_mem_body hrest
  rw [text, List.append_assoc, List.append_assoc t.gap.val]
  by_cases hgap : t.gap.val = []
  · -- the operator stands right before the version
    have hjoined : ∀ d ∈ t.joined, Text.isBlank d = false := by
      intro d hd
      rcases List.mem_append.1 hd with hd | hd
      · exact isBlank_of_mem_sign t.op d hd
      · exact isBlank_of_mem_body d hd
    have hwords : Text.words Text.isBlank (t.joined ++ rest) =
        t.joined :: Text.words Text.isBlank rest :=
      Text.words_word_append (List.append_ne_nil_of_right_ne_nil _ hbody) hjoined hrest
    have hdot : '.' ∈ t.joined := List.mem_append_right _ t.dot_mem_body
    rw [hgap, List.nil_append, ← List.append_assoc, ← joined, hwords, joinOperators_word [] hdot]
    rfl
  · by_cases hsign : sign t.op = []
    · rw [hsign, List.nil_append, Text.words_blanks_append t.gap.property, hwords,
        joinOperators_word [] t.dot_mem_body, joined, hsign]
    · -- the operator is a word of its own
      have hhead : ∀ d ∈ (t.gap.val ++ (mark t.marked ++ t.number ++ rest)).head?,
          Text.isBlank d = true := by
        intro d hd
        rw [List.head?_append_of_ne_nil _ hgap] at hd
        exact t.gap.property d (List.mem_of_mem_head? hd)
      rw [Text.words_word_append hsign (isBlank_of_mem_sign t.op) hhead,
        Text.words_blanks_append t.gap.property, hwords, joinOperators_sign,
        joinOperators_word _ t.dot_mem_body]
      rfl

theorem comparatorText_joined (t : Term) : comparatorText t.joined = t.formed :=
  comparatorText_triple t.op t.marked t.numerals (unstarred_triple t.numerals) List.not_mem_nil

/-- A comparator at the end of a requirement or before a comma is read as it was meant. -/
theorem read?_formed (t : Term) (hrest : ∀ d ∈ rest.head?, d = ',') :
    Comparator.read? (t.formed ++ rest) = some (t.comparator, rest) := by
  have hne (d : Char) (hd : d ≠ ',') : rest.head? ≠ some d := fun hhead => hd (hrest d hhead)
  have hstop {keep : Char → Bool} (hkeep : keep ',' = false) : StopsBefore keep rest := by
    intro d hd
    rw [hrest d hd]
    exact hkeep
  have hread := Comparator.read?_triple (some t.comparator.op) t.numerals (hstop rfl)
  have hspaces : rest.dropWhile (· == ' ') = rest := Text.dropWhile_of_stopsBefore (hstop rfl)
  have hpre : Version.pre? rest = some ([], rest) := by
    rw [Version.pre?, Version.after?_eq_none (hne '-' (by decide))]
  have hbuild : Version.build? rest = some ([], rest) := by
    rw [Version.build?, Version.after?_eq_none (hne '+' (by decide))]
  rw [formed, number, List.append_assoc, Version.triple_append, List.nil_append, hread]
  simp only [hpre, hbuild, hspaces, Option.bind_some]
  rfl

end Term

theorem Terms.joinOperators_text (terms : Terms) :
    joinOperators [] (Text.words Text.isBlank terms.text) = terms.toList.map Term.joined := by
  induction terms with
  | one t =>
    rw [text, ← List.append_nil t.text]
    exact t.joinOperators_text (by simp)
  | more t gap hgap rest ih =>
    have hhead : ∀ d ∈ (gap.val ++ rest.text).head?, Text.isBlank d = true := by
      intro d hd
      rw [List.head?_append_of_ne_nil _ hgap] at hd
      exact gap.property d (List.mem_of_mem_head? hd)
    rw [text, t.joinOperators_text hhead, Text.words_blanks_append gap.property, ih]
    rfl

/-- A requirement starts with an operator. -/
theorem stopsBefore_formed {keep : Char → Bool}
    (hkeep : ∀ d, isOperatorChar d = true → keep d = false) (t : Term) (terms : List Term) :
    StopsBefore keep (List.intercalate [',', ' '] ((t :: terms).map Term.formed)) := by
  have hformed (rest : List Char) : StopsBefore keep (t.formed ++ rest) := by
    rw [Term.formed, List.append_assoc]
    cases t.comparator.op
    all_goals exact Text.stopsBefore_cons (hkeep _ rfl)
  cases terms with
  | nil =>
    rw [List.map_singleton, List.intercalate_singleton, ← List.append_nil t.formed]
    exact hformed []
  | cons next terms =>
    rw [List.map_cons, List.map_cons, List.intercalate_cons_cons, List.append_assoc]
    exact hformed _

theorem ne_of_isOperatorChar {d e : Char} (hd : isOperatorChar d = true)
    (he : isOperatorChar e = false) : d ≠ e := by
  rintro rfl
  rw [hd] at he
  cases he

theorem dropSpaces_formed (t : Term) (terms : List Term) :
    (List.intercalate [',', ' '] ((t :: terms).map Term.formed)).dropWhile (· == ' ') =
      List.intercalate [',', ' '] ((t :: terms).map Term.formed) :=
  Text.dropWhile_of_stopsBefore (stopsBefore_formed
    (fun _ hd => beq_eq_false_iff_ne.2 (ne_of_isOperatorChar hd rfl)) t terms)

/-- Comparators between commas are read one after the other. -/
theorem comparators?_formed {terms : List Term} : ∀ {room : Nat}, terms ≠ [] → terms.length ≤ room →
    Requirement.comparators? room (List.intercalate [',', ' '] (terms.map Term.formed)) =
      some (terms.map Term.comparator) := by
  induction terms with
  | nil => exact fun hne => absurd rfl hne
  | cons t terms ih =>
    intro room _ hroom
    obtain ⟨room, rfl⟩ : ∃ n, room = n + 1 := ⟨room - 1, by simp at hroom; omega⟩
    cases terms with
    | nil =>
      have hread : Comparator.read? (t.formed ++ []) = some (t.comparator, []) :=
        t.read?_formed (by simp)
      rw [List.append_nil] at hread
      simp [Requirement.comparators?, hread]
    | cons next terms =>
      let texts := List.intercalate [',', ' '] ((next :: terms).map Term.formed)
      have hread : Comparator.read? (t.formed ++ ([',', ' '] ++ texts)) =
          some (t.comparator, [',', ' '] ++ texts) := t.read?_formed (by simp)
      have hrest : Requirement.comparators? room texts =
          some ((next :: terms).map Term.comparator) :=
        ih (List.cons_ne_nil _ _) (by simp at hroom ⊢; omega)
      have hspaces := dropSpaces_formed next terms
      rw [List.map_cons, List.map_cons, List.intercalate_cons_cons, ← List.map_cons]
      rw [List.append_assoc, Requirement.comparators?, hread]
      simp only [List.cons_append, List.nil_append, Option.bind_eq_bind, Option.bind_some]
      rw [List.dropWhile_cons_of_pos rfl, hspaces, hrest]
      rfl

/-! ### What a comparator admits -/

namespace Term

variable {t : Term} {v : Version}

theorem place_lt {a b c a' b' c' : Nat} : place a b c < place a' b' c' ↔
    a < a' ∨ a = a' ∧ (b < b' ∨ b = b' ∧ c < c') := by
  rw [place, place, Prod.Lex.toLex_lt_toLex, Prod.Lex.toLex_lt_toLex]

theorem place_eq {a b c a' b' c' : Nat} : place a b c = place a' b' c' ↔
    a = a' ∧ b = b' ∧ c = c' := by
  simp only [place, toLex_inj, Prod.mk.injEq]

theorem admitsExact_comparator (hrelease : v.pre = []) : t.comparator.admitsExact v = true ↔
    place v.major v.minor v.patch = place t.major t.minor t.patch := by
  simp [Comparator.admitsExact, comparator, hrelease, place_eq, and_assoc]

theorem admitsSide_lt_comparator (hrelease : v.pre = []) :
    t.comparator.admitsSide .lt v = true ↔
      place v.major v.minor v.patch < place t.major t.minor t.patch := by
  simp only [Comparator.admitsSide, comparator, place_lt, hrelease, Version.orderPre]
  split
  · simp only [beq_iff_eq, Nat.compare_eq_lt]
    omega
  split
  · simp only [beq_iff_eq, Nat.compare_eq_lt]
    omega
  split
  · simp only [beq_iff_eq, Nat.compare_eq_lt]
    omega
  · simp
    omega

theorem admitsSide_gt_comparator (hrelease : v.pre = []) :
    t.comparator.admitsSide .gt v = true ↔
      place t.major t.minor t.patch < place v.major v.minor v.patch := by
  simp only [Comparator.admitsSide, comparator, place_lt, hrelease, Version.orderPre]
  split
  · simp only [beq_iff_eq, Nat.compare_eq_gt]
    omega
  split
  · simp only [beq_iff_eq, Nat.compare_eq_gt]
    omega
  split
  · simp only [beq_iff_eq, Nat.compare_eq_gt]
    omega
  · simp
    omega

theorem admitsTilde_comparator (hrelease : v.pre = []) : t.comparator.admitsTilde v = true ↔
    v.major = t.major ∧ v.minor = t.minor ∧ t.patch ≤ v.patch := by
  simp only [Comparator.admitsTilde, comparator, hrelease, Version.orderPre, Bool.and_eq_true,
    beq_iff_eq, Option.all_some, and_assoc]
  refine and_congr_right fun _ => and_congr_right fun _ => ?_
  split
  · simp
    omega
  · simp
    omega

theorem admitsCaret_comparator (hrelease : v.pre = []) : t.comparator.admitsCaret v = true ↔
    place t.major t.minor t.patch ≤ place v.major v.minor v.patch ∧ v.major = t.major ∧
      (v.major = 0 → v.minor = t.minor ∧ (v.minor = 0 → v.patch = t.patch)) := by
  simp only [Comparator.admitsCaret, comparator, hrelease, Version.orderPre, Bool.and_eq_true,
    beq_iff_eq]
  rw [← not_lt, place_lt, and_left_comm]
  refine and_congr_right fun hmajor => ?_
  split
  · grind
  split
  · grind
  split
  · grind
  · grind

/-- For a release a comparator of three numbers asks what it was written to ask. -/
theorem admits_comparator (hrelease : v.pre = []) : t.comparator.admits v = true ↔ t.Holds v := by
  rw [Comparator.admits, Holds]
  rcases hop : t.op with _ | op
  · rw [show t.comparator.op = .exact by rw [comparator, hop]; rfl]
    exact admitsExact_comparator hrelease
  · rw [show t.comparator.op = op by rw [comparator, hop]; rfl]
    cases op with
    | exact => exact admitsExact_comparator hrelease
    | greater => exact admitsSide_gt_comparator hrelease
    | greaterEq =>
      rw [Bool.or_eq_true, admitsExact_comparator hrelease, admitsSide_gt_comparator hrelease,
        eq_comm]
      exact le_iff_eq_or_lt.symm
    | less => exact admitsSide_lt_comparator hrelease
    | lessEq =>
      rw [Bool.or_eq_true, admitsExact_comparator hrelease, admitsSide_lt_comparator hrelease]
      exact le_iff_eq_or_lt.symm
    | tilde => exact admitsTilde_comparator hrelease
    | caret => exact admitsCaret_comparator hrelease

end Term

theorem ofChars?_formed {terms : List Term} (hne : terms ≠ [])
    (hroom : terms.length ≤ Requirement.limit) :
    Requirement.ofChars? (List.intercalate [',', ' '] (terms.map Term.formed)) =
      some ⟨terms.map Term.comparator⟩ := by
  obtain ⟨t, terms, rfl⟩ := List.exists_cons_of_ne_nil hne
  have hwildcard : Comparator.afterWildcard? (List.intercalate [',', ' ']
      ((t :: terms).map Term.formed)) = none := by
    refine Comparator.afterWildcard?_eq_none (stopsBefore_formed (fun d hd => ?_) t terms)
    have hop (e : Char) (he : isOperatorChar e = false) : d ≠ e := ne_of_isOperatorChar hd he
    simp [hop '*' rfl, hop 'x' rfl, hop 'X' rfl]
  simp only [Requirement.ofChars?, dropSpaces_formed, hwildcard, comparators?_formed hne hroom,
    Option.map_some]

/-! ### The range as a whole -/

/-- What may stand in a comparator. -/
def isTermChar (d : Char) : Bool :=
  isOperatorChar d || Text.isBlank d || isDigit d || d == 'v' || d == '.'

theorem isTermChar_of_isBlank {d : Char} (h : Text.isBlank d = true) : isTermChar d = true := by
  simp [isTermChar, h]

theorem Term.isTermChar_of_mem {t : Term} {d : Char} (h : d ∈ t.text) : isTermChar d = true := by
  simp only [text, List.mem_append] at h
  rcases h with hd | hd | hd | hd
  · simp [isTermChar, isOperatorChar_of_mem_sign t.op d hd]
  · exact isTermChar_of_isBlank (t.gap.property d hd)
  · have hmark : d = 'v' := by
      cases hmarked : t.marked with
      | true => simpa [mark, hmarked] using hd
      | false => simp [mark, hmarked] at hd
    simp [isTermChar, hmark]
  · rcases of_mem_number hd with hd | rfl
    · simp [isTermChar, hd]
    · rfl

namespace Terms

variable {terms : Terms}

theorem isTermChar_of_mem {d : Char} (h : d ∈ terms.text) : isTermChar d = true := by
  induction terms with
  | one t => exact t.isTermChar_of_mem h
  | more t gap hgap rest ih =>
    simp only [text, List.mem_append] at h
    rcases h with hd | hd | hd
    · exact t.isTermChar_of_mem hd
    · exact isTermChar_of_isBlank (gap.property d hd)
    · exact ih hd

theorem dot_mem (terms : Terms) : '.' ∈ terms.text := by
  have hterm (t : Term) : '.' ∈ t.text :=
    List.mem_append_right _ (List.mem_append_right _ t.dot_mem_body)
  cases terms with
  | one t => exact hterm t
  | more t gap hgap rest => exact List.mem_append_left _ (hterm t)

theorem toList_ne_nil (terms : Terms) : terms.toList ≠ [] := by
  cases terms with
  | one t => exact List.cons_ne_nil _ _
  | more t gap hgap rest => exact List.cons_ne_nil _ _

end Terms

namespace Part

theorem notMem_text {part : Part} {d : Char} (hterm : isTermChar d = false)
    (hform : ∀ form ∈ anyForms, d ∉ form.toList) : d ∉ part.text := by
  have hne {e : Char} (he : isTermChar e = true) : d ≠ e := by
    rintro rfl
    rw [he] at hterm
    cases hterm
  intro hd
  simp only [text, List.mem_append] at hd
  rcases hd with hd | hd | hd
  · exact hne (isTermChar_of_isBlank (part.before.property d hd)) rfl
  · cases halternative : part.alternative with
    | any form h =>
      rw [halternative] at hd
      exact hform form h hd
    | all terms h =>
      rw [halternative] at hd
      exact hne (terms.isTermChar_of_mem hd) rfl
  · exact hne (isTermChar_of_isBlank (part.after.property d hd)) rfl

theorem trim_text (part : Part) :
    Text.trim Text.isBlank part.text = Text.trim Text.isBlank part.alternative.text := by
  rw [text, Text.trim_blanks_append part.before.property,
    Text.trim_append_blanks part.after.property]

theorem words_text (part : Part) :
    Text.words Text.isBlank part.text = Text.words Text.isBlank part.alternative.text := by
  rw [← Text.words_trim, part.trim_text, Text.words_trim]

/-- What an alternative of comparators is read as. -/
theorem requirement?_terms {part : Part} {terms : Terms} {h : terms.toList.length ≤ 32}
    (hpart : part.alternative = .all terms h) :
    requirement? part.text = some ⟨terms.toList.map Term.comparator⟩ := by
  have hdot : '.' ∈ part.text := by
    rw [text, hpart]
    exact List.mem_append_right _ (List.mem_append_left _ terms.dot_mem)
  have hcut : Text.cutFirst? [' ', '-', ' '] (Text.trim Text.isBlank part.text) = none := by
    refine Text.cutFirst?_eq_none_of_notMem (c := '-') (by decide) ?_
    rw [Text.mem_trim rfl]
    exact notMem_text rfl (by decide)
  have hjoined : joinOperators [] (Text.words Text.isBlank part.text) =
      terms.toList.map Term.joined := by
    rw [part.words_text, hpart]
    exact terms.joinOperators_text
  have hformed : (terms.toList.map Term.joined).map comparatorText =
      terms.toList.map Term.formed := by
    rw [List.map_map]
    exact List.map_congr_left fun t _ => t.comparatorText_joined
  rw [requirement?_of_dot hdot hcut, hjoined, hformed, ofChars?_formed terms.toList_ne_nil h]

theorem requirement?_form {part : Part} {form : String} {h : form ∈ ["", "*", "x", "X", "latest"]}
    (hpart : part.alternative = .any form h) : requirement? part.text = some .any := by
  have hforms : ∀ form ∈ anyForms,
      anyForms.any (·.toList == Text.trim Text.isBlank form.toList) = true := by decide
  simp only [requirement?, part.trim_text, hpart, Alternative.text, hforms form h, if_true]

/-- What a part is read as admits a release if and only if its alternative holds. -/
theorem any_requirement? {v : Version} (hrelease : v.pre = []) (part : Part) :
    (requirement? part.text).any (·.admits v) = true ↔ part.alternative.Holds v := by
  cases hpart : part.alternative with
  | any form h =>
    rw [requirement?_form hpart]
    simp [Requirement.any, Requirement.admits, hrelease, Alternative.Holds]
  | all terms h =>
    rw [requirement?_terms hpart]
    simp only [Option.any_some, Requirement.admits, hrelease, List.isEmpty_nil, Bool.true_or,
      Bool.and_true, List.all_map, List.all_eq_true]
    exact forall₂_congr fun t _ => Term.admits_comparator hrelease

end Part

/-- A range admits a release if and only if one of its alternatives is a wildcard or has comparators
    that all hold of it. -/
theorem admits_written (range : Written) {text : String} {v : Version}
    (hv : Version.parse? text = some v) (hrelease : v.pre = []) :
    admits range.text text = true ↔ ∃ part ∈ range.parts, part.alternative.Holds v := by
  have hsplit : Text.splitOn ['|', '|'] range.text.toList = range.parts.map Part.text := by
    rw [Written.text, String.toList_ofList]
    refine Text.splitOn_intercalate (by simpa using range.ne_nil) fun piece hpiece => ?_
    obtain ⟨part, -, rfl⟩ := List.mem_map.1 hpiece
    exact Part.notMem_text rfl (by decide)
  rw [admits, hv, requirements, hsplit]
  simp only [List.any_filterMap, List.any_map, List.any_eq_true]
  refine exists_congr fun part => and_congr_right fun _ => ?_
  rw [← Part.any_requirement? hrelease part, Function.comp_apply]
  cases requirement? part.text with
  | none => rfl
  | some requirement => rfl

/-- The range `>= 1.2.0<tab><v2.0.0|| ^0.3.1`. -/
def splitRange : Written where
  parts := [
    { before := ⟨[], List.forall_mem_nil _⟩
      alternative := .all (.more
        ⟨some .greaterEq, ⟨[' '], List.all_eq_true.1 rfl⟩, false, ⟨1, by decide⟩, ⟨2, by decide⟩,
          ⟨0, by decide⟩⟩
        ⟨['\t'], List.all_eq_true.1 rfl⟩ (List.cons_ne_nil _ _) (.one
        ⟨some .less, ⟨[], List.forall_mem_nil _⟩, true, ⟨2, by decide⟩, ⟨0, by decide⟩,
          ⟨0, by decide⟩⟩)) (by decide)
      after := ⟨[], List.forall_mem_nil _⟩ },
    { before := ⟨[' '], List.all_eq_true.1 rfl⟩
      alternative := .all (.one
        ⟨some .caret, ⟨[], List.forall_mem_nil _⟩, false, ⟨0, by decide⟩, ⟨3, by decide⟩,
          ⟨1, by decide⟩⟩) (by decide)
      after := ⟨[], List.forall_mem_nil _⟩ }]
  ne_nil := List.cons_ne_nil _ _

theorem admits_splitRange : splitRange.text = ">= 1.2.0\t<v2.0.0|| ^0.3.1" ∧
    admits splitRange.text "0.3.4" = true ∧ admits splitRange.text "v2.0.0" = false := by
  refine ⟨by decide, ?_, ?_⟩
  · have hv : Version.parse? "0.3.4" = some ⟨0, 3, 4, [], []⟩ := by decide
    refine (admits_written splitRange hv rfl).2 ⟨_, List.mem_cons_of_mem _ List.mem_cons_self, ?_⟩
    intro t ht
    obtain rfl := List.mem_singleton.1 ht
    exact ⟨by decide, rfl, by decide⟩
  · have hv : Version.parse? "v2.0.0" = some ⟨2, 0, 0, [], []⟩ := by decide
    rw [Bool.eq_false_iff, ne_eq, admits_written splitRange hv rfl]
    rintro ⟨part, hpart, hholds⟩
    rcases List.mem_cons.1 hpart with rfl | hpart
    · -- the second comparator does not hold
      have hless := hholds _ (List.mem_cons_of_mem _ List.mem_cons_self)
      exact lt_irrefl _ hless
    · obtain rfl := List.mem_singleton.1 hpart
      have hcaret := hholds _ List.mem_cons_self
      exact absurd hcaret.2.1 (by decide)

end Range
end RouterShift
