import RouterShift.Proofs.Text.Number
import RouterShift.Proofs.Text.Split
import RouterShift.Version.Requirement

/-! Versions and comparators are read alike: an operator in front, if any, then three numbers with
    dots between them (`ofChars?_triple`, `Comparator.read?_triple`), and what stands behind the
    numbers as a pre-release and a build. -/

namespace RouterShift
open Text (StopsBefore isDigit)

namespace Version

variable {a b c cs rest tail : List Char} {n : Nat}

/-! ### Numbers -/

/-- Digits that are read as a number: it fits 64 bits and has no needless zero in front. -/
structure Numeral (cs : List Char) (n : Nat) : Prop where
  ne_nil : cs ≠ []
  digits : ∀ c ∈ cs, isDigit c = true
  noZero : ¬ (cs.length > 1 ∧ cs.head? = some '0')
  value : Text.valueOf cs = n
  fits : n < Text.wordLimit

theorem number?_eq_some : number? cs = some (n, rest) ↔
    ∃ digits, cs = digits ++ rest ∧ Numeral digits n ∧ StopsBefore isDigit rest := by
  constructor
  · intro h
    rw [number?] at h
    split at h
    · cases h
    · next hzero =>
      obtain ⟨m, hword, heq⟩ := Option.map_eq_some_iff.1 h
      cases heq
      rw [Text.word?] at hword
      split at hword
      · next hdigits =>
        cases hword
        simp only [Bool.and_eq_true, Bool.not_eq_true', List.isEmpty_eq_false_iff, List.all_eq_true,
          decide_eq_true_eq] at hdigits hzero
        refine ⟨_, List.takeWhile_append_dropWhile.symm, ?_, Text.stopsBefore_dropWhile _ _⟩
        exact ⟨hdigits.1.1, hdigits.1.2, hzero, rfl, hdigits.2⟩
      · cases hword
  · rintro ⟨digits, rfl, h, hrest⟩
    obtain ⟨htake, hdrop⟩ := Text.takeWhile_append_of_stopsBefore hrest h.digits
    have hword : Text.word? digits = some n := by
      have hall := List.all_eq_true.2 h.digits
      simp [Text.word?, h.ne_nil, hall, h.value, h.fits]
    simp only [number?, htake, hdrop, hword, Option.map_some]
    exact if_neg (by simpa using h.noZero)

/-- A number written without needless zeros is read as itself. -/
theorem numeral_toDigits (h : n < Text.wordLimit) : Numeral (Nat.toDigits 10 n) n where
  ne_nil := Nat.toDigits_ne_nil
  digits _ := Text.isDigit_of_mem_toDigits
  noZero hzero := by
    rcases Nat.eq_zero_or_pos n with rfl | hpos
    · exact absurd hzero.1 (by decide)
    · exact Text.head?_toDigits_ne hpos hzero.2
  value := Text.valueOf_toDigits n
  fits := h

theorem ne_of_isDigit {d e : Char} (hd : isDigit d = true) (he : isDigit e = false) : d ≠ e := by
  rintro rfl
  rw [hd] at he
  cases he

/-- Nothing but digits stands in a number. -/
theorem Numeral.notMem (h : Numeral a n) {d : Char} (hd : isDigit d = false) : d ∉ a :=
  fun hmem => ne_of_isDigit (h.digits d hmem) hd rfl

/-- A number starts with a digit. -/
theorem Numeral.stopsBefore (h : Numeral a n) {keep : Char → Bool}
    (hkeep : ∀ d, isDigit d = true → keep d = false) (rest : List Char) :
    StopsBefore keep (a ++ rest) := by
  obtain ⟨d, a, rfl⟩ := List.exists_cons_of_ne_nil h.ne_nil
  exact Text.stopsBefore_cons (hkeep d (h.digits d List.mem_cons_self))

/-! ### Three numbers -/

/-- Three numbers with dots between them, and what comes behind. -/
def triple (a b c tail : List Char) : List Char := a ++ '.' :: (b ++ '.' :: (c ++ tail))

theorem mem_triple {d : Char} :
    d ∈ triple a b c tail ↔ (d ∈ a ∨ d ∈ b ∨ d ∈ c) ∨ d = '.' ∨ d ∈ tail := by
  simp only [triple, List.mem_append, List.mem_cons]
  tauto

theorem triple_append (rest : List Char) :
    triple a b c tail ++ rest = triple a b c (tail ++ rest) := by
  simp only [triple, List.append_assoc, List.cons_append]

/-- Digits that are read as the three numbers of a version. -/
structure Numerals (a b c : List Char) (major minor patch : Nat) : Prop where
  major : Numeral a major
  minor : Numeral b minor
  patch : Numeral c patch

theorem after?_cons (d : Char) (cs : List Char) : after? d (d :: cs) = some cs := by
  rw [after?, Text.afterStart?_eq_some]
  rfl

theorem after?_eq_some {d : Char} : after? d cs = some rest ↔ cs = d :: rest :=
  Text.afterStart?_eq_some

theorem after?_eq_none {d : Char} (h : cs.head? ≠ some d) : after? d cs = none := by
  rw [Option.eq_none_iff_forall_ne_some]
  rintro rest hrest
  rw [after?_eq_some] at hrest
  exact h (by rw [hrest]; rfl)

section
variable {major minor patch : Nat}

theorem ofChars?_triple (h : Numerals a b c major minor patch) (htail : StopsBefore isDigit tail) :
    ofChars? (triple a b c tail) = (pre? tail).bind fun (pre, cs) => (build? cs).bind
      fun (build, cs) => if cs.isEmpty then some ⟨major, minor, patch, pre, build⟩ else none := by
  have hdot (cs : List Char) : StopsBefore isDigit ('.' :: cs) := Text.stopsBefore_cons rfl
  have hmajor := number?_eq_some.2 ⟨a, rfl, h.major, hdot (b ++ '.' :: (c ++ tail))⟩
  have hminor := number?_eq_some.2 ⟨b, rfl, h.minor, hdot (c ++ tail)⟩
  have hpatch := number?_eq_some.2 ⟨c, rfl, h.patch, htail⟩
  simp only [ofChars?, triple, hmajor, hminor, hpatch, after?_cons, Option.bind_eq_bind,
    Option.bind_some]

/-- What is read as a version starts with three numbers. -/
theorem exists_triple {v : Version} (h : ofChars? cs = some v) : ∃ a b c tail cs',
    cs = triple a b c tail ∧ Numerals a b c v.major v.minor v.patch ∧ StopsBefore isDigit tail ∧
      pre? tail = some (v.pre, cs') ∧ build? cs' = some (v.build, []) := by
  simp only [ofChars?, Option.bind_eq_bind, Option.bind_eq_some_iff, Prod.exists] at h
  obtain ⟨major, cs1, h1, cs2, h2, minor, cs3, h3, cs4, h4, patch, tail, h5, pre, cs', hpre, build,
    rest, hbuild, hv⟩ := h
  obtain ⟨a, rfl, ha, -⟩ := number?_eq_some.1 h1
  obtain rfl := after?_eq_some.1 h2
  obtain ⟨b, rfl, hb, -⟩ := number?_eq_some.1 h3
  obtain rfl := after?_eq_some.1 h4
  obtain ⟨c, rfl, hc, htail⟩ := number?_eq_some.1 h5
  split at hv
  · next hrest =>
    cases hv
    rw [List.isEmpty_iff.1 hrest] at hbuild
    exact ⟨a, b, c, tail, cs', rfl, ⟨ha, hb, hc⟩, htail, hpre, hbuild⟩
  · cases hv

/-! ### Behind the numbers -/

/-- What may stand in a version. -/
def isVersionChar (d : Char) : Bool := isIdentifierChar d || d == '.' || d == '+'

theorem isVersionChar_of_isDigit {d : Char} (h : isDigit d = true) : isVersionChar d = true := by
  simp [isVersionChar, isIdentifierChar, h]

theorem of_segments? {segments : List (List Char)} (h : segments? cs = some (segments, rest)) :
    ∃ run, cs = run ++ rest ∧ ∀ d ∈ run, isVersionChar d = true := by
  simp only [segments?] at h
  split at h
  · cases h
  · cases h
    refine ⟨_, List.takeWhile_append_dropWhile.symm, fun d hd => ?_⟩
    have hrun := List.all_eq_true.1 List.all_takeWhile d hd
    exact Bool.or_eq_true_iff.2 (.inl hrun)

theorem of_pre? {pre : List PreIdentifier} (h : pre? cs = some (pre, rest)) :
    ∃ run, cs = run ++ rest ∧ ∀ d ∈ run, isVersionChar d = true := by
  rw [pre?] at h
  split at h
  · cases h
    exact ⟨[], rfl, by simp⟩
  · next more hmore =>
    obtain rfl := after?_eq_some.1 hmore
    simp only [Option.bind_eq_bind, Option.bind_eq_some_iff, Prod.exists] at h
    obtain ⟨segments, rest', hsegments, pre', hpre', heq⟩ := h
    cases heq
    obtain ⟨run, rfl, hrun⟩ := of_segments? hsegments
    exact ⟨'-' :: run, rfl, List.forall_mem_cons.2 ⟨rfl, hrun⟩⟩

theorem of_build? {build : List String} (h : build? cs = some (build, rest)) :
    ∃ run, cs = run ++ rest ∧ ∀ d ∈ run, isVersionChar d = true := by
  rw [build?] at h
  split at h
  · cases h
    exact ⟨[], rfl, by simp⟩
  · next more hmore =>
    obtain rfl := after?_eq_some.1 hmore
    simp only [Option.bind_eq_bind, Option.bind_eq_some_iff, Prod.exists] at h
    obtain ⟨segments, rest', hsegments, heq⟩ := h
    cases heq
    obtain ⟨run, rfl, hrun⟩ := of_segments? hsegments
    exact ⟨'+' :: run, rfl, List.forall_mem_cons.2 ⟨rfl, hrun⟩⟩

/-- No blank stands in a version. -/
theorem isBlank_of_isVersionChar {d : Char} (h : isVersionChar d = true) :
    Text.isBlank d = false := by
  have hrange : 43 ≤ d.toNat ∧ d.toNat ≤ 122 := by
    simp only [isVersionChar, isIdentifierChar, isDigit, Bool.or_eq_true, Bool.and_eq_true,
      decide_eq_true_eq, Char.le_def, UInt32.le_iff_toNat_le, beq_iff_eq] at h
    rcases h with ((((⟨h1, h2⟩ | ⟨h1, h2⟩) | ⟨h1, h2⟩) | rfl) | rfl) | rfl
    · exact ⟨Nat.le_trans (by decide) h1, Nat.le_trans h2 (by decide)⟩
    · exact ⟨Nat.le_trans (by decide) h1, Nat.le_trans h2 (by decide)⟩
    · exact ⟨Nat.le_trans (by decide) h1, Nat.le_trans h2 (by decide)⟩
    · decide
    · decide
    · decide
  simp only [Text.isBlank, Bool.or_eq_false_iff, Bool.and_eq_false_iff, decide_eq_false_iff_not,
    beq_eq_false_iff_ne]
  omega

theorem isVersionChar_of_mem {v : Version} (h : ofChars? cs = some v) {d : Char} (hd : d ∈ cs) :
    isVersionChar d = true := by
  obtain ⟨a, b, c, tail, cs', rfl, hnumerals, -, hpre, hbuild⟩ := exists_triple h
  obtain ⟨pre, rfl, hprerun⟩ := of_pre? hpre
  obtain ⟨build, rfl, hbuildrun⟩ := of_build? hbuild
  rw [mem_triple, List.mem_append, List.append_nil] at hd
  rcases hd with (hd | hd | hd) | rfl | hd | hd
  · exact isVersionChar_of_isDigit (hnumerals.major.digits d hd)
  · exact isVersionChar_of_isDigit (hnumerals.minor.digits d hd)
  · exact isVersionChar_of_isDigit (hnumerals.patch.digits d hd)
  · rfl
  · exact hprerun d hd
  · exact hbuildrun d hd

/-- A text that is a version is read with nothing left out in front. -/
theorem parse?_of_ofChars? {text : String} {v : Version} (h : ofChars? text.toList = some v) :
    parse? text = some v := by
  have htrim : Text.trim Text.isBlank text.toList = text.toList :=
    Text.trim_of_forall fun d hd => isBlank_of_isVersionChar (isVersionChar_of_mem h hd)
  have hdrop : text.toList.dropWhile (fun d => d == 'v' || d == '=') = text.toList := by
    obtain ⟨a, b, c, tail, cs', hcs, hnumerals, -⟩ := exists_triple h
    rw [hcs]
    refine Text.dropWhile_of_stopsBefore (hnumerals.major.stopsBefore ?_ _)
    intro d hd
    rw [Bool.or_eq_false_iff, beq_eq_false_iff_ne, beq_eq_false_iff_ne]
    exact ⟨ne_of_isDigit hd rfl, ne_of_isDigit hd rfl⟩
  rw [parse?, htrim, hdrop, h]

end
end Version

namespace Comparator
open Version

variable {a b c tail : List Char} {major minor patch : Nat}

/-- The sign of an operator; without one there is none. -/
def sign : Option Operator → List Char
  | none => []
  | some .exact => ['=']
  | some .greater => ['>']
  | some .greaterEq => ['>', '=']
  | some .less => ['<']
  | some .lessEq => ['<', '=']
  | some .tilde => ['~']
  | some .caret => ['^']

/-- In front of a digit each operator is read from its sign. -/
theorem operator?_sign (op : Option Operator) {d : Char} (hd : isDigit d = true) (cs : List Char) :
    operator? (sign op ++ d :: cs) = (op, d :: cs) := by
  have hne (e : Char) (he : isDigit e = false) : d ≠ e := ne_of_isDigit hd he
  have heq : d ≠ '=' := hne '=' rfl
  rcases op with _ | op
  · simp [sign, operator?, heq, hne '>' rfl, hne '<' rfl, hne '~' rfl, hne '^' rfl]
  · cases op <;> simp [sign, operator?, heq]

theorem afterWildcard?_eq_none {cs : List Char}
    (h : StopsBefore (fun d => d == '*' || d == 'x' || d == 'X') cs) :
    afterWildcard? cs = none := by
  cases cs with
  | nil => rfl
  | cons d cs =>
    have hd := h d rfl
    simp only [Bool.or_eq_false_iff, beq_eq_false_iff_ne] at hd
    simp [afterWildcard?, hd]

/-- A part behind a dot that is a number. -/
theorem part?_numeral {n : Nat} (h : Numeral c n) (htail : StopsBefore isDigit tail) :
    part? ('.' :: (c ++ tail)) = some (some (some n), tail) := by
  have hwildcard : afterWildcard? (c ++ tail) = none := by
    refine afterWildcard?_eq_none (h.stopsBefore (fun d hd => ?_) tail)
    have hne (e : Char) (he : isDigit e = false) : d ≠ e := ne_of_isDigit hd he
    simp [hne '*' rfl, hne 'x' rfl, hne 'X' rfl]
  rw [part?, after?_cons]
  simp only [hwildcard, number?_eq_some.2 ⟨c, rfl, h, htail⟩, Option.map_some]

theorem read?_triple (op : Option Operator) (h : Numerals a b c major minor patch)
    (htail : StopsBefore isDigit tail) :
    read? (sign op ++ triple a b c tail) = (pre? tail).bind fun (pre, cs) => (build? cs).bind
      fun (_, cs) => some (⟨op.getD .caret, major, some minor, some patch, pre⟩,
        cs.dropWhile (· == ' ')) := by
  have hdot (cs : List Char) : StopsBefore isDigit ('.' :: cs) := Text.stopsBefore_cons rfl
  have hmajor := number?_eq_some.2 ⟨a, rfl, h.major, hdot (b ++ '.' :: (c ++ tail))⟩
  have hop : operator? (sign op ++ triple a b c tail) = (op, triple a b c tail) := by
    obtain ⟨d, a, rfl⟩ := List.exists_cons_of_ne_nil h.major.ne_nil
    exact operator?_sign op (h.major.digits d List.mem_cons_self) _
  have hspaces : (triple a b c tail).dropWhile (· == ' ') = triple a b c tail :=
    Text.dropWhile_of_stopsBefore (h.major.stopsBefore
      (fun d hd => beq_eq_false_iff_ne.2 (ne_of_isDigit hd rfl)) _)
  have hminor := part?_numeral h.minor (hdot (c ++ tail))
  have hpatch := part?_numeral h.patch htail
  rw [triple] at hspaces hop
  simp only [read?, triple, hop, hspaces, hmajor, hminor, hpatch, Option.bind_eq_bind,
    Option.bind_some]
  rfl

/-- What is read behind three numbers is what may stand in a version, and spaces. -/
theorem of_read?_triple {found : Comparator × List Char} (h : Numerals a b c major minor patch)
    (htail : StopsBefore isDigit tail) (hread : read? (triple a b c tail) = some found) :
    ∃ run spaces, tail = run ++ (spaces ++ found.2) ∧ (∀ d ∈ run, isVersionChar d = true) ∧
      ∀ d ∈ spaces, d = ' ' := by
  have heq := read?_triple none h htail
  rw [sign, List.nil_append, hread] at heq
  obtain ⟨⟨pre, cs⟩, hpre, heq⟩ := Option.bind_eq_some_iff.1 heq.symm
  obtain ⟨⟨build, cs'⟩, hbuild, heq⟩ := Option.bind_eq_some_iff.1 heq
  cases heq
  obtain ⟨prerun, rfl, hprerun⟩ := of_pre? hpre
  obtain ⟨buildrun, rfl, hbuildrun⟩ := of_build? hbuild
  refine ⟨prerun ++ buildrun, cs'.takeWhile (· == ' '), ?_, ?_, ?_⟩
  · rw [List.takeWhile_append_dropWhile, List.append_assoc]
  · intro d hd
    exact (List.mem_append.1 hd).elim (hprerun d) (hbuildrun d)
  · exact fun d hd => eq_of_beq (List.all_eq_true.1 List.all_takeWhile d hd)

end Comparator

/-- A text that starts with a number is no wildcard. -/
theorem Requirement.ofChars?_triple {a b c tail : List Char} {major minor patch : Nat}
    (h : Version.Numerals a b c major minor patch) :
    ofChars? (Version.triple a b c tail) =
      (comparators? limit (Version.triple a b c tail)).map (⟨·⟩) := by
  have hspaces : (Version.triple a b c tail).dropWhile (· == ' ') = Version.triple a b c tail :=
    Text.dropWhile_of_stopsBefore (h.major.stopsBefore
      (fun d hd => beq_eq_false_iff_ne.2 (Version.ne_of_isDigit hd rfl)) _)
  have hwildcard : Comparator.afterWildcard? (Version.triple a b c tail) = none := by
    refine Comparator.afterWildcard?_eq_none (h.major.stopsBefore (fun d hd => ?_) _)
    have hne (e : Char) (he : isDigit e = false) : d ≠ e := Version.ne_of_isDigit hd he
    simp [hne '*' rfl, hne 'x' rfl, hne 'X' rfl]
  simp only [ofChars?, hspaces, hwildcard]

end RouterShift
