/-! Cutting runs of characters: byte lengths in UTF-8, cutting at a byte offset, searching for a
    pattern, splitting at separators. Offsets everywhere in the library are byte offsets into the
    UTF-8 form of a text, so `cutAt?` is the one place where an offset that is out of bounds or
    inside a character is noticed. -/

namespace RouterShift.Text

/-- Bytes that a run of characters takes in UTF-8. -/
def byteLength : List Char → Nat
  | [] => 0
  | c :: cs => c.utf8Size + byteLength cs

/-- The parts before and after a byte offset; none when it is past the end or inside a character. -/
def cutAt? : List Char → Nat → Option (List Char × List Char)
  | cs, 0 => some ([], cs)
  | [], _ + 1 => none
  | c :: cs, n + 1 =>
    if c.utf8Size ≤ n + 1 then
      (cutAt? cs (n + 1 - c.utf8Size)).map fun (front, back) => (c :: front, back)
    else none

/-- True when a byte offset falls between two characters (or at either end). -/
def isBoundary (cs : List Char) (n : Nat) : Bool := (cutAt? cs n).isSome

/-- The characters of the byte range from `start` to `stop`. -/
def slice? (cs : List Char) (start stop : Nat) : Option (List Char) :=
  if start ≤ stop then do
    let (front, _) ← cutAt? cs stop
    let (_, part) ← cutAt? front start
    return part
  else none

/-- What follows a given beginning. -/
def afterStart? : List Char → List Char → Option (List Char)
  | [], cs => some cs
  | _ :: _, [] => none
  | p :: ps, c :: cs => if p = c then afterStart? ps cs else none

/-- What precedes a given ending. -/
def beforeEnd? (ending cs : List Char) : Option (List Char) :=
  (afterStart? ending.reverse cs.reverse).map List.reverse

/-- The parts before and after the first occurrence of a pattern. -/
def cutFirst? (pattern : List Char) : List Char → Option (List Char × List Char)
  | [] => if pattern.isEmpty then some ([], []) else none
  | c :: cs =>
    match afterStart? pattern (c :: cs) with
    | some rest => some ([], rest)
    | none => (cutFirst? pattern cs).map fun (front, rest) => (c :: front, rest)

/-- True when the pattern occurs anywhere in the text. -/
def mentions (pattern cs : List Char) : Bool := (cutFirst? pattern cs).isSome

/-- The pieces between separators; a text without one is a single piece. -/
def splitAt (isSeparator : Char → Bool) : List Char → List (List Char)
  | [] => [[]]
  | c :: cs =>
    if isSeparator c then [] :: splitAt isSeparator cs
    else
      match splitAt isSeparator cs with
      | [] => [[c]]
      | piece :: pieces => (c :: piece) :: pieces

/-- The nonempty pieces between separators. -/
def words (isSeparator : Char → Bool) (cs : List Char) : List (List Char) :=
  (splitAt isSeparator cs).filter fun piece => !piece.isEmpty

/-- The text without the characters of a class at either end. -/
def trim (isBlank : Char → Bool) (cs : List Char) : List Char :=
  ((cs.dropWhile isBlank).reverse.dropWhile isBlank).reverse

theorem afterStart?_eq_some {p cs rest : List Char} :
    afterStart? p cs = some rest ↔ cs = p ++ rest := by
  induction p generalizing cs with
  | nil => simp [afterStart?, eq_comm]
  | cons x p ih =>
    cases cs with
    | nil => simp [afterStart?]
    | cons c cs => by_cases h : x = c <;> simp_all [afterStart?, eq_comm]

theorem length_lt_of_afterStart? {p cs rest : List Char} {c : Char}
    (h : afterStart? p (c :: cs) = some rest) (hp : p ≠ []) : rest.length < (c :: cs).length := by
  have h1 := congrArg List.length (afterStart?_eq_some.1 h)
  have h2 := List.length_pos_iff.2 hp
  rw [List.length_append] at h1; omega

theorem length_of_cutFirst? {p cs front rest : List Char}
    (h : cutFirst? p cs = some (front, rest)) :
    front.length + p.length + rest.length = cs.length := by
  induction cs generalizing front with
  | nil => simp only [cutFirst?] at h; split at h <;> simp_all
  | cons c cs ih =>
    simp only [cutFirst?] at h
    split at h
    · rename_i r hr
      cases h
      have := congrArg List.length (afterStart?_eq_some.1 hr)
      simp at this ⊢; omega
    · simp only [Option.map_eq_some_iff, Prod.exists, Prod.mk.injEq] at h
      obtain ⟨a, b, hab, rfl, rfl⟩ := h
      have := ih hab
      simp; omega

theorem length_lt_of_cutFirst? {p cs front rest : List Char}
    (h : cutFirst? p cs = some (front, rest)) (hp : p ≠ []) : rest.length < cs.length := by
  have h1 := length_of_cutFirst? h
  have h2 := List.length_pos_iff.2 hp
  omega

/-- The pieces between occurrences of a pattern, taken from the left and not overlapping; an empty
    pattern cuts nothing. -/
def splitOn (pattern : List Char) (cs : List Char) : List (List Char) :=
  match h : cutFirst? pattern cs with
  | none => [cs]
  | some (front, rest) =>
    if hp : pattern = [] then [cs]
    else
      have : rest.length < cs.length := length_lt_of_cutFirst? h hp
      front :: splitOn pattern rest
termination_by cs.length

/-- The text with the first occurrence of a pattern replaced. -/
def replaceFirst (pattern replacement cs : List Char) : List Char :=
  match cutFirst? pattern cs with
  | none => cs
  | some (front, rest) => front ++ replacement ++ rest

/-- The text with every occurrence of a pattern replaced, from the left and not overlapping. -/
def replaceAll (pattern replacement cs : List Char) : List Char :=
  List.intercalate replacement (splitOn pattern cs)

/-- The text without a pattern at its end, however often it stands there. -/
def dropEnd (pattern cs : List Char) : List Char :=
  match h : afterStart? pattern.reverse cs.reverse with
  | none => cs
  | some rest =>
    if hp : pattern = [] then cs
    else
      have : rest.length < cs.length := by
        have h1 := congrArg List.length (afterStart?_eq_some.1 h)
        have h2 := List.length_pos_iff.2 hp
        simp at h1; omega
      dropEnd pattern rest.reverse
termination_by cs.length
decreasing_by simpa using this

end RouterShift.Text
