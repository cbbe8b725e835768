import RouterShift.Disk.Entry
import RouterShift.Text.Blank

/-! Ignore files. A pattern is matched name by name against the way from the ignore file's directory
    to an entry; `**` stands for any number of names. In one file the last pattern that matches
    decides; of several files the one in the deepest directory does, and all files named `.ignore`
    come before all named `.gitignore`, which come before the exclude lists. -/

namespace RouterShift.Ignore

/-- A part of a pattern within one name. -/
inductive Atom
  | byte (b : UInt8)
  | anyByte
  | anyBytes
  /-- A byte in one of the ranges, or in none of them. -/
  | oneOf (negated : Bool) (ranges : List (UInt8 × UInt8))
  deriving Repr, DecidableEq

/-- A part of a pattern between slashes. -/
inductive Segment
  | name (atoms : List Atom)
  /-- Any number of names. -/
  | deep
  deriving Repr, DecidableEq

/-- One line of an ignore file. -/
structure Rule where
  segments : List Segment
  /-- What matches is not ignored after all. -/
  isException : Bool
  onlyDirectories : Bool
  deriving Repr, DecidableEq

/-! ### Matching -/

def Atom.admits : Atom → UInt8 → Bool
  | byte b, c => b == c
  | anyByte, _ => true
  | anyBytes, _ => true
  | oneOf negated ranges, c => (ranges.any fun (low, high) => low ≤ c && c ≤ high) != negated

/-- The atoms match all of the bytes. -/
def matchAtoms : List Atom → List UInt8 → Bool
  | [], bytes => bytes.isEmpty
  | .anyBytes :: atoms, [] => matchAtoms atoms []
  | .anyBytes :: atoms, b :: bytes =>
    matchAtoms atoms (b :: bytes) || matchAtoms (.anyBytes :: atoms) bytes
  | _ :: _, [] => false
  | atom :: atoms, b :: bytes => atom.admits b && matchAtoms atoms bytes
termination_by atoms bytes => atoms.length + bytes.length

/-- The segments match all of the names. -/
def matchSegments : List Segment → List String → Bool
  | [], names => names.isEmpty
  | .deep :: segments, [] => matchSegments segments []
  | .deep :: segments, n :: names =>
    matchSegments segments (n :: names) || matchSegments (.deep :: segments) names
  | .name _ :: _, [] => false
  | .name atoms :: segments, n :: names =>
    matchAtoms atoms n.toUTF8.toList && matchSegments segments names
termination_by segments names => segments.length + names.length

/-- The rule speaks of the entry that names lead to from the rule's directory. -/
def Rule.applies (r : Rule) (names : List String) (isDirectory : Bool) : Bool :=
  (isDirectory || !r.onlyDirectories) && matchSegments r.segments names

/-! ### Reading patterns -/

def bytesOf (c : Char) : List UInt8 := c.toString.toUTF8.toList

/-- The ranges of a bracketed class up to its end, and what follows it; none without an end. -/
def readRanges : List Char → Option (List (UInt8 × UInt8) × List Char)
  | [] => none
  | ']' :: rest => some ([], rest)
  | low :: '-' :: ']' :: rest =>
    let one (c : Char) : UInt8 × UInt8 := (c.toNat.toUInt8, c.toNat.toUInt8)
    some ([one low, one '-'], rest)
  | low :: '-' :: high :: rest =>
    (readRanges rest).map fun (ranges, after) =>
      ((low.toNat.toUInt8, high.toNat.toUInt8) :: ranges, after)
  | c :: rest =>
    (readRanges rest).map fun (ranges, after) =>
      ((c.toNat.toUInt8, c.toNat.toUInt8) :: ranges, after)

/-- A class behind its opening bracket; a bracket that comes first in it belongs to it. -/
def readClass (cs : List Char) : Option (Atom × List Char) :=
  let (negated, cs) := match cs with
    | '!' :: rest => (true, rest)
    | '^' :: rest => (true, rest)
    | _ => (false, cs)
  match cs with
  | ']' :: rest =>
    (readRanges rest).map fun (ranges, after) =>
      (.oneOf negated ((']'.toNat.toUInt8, ']'.toNat.toUInt8) :: ranges), after)
  | _ => (readRanges cs).map fun (ranges, after) => (.oneOf negated ranges, after)

/-- The atoms of a segment; none for a class without an end and for a lone backslash at the end.
    `fuel` is at least the number of characters. -/
def readAtoms : Nat → List Char → Option (List Atom)
  | 0, _ => some []
  | _ + 1, [] => some []
  | _ + 1, ['\\'] => none
  | fuel + 1, '\\' :: c :: rest => (readAtoms fuel rest).map ((bytesOf c).map .byte ++ ·)
  | fuel + 1, '*' :: rest => (readAtoms fuel rest).map (.anyBytes :: ·)
  | fuel + 1, '?' :: rest => (readAtoms fuel rest).map (.anyByte :: ·)
  | fuel + 1, '[' :: rest => do
    let (atom, after) ← readClass rest
    (readAtoms fuel after).map (atom :: ·)
  | fuel + 1, c :: rest => (readAtoms fuel rest).map ((bytesOf c).map .byte ++ ·)

def readSegment (cs : List Char) : Option Segment :=
  if cs = ['*', '*'] then some .deep else (readAtoms cs.length cs).map .name

/-- The segments of a pattern. One without a slash may match at any depth, and one that ends in
    `**` matches what is below a directory but not the directory. -/
def readSegments (anchored : Bool) (cs : List Char) : Option (List Segment) := do
  let pieces := Text.splitAt (· == '/') cs
  let segments ← pieces.mapM readSegment
  let tail := if 1 < pieces.length && segments.getLast? = some .deep then [.name [.anyBytes]] else []
  let lead := if anchored || 1 < pieces.length then [] else [.deep]
  return lead ++ segments ++ tail

/-- The rule that a line gives, if it gives one. -/
def Rule.ofLine? (line : List Char) : Option Rule :=
  let keepsBlank := (Text.beforeEnd? ['\\', ' '] line).isSome
  let line := if keepsBlank then line else (line.reverse.dropWhile Text.isBlank).reverse
  let pattern (isException anchored : Bool) (cs : List Char) : Option Rule :=
    let (onlyDirectories, cs) := match Text.beforeEnd? ['/'] cs with
      | some front => (true, (Text.beforeEnd? ['\\'] front).getD front)
      | none => (false, cs)
    (readSegments anchored cs).map fun segments => ⟨segments, isException, onlyDirectories⟩
  let anchoring (isException : Bool) (cs : List Char) : Option Rule :=
    match cs with
    | '/' :: rest => pattern isException true rest
    | _ => pattern isException false cs
  match line with
  | [] => none
  | '#' :: _ => none
  | '\\' :: '!' :: rest => pattern false false ('!' :: rest)
  | '\\' :: '#' :: rest => pattern false false ('#' :: rest)
  | '!' :: rest => anchoring true rest
  | cs => anchoring false cs

/-- The rules of an ignore file. -/
def rulesOf (text : String) : List Rule :=
  let cs := (Text.afterStart? ['\ufeff'] text.toList).getD text.toList
  (Text.splitAt (· == '\n') cs).filterMap fun line =>
    Rule.ofLine? ((Text.beforeEnd? ['\r'] line).getD line)

/-! ### The rules in force -/

/-- The rules that a directory brings along. -/
structure Level where
  /-- The names that lead to the directory. -/
  directory : List String
  /-- From the file `.ignore`. -/
  own : List Rule
  /-- From the file `.gitignore`. -/
  shared : List Rule
  /-- From the exclude list. -/
  excluded : List Rule

/-- What a directory says about the entries at and below it. -/
def Level.of (names : List String) (entries : List (String × Entry)) : Level :=
  let rules (file : List String) : List Rule :=
    match (Entry.directory entries).at? file with
    | some (.file content) => rulesOf (content.text?.getD "")
    | _ => []
  ⟨names, rules [".ignore"], rules [".gitignore"], rules [".git", "info", "exclude"]⟩

/-- What the rules of one file say about an entry: ignored, not ignored, or nothing. -/
def decide? (rules : List Rule) (names : List String) (isDirectory : Bool) : Option Bool :=
  (rules.reverse.find? (·.applies names isDirectory)).map (!·.isException)

/-- What levels, the deepest first, say about an entry. -/
def verdict? (levels : List Level) (names : List String) (isDirectory : Bool) : Option Bool :=
  let ask (rules : Level → List Rule) : Option Bool :=
    levels.findSome? fun l => decide? (rules l) (names.drop l.directory.length) isDirectory
  (ask Level.own).or ((ask Level.shared).or (ask Level.excluded))

end RouterShift.Ignore
