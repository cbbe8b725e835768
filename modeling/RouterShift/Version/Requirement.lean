import RouterShift.Version.Basic

/-! Requirements on versions: lists of comparators, all of which must hold. A comparator may leave
    out the patch and the minor number; one that does compares the given parts only. A pre-release
    is admitted only where some comparator names a pre-release of the very same three numbers. -/

namespace RouterShift

inductive Operator
  | exact
  | greater
  | greaterEq
  | less
  | lessEq
  | tilde
  | caret
  deriving Repr, DecidableEq

/-- An operator and the parts of a version it is applied to. -/
structure Comparator where
  op : Operator
  major : Nat
  minor : Option Nat
  patch : Option Nat
  pre : List PreIdentifier
  deriving Repr, DecidableEq

/-- Comparators that must all hold; without any, every release does. -/
structure Requirement where
  comparators : List Comparator
  deriving Repr, DecidableEq

namespace Comparator

/-- The given parts are equal, and so is the pre-release. -/
def admitsExact (c : Comparator) (v : Version) : Bool :=
  v.major == c.major && c.minor.all (v.minor == ·) && c.patch.all (v.patch == ·) && v.pre == c.pre

/-- The version is on the given side of the comparator's: the first part that differs decides, and
    where a part is left out nothing is on either side. -/
def admitsSide (side : Ordering) (c : Comparator) (v : Version) : Bool :=
  if v.major ≠ c.major then compare v.major c.major == side
  else
    match c.minor with
    | none => false
    | some minor =>
      if v.minor ≠ minor then compare v.minor minor == side
      else
        match c.patch with
        | none => false
        | some patch =>
          if v.patch ≠ patch then compare v.patch patch == side
          else Version.orderPre v.pre c.pre == side

/-- Same major and minor number, patch at least. -/
def admitsTilde (c : Comparator) (v : Version) : Bool :=
  v.major == c.major && c.minor.all (v.minor == ·) &&
    match c.patch with
    | none => Version.orderPre v.pre c.pre != .lt
    | some patch =>
      if v.patch ≠ patch then v.patch > patch else Version.orderPre v.pre c.pre != .lt

/-- The leftmost part that is not zero is the same, the rest at least. -/
def admitsCaret (c : Comparator) (v : Version) : Bool :=
  v.major == c.major &&
    match c.minor, c.patch with
    | none, _ => true
    | some minor, none => if c.major > 0 then v.minor ≥ minor else v.minor == minor
    | some minor, some patch =>
      if c.major > 0 && v.minor ≠ minor then v.minor > minor
      else if v.minor ≠ minor then false
      else if v.patch ≠ patch then (c.major > 0 || minor > 0) && v.patch > patch
      else Version.orderPre v.pre c.pre != .lt

/-- The comparator on its own admits the version. -/
def admits (c : Comparator) (v : Version) : Bool :=
  match c.op with
  | .exact => c.admitsExact v
  | .greater => c.admitsSide .gt v
  | .greaterEq => c.admitsExact v || c.admitsSide .gt v
  | .less => c.admitsSide .lt v
  | .lessEq => c.admitsExact v || c.admitsSide .lt v
  | .tilde => c.admitsTilde v
  | .caret => c.admitsCaret v

/-- The comparator names a pre-release of the version's three numbers. -/
def namesPreOf (c : Comparator) (v : Version) : Bool :=
  c.major == v.major && c.minor == some v.minor && c.patch == some v.patch && !c.pre.isEmpty

/-! ### Reading -/

/-- The operator at the start of a text, if one is given. -/
def operator? : List Char → Option Operator × List Char
  | '=' :: cs => (some .exact, cs)
  | '>' :: '=' :: cs => (some .greaterEq, cs)
  | '>' :: cs => (some .greater, cs)
  | '<' :: '=' :: cs => (some .lessEq, cs)
  | '<' :: cs => (some .less, cs)
  | '~' :: cs => (some .tilde, cs)
  | '^' :: cs => (some .caret, cs)
  | cs => (none, cs)

/-- What follows a wildcard at the start of a text. -/
def afterWildcard? : List Char → Option (List Char)
  | '*' :: cs | 'x' :: cs | 'X' :: cs => some cs
  | _ => none

/-- A part behind a dot, which may be a wildcard: none when there is no dot, else the number, or
    nothing for a wildcard. -/
def part? (cs : List Char) : Option (Option (Option Nat) × List Char) :=
  match Version.after? '.' cs with
  | none => some (none, cs)
  | some more =>
    match afterWildcard? more with
    | some rest => some (some none, rest)
    | none => (Version.number? more).map fun (n, rest) => (some (some n), rest)

/-- The comparator at the start of a text, and what follows it and the spaces after it. Behind a
    wildcard no number may come; without an operator a wildcard compares the parts before it, and
    anything else is a caret. -/
def read? (cs : List Char) : Option (Comparator × List Char) := do
  let (op, cs) := operator? cs
  let (major, cs) ← Version.number? (cs.dropWhile (· == ' '))
  let (minor, cs) ← part? cs
  let (patch, cs) ← part? cs
  if minor == some none && (patch.bind id).isSome then none
  let hasWildcard := minor == some none || patch == some none
  let op := op.getD (if hasWildcard then .exact else .caret)
  let minor := minor.bind id
  let patch := patch.bind id
  if patch.isSome then
    let (pre, cs) ← Version.pre? cs
    let (_, cs) ← Version.build? cs
    return (⟨op, major, minor, patch, pre⟩, cs.dropWhile (· == ' '))
  else return (⟨op, major, minor, patch, []⟩, cs.dropWhile (· == ' '))

end Comparator

namespace Requirement

/-- The requirement that every release meets. -/
def any : Requirement := ⟨[]⟩

def admits (r : Requirement) (v : Version) : Bool :=
  r.comparators.all (·.admits v) && (v.pre.isEmpty || r.comparators.any (·.namesPreOf v))

/-- How many comparators one requirement may have. -/
def limit : Nat := 32

/-- Between one and `room` comparators, separated by commas, up to the end of the text. -/
def comparators? : (room : Nat) → List Char → Option (List Comparator)
  | 0, _ => none
  | room + 1, cs => do
    let (c, rest) ← Comparator.read? cs
    match rest with
    | [] => return [c]
    | ',' :: more => return c :: (← comparators? room (more.dropWhile (· == ' ')))
    | _ => none

/-- A requirement from its text: a wildcard alone, or comparators. -/
def ofChars? (cs : List Char) : Option Requirement :=
  let cs := cs.dropWhile (· == ' ')
  match Comparator.afterWildcard? cs with
  | some rest => if (rest.dropWhile (· == ' ')).isEmpty then some any else none
  | none => (comparators? limit cs).map (⟨·⟩)

end Requirement
end RouterShift
