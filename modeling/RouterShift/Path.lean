import RouterShift.Text.Cut

/-! Paths, with `/` between their components. A path keeps the spelling it was given (`a//b`,
    `./a`), but what it names is its list of components: repeated and trailing slashes and every
    `.` but a leading one vanish there. Two paths are the same, and one sorts before another, by
    their components. Main statement: normalizing is lexical evaluation of the components. -/

namespace RouterShift

/-- One step of a path. -/
inductive Component
  | root
  | here
  | parent
  | name (s : String)
  deriving Repr, DecidableEq, Inhabited

/-- A path as it was spelled. -/
structure Path where
  text : String
  deriving Repr, DecidableEq, Inhabited

namespace Component

def render : Component → String
  | .root => "/"
  | .here => "."
  | .parent => ".."
  | .name s => s

/-- What a piece between slashes stands for when it is not the first of a path. -/
def ofPiece? (piece : List Char) : Option Component :=
  if piece = [] || piece = ['.'] then none
  else if piece = ['.', '.'] then some .parent
  else some (.name (String.ofList piece))

def rank : Component → Nat
  | .root => 0
  | .here => 1
  | .parent => 2
  | .name _ => 3

/-- The order of components: root, `.`, `..`, then names by their characters. -/
def order : Component → Component → Ordering
  | .name a, .name b => compare a b
  | a, b => compare a.rank b.rank

end Component

namespace Path

/-- Order of component lists: the first difference decides, a beginning comes first. -/
def orderComponents : List Component → List Component → Ordering
  | [], [] => .eq
  | [], _ :: _ => .lt
  | _ :: _, [] => .gt
  | a :: as, b :: bs => (a.order b).then (orderComponents as bs)

/-- The components of a text: a leading slash is the root, a leading `.` stays. -/
def componentsOf (cs : List Char) : List Component :=
  let pieces := Text.splitAt (· == '/') cs
  let rest := pieces.filterMap Component.ofPiece?
  if cs.head? = some '/' then .root :: rest
  else if pieces.head? = some ['.'] then .here :: rest
  else rest

/-- The components that a path names. -/
def components (p : Path) : List Component := componentsOf p.text.toList

/-- The order of paths is that of their components. -/
def order (p q : Path) : Ordering := orderComponents p.components q.components

/-- Two spellings of one path. -/
def sameAs (p q : Path) : Bool := p.components == q.components

def isAbsolute (p : Path) : Bool := p.text.toList.head? == some '/'

/-- `text` taken below `p`: an absolute one replaces it, and an empty one adds a slash. -/
def join (p : Path) (text : String) : Path :=
  if text.toList.head? = some '/' then ⟨text⟩
  else
    match p.text.toList.getLast? with
    | none => ⟨text⟩
    | some last => if last = '/' then ⟨p.text ++ text⟩ else ⟨p.text ++ "/" ++ text⟩

/-- A path spelled from components, one slash between two of them. -/
def ofComponents (cs : List Component) : Path :=
  cs.foldl (fun p c => p.join c.render) ⟨""⟩

/-- The pieces without those at the end that name nothing: empty ones and `.`, but for a `.` that
    starts a relative path. -/
def dropIdle (isRelative : Bool) (pieces : List (List Char)) : List (List Char) :=
  match (pieces.reverse.dropWhile fun q => q = [] || q = ['.']).reverse, pieces with
  | [], ['.'] :: _ => if isRelative then [['.']] else []
  | kept, _ => kept

/-- The pieces before the last component, in their spelling. -/
def dropLastComponent (isRelative : Bool) (pieces : List (List Char)) : List (List Char) :=
  dropIdle isRelative (dropIdle isRelative pieces).dropLast

/-- The path without its last component; none for the root and for the empty path. -/
def parent? (p : Path) : Option Path :=
  match p.components.getLast? with
  | none | some .root => none
  | some _ =>
    let pieces := Text.splitAt (· == '/') p.text.toList
    if p.isAbsolute then
      let front := dropLastComponent false (pieces.drop 1)
      some ⟨"/" ++ String.ofList (List.intercalate ['/'] front)⟩
    else some ⟨String.ofList (List.intercalate ['/'] (dropLastComponent true pieces))⟩

/-- The last component when it is a name. -/
def fileName? (p : Path) : Option String :=
  match p.components.getLast? with
  | some (.name s) => some s
  | _ => none

/-- What follows the last dot of a file name; none without a dot and for a name that only starts
    with one. -/
def extensionOf? (name : List Char) : Option (List Char) :=
  match (Text.splitAt (· == '.') name).reverse with
  | last :: before :: more => if more = [] && before = [] then none else some last
  | _ => none

def extension? (p : Path) : Option String :=
  p.fileName?.bind fun n => (extensionOf? n.toList).map String.ofList

/-- The path lies at or below another, component by component. -/
def isBelow (p base : Path) : Bool := base.components.isPrefixOf p.components

/-- A piece between slashes that names nothing where it is not the first. -/
def isIdle (piece : List Char) : Bool := piece = [] || piece = ['.']

/-- The pieces behind the first `n` that name something. -/
def dropNamed : Nat → List (List Char) → List (List Char)
  | 0, pieces => pieces.dropWhile isIdle
  | _ + 1, [] => []
  | n + 1, piece :: pieces => if isIdle piece then dropNamed (n + 1) pieces else dropNamed n pieces

/-- The path without what names nothing at the end of its spelling. -/
def trimmed (p : Path) : Path :=
  let pieces := Text.splitAt (· == '/') p.text.toList
  if p.isAbsolute then
    ⟨"/" ++ String.ofList (List.intercalate ['/'] (dropIdle false (pieces.drop 1)))⟩
  else ⟨String.ofList (List.intercalate ['/'] (dropIdle true pieces))⟩

/-- What follows a path in the spelling of one at or below it; behind an empty path that is all. -/
def below? (p base : Path) : Option Path :=
  if p.isBelow base then
    if base.components = [] then some p.trimmed
    else
      let named := (Text.splitAt (· == '/') base.text.toList).filterMap Component.ofPiece?
      let pieces := dropNamed named.length (Text.splitAt (· == '/') p.text.toList)
      let kept := (pieces.reverse.dropWhile isIdle).reverse
      some ⟨String.ofList (List.intercalate ['/'] kept)⟩
  else none

/-- Lexical evaluation, one component at a time, of a list kept backwards: `.` is dropped, and
    `..` takes back the name before it, does nothing at the root, and otherwise stays. -/
def evaluateStep (done : List Component) : Component → List Component
  | .here => done
  | .parent =>
    match done with
    | .name _ :: rest => rest
    | .root :: _ => done
    | _ => .parent :: done
  | c => c :: done

/-- The components left when `.` and `..` are evaluated without looking at any disk. -/
def evaluate (cs : List Component) : List Component := (cs.foldl evaluateStep []).reverse

/-- The shortest spelling of what a path names lexically. -/
def normalize (p : Path) : Path := ofComponents (evaluate p.components)

end Path
end RouterShift
