/-! Edit scripts: how a new sequence is made from an old one, in blocks of kept, deleted and inserted
    items. A script is found by cutting off what both have in common at either end and splitting the
    rest at the middle of a shortest edit path; wherever the split is made, the script leads from
    the old sequence to the new one. -/

namespace RouterShift.Patch

/-- A block of an edit script. -/
inductive Block (α : Type)
  | equal (items : List α)
  | delete (items : List α)
  | insert (items : List α)
  deriving Repr, DecidableEq

namespace Block

variable {α : Type}

def items : Block α → List α
  | .equal l | .delete l | .insert l => l

/-- What the block stands for in the old sequence. -/
def old : Block α → List α
  | .equal l | .delete l => l
  | .insert _ => []

/-- What the block stands for in the new sequence. -/
def new : Block α → List α
  | .equal l | .insert l => l
  | .delete _ => []

end Block

/-! ### The middle of a shortest path

`old` and `new` span a grid; on the diagonal `k` lie the places whose positions differ by `k`. A
search from the front and one from the back take turns with one more edit each, and meet halfway. -/

variable {α : Type} [DecidableEq α]

/-- How many items agree from two places on. -/
def agreeing (old new : Array α) (x y : Nat) : Nat :=
  if h : x < old.size ∧ y < new.size then
    if old[x] = new[y] then agreeing old new (x + 1) (y + 1) + 1 else 0
  else 0
termination_by old.size - x

/-- The furthest places reached, one for each diagonal, those of negative diagonals first. -/
structure Frontier where
  offset : Nat
  reached : Array Int

namespace Frontier

def empty (offset : Nat) : Frontier := ⟨offset, Array.replicate (2 * offset + 1) 0⟩

def get (f : Frontier) (k : Int) : Int := f.reached.getD (k + f.offset).toNat 0

def set (f : Frontier) (k x : Int) : Frontier :=
  { f with reached := f.reached.setIfInBounds (k + f.offset).toNat x }

/-- Where a path with `d` edits enters the diagonal `k`: from the one above, unless the one below
    has come further. -/
def enter (f : Frontier) (d k : Int) : Int :=
  if k = -d || (k ≠ d && f.get (k - 1) < f.get (k + 1)) then f.get (k + 1) else f.get (k - 1) + 1

end Frontier

/-- Along the diagonal from a place, as far as items agree. -/
def slide (old new : Array α) (x y : Int) : Int :=
  if 0 ≤ y && x ≤ old.size && y ≤ new.size then x + agreeing old new x.toNat y.toNat else x

/-- One turn of one search: the diagonals `ks` in order, until `meets` says that a path was met. -/
def turn (old new : Array α) (d : Int) (meets : Int → Int → Bool)
    (found : Int → Int → Int → Int → Int × Int) (f : Frontier) :
    List Int → Frontier × Option (Int × Int)
  | [] => (f, none)
  | k :: ks =>
    let x := f.enter d k
    let y := x - k
    let x' := slide old new x y
    let f := f.set k x'
    if meets k x' then (f, some (found x y x' (x' - k)))
    else turn old new d meets found f ks

/-- The diagonals that `d` edits can reach, from the highest down. -/
def diagonals (d : Nat) : List Int :=
  (List.range (d + 1)).map fun (i : Nat) => (d : Int) - 2 * (i : Int)

/-- Turns with `d`, `d + 1`, … edits, until the searches meet or the bound is reached. -/
def meet (old new back wen : Array α) :
    (turns d : Nat) → (front rear : Frontier) → Option (Int × Int)
  | 0, _, _, _ => none
  | turns + 1, d, front, rear =>
    let n : Int := old.size
    let m : Int := new.size
    let delta := n - m
    let odd := delta % 2 ≠ 0
    let close (k limit : Int) : Bool := -limit ≤ k - delta && k - delta ≤ limit
    let (front, hit) := turn old new d
      (fun k x => odd && close k (d - 1) && x + rear.get (-(k - delta)) ≥ n)
      (fun x y _ _ => (x, y)) front (diagonals d)
    match hit with
    | some place => some place
    | none =>
      let (rear, hit) := turn back wen d
        (fun k x => !odd && close k d && x + front.get (-(k - delta)) ≥ n)
        (fun _ _ x y => (n - x, m - y)) rear (diagonals d)
      match hit with
      | some place => some place
      | none => meet old new back wen turns (d + 1) front rear

/-- A place on a shortest path, about halfway. -/
def middle? (old new : List α) : Option (Int × Int) :=
  let turns := (old.length + new.length + 1) / 2 + 1
  meet old.toArray new.toArray old.reverse.toArray new.reverse.toArray turns 0
    (.empty (turns + 1)) (.empty (turns + 1))

/-! ### Scripts -/

/-- The longest common beginning. -/
def commonStart : List α → List α → List α
  | a :: as, b :: bs => if a = b then a :: commonStart as bs else []
  | _, _ => []

/-- The longest common ending. -/
def commonEnd (old new : List α) : List α := (commonStart old.reverse new.reverse).reverse

/-- A block, unless it has no items. -/
def block (make : List α → Block α) (items : List α) : List (Block α) :=
  if items.isEmpty then [] else [make items]

/-- The script from `old` to `new`. -/
def script (old new : List α) : List (Block α) :=
  let start := commonStart old new
  let old' := old.drop start.length
  let new' := new.drop start.length
  let rear := commonEnd old' new'
  let a := old'.take (old'.length - rear.length)
  let b := new'.take (new'.length - rear.length)
  block .equal start ++
    (match middle? a b with
      | none => block .delete a ++ block .insert b
      | some (x, y) =>
        let i := x.toNat
        let j := y.toNat
        if a = [] ∨ b = [] then block .delete a ++ block .insert b
        else if _h : 0 < i + j ∧ i ≤ a.length ∧ j ≤ b.length ∧ i + j < a.length + b.length then
          script (a.take i) (b.take j) ++ script (a.drop i) (b.drop j)
        else block .delete a ++ block .insert b)
    ++ block .equal rear
termination_by old.length + new.length
decreasing_by
  all_goals
    have ha : a.length ≤ old.length := by
      simp only [a, old', List.length_take, List.length_drop]; omega
    have hb : b.length ≤ new.length := by
      simp only [b, new', List.length_take, List.length_drop]; omega
    simp only [List.length_take, List.length_drop]
    omega

end RouterShift.Patch
