import RouterShift.Patch.Script

/-! Compacting an edit script. Every deletion, and then every insertion, is moved as far up and then
    as far down as the kept items around it allow, merging with its like on the way. Each move
    leaves what the script makes of the old sequence as it was. -/

namespace RouterShift.Patch

variable {α : Type} [DecidableEq α]

/-- The two kinds of edits. -/
inductive Kind
  | delete
  | insert
  deriving Repr, DecidableEq

def Kind.block : Kind → List α → Block α
  | .delete => .delete
  | .insert => .insert

/-- The kind of a block that is an edit. -/
def Block.kind? : Block α → Option Kind
  | .equal _ => none
  | .delete _ => some .delete
  | .insert _ => some .insert

/-- Kept items put in front of blocks: into the first one if that is kept as well. -/
def keepInFront (items : List α) : List (Block α) → List (Block α)
  | .equal l :: rest => .equal (items ++ l) :: rest
  | rest => .equal items :: rest

/-- Kept items put behind blocks that are listed backwards. -/
def keepBehind (items : List α) : List (Block α) → List (Block α)
  | .equal l :: rest => .equal (l ++ items) :: rest
  | rest => .equal items :: rest

/-- The size of blocks, by which moving past them goes down. -/
def weight : List (Block α) → Nat
  | [] => 0
  | b :: bs => b.items.length + 1 + weight bs

omit [DecidableEq α] in
@[simp] theorem weight_cons (b : Block α) (bs : List (Block α)) :
    weight (b :: bs) = b.items.length + 1 + weight bs := rfl

omit [DecidableEq α] in
theorem weight_lt_cons (b : Block α) (bs : List (Block α)) : weight bs < weight (b :: bs) := by
  rw [weight_cons]; omega

/-- An edit between blocks: those before it listed backwards, its items, those after it. -/
structure Place (α : Type) where
  before : List (Block α)
  items : List α
  after : List (Block α)

/-- The edit moved up as far as possible. -/
def moveUp (kind : Kind) (before : List (Block α)) (items : List α) (after : List (Block α)) :
    Place α :=
  match before with
  | [] => ⟨[], items, after⟩
  | .equal l :: rest =>
    let shared := commonEnd items l
    if _hs : shared = [] then
      if l = [] then moveUp kind rest items after else ⟨.equal l :: rest, items, after⟩
    else
      let l' := l.take (l.length - shared.length)
      let items' := shared ++ items.take (items.length - shared.length)
      let after' := keepInFront shared after
      if _hl : l' = [] then moveUp kind rest items' after'
      else moveUp kind (.equal l' :: rest) items' after'
  | .delete l :: rest =>
    if kind = .delete then moveUp kind rest (l ++ items) after
    else moveUp kind rest items (.delete l :: after)
  | .insert l :: rest =>
    if kind = .insert then moveUp kind rest (l ++ items) after
    else moveUp kind rest items (.insert l :: after)
termination_by weight before
decreasing_by
  · exact weight_lt_cons _ _
  · exact weight_lt_cons _ _
  · have h1 := List.length_pos_iff.2 _hs
    have h2 := List.length_pos_iff.2 _hl
    have h3 : l'.length < l.length := by simp only [l', List.length_take] at h2 ⊢; omega
    rw [weight_cons, weight_cons]
    exact Nat.add_lt_add_right (Nat.add_lt_add_right h3 1) _
  all_goals exact weight_lt_cons _ _

/-- The edit moved down as far as possible. -/
def moveDown (kind : Kind) (before : List (Block α)) (items : List α) (after : List (Block α)) :
    Place α :=
  match after with
  | [] => ⟨before, items, []⟩
  | .equal l :: rest =>
    let shared := commonStart items l
    if _hs : shared = [] then
      if l = [] then moveDown kind before items rest else ⟨before, items, .equal l :: rest⟩
    else
      let l' := l.drop shared.length
      let items' := items.drop shared.length ++ shared
      let before' := keepBehind shared before
      if _hl : l' = [] then moveDown kind before' items' rest
      else moveDown kind before' items' (.equal l' :: rest)
  | .delete l :: rest =>
    if kind = .delete then moveDown kind before (items ++ l) rest
    else moveDown kind (.delete l :: before) items rest
  | .insert l :: rest =>
    if kind = .insert then moveDown kind before (items ++ l) rest
    else moveDown kind (.insert l :: before) items rest
termination_by weight after
decreasing_by
  · exact weight_lt_cons _ _
  · exact weight_lt_cons _ _
  · have h1 := List.length_pos_iff.2 _hs
    have h2 := List.length_pos_iff.2 _hl
    have h3 : l'.length < l.length := by simp only [l', List.length_drop] at h2 ⊢; omega
    rw [weight_cons, weight_cons]
    exact Nat.add_lt_add_right (Nat.add_lt_add_right h3 1) _
  all_goals exact weight_lt_cons _ _

/-- Every edit of a kind moved up and down, one after the other; after each the scan goes on behind
    the place where it ended. `steps` bounds the scan. -/
def compactFrom (kind : Kind) : (steps : Nat) → (before after : List (Block α)) → List (Block α)
  | 0, before, after => before.reverse ++ after
  | _, before, [] => before.reverse
  | steps + 1, before, b :: rest =>
    if b.kind? = some kind then
      let up := moveUp kind before b.items rest
      let down := moveDown kind up.before up.items up.after
      compactFrom kind steps (kind.block down.items :: down.before) down.after
    else compactFrom kind steps (b :: before) rest

/-- A script with its deletions and then its insertions compacted. -/
def compact (blocks : List (Block α)) : List (Block α) :=
  let once (kind : Kind) (blocks : List (Block α)) := compactFrom kind (weight blocks + 1) [] blocks
  once .insert (once .delete blocks)

end RouterShift.Patch
