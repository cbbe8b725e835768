import RouterShift.Grammar.Tree
import RouterShift.Text.Cursor

/-! Parsing expression grammars as data. An expression says what may stand at a place; choice takes
    the first alternative that can be read, repetition as much as it can, and `absent` looks ahead
    without taking anything. A reading builds a tree of the nodes that the grammar marks; whatever
    is not marked leaves its children to the node around it. Readings are bounded in depth, so
    every grammar has one answer on every text, a left-recursive one too: it is `tooDeep`. -/

namespace RouterShift.Grammar

open Text (Cursor)

/-- What may stand at a place, over rules `ι` and marks `κ`. -/
inductive Peg (ι κ : Type)
  /-- Nothing is taken. -/
  | nothing
  /-- These very characters. -/
  | text (cs : List Char)
  /-- One character of a class. -/
  | one (isIn : Char → Bool)
  /-- The longest run of characters of a class, if it is not empty and acceptable. -/
  | run (isIn : Char → Bool) (accepts : List Char → Bool)
  | rule (name : ι)
  | seq (first second : Peg ι κ)
  | choice (first second : Peg ι κ)
  | many (part : Peg ι κ)
  /-- The part cannot be read here; nothing is taken. -/
  | absent (part : Peg ι κ)
  | node (kind : κ) (part : Peg ι κ)
  /-- The part, for which there is no alternative: if it cannot be read, the text is no text of the
      grammar. -/
  | commit (part : Peg ι κ)

/-- Why nothing was read. -/
inductive Stop
  /-- Something else may be readable here. -/
  | mismatch
  /-- Nothing else can be: what was begun has no alternative. -/
  | broken
  | tooDeep
  deriving Repr, DecidableEq

/-- The marked parts that were read, and the place after them. -/
structure Reading (κ : Type) where
  trees : List (Tree κ)
  next : Cursor

namespace Peg

variable {ι κ : Type}

/-- All of the parts, one after another. -/
def all (parts : List (Peg ι κ)) : Peg ι κ := parts.foldr seq nothing

/-- The first of the alternatives that can be read. -/
def oneOf : List (Peg ι κ) → Peg ι κ
  | [] => absent nothing
  | [last] => last
  | first :: rest => choice first (oneOf rest)

/-- The part, or nothing. -/
def optional (part : Peg ι κ) : Peg ι κ := choice part nothing

/-- The part can be read here; nothing is taken. -/
def ahead (part : Peg ι κ) : Peg ι κ := absent (absent part)

/-- The part one or more times, with separators between. -/
def separated (separator part : Peg ι κ) : Peg ι κ := seq part (many (seq separator part))

/-- What an expression reads at a place, going no deeper than `depth`. -/
def read (rules : ι → Peg ι κ) : Nat → Peg ι κ → Cursor → Except Stop (Reading κ)
  | 0, _, _ => .error .tooDeep
  | depth + 1, part, s =>
    match part with
    | nothing => .ok ⟨[], s⟩
    | text cs =>
      match Text.afterStart? cs s.rest with
      | some rest => .ok ⟨[], ⟨s.pos + Text.byteLength cs, rest⟩⟩
      | none => .error .mismatch
    | one isIn =>
      match s.rest with
      | c :: rest =>
        if isIn c then .ok ⟨[], ⟨s.pos + c.utf8Size, rest⟩⟩ else .error .mismatch
      | [] => .error .mismatch
    | run isIn accepts =>
      let (taken, next) := s.take isIn
      if !taken.isEmpty && accepts taken then .ok ⟨[], next⟩ else .error .mismatch
    | rule name => read rules depth (rules name) s
    | seq first second =>
      match read rules depth first s with
      | .error stop => .error stop
      | .ok a =>
        match read rules depth second a.next with
        | .error stop => .error stop
        | .ok b => .ok ⟨a.trees ++ b.trees, b.next⟩
    | choice first second =>
      match read rules depth first s with
      | .error .mismatch => read rules depth second s
      | outcome => outcome
    | many part =>
      match read rules depth part s with
      | .error .mismatch => .ok ⟨[], s⟩
      | .error stop => .error stop
      | .ok a =>
        if a.next.rest.length < s.rest.length then
          match read rules depth (many part) a.next with
          | .error stop => .error stop
          | .ok b => .ok ⟨a.trees ++ b.trees, b.next⟩
        else .ok ⟨[], s⟩
    | absent part =>
      match read rules depth part s with
      | .error .tooDeep => .error .tooDeep
      | .error _ => .ok ⟨[], s⟩
      | .ok _ => .error .mismatch
    | node kind part =>
      match read rules depth part s with
      | .error stop => .error stop
      | .ok a => .ok ⟨[.node kind ⟨s.pos, a.next.pos⟩ a.trees], a.next⟩
    | commit part =>
      match read rules depth part s with
      | .error .mismatch => .error .broken
      | outcome => outcome

end Peg
end RouterShift.Grammar
