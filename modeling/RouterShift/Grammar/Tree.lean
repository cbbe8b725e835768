import RouterShift.Span

/-! Trees over the parts of a text. A node says what it is, where it stands, and what is in it. -/

namespace RouterShift.Grammar

/-- A part of a text: what it is, where it stands, the parts in it. -/
inductive Tree (κ : Type)
  | node (label : κ) (span : Span) (children : List (Tree κ))

namespace Tree

variable {κ : Type}

def label : Tree κ → κ
  | node label _ _ => label

def span : Tree κ → Span
  | node _ span _ => span

def children : Tree κ → List (Tree κ)
  | node _ _ children => children

mutual
/-- The tree and everything in it, each node before what is in it. -/
def subtrees : Tree κ → List (Tree κ)
  | node label span children => node label span children :: subtreesAmong children

def subtreesAmong : List (Tree κ) → List (Tree κ)
  | [] => []
  | t :: rest => subtrees t ++ subtreesAmong rest
end

section
variable [DecidableEq κ]

mutual
def decEq : (t u : Tree κ) → Decidable (t = u)
  | node label span children, node label' span' children' =>
    have := decEqAmong children children'
    decidable_of_iff (label = label' ∧ span = span' ∧ children = children') (by simp)

def decEqAmong : (ts us : List (Tree κ)) → Decidable (ts = us)
  | [], [] => isTrue rfl
  | [], _ :: _ => isFalse nofun
  | _ :: _, [] => isFalse nofun
  | t :: ts, u :: us =>
    have := decEq t u
    have := decEqAmong ts us
    decidable_of_iff (t = u ∧ ts = us) (by simp)
end

instance : DecidableEq (Tree κ) := decEq

end

end Tree
end RouterShift.Grammar
