import RouterShift.Proofs.Edit.Batch

/-! A text cut into pieces that stay and pieces that are replaced. A batch that is led by the
    replacements of the pieces makes of the text what the pieces say, so what a batch does can be
    read off the pieces, without spans. -/

namespace RouterShift.Edit
open Text

/-- A part of a text that stays as it is, or one that something else takes the place of. -/
inductive Piece
  | keep (cs : List Char)
  | swap (old new : List Char)

def Piece.before : Piece → List Char
  | keep cs => cs
  | swap old _ => old

def Piece.after : Piece → List Char
  | keep cs => cs
  | swap _ new => new

/-- The text the pieces are cut from. -/
def before (ps : List Piece) : List Char := ps.flatMap Piece.before

/-- The text once all pieces are replaced. -/
def after (ps : List Piece) : List Char := ps.flatMap Piece.after

/-- The replacements of pieces that start at `pos`. -/
def edits (pos : Nat) : List Piece → List Replacement
  | [] => []
  | .keep cs :: ps => edits (pos + byteLength cs) ps
  | .swap old new :: ps =>
    ⟨⟨pos, pos + byteLength old⟩, String.ofList new⟩ :: edits (pos + byteLength old) ps

@[simp] theorem Piece.before_keep (cs : List Char) : (keep cs).before = cs := rfl

@[simp] theorem Piece.before_swap (old new : List Char) : (swap old new).before = old := rfl

@[simp] theorem Piece.after_keep (cs : List Char) : (keep cs).after = cs := rfl

@[simp] theorem Piece.after_swap (old new : List Char) : (swap old new).after = new := rfl

@[simp] theorem before_nil : before [] = [] := rfl

@[simp] theorem after_nil : after [] = [] := rfl

@[simp] theorem before_cons (p : Piece) (ps : List Piece) :
    before (p :: ps) = p.before ++ before ps := rfl

@[simp] theorem after_cons (p : Piece) (ps : List Piece) :
    after (p :: ps) = p.after ++ after ps := rfl

@[simp] theorem before_append (ps qs : List Piece) : before (ps ++ qs) = before ps ++ before qs :=
  List.flatMap_append

@[simp] theorem after_append (ps qs : List Piece) : after (ps ++ qs) = after ps ++ after qs :=
  List.flatMap_append

theorem edits_append : ∀ (pos : Nat) (ps qs : List Piece),
    edits pos (ps ++ qs) = edits pos ps ++ edits (pos + byteLength (before ps)) qs
  | pos, [], qs => rfl
  | pos, .keep cs :: ps, qs => by
    rw [List.cons_append, edits, edits, edits_append, before_cons, byteLength_append, Nat.add_assoc]
    rfl
  | pos, .swap old new :: ps, qs => by
    rw [List.cons_append, edits, edits, edits_append, before_cons, byteLength_append, Nat.add_assoc]
    rfl

/-- The spans of the pieces lie within them. -/
theorem edits_within : ∀ {ps : List Piece} {pos : Nat} {e : Replacement}, e ∈ edits pos ps →
    pos ≤ e.range.start ∧ e.range.start ≤ e.range.stop ∧
      e.range.stop ≤ pos + byteLength (before ps)
  | [], _, _, h => by cases h
  | .keep cs :: ps, pos, e, h => by
    obtain ⟨h1, h2, h3⟩ := @edits_within ps (pos + byteLength cs) e h
    rw [before_cons, byteLength_append, Piece.before]
    omega
  | .swap old new :: ps, pos, e, h => by
    rw [before_cons, byteLength_append, Piece.before]
    rcases List.mem_cons.1 h with rfl | h
    · exact ⟨Nat.le_refl _, Nat.le_add_right _ _, by simp only; omega⟩
    · obtain ⟨h1, h2, h3⟩ := edits_within h
      omega

theorem edits_addressable {back : List Char} : ∀ {ps : List Piece} {front : List Char}
    {e : Replacement}, e ∈ edits (byteLength front) ps →
      Addressable (front ++ (before ps ++ back)) e.range
  | [], _, _, h => by cases h
  | .keep cs :: ps, front, e, h => by
    rw [edits, ← byteLength_append] at h
    rw [before_cons, List.append_assoc, ← List.append_assoc]
    exact edits_addressable h
  | .swap old new :: ps, front, e, h => by
    rw [edits, ← byteLength_append] at h
    rw [before_cons, List.append_assoc, ← List.append_assoc]
    rcases List.mem_cons.1 h with rfl | h
    · exact addressable_iff.2 ⟨front, old, before ps ++ back, rfl, rfl, (byteLength_append _ _).symm⟩
    · exact edits_addressable h

/-- One pass over the pieces, when `kept` is what was passed over without a replacement so far. -/
theorem pass_edits {cs back : List Char} : ∀ {ps : List Piece} {front kept : List Char} {i : Nat},
    cs = front ++ (before ps ++ back) → slice? cs i (byteLength front) = some kept →
      pass cs i (edits (byteLength front) ps) (byteLength front + byteLength (before ps)) =
        some (kept ++ after ps)
  | [], front, kept, i, _, hkept => by
    rw [after_nil, List.append_nil]
    exact hkept
  | .keep ks :: ps, front, kept, i, hcs, hkept => by
    have hcs' : cs = (front ++ ks) ++ (before ps ++ back) := by
      rw [hcs, before_cons, Piece.before]
      simp only [List.append_assoc]
    have hks : slice? cs (byteLength front) (byteLength (front ++ ks)) = some ks :=
      slice?_eq_some.2 ⟨front, before ps ++ back, hcs', rfl, (byteLength_append _ _).symm⟩
    have ih := pass_edits hcs' (slice?_trans hkept hks)
    rw [byteLength_append, Nat.add_assoc, ← byteLength_append ks, List.append_assoc] at ih
    exact ih
  | .swap old new :: ps, front, kept, i, hcs, hkept => by
    have hcs' : cs = (front ++ old) ++ (before ps ++ back) := by
      rw [hcs, before_cons, Piece.before]
      simp only [List.append_assoc]
    have hnil : slice? cs (byteLength (front ++ old)) (byteLength (front ++ old)) = some [] :=
      slice?_eq_some.2 ⟨front ++ old, before ps ++ back, by rw [List.append_nil]; exact hcs', rfl, rfl⟩
    have ih := pass_edits hcs' hnil
    rw [byteLength_append, Nat.add_assoc, ← byteLength_append old, List.nil_append] at ih
    have hstep := pass_cons (r := ⟨⟨byteLength front, byteLength front + byteLength old⟩,
      String.ofList new⟩) hkept ih
    rw [String.toList_ofList, List.append_assoc] at hstep
    exact hstep

/-- A batch that is led by the replacements of some pieces does what the pieces say. -/
theorem applyEdits_of_leads {text : String} {ps : List Piece} {rs : List Replacement}
    (htext : text.toList = before ps) (h : Leads rs (edits 0 ps))
    (hp : (edits 0 ps).Pairwise Follows) :
    (applyEdits text rs).map (·.text) = .ok (String.ofList (after ps)) := by
  have haddr : ∀ e ∈ edits 0 ps, Addressable text.toList e.range := by
    intro e he
    have := @edits_addressable [] ps [] e he
    rwa [List.append_nil, List.nil_append, ← htext] at this
  have hrs : ∀ r ∈ rs, Addressable text.toList r.range := by
    intro r hr
    obtain ⟨e, he, hrange⟩ := h.covers r hr
    exact hrange ▸ haddr e he
  have hmade := h.made_eq hp fun r hr => (hrs r hr).ordered
  have hpw : (made rs).Pairwise Apart := made_apart fun r hr => (hrs r hr).ordered
  have haddr' : ∀ r ∈ made rs, Addressable text.toList r.range := fun r hr =>
    hrs r (mem_of_mem_made hr)
  obtain ⟨-, out, hpass, hfold⟩ := foldl_splice_eq_pass (made rs) text.toList []
    (List.append_nil _).symm hpw haddr' (fun r hr => (haddr' r hr).inBounds) []
  have hpieces := @pass_edits text.toList [] ps [] [] 0 (by rw [htext]; simp)
    (slice?_eq_some.2 ⟨[], text.toList, rfl, rfl, rfl⟩)
  have hzero : byteLength [] = 0 := rfl
  rw [hzero, Nat.zero_add, ← htext] at hpieces
  rw [hmade, List.reverse_reverse, hpieces, Option.some.injEq] at hpass
  rw [applyEdits_eq hrs, hmade]
  rw [hmade, ← hpass, List.append_nil, List.append_nil, List.nil_append] at hfold
  simp only [Except.map, hfold]

end RouterShift.Edit
