import RouterShift.Text.Cut

/-! A place in a text: the byte offset, and what is still to be read from there. Whatever a reader
    takes, it takes whole characters, so every offset it passes lies between two characters. -/

namespace RouterShift.Text

/-- The byte offset of a place and the characters from there on. -/
structure Cursor where
  pos : Nat
  rest : List Char
  deriving Repr, DecidableEq

namespace Cursor

def ofString (s : String) : Cursor := ⟨0, s.toList⟩

def peek (s : Cursor) : Option Char := s.rest.head?

/-- `n` characters further, or at the end. -/
def skip (s : Cursor) (n : Nat) : Cursor := ⟨s.pos + byteLength (s.rest.take n), s.rest.drop n⟩

/-- The characters as long as they are of a class, and the place after them. -/
def take (s : Cursor) (keep : Char → Bool) : List Char × Cursor :=
  let taken := s.rest.takeWhile keep
  (taken, ⟨s.pos + byteLength taken, s.rest.dropWhile keep⟩)

/-- The place after the characters of a class. -/
def skipWhile (s : Cursor) (keep : Char → Bool) : Cursor := (s.take keep).2

/-- The place just after the next occurrence of a pattern. -/
def past? (s : Cursor) (pattern : List Char) : Option Cursor :=
  (cutFirst? pattern s.rest).map fun (front, rest) =>
    ⟨s.pos + byteLength front + byteLength pattern, rest⟩

theorem length_skip (s : Cursor) (n : Nat) : (s.skip n).rest.length = s.rest.length - n := by
  simp [skip]

theorem length_take_le (s : Cursor) (p : Char → Bool) :
    (s.take p).2.rest.length ≤ s.rest.length :=
  (List.dropWhile_sublist p).length_le

theorem length_skipWhile_le (s : Cursor) (p : Char → Bool) :
    (s.skipWhile p).rest.length ≤ s.rest.length := length_take_le s p

theorem length_add_take (s : Cursor) (p : Char → Bool) :
    (s.take p).1.length + (s.take p).2.rest.length = s.rest.length := by
  simp only [take]
  rw [← List.length_append, List.takeWhile_append_dropWhile]

theorem length_past? {s t : Cursor} {pattern : List Char} (h : s.past? pattern = some t) :
    t.rest.length + pattern.length ≤ s.rest.length := by
  simp only [past?, Option.map_eq_some_iff] at h
  obtain ⟨⟨front, rest⟩, hcut, rfl⟩ := h
  have := length_of_cutFirst? hcut
  simp only
  omega

end Cursor

/-- Something read, and the place after it, with fewer than `n` characters to go. -/
structure Read (n : Nat) (α : Type) where
  value : α
  next : Cursor
  short : next.rest.length < n

end RouterShift.Text
