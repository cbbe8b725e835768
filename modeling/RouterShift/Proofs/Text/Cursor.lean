import RouterShift.Proofs.Text.Cut
import RouterShift.Text.Cursor

/-! Moving a cursor, in terms of the text in front of it: what is skipped or taken is the beginning
    of the rest, and the place moves by the bytes of it. -/

namespace RouterShift.Text

/-- A text does not go on with a character of a class. -/
def StopsBefore (keep : Char → Bool) (cs : List Char) : Prop := ∀ c ∈ cs.head?, keep c = false

theorem takeWhile_append_of_stopsBefore {keep : Char → Bool} {b : List Char}
    (hb : StopsBefore keep b) : ∀ {a : List Char}, (∀ c ∈ a, keep c = true) →
      (a ++ b).takeWhile keep = a ∧ (a ++ b).dropWhile keep = b
  | [], _ => by
    cases b with
    | nil => exact ⟨rfl, rfl⟩
    | cons c b =>
      have hc := hb c rfl
      simp [hc]
  | c :: a, h => by
    have hc := h c List.mem_cons_self
    obtain ⟨h1, h2⟩ := takeWhile_append_of_stopsBefore hb fun x hx => h x (.tail c hx)
    simp [hc, h1, h2]

theorem stopsBefore_dropWhile (keep : Char → Bool) : ∀ cs : List Char,
    StopsBefore keep (cs.dropWhile keep)
  | [] => by intro c hc; cases hc
  | c :: cs => by
    rw [List.dropWhile_cons]
    split
    · exact stopsBefore_dropWhile keep cs
    · next h =>
      rintro d ⟨⟩
      exact Bool.eq_false_iff.2 h

/-- A text that goes on with a character outside of a class stops before it. -/
theorem stopsBefore_cons {keep : Char → Bool} {c : Char} {cs : List Char} (h : keep c = false) :
    StopsBefore keep (c :: cs) := by
  rintro d ⟨⟩
  exact h

theorem dropWhile_of_stopsBefore {keep : Char → Bool} {cs : List Char} (h : StopsBefore keep cs) :
    cs.dropWhile keep = cs :=
  (takeWhile_append_of_stopsBefore h (List.forall_mem_nil _)).2

/-- Where a run of one class ends that a text of another class begins. -/
theorem stopsBefore_append {keep : Char → Bool} {a b : List Char} (ha : ∀ c ∈ a, keep c = false)
    (hb : StopsBefore keep b) : StopsBefore keep (a ++ b) := by
  cases a with
  | nil => exact hb
  | cons c a => exact stopsBefore_cons (ha c List.mem_cons_self)

theorem takeWhile_ne_append {c : Char} {cs : List Char} (rest : List Char) (h : c ∉ cs) :
    (cs ++ c :: rest).takeWhile (· != c) = cs := by
  refine (takeWhile_append_of_stopsBefore (stopsBefore_cons ?_) fun d hd => ?_).1
  · simp
  · rw [bne_iff_ne]
    rintro rfl
    exact h hd

/-- Of a text without blanks at its ends, blanks in front of it are all that is trimmed. -/
theorem trim_append {isBlank : Char → Bool} {blanks cs : List Char}
    (hblanks : ∀ c ∈ blanks, isBlank c = true) (hstart : StopsBefore isBlank cs)
    (hstop : StopsBefore isBlank cs.reverse) : trim isBlank (blanks ++ cs) = cs := by
  rw [trim, (takeWhile_append_of_stopsBefore hstart hblanks).2, dropWhile_of_stopsBefore hstop,
    List.reverse_reverse]

namespace Cursor

theorem skip_append (pos : Nat) (a b : List Char) :
    (Cursor.mk pos (a ++ b)).skip a.length = ⟨pos + byteLength a, b⟩ := by
  rw [skip, List.take_left, List.drop_left]

theorem skip_one (pos : Nat) (c : Char) (cs : List Char) :
    (Cursor.mk pos (c :: cs)).skip 1 = ⟨pos + c.utf8Size, cs⟩ := by
  simp [skip, byteLength]

theorem take_append {keep : Char → Bool} {a b : List Char} (pos : Nat)
    (ha : ∀ c ∈ a, keep c = true) (hb : StopsBefore keep b) :
    (Cursor.mk pos (a ++ b)).take keep = (a, ⟨pos + byteLength a, b⟩) := by
  obtain ⟨h1, h2⟩ := takeWhile_append_of_stopsBefore hb ha
  simp only [take, h1, h2]

theorem skipWhile_append {keep : Char → Bool} {a b : List Char} (pos : Nat)
    (ha : ∀ c ∈ a, keep c = true) (hb : StopsBefore keep b) :
    (Cursor.mk pos (a ++ b)).skipWhile keep = ⟨pos + byteLength a, b⟩ := by
  rw [skipWhile, take_append pos ha hb]

/-- Skipping a class goes over one character of it after the other. -/
theorem skipWhile_cons {keep : Char → Bool} (pos : Nat) {c : Char} (cs : List Char)
    (hc : keep c = true) :
    (Cursor.mk pos (c :: cs)).skipWhile keep = (Cursor.mk (pos + c.utf8Size) cs).skipWhile keep := by
  simp only [skipWhile, take, List.takeWhile_cons, List.dropWhile_cons, hc, if_true, byteLength,
    Nat.add_assoc]

theorem skipWhile_of_stopsBefore {keep : Char → Bool} {s : Cursor}
    (h : StopsBefore keep s.rest) : s.skipWhile keep = s := by
  obtain ⟨pos, rest⟩ := s
  exact skipWhile_append (a := []) pos (by simp) h

/-- What `take` takes, and what it stops at. -/
theorem exists_take (keep : Char → Bool) (s : Cursor) : ∃ a b : List Char,
    s.rest = a ++ b ∧ (∀ c ∈ a, keep c = true) ∧ StopsBefore keep b ∧
      s.take keep = (a, ⟨s.pos + byteLength a, b⟩) := by
  refine ⟨s.rest.takeWhile keep, s.rest.dropWhile keep, List.takeWhile_append_dropWhile.symm,
    ?_, stopsBefore_dropWhile keep s.rest, rfl⟩
  intro c hc
  exact List.all_eq_true.1 List.all_takeWhile c hc

theorem exists_skipWhile (keep : Char → Bool) (s : Cursor) : ∃ a b : List Char,
    s.rest = a ++ b ∧ (∀ c ∈ a, keep c = true) ∧ StopsBefore keep b ∧
      s.skipWhile keep = ⟨s.pos + byteLength a, b⟩ := by
  obtain ⟨a, b, hs, ha, hb, ht⟩ := exists_take keep s
  exact ⟨a, b, hs, ha, hb, by rw [skipWhile, ht]⟩

theorem past?_eq_some {s t : Cursor} {pattern : List Char} :
    s.past? pattern = some t ↔ ∃ front,
      cutFirst? pattern s.rest = some (front, t.rest) ∧
        t.pos = s.pos + byteLength (front ++ pattern) := by
  simp only [past?, Option.map_eq_some_iff, Prod.exists, byteLength_append, ← Nat.add_assoc]
  constructor
  · rintro ⟨front, rest, h, rfl⟩
    exact ⟨front, h, rfl⟩
  · rintro ⟨front, h, hpos⟩
    exact ⟨front, t.rest, h, by rw [← hpos]⟩

end Cursor
end RouterShift.Text
