import Mathlib.Data.List.TakeWhile
import RouterShift.Proofs.Text.Cursor

/-! Texts taken apart at separators. The pieces between separators are those the text was put
    together from, if no separator stands in them; its words do not depend on how many blanks stand
    between and around them, so trimming leaves them as they are. -/

namespace RouterShift.Text

variable {p : Char → Bool} {a b cs blanks word : List Char}

/-! ### Pieces between separators -/

theorem splitAt_eq_splitOnP : ∀ cs : List Char, splitAt p cs = cs.splitOnP p
  | [] => by rw [splitAt, List.splitOnP_nil]
  | c :: cs => by
    rw [splitAt, splitAt_eq_splitOnP cs, List.splitOnP_cons_eq_if_modifyHead]
    split
    · rfl
    · cases hpieces : cs.splitOnP p with
      | nil => exact absurd hpieces (List.splitOnP_ne_nil p cs)
      | cons piece pieces => rfl

theorem splitAt_ne_nil (cs : List Char) : splitAt p cs ≠ [] := by
  rw [splitAt_eq_splitOnP]
  exact List.splitOnP_ne_nil p cs

theorem splitAt_append {c : Char} (hc : p c = true) (a b : List Char) :
    splitAt p (a ++ c :: b) = splitAt p a ++ splitAt p b := by
  simp only [splitAt_eq_splitOnP, List.splitOnP_append_cons a b hc]

/-- No piece has a separator in it. -/
theorem of_mem_splitAt {piece : List Char} (h : piece ∈ splitAt p cs) : ∀ c ∈ piece, p c = false := by
  induction cs generalizing piece with
  | nil =>
    obtain rfl := List.mem_singleton.1 h
    simp
  | cons c cs ih =>
    rw [splitAt] at h
    split at h
    · rcases List.mem_cons.1 h with rfl | h
      · simp
      · exact ih h
    · next hc =>
      split at h
      · obtain rfl := List.mem_singleton.1 h
        simpa using hc
      · next first rest hpieces =>
        rcases List.mem_cons.1 h with rfl | h
        · intro x hx
          rcases List.mem_cons.1 hx with rfl | hx
          · simpa using hc
          · exact ih (hpieces ▸ List.mem_cons_self) x hx
        · exact ih (hpieces ▸ List.mem_cons_of_mem _ h)

theorem splitAt_intercalate {c : Char} {pieces : List (List Char)} (hne : pieces ≠ [])
    (h : ∀ piece ∈ pieces, c ∉ piece) :
    splitAt (· == c) (List.intercalate [c] pieces) = pieces := by
  rw [splitAt_eq_splitOnP, ← List.splitOn_eq_splitOnP]
  exact List.splitOn_intercalate c h hne

/-- Pieces put together again are the text. -/
theorem intercalate_splitAt (c : Char) (cs : List Char) :
    List.intercalate [c] (splitAt (· == c) cs) = cs := by
  rw [splitAt_eq_splitOnP, ← List.splitOn_eq_splitOnP]
  exact List.intercalate_splitOn c

theorem splitAt_of_forall (h : ∀ c ∈ cs, p c = false) : splitAt p cs = [cs] := by
  rw [splitAt_eq_splitOnP]
  exact List.splitOnP_eq_singleton h

/-! ### Words -/

theorem words_append {c : Char} (hc : p c = true) (a b : List Char) :
    words p (a ++ c :: b) = words p a ++ words p b := by
  rw [words, splitAt_append hc, List.filter_append]
  rfl

theorem words_cons {c : Char} (hc : p c = true) (cs : List Char) : words p (c :: cs) = words p cs :=
  words_append hc [] cs

theorem words_blanks_append (h : ∀ c ∈ blanks, p c = true) (cs : List Char) :
    words p (blanks ++ cs) = words p cs := by
  induction blanks with
  | nil => rfl
  | cons c blanks ih =>
    rw [List.cons_append, words_cons (h c List.mem_cons_self)]
    exact ih fun x hx => h x (List.mem_cons_of_mem c hx)

theorem words_append_blanks (h : ∀ c ∈ blanks, p c = true) (cs : List Char) :
    words p (cs ++ blanks) = words p cs := by
  cases blanks with
  | nil => rw [List.append_nil]
  | cons c blanks =>
    have hrest := words_blanks_append (fun x hx => h x (List.mem_cons_of_mem c hx)) []
    rw [List.append_nil] at hrest
    rw [words_append (h c List.mem_cons_self), hrest]
    exact List.append_nil _

theorem words_of_forall (hne : word ≠ []) (h : ∀ c ∈ word, p c = false) : words p word = [word] := by
  rw [words, splitAt_of_forall h]
  exact List.filter_cons_of_pos (by simpa using hne)

/-- A word, and what comes behind it, if that starts with a blank. -/
theorem words_word_append {rest : List Char} (hne : word ≠ []) (h : ∀ c ∈ word, p c = false)
    (hrest : ∀ c ∈ rest.head?, p c = true) : words p (word ++ rest) = word :: words p rest := by
  cases rest with
  | nil =>
    rw [List.append_nil, words_of_forall hne h]
    rfl
  | cons c rest =>
    have hc := hrest c rfl
    rw [words_append hc, words_of_forall hne h, words_cons hc]
    rfl

/-! ### Trimming -/

theorem exists_trim (isBlank : Char → Bool) (cs : List Char) :
    ∃ a b, cs = a ++ (trim isBlank cs ++ b) ∧ (∀ c ∈ a, isBlank c = true) ∧
      ∀ c ∈ b, isBlank c = true := by
  refine ⟨cs.takeWhile isBlank, ((cs.dropWhile isBlank).reverse.takeWhile isBlank).reverse, ?_, ?_, ?_⟩
  · rw [trim, ← List.reverse_append, List.takeWhile_append_dropWhile, List.reverse_reverse,
      List.takeWhile_append_dropWhile]
  · exact fun c hc => List.all_eq_true.1 List.all_takeWhile c hc
  · exact fun c hc => List.all_eq_true.1 List.all_takeWhile c (List.mem_reverse.1 hc)

theorem trim_of_forall (h : ∀ c ∈ cs, p c = false) : trim p cs = cs := by
  refine trim_append (List.forall_mem_nil _) (fun c hc => ?_) fun c hc => ?_
  · exact h c (List.mem_of_mem_head? hc)
  · exact h c (List.mem_reverse.1 (List.mem_of_mem_head? hc))

theorem trim_blanks_append (h : ∀ c ∈ blanks, p c = true) (cs : List Char) :
    trim p (blanks ++ cs) = trim p cs := by
  rw [trim, List.dropWhile_append_of_pos h, ← trim]

theorem trim_append_blanks (h : ∀ c ∈ blanks, p c = true) (cs : List Char) :
    trim p (cs ++ blanks) = trim p cs := by
  have hreverse : ∀ c ∈ blanks.reverse, p c = true := fun c hc => h c (List.mem_reverse.1 hc)
  rw [trim, List.dropWhile_append, trim]
  split
  · next hcs =>
    have hblanks : blanks.dropWhile p = [] := List.dropWhile_eq_nil_iff.2 h
    rw [List.isEmpty_iff.1 hcs, hblanks]
  · rw [List.reverse_append, List.dropWhile_append_of_pos hreverse]

theorem words_trim (cs : List Char) : words p (trim p cs) = words p cs := by
  obtain ⟨a, b, hcs, ha, hb⟩ := exists_trim p cs
  have hwords := congrArg (words p) hcs
  rw [words_blanks_append ha, words_append_blanks hb] at hwords
  exact hwords.symm

/-- What is no blank is not trimmed, and nothing comes in. -/
theorem mem_trim {c : Char} (hc : p c = false) : c ∈ trim p cs ↔ c ∈ cs := by
  obtain ⟨a, b, hcs, ha, hb⟩ := exists_trim p cs
  have hnot (blanks : List Char) (h : ∀ c ∈ blanks, p c = true) : c ∉ blanks := by
    intro hmem
    rw [h c hmem] at hc
    cases hc
  have hmem : c ∈ cs ↔ c ∈ a ++ (trim p cs ++ b) := by rw [← hcs]
  rw [hmem, List.mem_append, List.mem_append, or_iff_right (hnot a ha), or_iff_left (hnot b hb)]

/-! ### Separators of several characters -/

/-- Where the first character of a pattern does not stand before it, it stands for the first
    time. -/
theorem cutFirst?_append_of_notMem {c : Char} {more front : List Char} (h : c ∉ front)
    (rest : List Char) : cutFirst? (c :: more) (front ++ c :: more ++ rest) = some (front, rest) := by
  rw [cutFirst?_append, cutFirst?_self_iff]
  rintro a b rfl hb hstart
  obtain ⟨d, b, rfl⟩ := List.exists_cons_of_ne_nil hb
  obtain ⟨rest, hrest⟩ := hstart
  obtain rfl : c = d := (List.cons.inj hrest).1
  exact h (by simp)

theorem cutFirst?_eq_none_of_notMem {c : Char} {pattern : List Char} (hc : c ∈ pattern)
    (h : c ∉ cs) : cutFirst? pattern cs = none :=
  cutFirst?_eq_none.2 fun hin => h (hin.subset hc)

theorem splitOn_of_notMem {c : Char} {pattern : List Char} (hc : c ∈ pattern) (h : c ∉ cs) :
    splitOn pattern cs = [cs] := by
  rw [splitOn]
  split
  · rfl
  · next hcut =>
    rw [cutFirst?_eq_none_of_notMem hc h] at hcut
    cases hcut

theorem splitOn_append {c : Char} {more : List Char} (h : c ∉ a) :
    splitOn (c :: more) (a ++ c :: more ++ b) = a :: splitOn (c :: more) b := by
  rw [splitOn]
  split
  · next hcut =>
    rw [cutFirst?_append_of_notMem h] at hcut
    cases hcut
  · next hcut =>
    rw [cutFirst?_append_of_notMem h] at hcut
    cases hcut
    rw [dif_neg (List.cons_ne_nil c more)]

theorem splitOn_intercalate {c : Char} {more : List Char} {pieces : List (List Char)}
    (hne : pieces ≠ []) (h : ∀ piece ∈ pieces, c ∉ piece) :
    splitOn (c :: more) (List.intercalate (c :: more) pieces) = pieces := by
  induction pieces with
  | nil => exact absurd rfl hne
  | cons piece pieces ih =>
    have hpiece := h piece List.mem_cons_self
    cases pieces with
    | nil =>
      rw [List.intercalate_singleton]
      exact splitOn_of_notMem List.mem_cons_self hpiece
    | cons next pieces =>
      rw [List.intercalate_cons_cons, splitOn_append hpiece,
        ih (List.cons_ne_nil _ _) fun x hx => h x (List.mem_cons_of_mem _ hx)]

end RouterShift.Text
