import RouterShift.Json.Value

/-! Reading JSON. Every piece takes at least one character, so the readers below go by what is left
    of the text. Blanks are space, tab, line feed and carriage return; nothing may follow the value. -/

namespace RouterShift.Json

/-- Something read, and what is left of the text, fewer than `n` characters. -/
structure Taken (n : Nat) (α : Type) where
  value : α
  rest : List Char
  short : rest.length < n

def isBlank (c : Char) : Bool := c == ' ' || c == '\n' || c == '\t' || c == '\r'

def skipBlanks (cs : List Char) : List Char := cs.dropWhile isBlank

theorem length_skipBlanks_le (cs : List Char) : (skipBlanks cs).length ≤ cs.length :=
  (List.dropWhile_sublist isBlank).length_le

/-! ### Strings -/

/-- A piece of a string: a character as it stands, or a 16-bit unit written as an escape. -/
inductive Piece
  | char (c : Char)
  | unit (n : Nat)
  deriving Repr, DecidableEq

def hexValue? (c : Char) : Option Nat :=
  if '0' ≤ c && c ≤ '9' then some (c.toNat - '0'.toNat)
  else if 'a' ≤ c && c ≤ 'f' then some (c.toNat - 'a'.toNat + 10)
  else if 'A' ≤ c && c ≤ 'F' then some (c.toNat - 'A'.toNat + 10)
  else none

def hexUnit? (a b c d : Char) : Option Nat := do
  let high := (← hexValue? a) * 16 + (← hexValue? b)
  return (high * 16 + (← hexValue? c)) * 16 + (← hexValue? d)

/-- The character that a one-letter escape stands for. -/
def escaped? : Char → Option Char
  | '"' => some '"'
  | '\\' => some '\\'
  | '/' => some '/'
  | 'b' => some '\x08'
  | 'f' => some '\x0c'
  | 'n' => some '\n'
  | 'r' => some '\r'
  | 't' => some '\t'
  | _ => none

/-- The pieces up to the closing quote, and what follows it. Control characters must be escaped. -/
def pieces? : List Char → Option (List Piece × List Char)
  | [] => none
  | '"' :: cs => some ([], cs)
  | '\\' :: 'u' :: a :: b :: c :: d :: cs => do
    let n ← hexUnit? a b c d
    let (more, rest) ← pieces? cs
    return (.unit n :: more, rest)
  | '\\' :: e :: cs => do
    let c ← escaped? e
    let (more, rest) ← pieces? cs
    return (.char c :: more, rest)
  | c :: cs =>
    if c.toNat < 0x20 || c = '\\' then none
    else do
      let (more, rest) ← pieces? cs
      return (.char c :: more, rest)

/-- The characters of the pieces; escaped surrogates count only in pairs. -/
def join? : List Piece → Option (List Char)
  | [] => some []
  | .char c :: rest => (join? rest).map (c :: ·)
  | .unit n :: rest =>
    if 0xD800 ≤ n && n < 0xDC00 then
      match rest with
      | .unit m :: more =>
        if 0xDC00 ≤ m && m < 0xE000 then
          (join? more).map (Char.ofNat (0x10000 + (n - 0xD800) * 0x400 + (m - 0xDC00)) :: ·)
        else none
      | _ => none
    else if 0xDC00 ≤ n && n < 0xE000 then none
    else (join? rest).map (Char.ofNat n :: ·)

theorem length_pieces? {cs rest : List Char} {ps : List Piece} (h : pieces? cs = some (ps, rest)) :
    rest.length < cs.length := by
  fun_induction pieces? cs generalizing ps rest with
  | case1 => cases h
  | case2 cs => cases h; simp
  | case3 a b c d cs ih =>
    simp only [bind, Option.bind_eq_some_iff] at h
    obtain ⟨n, _, ⟨more, r⟩, hm, hr⟩ := h
    cases hr
    have := ih hm
    simp; omega
  | case4 e cs _ ih =>
    simp only [bind, Option.bind_eq_some_iff] at h
    obtain ⟨n, _, ⟨more, r⟩, hm, hr⟩ := h
    cases hr
    have := ih hm
    simp; omega
  | case5 => cases h
  | case6 c cs _ _ _ _ ih =>
    simp only [bind, Option.bind_eq_some_iff] at h
    obtain ⟨⟨more, r⟩, hm, hr⟩ := h
    cases hr
    have := ih hm
    simp; omega

/-! ### Numbers -/

/-- Digits, at least one, and what follows them. -/
def digits? (cs : List Char) : Option (List Char × List Char) :=
  let digits := cs.takeWhile Text.isDigit
  if digits.isEmpty then none else some (digits, cs.dropWhile Text.isDigit)

/-- The digits before a point; a zero in front of others is an error. -/
def whole? (cs : List Char) : Option (List Char × List Char) :=
  (digits? cs).filter fun (digits, _) => !(digits.length > 1 && digits.head? = some '0')

/-- The digits behind a point, if there is one; a point alone is an error. -/
def fraction? : List Char → Option (Option (List Char) × List Char)
  | '.' :: cs => (digits? cs).map fun (digits, rest) => (some digits, rest)
  | cs => some (none, cs)

/-- The exponent, if there is one: whether it is negative, and its digits. -/
def exponent? : List Char → Option (Option (Bool × List Char) × List Char)
  | c :: cs =>
    if c = 'e' || c = 'E' then
      let (minus, more) :=
        match cs with
        | '-' :: more => (true, more)
        | '+' :: more => (false, more)
        | more => (false, more)
      (digits? more).map fun (digits, rest) => (some (minus, digits), rest)
    else some (none, c :: cs)
  | [] => some (none, [])

/-- A number, behind its minus sign if it has one, and what follows it. -/
def number? (negative : Bool) (cs : List Char) : Option (Value × List Char) := do
  let (whole, rest) ← whole? cs
  let (fraction, rest) ← fraction? rest
  let (exponent, rest) ← exponent? rest
  let value := (Number.ofDigits? negative whole fraction exponent).map Value.number
  return (value.getD .illFormed, rest)

theorem length_digits? {cs ds rest : List Char} (h : digits? cs = some (ds, rest)) :
    rest.length < cs.length := by
  simp only [digits?] at h
  split at h
  · cases h
  · rename_i hd
    cases h
    have h1 : cs.length =
        (cs.takeWhile Text.isDigit).length + (cs.dropWhile Text.isDigit).length := by
      rw [← List.length_append, List.takeWhile_append_dropWhile]
    have h2 : 0 < (cs.takeWhile Text.isDigit).length := by
      rw [List.length_pos_iff]; simpa using hd
    omega

theorem length_fraction? {cs rest : List Char} {f : Option (List Char)}
    (h : fraction? cs = some (f, rest)) : rest.length ≤ cs.length := by
  unfold fraction? at h
  split at h
  · simp only [Option.map_eq_some_iff, Prod.exists, Prod.mk.injEq] at h
    obtain ⟨a, b, hab, _, rfl⟩ := h
    have := length_digits? hab
    simp; omega
  · cases h; simp

theorem length_exponent? {cs rest : List Char} {e : Option (Bool × List Char)}
    (h : exponent? cs = some (e, rest)) : rest.length ≤ cs.length := by
  unfold exponent? at h
  split at h
  · split at h
    · simp only [Option.map_eq_some_iff, Prod.exists, Prod.mk.injEq] at h
      obtain ⟨a, b, hab, _, rfl⟩ := h
      have h1 := length_digits? hab
      revert h1
      split <;> simp <;> omega
    · cases h; simp
  · cases h; simp

theorem length_number? {negative : Bool} {cs rest : List Char} {v : Value}
    (h : number? negative cs = some (v, rest)) : rest.length < cs.length := by
  simp only [number?, whole?, bind, Option.bind_eq_some_iff, Option.filter_eq_some_iff] at h
  obtain ⟨⟨whole, r1⟩, ⟨h1, _⟩, ⟨fr, r2⟩, h2, ⟨ex, r3⟩, h3, h⟩ := h
  have l1 := length_digits? h1
  have l2 := length_fraction? h2
  have l3 := length_exponent? h3
  cases h
  simp only at *
  omega

/-! ### Values -/

mutual
/-- The value at the start of a text, blanks passed over. -/
def readValue (cs : List Char) : Option (Taken cs.length Value) :=
  match h : skipBlanks cs with
  | [] => none
  | c :: rest =>
    have hlen : rest.length < cs.length := by
      have := length_skipBlanks_le cs; rw [h, List.length_cons] at this; omega
    if c = '"' then
      match hp : pieces? rest with
      | none => none
      | some (pieces, more) =>
        let v := match join? pieces with
          | some s => Value.string (String.ofList s)
          | none => .illFormed
        some ⟨v, more, by have := length_pieces? hp; omega⟩
    else if c = '[' then
      match hb : skipBlanks rest with
      | ']' :: more => some ⟨.array [], more, by
          have := length_skipBlanks_le rest; rw [hb] at this; simp at this; omega⟩
      | _ =>
        match readItems rest with
        | none => none
        | some items => some ⟨.array items.value, items.rest, by have := items.short; omega⟩
    else if c = '\x7b' then
      match hb : skipBlanks rest with
      | '\x7d' :: more => some ⟨.object [], more, by
          have := length_skipBlanks_le rest; rw [hb] at this; simp at this; omega⟩
      | _ =>
        match readFields rest with
        | none => none
        | some fields =>
          let v := if fields.value.2 then Value.object fields.value.1 else .illFormed
          some ⟨v, fields.rest, by have := fields.short; omega⟩
    else if c = '-' then
      match hn : number? true rest with
      | none => none
      | some (v, more) => some ⟨v, more, by have := length_number? hn; omega⟩
    else if Text.isDigit c then
      match hn : number? false (c :: rest) with
      | none => none
      | some (v, more) => some ⟨v, more, by have := length_number? hn; simp at this; omega⟩
    else if ['n', 'u', 'l', 'l'].isPrefixOf (c :: rest) then
      some ⟨.null, rest.drop 3, by simp; omega⟩
    else if ['t', 'r', 'u', 'e'].isPrefixOf (c :: rest) then
      some ⟨.bool true, rest.drop 3, by simp; omega⟩
    else if ['f', 'a', 'l', 's', 'e'].isPrefixOf (c :: rest) then
      some ⟨.bool false, rest.drop 4, by simp; omega⟩
    else none
termination_by (cs.length, 0)

/-- The items of an array, at least one, up to and with its bracket. -/
def readItems (cs : List Char) : Option (Taken cs.length (List Value)) :=
  match readValue cs with
  | none => none
  | some first =>
    have hfirst := first.short
    match hb : skipBlanks first.rest with
    | ']' :: more => some ⟨[first.value], more, by
        have := length_skipBlanks_le first.rest; rw [hb] at this; simp at this; omega⟩
    | ',' :: more =>
      have hmore : more.length < cs.length := by
        have := length_skipBlanks_le first.rest; rw [hb] at this; simp at this; omega
      match readItems more with
      | none => none
      | some items => some ⟨first.value :: items.value, items.rest, by have := items.short; omega⟩
    | _ => none
termination_by (cs.length, 1)

/-- The fields of an object, at least one, up to and with its brace, and whether all of their keys
    are texts. -/
def readFields (cs : List Char) : Option (Taken cs.length (Fields × Bool)) :=
  match hk : skipBlanks cs with
  | '"' :: keyStart =>
    have hkey : keyStart.length < cs.length := by
      have := length_skipBlanks_le cs; rw [hk] at this; simp at this; omega
    match hp : pieces? keyStart with
    | none => none
    | some (pieces, afterKey) =>
      have hafter : afterKey.length < cs.length := by have := length_pieces? hp; omega
      match hc : skipBlanks afterKey with
      | ':' :: valueStart =>
        have hvalue : valueStart.length < cs.length := by
          have := length_skipBlanks_le afterKey; rw [hc] at this; simp at this; omega
        match readValue valueStart with
        | none => none
        | some v =>
          have hv := v.short
          let field := (String.ofList ((join? pieces).getD []), v.value)
          let isText := (join? pieces).isSome
          match hb : skipBlanks v.rest with
          | '\x7d' :: more => some ⟨([field], isText), more, by
              have := length_skipBlanks_le v.rest; rw [hb] at this; simp at this; omega⟩
          | ',' :: more =>
            have hmore : more.length < cs.length := by
              have := length_skipBlanks_le v.rest; rw [hb] at this; simp at this; omega
            match readFields more with
            | none => none
            | some fields =>
              some ⟨(field :: fields.value.1, isText && fields.value.2), fields.rest, by
                have := fields.short; omega⟩
          | _ => none
      | _ => none
  | _ => none
termination_by (cs.length, 1)
end

/-- The value of a text that is JSON from its first character to its last, as it was written. -/
def read? (text : String) : Option Value :=
  match readValue text.toList with
  | some v => if (skipBlanks v.rest).isEmpty then some v.value else none
  | none => none

/-- The value of a text, everything in it proper and repeated keys settled. -/
def parse? (text : String) : Option Value :=
  (read? text).bind fun v => if v.isProper Value.depthLimit then some v.settle else none

end RouterShift.Json
