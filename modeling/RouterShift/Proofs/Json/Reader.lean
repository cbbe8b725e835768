import RouterShift.Json.Reader

/-! The reader without its measure. The readers of values, items and fields return a proof that the
    text got shorter; without it they satisfy one equation each, and those equations are all that is
    used of them. -/

namespace RouterShift.Json

def Taken.pair {n : Nat} {α : Type} (t : Taken n α) : α × List Char := (t.value, t.rest)

/-- The value at the start of a text, and what is left. -/
def valueAt? (cs : List Char) : Option (Value × List Char) := (readValue cs).map Taken.pair

def itemsAt? (cs : List Char) : Option (List Value × List Char) := (readItems cs).map Taken.pair

def fieldsAt? (cs : List Char) : Option ((Fields × Bool) × List Char) :=
  (readFields cs).map Taken.pair

/-- The string that pieces spell. -/
def stringOf (pieces : List Piece) : Value :=
  match join? pieces with
  | some s => .string (String.ofList s)
  | none => .illFormed

theorem valueAt?_eq (cs : List Char) : valueAt? cs =
    match skipBlanks cs with
    | [] => none
    | c :: rest =>
      if c = '"' then (pieces? rest).map fun (pieces, more) => (stringOf pieces, more)
      else if c = '[' then
        match skipBlanks rest with
        | ']' :: more => some (.array [], more)
        | _ => (itemsAt? rest).map fun (items, more) => (.array items, more)
      else if c = '\x7b' then
        match skipBlanks rest with
        | '\x7d' :: more => some (.object [], more)
        | _ => (fieldsAt? rest).map fun (fields, more) =>
          (if fields.2 then .object fields.1 else .illFormed, more)
      else if c = '-' then number? true rest
      else if Text.isDigit c then number? false (c :: rest)
      else if ['n', 'u', 'l', 'l'].isPrefixOf (c :: rest) then some (.null, rest.drop 3)
      else if ['t', 'r', 'u', 'e'].isPrefixOf (c :: rest) then some (.bool true, rest.drop 3)
      else if ['f', 'a', 'l', 's', 'e'].isPrefixOf (c :: rest) then some (.bool false, rest.drop 4)
      else none := by
  rw [valueAt?, readValue]
  split
  · rename_i h
    simp [h]
  · rename_i c rest h
    simp only [h]
    by_cases hquote : c = '"'
    · simp only [if_pos hquote]
      split
      · rename_i hp
        simp [hp]
      · rename_i hp
        simp only [hp]
        rfl
    simp only [if_neg hquote]
    by_cases hbracket : c = '['
    · simp only [if_pos hbracket]
      split
      · rename_i hb
        simp [hb, Taken.pair]
      · rename_i hb
        rw [itemsAt?]
        split
        · rename_i hi
          split
          · rename_i hb'
            exact absurd hb' (hb _)
          · simp [hi]
        · rename_i hi
          split
          · rename_i hb'
            exact absurd hb' (hb _)
          · simp [hi, Taken.pair]
    simp only [if_neg hbracket]
    by_cases hbrace : c = '\x7b'
    · simp only [if_pos hbrace]
      split
      · rename_i hb
        simp [hb, Taken.pair]
      · rename_i hb
        rw [fieldsAt?]
        split
        · rename_i hf
          split
          · rename_i hb'
            exact absurd hb' (hb _)
          · simp [hf]
        · rename_i fields hf
          have hfields : (readFields rest).map Taken.pair = some (fields.value, fields.rest) := by
            rw [hf]
            rfl
          rw [hfields]
          split
          all_goals
            rename_i htexts
            split
            · rename_i hb'
              exact absurd hb' (hb _)
            · simp [htexts, Taken.pair]
    simp only [if_neg hbrace]
    by_cases hminus : c = '-'
    · simp only [if_pos hminus]
      split
      · rename_i hn
        simp [hn]
      · rename_i hn
        simp [hn, Taken.pair]
    simp only [if_neg hminus]
    by_cases hdigit : Text.isDigit c = true
    · simp only [if_pos hdigit]
      split
      · rename_i hn
        simp [hn]
      · rename_i hn
        simp [hn, Taken.pair]
    simp only [if_neg hdigit]
    split
    · rfl
    split
    · rfl
    split
    · rfl
    · rfl

theorem itemsAt?_eq (cs : List Char) : itemsAt? cs =
    (valueAt? cs).bind fun (first, rest) =>
      match skipBlanks rest with
      | ']' :: more => some ([first], more)
      | ',' :: more => (itemsAt? more).map fun (items, rest) => (first :: items, rest)
      | _ => none := by
  rw [itemsAt?, readItems, valueAt?]
  cases readValue cs with
  | none => rfl
  | some first =>
    simp only [Option.map_some, Option.bind_some, Taken.pair]
    split
    · rename_i hb
      simp [hb, Taken.pair]
    · rename_i hb
      split
      · rename_i hi
        simp [hb, hi, itemsAt?]
      · rename_i hi
        simp [hb, hi, itemsAt?, Taken.pair]
    · rename_i hb hb'
      split
      · rename_i h
        exact absurd h (hb _)
      · rename_i h
        exact absurd h (hb' _)
      · rfl

theorem fieldsAt?_eq (cs : List Char) : fieldsAt? cs =
    match skipBlanks cs with
    | '"' :: keyStart =>
      (pieces? keyStart).bind fun (pieces, afterKey) =>
        match skipBlanks afterKey with
        | ':' :: valueStart =>
          (valueAt? valueStart).bind fun (v, rest) =>
            match skipBlanks rest with
            | '\x7d' :: more =>
              some (([(String.ofList ((join? pieces).getD []), v)], (join? pieces).isSome), more)
            | ',' :: more =>
              (fieldsAt? more).map fun (fields, rest) =>
                (((String.ofList ((join? pieces).getD []), v) :: fields.1,
                  (join? pieces).isSome && fields.2), rest)
            | _ => none
        | _ => none
    | _ => none := by
  rw [fieldsAt?, readFields]
  split
  · rename_i keyStart hk
    simp only [hk]
    split
    · rename_i hp
      simp [hp]
    · rename_i pieces afterKey hp
      simp only [hp, Option.bind_some]
      split
      · rename_i valueStart hc
        simp only [hc, valueAt?]
        cases readValue valueStart with
        | none => rfl
        | some v =>
          simp only [Option.map_some, Option.bind_some, Taken.pair]
          split
          · rename_i hb
            simp [hb, Taken.pair]
          · rename_i hb
            split
            · rename_i hf
              simp [hb, hf, fieldsAt?]
            · rename_i hf
              simp [hb, hf, fieldsAt?, Taken.pair]
          · rename_i hb hb'
            split
            · rename_i h
              exact absurd h (hb _)
            · rename_i h
              exact absurd h (hb' _)
            · rfl
      · rename_i hc
        split
        · rename_i h
          exact absurd h (hc _)
        · rfl
  · rename_i hk
    split
    · rename_i h
      exact absurd h (hk _)
    · rfl

theorem read?_eq (text : String) : read? text =
    (valueAt? text.toList).bind fun (v, rest) => if (skipBlanks rest).isEmpty then some v else none := by
  rw [read?, valueAt?]
  cases readValue text.toList with
  | none => rfl
  | some v => rfl

end RouterShift.Json
