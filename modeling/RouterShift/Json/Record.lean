import RouterShift.Json.Reader

/-! Records read from JSON. A record is an object with known fields, or an array of their values in
    the order in which the record declares them. Unknown fields are passed over, a known field must
    not come twice, and an array must not be longer than the record. -/

namespace RouterShift.Json

namespace Value

def text? : Value → Option String
  | .string s => some s
  | _ => none

def flag? : Value → Option Bool
  | .bool b => some b
  | _ => none

/-- A natural number of 64 bits, written as an integer. -/
def word? : Value → Option Nat
  | .number (.integer n) => if 0 ≤ n then some n.toNat else none
  | _ => none

def items? : Value → Option (List Value)
  | .array items => some items
  | _ => none

/-- A text, or nothing for `null`. -/
def textOrNull? : Value → Option (Option String)
  | .null => some none
  | .string s => some (some s)
  | _ => none

/-- The values of known fields; the record fails as a whole when one comes twice. -/
def record? (names : List String) : Value → Option (List (Option Value))
  | .object fields =>
    names.mapM fun name =>
      match fields.filter (·.1 == name) with
      | [] => some none
      | [(_, v)] => some (some v)
      | _ => none
  | .array items =>
    if items.length ≤ names.length then
      some (items.map some ++ List.replicate (names.length - items.length) none)
    else none
  | _ => none

end Value

/-- A field that may be left out. -/
def withDefault {α : Type} (default : α) (decode : Value → Option α) : Option Value → Option α
  | none => some default
  | some v => decode v

/-! ### Maps -/

/-- A map kept sorted by its keys. -/
abbrev SortedMap (α : Type) := List (String × α)

namespace SortedMap

/-- A value put under a key, over the old one if there is one. -/
def insert {α : Type} (m : SortedMap α) (key : String) (value : α) : SortedMap α :=
  match m with
  | [] => [(key, value)]
  | (k, v) :: rest =>
    match compare key k with
    | .lt => (key, value) :: (k, v) :: rest
    | .eq => (key, value) :: rest
    | .gt => (k, v) :: insert rest key value

def get? {α : Type} (m : SortedMap α) (key : String) : Option α := m.lookup key

/-- The map of pairs; the last of several values under one key stays. -/
def ofList {α : Type} (pairs : List (String × α)) : SortedMap α :=
  pairs.foldl (fun m p => insert m p.1 p.2) []

end SortedMap

/-- An object as a map, each value decoded. -/
def Value.map? {α : Type} (decode : Value → Option α) : Value → Option (SortedMap α)
  | .object fields =>
    (fields.mapM fun (field : String × Value) =>
      (decode field.2).map fun a => (field.1, a)).map SortedMap.ofList
  | _ => none

end RouterShift.Json
