import RouterShift.Json.Number

/-! JSON values. Objects keep their fields in the order of the text. A text can be well-formed JSON
    and still hold parts that stand for no value (half of a surrogate pair, a number too large for
    a double); such a part is kept as `illFormed`, since it does no harm where nobody looks at it. -/

namespace RouterShift.Json

inductive Value
  | null
  | bool (b : Bool)
  | number (n : Number)
  | string (s : String)
  | array (items : List Value)
  | object (fields : List (String × Value))
  | illFormed
  deriving Repr, Inhabited

/-- The fields of an object: keys with values, in order. -/
abbrev Fields := List (String × Value)

namespace Value

/-- How deep a value may be nested, from outside. -/
def depthLimit : Nat := 127

mutual
/-- Nothing in the value is ill-formed, and it is nested at most `depth` deep. -/
def isProper (depth : Nat) : Value → Bool
  | .illFormed => false
  | .array items =>
    match depth with
    | 0 => false
    | d + 1 => areProper d items
  | .object fields =>
    match depth with
    | 0 => false
    | d + 1 => areProperFields d fields
  | _ => true

def areProper (depth : Nat) : List Value → Bool
  | [] => true
  | v :: rest => v.isProper depth && areProper depth rest

def areProperFields (depth : Nat) : Fields → Bool
  | [] => true
  | (_, v) :: rest => v.isProper depth && areProperFields depth rest
end

end Value

namespace Fields

/-- The value under a key. -/
def get? (fields : Fields) (key : String) : Option Value :=
  match fields with
  | [] => none
  | (k, v) :: rest => if k = key then some v else get? rest key

/-- A value put under a key: in the place of the old one, or last. -/
def insert (fields : Fields) (key : String) (value : Value) : Fields :=
  match fields with
  | [] => [(key, value)]
  | (k, v) :: rest => if k = key then (k, value) :: rest else (k, v) :: insert rest key value

/-- The fields without a key, the others in their order. -/
def erase (fields : Fields) (key : String) : Fields :=
  match fields with
  | [] => []
  | (k, v) :: rest => if k = key then rest else (k, v) :: erase rest key

def keys (fields : Fields) : List String := fields.map (·.1)

/-- No key twice. -/
def isUnique : Fields → Bool
  | [] => true
  | (k, _) :: rest => (get? rest k).isNone && isUnique rest

/-- Of several values under one key the last, in the place of the first. -/
def settle (fields : Fields) : Fields := fields.foldl (fun done (k, v) => insert done k v) []

end Fields

mutual
/-- The value with repeated keys settled at every depth. -/
def Value.settle : Value → Value
  | .array items => .array (settleAll items)
  | .object fields => .object (Fields.settle (settleFields fields))
  | v => v

def settleAll : List Value → List Value
  | [] => []
  | v :: rest => v.settle :: settleAll rest

def settleFields : Fields → Fields
  | [] => []
  | (k, v) :: rest => (k, v.settle) :: settleFields rest
end

end RouterShift.Json
