import RouterShift.Toml.Scalar

/-! Documents of TOML as they grow, statement by statement. A table is brought about by a header, by
    a header of a table inside it, or by a dotted key; how it was brought about decides what may
    still be added to it, so that no table is defined twice. -/

namespace RouterShift.Toml

inductive Value
  | text (s : String)
  | scalar (s : Scalar)
  | array (items : List Value)
  | table (entries : List (String × Value))
  deriving Repr, Inhabited

/-- How a table was brought about. -/
inductive Origin
  /-- By a header. -/
  | declared
  /-- By a header of a table inside it. -/
  | implied
  /-- By a dotted key. -/
  | dotted
  deriving Repr, DecidableEq

/-- What stands under a key. -/
inductive Node
  | value (v : Value)
  | table (origin : Origin) (entries : List (String × Node))
  /-- An array of tables, each with its own header. -/
  | tables (elements : List (List (String × Node)))

/-- The keys of a table in the order in which they came. -/
abbrev Entries := List (String × Node)

namespace Entries

def find? (key : String) (entries : Entries) : Option Node :=
  (List.find? (·.1 == key) entries).map (·.2)

/-- The entries with a node in its old place, or last if the key is new. -/
def put (key : String) (n : Node) : Entries → Entries
  | [] => [(key, n)]
  | (k, o) :: rest => if k = key then (k, n) :: rest else (k, o) :: put key n rest

/-- A change to the last of several tables. -/
def inLast (change : Entries → Option Entries) (elements : List Entries) : Option Node := do
  let last ← change (← elements.getLast?)
  return .tables (elements.dropLast ++ [last])

/-- A change to the table that a path of headers leads to, with the tables on the way. -/
def within? (change : Entries → Option Entries) : List String → Entries → Option Entries
  | [], entries => change entries
  | key :: path, entries => do
    let node ← match find? key entries with
      | none => (within? change path []).map (.table .implied)
      | some (.table origin inner) => (within? change path inner).map (.table origin)
      | some (.tables elements) => inLast (within? change path) elements
      | some (.value _) => none
    return put key node entries

/-- A table declared under a key. One that a table inside it has brought about is declared now. -/
def declare? (key : String) (entries : Entries) : Option Entries :=
  match find? key entries with
  | none => some (put key (.table .declared []) entries)
  | some (.table .implied inner) => some (put key (.table .declared inner) entries)
  | _ => none

/-- One more table of an array declared under a key. -/
def extend? (key : String) (entries : Entries) : Option Entries :=
  match find? key entries with
  | none => some (put key (.tables [[]]) entries)
  | some (.tables elements) => some (put key (.tables (elements ++ [[]])) entries)
  | _ => none

/-- A value put where a dotted key leads; its last table must be one of dotted keys only. -/
def assign? (v : Value) : List String → Entries → Option Entries
  | [], _ => none
  | [key], entries =>
    match find? key entries with
    | none => some (put key (.value v) entries)
    | some _ => none
  | key :: path, entries => do
    let node ← match find? key entries with
      | none => (assign? v path []).map (.table .dotted)
      | some (.table .dotted inner) => (assign? v path inner).map (.table .dotted)
      | some (.table .implied inner) =>
        if path.length < 2 then none else (assign? v path inner).map (.table .implied)
      | some (.tables elements) =>
        if path.length < 2 then none else inLast (assign? v path) elements
      | _ => none
    return put key node entries

end Entries

mutual
/-- A node as a value that nothing is added to any more. -/
def Node.settle : Node → Value
  | .value v => v
  | .table _ entries => .table (settleEntries entries)
  | .tables elements => .array (settleTables elements)

def settleEntries : List (String × Node) → List (String × Value)
  | [] => []
  | (key, n) :: rest => (key, n.settle) :: settleEntries rest

def settleTables : List (List (String × Node)) → List Value
  | [] => []
  | entries :: rest => .table (settleEntries entries) :: settleTables rest
end

/-- A statement of a document. -/
inductive Statement
  | header (path : List String) (isElement : Bool)
  | assignment (path : List String) (v : Value)

/-- A document so far: the header in force, and all entries. -/
structure Document where
  header : List String := []
  entries : Entries := []

/-- The document after one more statement; none when it defines something twice. -/
def Document.add? (d : Document) : Statement → Option Document
  | .header path isElement => do
    let key ← path.getLast?
    let change := if isElement then Entries.extend? key else Entries.declare? key
    return ⟨path, ← Entries.within? change path.dropLast d.entries⟩
  | .assignment path v => do
    return { d with entries := ← Entries.within? (Entries.assign? v path) d.header d.entries }

end RouterShift.Toml
