import RouterShift.Disk.Ignore
import RouterShift.Shell.Tools

/-! From words to arguments: what parameters stand for, where words are split, and the names of files
    that signs for any characters stand for. -/

namespace RouterShift.Shell

/-- A piece of an expanded word. -/
inductive Fragment
  | fixed (s : String)
  /-- Split at blanks. -/
  | loose (s : String)
  | wild (sign : Char)
  /-- One word ends here and another one starts. -/
  | boundary

/-- A word: characters, and for each if it is a sign that stands for others. -/
abbrev Field := List (Char × Bool)

/-- Words as they are put together: the ones that are done, and the one that is not. -/
abbrev Fields := List Field × Option Field

def isFieldBlank (c : Char) : Bool := c == ' ' || c == '\t' || c == '\n'

def Fields.extend (f : Fields) (more : Field) : Fields := (f.1, some (f.2.getD [] ++ more))

def Fields.close (f : Fields) : Fields := (f.1 ++ f.2.toList, none)

def Fields.add (f : Fields) : Fragment → Fields
  | .fixed s => Fields.extend f (s.toList.map (·, false))
  | .loose s => s.toList.foldl (fun f c =>
      if isFieldBlank c then Fields.close f else Fields.extend f [(c, false)]) f
  | .wild sign => Fields.extend f [(sign, true)]
  | .boundary => Fields.close f

/-- The words that fragments make. -/
def fieldsOf (fragments : List Fragment) : List Field :=
  (Fields.close (fragments.foldl Fields.add ([], none))).1

/-! ### Names of files -/

def Field.text (f : Field) : String := String.ofList (f.map (·.1))

def Field.isWild (f : Field) : Bool := f.any (·.2)

/-- What a word without slashes matches. -/
def Field.atoms (f : Field) : List Ignore.Atom :=
  f.flatMap fun
    | ('*', true) => [.anyBytes]
    | (_, true) => [.anyByte]
    | (c, false) => (Ignore.bytesOf c).map .byte

/-- A word without slashes stands for a name; a dot in front has to be written out. -/
def Field.admits (f : Field) (name : String) : Bool :=
  (name.toList.head? != some '.' || f.head? == some ('.', false))
    && Ignore.matchAtoms f.atoms name.toUTF8.toList

/-- The pieces of a word between slashes. -/
def Field.pieces : Field → List Field
  | [] => [[]]
  | (c, isWild) :: rest =>
    match Field.pieces rest with
    | [] => [[(c, isWild)]]
    | piece :: more => if c = '/' then [] :: piece :: more else ((c, isWild) :: piece) :: more

/-- The spellings that one more piece leads to from those so far. -/
def Field.descend (p : Process) (found : List String) (piece : Field) : List String :=
  if piece.isWild then
    found.flatMap fun start =>
      let entries := ((p.entry? (if start.isEmpty then "." else start)).getD default).entries
      ((entries.map (·.1)).filter piece.admits).map (start ++ ·)
  else found.map (· ++ piece.text)

/-- What a word stands for: itself, or the names of all files that it matches, if there are any. -/
def names (p : Process) (f : Field) : List String :=
  if !f.isWild then [f.text]
  else
    let found := match Field.pieces f with
      | [] => []
      | first :: rest =>
        rest.foldl (fun found piece => Field.descend p (found.map (· ++ "/")) piece)
          (Field.descend p [""] first)
    match found.filter fun s => (p.entry? s).isSome with
    | [] => [f.text]
    | found => found

/-! ### Parameters -/

/-- The arguments as one word each, or split at blanks. -/
def argumentFragments (inQuotes : Bool) (arguments : List String) : List Fragment :=
  List.intercalate [.boundary]
    (arguments.map fun a => [if inQuotes then Fragment.fixed a else .loose a])

/-- The value of a parameter. -/
def parameter? (p : Process) (name : String) : Option String :=
  match name with
  | "?" => some (toString p.status)
  | "#" => some (toString p.positional.length)
  | "$" => some Process.identity
  | "*" | "@" => some (" ".intercalate p.positional)
  | _ =>
    match Tool.count? name with
    | some n => p.arguments[n]?
    | none => p.value? name

def parameterFragments (p : Process) (name : String) (default : Option String) (inQuotes : Bool) :
    List Fragment :=
  if name = "@" || (name = "*" && !inQuotes) then argumentFragments inQuotes p.positional
  else
    let value := match parameter? p name, default with
      | some v, some d => if v.isEmpty then d else v
      | none, some d => d
      | v, none => v.getD ""
    [if inQuotes then .fixed value else .loose value]

end RouterShift.Shell
