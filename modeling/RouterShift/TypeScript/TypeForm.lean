import RouterShift.TypeScript.Lexeme

/-! Types. A type is a node as a whole, so what stands in an annotation is never taken for a part of
    the class or call around it. -/

namespace RouterShift.TypeScript

open Grammar Peg

def typeTerm : Form := nodeOf (.other "type") (rule .typeBody)

/-- `: T`. -/
def annotation : Form := seq (sign ":") (rule .typeTerm)

/-- A bracket follows whose end is followed by an arrow. -/
def arrowBehindGroup : Form := ahead (all [ahead (sign "("), rule .group, sign "=>"])

/-- The type of a function or of a constructor. -/
def functionType : Form :=
  all [optional (word "abstract"), optional (word "new"), optional (rule .typeParameters),
    arrowBehindGroup, rule .parameters, sign "=>", rule .returnType]

def typeBody : Form :=
  let condition := all [word "extends", rule .typeUnion, sign "?", rule .typeTerm, sign ":",
    rule .typeTerm]
  choice functionType (seq (rule .typeUnion) (optional condition))

/-- Alternatives and intersections; either sign may also come first. -/
def typeUnion : Form :=
  let joint := choice (signNotBefore "|" (· == '|')) (signNotBefore "&" (· == '&'))
  seq (optional joint) (separated joint (choice functionType (rule .typeOperand)))

/-- What one type operator stands before, or a type with its brackets behind it. -/
def typeOperand : Form :=
  let operator := wordOf ["keyof", "unique", "readonly"]
  let inferred := all [word "infer", identifier, optional (seq (word "extends") (rule .typeUnion))]
  let index := all [rule .sameLine, text ['['], optional (rule .typeTerm), sign "]"]
  oneOf [inferred, seq operator (rule .typeOperand), seq (rule .typePrimary) (many index)]

/-- A name with dots in it. -/
def dottedName : Form := seq identifier (many (seq (sign ".") anyName))

/-- The elements of a tuple type. -/
def tupleElement : Form :=
  let label := all [identifier, optional (sign "?"), sign ":"]
  all [optional (sign "..."), optional label, rule .typeTerm, optional (sign "?")]

def typePrimary : Form :=
  let importType := all [word "import", within "(" (rule .typeTerm) ")",
    many (seq (sign ".") anyName)]
  let query := all [word "typeof",
    choice importType (seq (choice (word "this") identifier)
      (many (seq (sign ".") (choice anyName privateName)))),
    optional (rule .typeArguments)]
  oneOf [
    query,
    seq importType (optional (rule .typeArguments)),
    seq dottedName (optional (rule .typeArguments)),
    wordOf ["void", "null", "this", "true", "false", "const"],
    within "(" (rule .typeTerm) ")",
    within "[" (optional (commaList tupleElement)) "]",
    rule .objectType,
    nodeOf .string (rule .quoted),
    nodeOf (.other "template_literal_type") (templateOf (rule .typeTerm)),
    seq (optional (sign "-")) (rule .number)]

def typeParameters : Form :=
  let bound := seq (word "extends") (rule .typeTerm)
  let default := seq (sign "=") (rule .typeTerm)
  let modified := seq (wordOf ["const", "in", "out"]) identifier
  within "<" (commaList (all [choice modified identifier, optional bound, optional default])) ">"

def typeArguments : Form := within "<" (commaList (rule .typeTerm)) ">"

/-- What a function returns, which may also be a statement about an argument. -/
def returnType : Form :=
  let subject := choice (word "this") identifier
  let predicate := all [optional (word "asserts"), subject, word "is", rule .typeTerm]
  let assertion := seq (word "asserts") (seq (absent (rule .newline)) subject)
  nodeOf (.other "type") (oneOf [predicate, assertion, rule .typeTerm])

/-- `?`, `+?` or `-?` behind the name of a member. -/
def optionalSign : Form := oneOf [sign "?", sign "+?", sign "-?"]

/-- A member of an object type. -/
def typeMember : Form :=
  let readonlyWord := choice (word "readonly")
    (seq (token (one fun c => c == '+' || c == '-')) (word "readonly"))
  let mapped := all [word "in", rule .typeTerm, optional (seq (word "as") (rule .typeTerm))]
  let index := all [optional readonlyWord, sign "[", anyName, choice mapped annotation, sign "]",
    optional optionalSign, optional annotation]
  let accessor := all [wordOf ["get", "set"], rule .propertyName, rule .signature]
  let named := all [optional (seq (word "readonly") (ahead (rule .propertyName))),
    rule .propertyName, optional (sign "?"), choice (rule .signature) (optional annotation)]
  let construct := all [optional (word "new"), rule .signature]
  oneOf [index, construct, accessor, named]

def objectType : Form :=
  let stop := oneOf [sign ";", sign ",", rule .newline, ahead (sign "\x7d")]
  within "\x7b" (many (seq typeMember stop)) "\x7d"

end RouterShift.TypeScript
