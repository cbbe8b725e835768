import RouterShift.TypeScript.TypeForm

/-! Expressions. Operators are read as one run without precedence: what a part is and where it
    stands does not hang on how the operators around it group. -/

namespace RouterShift.TypeScript

open Grammar Peg

/-- `= e`. -/
def initializer : Form :=
  seq (signNotBefore "=" fun c => c == '=' || c == '>') (rule .assignment)

/-! ### Names, patterns, parameters -/

def propertyName : Form :=
  oneOf [anyName, nodeOf .string (rule .quoted), rule .number, within "[" (rule .assignment) "]",
    privateName]

/-- Parts between commas where some may be left out. -/
def sparseList (part : Form) : Form :=
  let commas := seq (sign ",") (many (sign ","))
  all [many (sign ","), optional (seq part (many (seq commas part))), many (sign ",")]

/-- What a value is bound to: a name, or the names within braces or brackets. -/
def binding : Form :=
  let element := seq (rule .binding) (optional initializer)
  let rest := seq (sign "...") (rule .binding)
  let property := oneOf [rest, all [rule .propertyName, sign ":", element],
    seq identifier (optional initializer)]
  oneOf [identifier, within "\x7b" (optional (commaList property)) "\x7d",
    within "[" (sparseList (choice rest element)) "]"]

def parameter : Form :=
  let pattern := oneOf [rule .binding, word "this", seq (sign "...") (rule .binding)]
  let modifier := seq (wordOf ["public", "private", "protected", "override", "readonly"])
    (ahead pattern)
  nodeOf (.other "parameter") (all [many (rule .decorator), many modifier,
    fieldOf .pattern (.other "pattern") pattern, optional (sign "?"), optional annotation,
    optional initializer])

def parameters : Form :=
  let list := all [rule .parameter, many (seq (signNode ",") (rule .parameter)),
    optional (signNode ",")]
  fieldOf .parameters .formalParameters (all [bareSign "(", optional list, signNode ")"])

/-- Parameters and result of a function. -/
def signature : Form :=
  all [optional (rule .typeParameters), rule .parameters,
    optional (seq (sign ":") (rule .returnType))]

/-! ### Primary expressions -/

/-- A value, which is a literal or an object when it is nothing more. -/
def valueOf (field : Option Field) (stop : Form) : Form :=
  let whole (kind : Kind) (part : Form) : Form :=
    seq (token (node ⟨kind, field⟩ part)) (ahead stop)
  oneOf [whole .string (rule .quoted), whole .templateString (rule .template),
    whole .object (rule .object), token (node ⟨.other "expression", field⟩ (rule .assignment))]

def function : Form :=
  all [optional (word "async"), word "function", optional (sign "*"), optional identifier,
    rule .signature, rule .block]

def property : Form :=
  let key := choice (fieldOf .key .string (rule .quoted))
    (fieldOf .key (.other "property_identifier") (rule .propertyName))
  let value := valueOf (some .value) (choice (sign ",") (sign "\x7d"))
  let pair := nodeOf .pair (all [key, sign ":", value])
  let short := all [identifier, optional initializer,
    ahead (choice (sign ",") (sign "\x7d"))]
  let modifier := seq (wordOf ["get", "set", "async"])
    (ahead (choice (rule .propertyName) (sign "*")))
  let method := all [many modifier, optional (sign "*"), rule .propertyName, rule .signature,
    rule .block]
  oneOf [pair, short, seq (sign "...") (rule .assignment), method]

def object : Form := within "\x7b" (optional (commaList (rule .property))) "\x7d"

def arguments : Form :=
  let spread := nodeOf (.other "spread_element") (seq (sign "...") (rule .assignment))
  let argument := choice spread (valueOf none (choice (sign ",") (sign ")")))
  within "(" (optional (commaList argument)) ")"

def primary : Form :=
  let element := seq (optional (sign "...")) (rule .assignment)
  let imported := seq (word "import") (choice (seq (sign ".") anyName) (ahead (sign "(")))
  oneOf [rule .function, identifier, nodeOf .string (rule .quoted), rule .number,
    nodeOf .templateString (rule .template), wordOf ["this", "super", "null", "true", "false"],
    within "(" (rule .expression) ")", within "[" (sparseList element) "]",
    nodeOf .object (rule .object), rule .classExpression, rule .regex, imported, privateName]

/-- What cannot follow an operand of `>`, but type arguments that nothing is called with. -/
def behindTypeArguments : Form :=
  oneOf [oneOf ([";", ",", ")", "]", "\x7d", ":", ".", "?."].map sign), rule .endOfText,
    seq (rule .newline) (absent (rule .unary))]

/-- What may stand behind a primary expression: a member, an index, arguments, a template, types,
    `!`. -/
def suffix : Form :=
  let index := within "[" (rule .expression) "]"
  let call := choice (rule .arguments) (nodeOf .templateString (rule .template))
  let typed := seq (rule .typeArguments) (choice call (ahead behindTypeArguments))
  let chain := signNotBefore "?." fun c => '0' ≤ c && c ≤ '9'
  let member := choice anyName privateName
  let certain := all [rule .sameLine, text ['!'], absent (text ['='])]
  oneOf [seq (sign ".") member, call, index, seq chain (oneOf [typed, call, index, member]),
    certain, typed]

def leftHand : Form :=
  let target := all [word "new", sign ".", anyName]
  seq (choice target (seq (many (word "new")) (rule .primary))) (many (rule .suffix))

/-! ### Operators -/

def unary : Form :=
  let operator := oneOf [sign "!", sign "~", sign "++", sign "--", sign "+", sign "-",
    wordOf ["typeof", "void", "delete", "await"]]
  let step := all [rule .sameLine, choice (text ['+', '+']) (text ['-', '-'])]
  let assertion := all [sign "<", rule .typeTerm, sign ">", rule .unary]
  oneOf [seq operator (rule .unary), seq (rule .leftHand) (optional step), assertion]

/-- The signs between two operands; none of them is the beginning of an assignment. -/
def operator : Form :=
  let apart (s : String) : Form := signNotBefore s (· == '=')
  oneOf [sign "===", sign "!==", sign "==", sign "!=", apart "&&", apart "||", apart "??",
    apart "+", apart "-", apart "**", apart "*", apart "/", apart "%",
    apart "<<", apart ">>>", apart ">>", sign "<=", sign ">=",
    signNotBefore "<" fun c => c == '<' || c == '=',
    signNotBefore ">" fun c => c == '>' || c == '=',
    signNotBefore "&" fun c => c == '&' || c == '=',
    signNotBefore "|" fun c => c == '|' || c == '=',
    apart "^", wordOf ["instanceof", "in"]]

def binary : Form :=
  let cast := seq (wordOf ["as", "satisfies"]) (rule .typeTerm)
  seq (rule .unary) (many (choice (seq operator (rule .unary)) cast))

def conditional : Form :=
  let question := choice (signNotBefore "?" fun c => c == '.' || c == '?')
    (seq (sign "?") (ahead (seq (text ['.']) (one fun c => '0' ≤ c && c ≤ '9'))))
  let branches (first : Form) : Form := all [first, sign ":", rule .assignment]
  -- In parentheses before the colon, what looked like parameters can be an operand all the same.
  let operand := seq (ahead (all [ahead (sign "("), rule .group, sign ":"])) (rule .binary)
  seq (rule .binary) (optional (seq question
    (choice (branches (rule .assignment)) (branches operand))))

def arrow : Form :=
  let body := seq (sign "=>") (choice (rule .block) (rule .assignment))
  let opensParameters := ahead (choice (sign "<")
    (all [ahead (sign "("), rule .group, choice (sign "=>") (sign ":")]))
  oneOf [seq identifier body, all [word "async", identifier, body],
    all [optional (word "async"), opensParameters, rule .signature, body]]

/-- The signs that assign to what stands before them. -/
def assigns : Form :=
  choice (signNotBefore "=" fun c => c == '=' || c == '>')
    (oneOf (["+=", "-=", "*=", "/=", "%=", "**=", "<<=", ">>=", ">>>=", "&=", "|=", "^=", "&&=",
      "||=", "??="].map sign))

def assignment : Form :=
  let yielded := all [word "yield", optional (sign "*"),
    optional (seq (absent (rule .newline)) (rule .assignment))]
  oneOf [rule .arrow, yielded, seq (rule .conditional) (optional (seq assigns (rule .assignment)))]

def expression : Form := separated (sign ",") (rule .assignment)

end RouterShift.TypeScript
