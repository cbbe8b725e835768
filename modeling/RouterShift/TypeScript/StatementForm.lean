import RouterShift.TypeScript.ExpressionForm

/-! Statements, classes, imports and exports. -/

namespace RouterShift.TypeScript

open Grammar Peg

/-- Parts in braces that nothing else could stand for. -/
def braced (part : Form) : Form := seq (text ['\x7b']) (commit (seq part (sign "\x7d")))

def block : Form := nodeOf (.other "statement_block") (braced (many (rule .statement)))

/-! ### Classes -/

/-- A decorator that is a plain call says so; in parentheses it can be anything. -/
def decorator : Form :=
  let function := choice (seq (fieldOf .function .identifier identifier) (absent (sign ".")))
    (fieldOf .function (.other "member_expression") dottedName)
  let call := nodeOf .callExpression (all [function, optional (rule .typeArguments),
    fieldOf .arguments (.other "arguments") (rule .arguments)])
  nodeOf .decorator (seq (text ['@'])
    (oneOf [call, dottedName, within "(" (rule .expression) ")"]))

/-- A decorator, read no closer than to find its end. -/
def decoratorShape : Form :=
  all [sign "@", optional dottedName, optional (rule .typeArguments), optional (rule .group)]

/-- The end of a member without a body. -/
def memberStop : Form :=
  oneOf [sign ";", sign ",", rule .newline, ahead (sign "\x7d")]

/-- A word that may stand before the name of a member. -/
def memberModifier : Form :=
  seq
    (wordOf ["public", "private", "protected", "static", "abstract", "override", "readonly",
      "async", "get", "set", "declare", "accessor"])
    (ahead (oneOf [rule .propertyName, sign "*", sign "["]))

/-- The name of a member, and what stands around it. -/
def memberName : Form :=
  all [many memberModifier, optional (sign "*"),
    fieldOf .name (.other "property_identifier") (rule .propertyName),
    optional (choice (sign "?") (sign "!"))]

/-- A member of a class, its decorators before it. -/
def classMember : Form :=
  let method := nodeOf .methodDefinition (all [memberName, rule .signature, rule .block])
  let declared := all [memberName, rule .signature, memberStop]
  let field := all [memberName, optional annotation, optional initializer, memberStop]
  let index := all [many memberModifier, sign "[", anyName, annotation, sign "]", annotation,
    memberStop]
  seq (many (rule .decorator))
    (oneOf [nodeOf (.other "class_static_block") (seq (word "static") (rule .block)), method,
      nodeOf (.other "member") (oneOf [declared, field, index])])

/-- What follows the name of a class. -/
def classTail : Form :=
  let base := seq (rule .leftHand) (optional (rule .typeArguments))
  let extendsClause := nodeOf .extendsClause (seq (word "extends") (separated (sign ",") base))
  let implementsClause := seq (word "implements") (separated (sign ",") (rule .typeTerm))
  let heritage := nodeOf .classHeritage
    (choice (seq extendsClause (optional implementsClause)) implementsClause)
  let body := fieldOf .body .classBody (seq (bareSign "\x7b")
    (commit (seq (many (choice (sign ";") (rule .classMember))) (signNode "\x7d"))))
  all [optional (rule .typeParameters), optional heritage, body]

def classDeclaration : Form :=
  let named := all [word "class", fieldOf .name .typeIdentifier identifier, rule .classTail]
  let isAbstract := ahead (seq (many decoratorShape) (word "abstract"))
  choice
    (seq isAbstract (nodeOf .abstractClassDeclaration
      (all [many (rule .decorator), word "abstract", named])))
    (nodeOf .classDeclaration (seq (many (rule .decorator)) named))

def classExpression : Form :=
  nodeOf (.other "class") (all [many (rule .decorator), word "class", optional identifier,
    rule .classTail])

/-! ### Imports and exports -/

/-- The module behind `from`. -/
def sourceLiteral : Form := fieldOf .source .string (rule .quoted)

/-- Where a module comes from, to the end of the statement. -/
def moduleClause : Form :=
  all [sourceLiteral, optional (seq (wordOf ["with", "assert"]) (rule .object)), rule .semicolon]

def importStatement : Form :=
  let typeWord := wordOf ["type", "typeof"]
  let name := choice (fieldOf .name .identifier anyName) (fieldOf .name .string (rule .quoted))
  let taken := seq name (optional (seq (word "as") (fieldOf .alias .identifier identifier)))
  let close := ahead (choice (sign ",") (sign "\x7d"))
  let typeNode := choice (wordNode "type") (wordNode "typeof")
  let specifier := nodeOf .importSpecifier (choice (all [typeNode, taken, close]) taken)
  let list := all [specifier, many (seq (signNode ",") specifier), optional (signNode ",")]
  let named := nodeOf .namedImports (all [bareSign "\x7b", optional list, signNode "\x7d"])
  let whole := nodeOf .namespaceImport
    (all [sign "*", word "as", nodeOf .identifier identifier])
  let clause := nodeOf .importClause (oneOf [whole, named,
    seq (nodeOf .identifier identifier) (optional (seq (sign ",") (choice whole named)))])
  let taking := all [clause, word "from", rule .moduleClause]
  let required := all [word "require", within "(" (nodeOf .string (rule .quoted)) ")"]
  let equated := all [optional typeWord, identifier, sign "=", choice required dottedName,
    rule .semicolon]
  nodeOf .importStatement (seq (word "import")
    (oneOf [seq typeNode taking, taking, rule .moduleClause, equated]))

/-! ### Declarations -/

def functionDeclaration : Form :=
  all [optional (word "async"), word "function", optional (sign "*"), identifier, rule .signature,
    choice (rule .block) (rule .semicolon)]

def variableList : Form :=
  let declared := all [rule .binding, optional (sign "!"), optional annotation,
    optional initializer]
  seq (wordOf ["var", "let", "const"]) (separated (sign ",") declared)

def interfaceDeclaration : Form :=
  all [word "interface", identifier, optional (rule .typeParameters),
    optional (seq (word "extends") (separated (sign ",") (rule .typeTerm))), rule .objectType]

def typeAlias : Form :=
  all [word "type", identifier, optional (rule .typeParameters), sign "=", rule .typeTerm,
    rule .semicolon]

def enumDeclaration : Form :=
  let item := seq (rule .propertyName) (optional initializer)
  all [optional (word "const"), word "enum", identifier,
    within "\x7b" (optional (commaList item)) "\x7d"]

def moduleDeclaration : Form :=
  seq (wordOf ["namespace", "module"])
    (choice (seq dottedName (rule .block))
      (seq (nodeOf .string (rule .quoted)) (choice (rule .block) (rule .semicolon))))

/-- A statement that names something. -/
def declaration : Form :=
  let plain := choice (rule .classDeclaration) (nodeOf (.other "declaration")
    (oneOf [functionDeclaration, enumDeclaration, seq (rule .variableList) (rule .semicolon),
      interfaceDeclaration, typeAlias, moduleDeclaration]))
  choice plain (nodeOf (.other "ambient_declaration")
    (seq (word "declare") (choice plain (seq (word "global") (rule .block)))))

def exportStatement : Form :=
  let name := choice anyName (nodeOf .string (rule .quoted))
  let renamed := seq name (optional (seq (word "as") name))
  let item := choice
    (all [word "type", renamed, ahead (choice (sign ",") (sign "\x7d"))]) renamed
  let origin := seq (word "from") (rule .moduleClause)
  let everything := all [optional (word "type"), sign "*", optional (seq (word "as") name), origin]
  let named := all [optional (word "type"), within "\x7b" (optional (commaList item)) "\x7d",
    choice origin (rule .semicolon)]
  let whole := all [sign "=", rule .expression, rule .semicolon]
  let global := all [word "as", word "namespace", identifier, rule .semicolon]
  let default := seq (word "default") (oneOf [rule .classDeclaration, functionDeclaration,
    interfaceDeclaration, seq (rule .expression) (rule .semicolon)])
  let exports := ahead (seq (many decoratorShape) (word "export"))
  nodeOf .exportStatement (all [exports, many (rule .decorator), word "export",
    oneOf [default, declaration, everything, named, whole, global, rule .importStatement]])

/-! ### Control -/

def forStatement : Form :=
  let target := choice (seq (wordOf ["var", "let", "const"]) (rule .binding)) (rule .leftHand)
  let through := all [target, wordOf ["in", "of"], rule .expression]
  let counted := all [optional (choice (rule .variableList) (rule .expression)), sign ";",
    optional (rule .expression), sign ";", optional (rule .expression)]
  all [word "for", optional (word "await"), within "(" (choice through counted) ")",
    rule .statement]

def switchStatement : Form :=
  let label := choice (seq (word "case") (rule .expression)) (word "default")
  all [word "switch", within "(" (rule .expression) ")",
    nodeOf (.other "switch_body") (braced (many (all [label, sign ":", many (rule .statement)])))]

def tryStatement : Form :=
  let caught := within "(" (seq (rule .binding) (optional annotation)) ")"
  let catchClause := all [word "catch", optional caught, rule .block]
  let finallyClause := seq (word "finally") (rule .block)
  all [word "try", rule .block,
    choice (seq catchClause (optional finallyClause)) finallyClause]

/-- A word, perhaps with something behind it on its line. -/
def jump (words : List String) (part : Form) : Form :=
  all [wordOf words, optional (seq (absent (rule .newline)) part), rule .semicolon]

def controlStatement : Form :=
  let condition := within "(" (rule .expression) ")"
  oneOf [
    all [word "if", condition, rule .statement, optional (seq (word "else") (rule .statement))],
    jump ["return"] (rule .expression),
    forStatement,
    all [wordOf ["while", "with"], condition, rule .statement],
    all [word "do", rule .statement, word "while", condition, optional (sign ";")],
    switchStatement,
    tryStatement,
    all [word "throw", rule .expression, rule .semicolon],
    jump ["break", "continue"] identifier,
    seq (word "debugger") (rule .semicolon)]

def statement : Form :=
  oneOf [rule .block, nodeOf (.other "empty_statement") (text [';']), rule .importStatement,
    rule .exportStatement, declaration,
    nodeOf (.other "statement") (choice controlStatement
      (all [identifier, sign ":", rule .statement])),
    nodeOf (.other "expression_statement") (seq (rule .expression) (rule .semicolon))]

/-- A whole source: perhaps a line for the shell, then statements. -/
def file : Form :=
  let shellLine := seq (text ['#', '!']) (optional (run (!isLineFeed ·) fun _ => true))
  all [optional (nodeOf (.other "hash_bang_line") shellLine), many (rule .statement),
    rule .endOfText]

end RouterShift.TypeScript
