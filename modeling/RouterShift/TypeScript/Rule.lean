import RouterShift.Grammar.Peg
import RouterShift.TypeScript.Tree

/-! The rules of a grammar for TypeScript. Of the syntax tree it makes the nodes that are asked about:
    statements, classes and their members, decorators and their calls, imports, literals. -/

namespace RouterShift.TypeScript

/-- A rule of the grammar. -/
inductive Rule
  | trivia | sameLine | newline | semicolon | endOfText
  | quoted | escape | template | number | regex
  | group | groupPart
  | file | statement | block | variableList | binding | signature | parameters | parameter
  | decorator | classDeclaration | classExpression | classTail | classMember
  | importStatement | exportStatement | moduleClause
  | expression | assignment | arrow | conditional | binary | unary | leftHand | suffix | primary
  | arguments | object | property | propertyName | function
  | typeTerm | typeBody | typeUnion | typeOperand | typePrimary | typeParameters | typeArguments
  | objectType | returnType
  deriving Repr, DecidableEq

/-- What may stand at a place of a source. -/
abbrev Form := Grammar.Peg Rule Label

end RouterShift.TypeScript
