import RouterShift.TypeScript.StatementForm

/-! The grammar as a whole, and reading a source by it. -/

namespace RouterShift.TypeScript

open Grammar
open Text (Cursor)

/-- What each rule stands for. -/
def rules : Rule → Form
  | .trivia => trivia
  | .sameLine => sameLine
  | .newline => newline
  | .semicolon => semicolon
  | .endOfText => endOfText
  | .quoted => quoted
  | .escape => escape
  | .template => template
  | .number => number
  | .regex => regex
  | .group => group
  | .groupPart => groupPart
  | .file => file
  | .statement => statement
  | .block => block
  | .variableList => variableList
  | .binding => binding
  | .signature => signature
  | .parameters => parameters
  | .parameter => parameter
  | .decorator => decorator
  | .classDeclaration => classDeclaration
  | .classExpression => classExpression
  | .classTail => classTail
  | .classMember => classMember
  | .importStatement => importStatement
  | .exportStatement => exportStatement
  | .moduleClause => moduleClause
  | .expression => expression
  | .assignment => assignment
  | .arrow => arrow
  | .conditional => conditional
  | .binary => binary
  | .unary => unary
  | .leftHand => leftHand
  | .suffix => suffix
  | .primary => primary
  | .arguments => arguments
  | .object => object
  | .property => property
  | .propertyName => propertyName
  | .function => function
  | .typeTerm => typeTerm
  | .typeBody => typeBody
  | .typeUnion => typeUnion
  | .typeOperand => typeOperand
  | .typePrimary => typePrimary
  | .typeParameters => typeParameters
  | .typeArguments => typeArguments
  | .objectType => objectType
  | .returnType => returnType

/-- Deep enough for every text of a given length: no more than this many forms are opened between
    two characters. -/
def depthFor (length : Nat) : Nat := 2048 * (length + 1)

/-- The statements of a source; none when it is not valid. -/
def statements? (text : String) : Option (List Node) :=
  let cs := text.toList
  match Peg.read rules (depthFor cs.length) file ⟨0, cs⟩ with
  | .ok reading => some reading.trees
  | .error _ => none

/-- Sources are read by the grammar. -/
instance grammarReader : Reader where
  read? := statements?

end RouterShift.TypeScript
