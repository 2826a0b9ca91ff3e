namespace MiniJava

inductive ExpressionForm
  | methodInvocation
  | instanceCreation
  | unaryNot
  | binaryOperator
  | booleanLiteral
  | integerLiteral
  | thisReference
  | arrayIndex
  | variableReference
  | malformed
deriving DecidableEq

def ExpressionForm.describe : ExpressionForm → String
  | methodInvocation => "method invocation"
  | instanceCreation => "instance creation"
  | unaryNot => "unary not"
  | binaryOperator => "binary operator"
  | booleanLiteral => "boolean literal"
  | integerLiteral => "integer literal"
  | thisReference => "this reference"
  | arrayIndex => "array index"
  | variableReference => "variable reference"
  | malformed => "invalid expression"

end MiniJava
