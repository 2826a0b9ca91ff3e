import MiniJava.Operator
import MiniJava.Position
import MiniJava.Tree.Form

namespace MiniJava

-- Every node but a placeholder has a number, and later passes keep what they find out about it
-- under that number.
abbrev NodeId := Nat

-- Where a variable lives, which is told by where it is declared.
inductive Storage
  | formal
  | localSlot
  | field
deriving DecidableEq

structure TypeRef where
  name : String
  isArray : Bool
deriving DecidableEq

structure VariableDeclaration where
  id : NodeId
  name : String
  type : TypeRef
  storage : Storage
  position : Position
deriving DecidableEq

inductive Expression
  -- `receiver.method(arguments)`; also `receiver.length`.
  | call (id : NodeId) (receiver : Expression) (method : String) (arguments : List Expression)
    (position : Position)
  | newObject (id : NodeId) (typeName : String) (position : Position)
  | newArray (id : NodeId) (typeName : String) (size : Expression) (position : Position)
  | not (id : NodeId) (operand : Expression) (position : Position)
  | binary (id : NodeId) (op : BinaryOperator) (left right : Expression) (position : Position)
  | boolean (id : NodeId) (value : Bool) (position : Position)
  | integer (id : NodeId) (value : Int) (position : Position)
  | self (id : NodeId) (position : Position)
  | index (id : NodeId) (array subscript : Expression) (position : Position)
  | reference (id : NodeId) (name : String) (position : Position)
  | malformed (position : Position)

namespace Expression

def id? : Expression → Option NodeId
  | call id .. | newObject id .. | newArray id .. | not id .. | binary id .. | boolean id ..
  | integer id .. | self id .. | index id .. | reference id .. => some id
  | malformed _ => none

def position : Expression → Position
  | call _ _ _ _ p | newObject _ _ p | newArray _ _ _ p | not _ _ p | binary _ _ _ _ p
  | boolean _ _ p | integer _ _ p | self _ p | index _ _ _ p | reference _ _ p | malformed p => p

def form : Expression → ExpressionForm
  | call .. => .methodInvocation
  | newObject .. | newArray .. => .instanceCreation
  | not .. => .unaryNot
  | binary .. => .binaryOperator
  | boolean .. => .booleanLiteral
  | integer .. => .integerLiteral
  | self .. => .thisReference
  | index .. => .arrayIndex
  | reference .. => .variableReference
  | malformed _ => .malformed

end Expression

inductive Statement
  | declare (declaration : VariableDeclaration)
  | print (id : NodeId) (value : Expression) (position : Position)
  | ret (id : NodeId) (value : Expression) (position : Position)
  | assert (id : NodeId) (condition : Expression) (position : Position)
  | block (id : NodeId) (body : List Statement) (position : Position)
  | assign (id : NodeId) (target value : Expression) (position : Position)
  | ifThen (id : NodeId) (condition : Expression) (onTrue : Statement) (position : Position)
  | ifThenElse (id : NodeId) (condition : Expression) (onTrue onFalse : Statement)
    (position : Position)
  | loop (id : NodeId) (condition : Expression) (body : Statement) (position : Position)
  | call (id : NodeId) (receiver : Expression) (method : String) (arguments : List Expression)
    (position : Position)
  | malformed (position : Position)

namespace Statement

def id? : Statement → Option NodeId
  | declare declaration => some declaration.id
  | print id .. | ret id .. | assert id .. | block id .. | assign id .. | ifThen id ..
  | ifThenElse id .. | loop id .. | call id .. => some id
  | malformed _ => none

def position : Statement → Position
  | declare declaration => declaration.position
  | print _ _ p | ret _ _ p | assert _ _ p | block _ _ p | assign _ _ _ p | ifThen _ _ _ p
  | ifThenElse _ _ _ _ p | loop _ _ _ p | call _ _ _ _ p | malformed p => p

-- The expressions that a statement evaluates itself, in order: its value or condition, or the
-- target and the value of an assignment. Calls and nested statements have none.
def operands : Statement → List Expression
  | print _ value _ | ret _ value _ => [value]
  | assert _ condition _ | ifThen _ condition _ _ | ifThenElse _ condition _ _ _
  | loop _ condition _ _ => [condition]
  | assign _ target value _ => [target, value]
  | declare _ | block .. | call .. | malformed _ => []

def isReturn : Statement → Bool
  | ret .. => true
  | _ => false

end Statement

structure MethodDeclaration where
  id : NodeId
  name : String
  returns : TypeRef
  parameters : List VariableDeclaration
  body : List Statement
  position : Position

inductive Member
  | field (declaration : VariableDeclaration)
  | method (declaration : MethodDeclaration)
  | malformed (position : Position)

structure ClassDeclaration where
  id : NodeId
  name : String
  superclass : Option String
  members : List Member
  position : Position

structure MainClass where
  id : NodeId
  name : String
  body : List Statement
  position : Position

structure Program where
  mainClass : Option MainClass
  classes : List ClassDeclaration

end MiniJava
