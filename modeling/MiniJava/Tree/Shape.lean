import MiniJava.Text.Shape
import MiniJava.Tree.Basic

namespace MiniJava

def Position.shape (p : Position) : Shape :=
  .record "SourcePosition" [("line", .number p.line), ("column", .number p.column)]

namespace Shape

def nodeId (id : NodeId) : Shape :=
  .numbered "NodeId" id

def node (id : NodeId) (parts : List (String × Shape)) (p : Position) : List (String × Shape) :=
  ("id", nodeId id) :: parts ++ [("position", p.shape)]

def error (p : Position) : Shape :=
  .variantRecord "Error" [("position", p.shape)]

def call (id : NodeId) (receiver : Shape) (method : String) (arguments : List Shape)
    (p : Position) : Shape :=
  .variant "MethodInvocation" (.record "MethodInvocation" (node id
    [("receiver", receiver), ("method_name", .text method), ("arguments", .list arguments)] p))

end Shape

def Storage.name : Storage → String
  | formal => "Formal"
  | localSlot => "Local"
  | field => "Class"

mutual

def Expression.shape : Expression → Shape
  | .call id receiver method arguments p =>
    .call id receiver.shape method (Expression.shapes arguments) p
  | .newObject id typeName p =>
    .variantRecord "InstanceCreation" (Shape.node id
      [("type_name", .text typeName), ("array_size", .absent)] p)
  | .newArray id typeName size p =>
    .variantRecord "InstanceCreation" (Shape.node id
      [("type_name", .text typeName), ("array_size", .present size.shape)] p)
  | .not id operand p => .variantRecord "UnaryNot" (Shape.node id [("operand", operand.shape)] p)
  | .binary id op left right p =>
    .variantRecord "BinaryOperator" (Shape.node id
      [("operator", .tag op.name), ("left", left.shape), ("right", right.shape)] p)
  | .boolean id value p => .variantRecord "BooleanLiteral" (Shape.node id [("value", .flag value)] p)
  | .integer id value p => .variantRecord "IntegerLiteral" (Shape.node id [("value", .number value)] p)
  | .self id p => .variantRecord "This" (Shape.node id [] p)
  | .index id array subscript p =>
    .variantRecord "ArrayIndex" (Shape.node id [("array", array.shape), ("index", subscript.shape)] p)
  | .reference id name p => .variantRecord "VariableReference" (Shape.node id [("name", .text name)] p)
  | .malformed p => .error p

def Expression.shapes : List Expression → List Shape
  | [] => []
  | e :: es => e.shape :: Expression.shapes es

end

def VariableDeclaration.shape (d : VariableDeclaration) : Shape :=
  .record "VariableDeclaration" (Shape.node d.id
    [("name", .text d.name), ("type_name", .text d.type.name), ("is_array", .flag d.type.isArray),
      ("kind", .tag d.storage.name)] d.position)

mutual

def Statement.shape : Statement → Shape
  | .declare declaration => .variant "VariableDeclaration" declaration.shape
  | .print id value p => .variantRecord "Print" (Shape.node id [("expression", value.shape)] p)
  | .ret id value p => .variantRecord "Return" (Shape.node id [("expression", value.shape)] p)
  | .assert id condition p => .variantRecord "Assert" (Shape.node id [("expression", condition.shape)] p)
  | .block id body p =>
    .variantRecord "Block" (Shape.node id [("statements", .list (Statement.shapes body))] p)
  | .assign id target value p =>
    .variantRecord "Assignment" (Shape.node id [("target", target.shape), ("value", value.shape)] p)
  | .ifThen id condition onTrue p =>
    .variantRecord "If" (Shape.node id
      [("condition", condition.shape), ("then_branch", onTrue.shape), ("else_branch", .absent)] p)
  | .ifThenElse id condition onTrue onFalse p =>
    .variantRecord "If" (Shape.node id
      [("condition", condition.shape), ("then_branch", onTrue.shape),
        ("else_branch", .present onFalse.shape)] p)
  | .loop id condition body p =>
    .variantRecord "While" (Shape.node id [("condition", condition.shape), ("body", body.shape)] p)
  | .call id receiver method arguments p =>
    .call id receiver.shape method (Expression.shapes arguments) p
  | .malformed p => .error p

def Statement.shapes : List Statement → List Shape
  | [] => []
  | s :: ss => s.shape :: Statement.shapes ss

end

def MethodDeclaration.shape (m : MethodDeclaration) : Shape :=
  .record "MethodDeclaration" (Shape.node m.id
    [("name", .text m.name), ("return_type", .text m.returns.name),
      ("returns_array", .flag m.returns.isArray),
      ("parameters", .list (m.parameters.map VariableDeclaration.shape)),
      ("body", .list (Statement.shapes m.body))] m.position)

def Member.shape : Member → Shape
  | field declaration => .variant "Variable" declaration.shape
  | method declaration => .variant "Method" declaration.shape
  | malformed p => .error p

def ClassDeclaration.shape (c : ClassDeclaration) : Shape :=
  .record "ClassDeclaration" (Shape.node c.id
    [("name", .text c.name), ("superclass", .optional .text c.superclass),
      ("declarations", .list (c.members.map Member.shape))] c.position)

def MainClass.shape (c : MainClass) : Shape :=
  .record "MainClassDeclaration" (Shape.node c.id
    [("name", .text c.name), ("statements", .list (Statement.shapes c.body))] c.position)

def Program.shape (p : Program) : Shape :=
  .record "Program"
    [("main_class", .optional MainClass.shape p.mainClass),
      ("classes", .list (p.classes.map ClassDeclaration.shape))]

end MiniJava
