import MiniJava.Tree.Basic

namespace MiniJava

-- The parts of a node come before the node itself.
mutual

def Expression.nodeIds : Expression → List NodeId
  | .call id receiver _ arguments _ =>
    receiver.nodeIds ++ Expression.nodeIdsOf arguments ++ [id]
  | .newObject id _ _ => [id]
  | .newArray id _ size _ => size.nodeIds ++ [id]
  | .not id operand _ => operand.nodeIds ++ [id]
  | .binary id _ left right _ => left.nodeIds ++ right.nodeIds ++ [id]
  | .boolean id _ _ | .integer id _ _ | .self id _ | .reference id _ _ => [id]
  | .index id array subscript _ => array.nodeIds ++ subscript.nodeIds ++ [id]
  | .malformed _ => []

def Expression.nodeIdsOf : List Expression → List NodeId
  | [] => []
  | e :: es => e.nodeIds ++ Expression.nodeIdsOf es

end

mutual

def Statement.nodeIds : Statement → List NodeId
  | .declare declaration => [declaration.id]
  | .print id value _ | .ret id value _ | .assert id value _ => value.nodeIds ++ [id]
  | .block id body _ => Statement.nodeIdsOf body ++ [id]
  | .assign id target value _ => target.nodeIds ++ value.nodeIds ++ [id]
  | .ifThen id condition onTrue _ => condition.nodeIds ++ onTrue.nodeIds ++ [id]
  | .ifThenElse id condition onTrue onFalse _ =>
    condition.nodeIds ++ onTrue.nodeIds ++ onFalse.nodeIds ++ [id]
  | .loop id condition body _ => condition.nodeIds ++ body.nodeIds ++ [id]
  | .call id receiver _ arguments _ =>
    receiver.nodeIds ++ Expression.nodeIdsOf arguments ++ [id]
  | .malformed _ => []

def Statement.nodeIdsOf : List Statement → List NodeId
  | [] => []
  | s :: ss => s.nodeIds ++ Statement.nodeIdsOf ss

end

def MethodDeclaration.nodeIds (m : MethodDeclaration) : List NodeId :=
  m.parameters.map (·.id) ++ Statement.nodeIdsOf m.body ++ [m.id]

def Member.nodeIds : Member → List NodeId
  | field declaration => [declaration.id]
  | method declaration => declaration.nodeIds
  | malformed _ => []

def ClassDeclaration.nodeIds (c : ClassDeclaration) : List NodeId :=
  c.members.flatMap Member.nodeIds ++ [c.id]

def MainClass.nodeIds (c : MainClass) : List NodeId :=
  Statement.nodeIdsOf c.body ++ [c.id]

def Program.nodeIds (p : Program) : List NodeId :=
  (p.mainClass.map MainClass.nodeIds).getD [] ++ p.classes.flatMap ClassDeclaration.nodeIds

end MiniJava
