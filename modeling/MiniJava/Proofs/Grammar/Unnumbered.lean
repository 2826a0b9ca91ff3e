import MiniJava.Tree.Basic

namespace MiniJava

mutual

def Expression.unnumbered : Expression → Expression
  | .call _ receiver method arguments p =>
    .call 0 receiver.unnumbered method (Expression.unnumberedOf arguments) p
  | .newObject _ typeName p => .newObject 0 typeName p
  | .newArray _ typeName size p => .newArray 0 typeName size.unnumbered p
  | .not _ operand p => .not 0 operand.unnumbered p
  | .binary _ op left right p => .binary 0 op left.unnumbered right.unnumbered p
  | .boolean _ value p => .boolean 0 value p
  | .integer _ value p => .integer 0 value p
  | .self _ p => .self 0 p
  | .index _ array subscript p => .index 0 array.unnumbered subscript.unnumbered p
  | .reference _ name p => .reference 0 name p
  | .malformed p => .malformed p

def Expression.unnumberedOf : List Expression → List Expression
  | [] => []
  | e :: es => e.unnumbered :: Expression.unnumberedOf es

end

def VariableDeclaration.unnumbered (d : VariableDeclaration) : VariableDeclaration :=
  { d with id := 0 }

mutual

def Statement.unnumbered : Statement → Statement
  | .declare d => .declare d.unnumbered
  | .print _ value p => .print 0 value.unnumbered p
  | .ret _ value p => .ret 0 value.unnumbered p
  | .assert _ condition p => .assert 0 condition.unnumbered p
  | .block _ body p => .block 0 (Statement.unnumberedOf body) p
  | .assign _ target value p => .assign 0 target.unnumbered value.unnumbered p
  | .ifThen _ condition onTrue p => .ifThen 0 condition.unnumbered onTrue.unnumbered p
  | .ifThenElse _ condition onTrue onFalse p =>
    .ifThenElse 0 condition.unnumbered onTrue.unnumbered onFalse.unnumbered p
  | .loop _ condition body p => .loop 0 condition.unnumbered body.unnumbered p
  | .call _ receiver method arguments p =>
    .call 0 receiver.unnumbered method (Expression.unnumberedOf arguments) p
  | .malformed p => .malformed p

def Statement.unnumberedOf : List Statement → List Statement
  | [] => []
  | s :: ss => s.unnumbered :: Statement.unnumberedOf ss

end

def MethodDeclaration.unnumbered (m : MethodDeclaration) : MethodDeclaration :=
  { m with
    id := 0
    parameters := m.parameters.map (·.unnumbered)
    body := Statement.unnumberedOf m.body }

def Member.unnumbered : Member → Member
  | field d => field d.unnumbered
  | method d => method d.unnumbered
  | malformed p => malformed p

def ClassDeclaration.unnumbered (c : ClassDeclaration) : ClassDeclaration :=
  { c with
    id := 0
    members := c.members.map Member.unnumbered }

def MainClass.unnumbered (c : MainClass) : MainClass :=
  { c with
    id := 0
    body := Statement.unnumberedOf c.body }

def Program.unnumbered (p : Program) : Program where
  mainClass := p.mainClass.map (·.unnumbered)
  classes := p.classes.map (·.unnumbered)

end MiniJava
