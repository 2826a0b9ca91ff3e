import Mathlib.Algebra.BigOperators.Group.List.Basic
import Mathlib.Algebra.Order.Ring.Nat
import MiniJava.Tree.Basic

namespace MiniJava

mutual

def Expression.gaps : Expression → Nat
  | .call _ receiver _ arguments _ => receiver.gaps + Expression.gapsOf arguments
  | .newArray _ _ size _ => size.gaps
  | .not _ operand _ => operand.gaps
  | .binary _ _ left right _ => left.gaps + right.gaps
  | .index _ array subscript _ => array.gaps + subscript.gaps
  | .newObject .. | .boolean .. | .integer .. | .self .. | .reference .. => 0
  | .malformed _ => 1

def Expression.gapsOf : List Expression → Nat
  | [] => 0
  | e :: es => e.gaps + Expression.gapsOf es

end

mutual

def Statement.gaps : Statement → Nat
  | .declare _ => 0
  | .print _ e _ | .ret _ e _ | .assert _ e _ => e.gaps
  | .block _ body _ => Statement.gapsOf body
  | .assign _ target value _ => target.gaps + value.gaps
  | .ifThen _ condition onTrue _ => condition.gaps + onTrue.gaps
  | .ifThenElse _ condition onTrue onFalse _ => condition.gaps + onTrue.gaps + onFalse.gaps
  | .loop _ condition body _ => condition.gaps + body.gaps
  | .call _ receiver _ arguments _ => receiver.gaps + Expression.gapsOf arguments
  | .malformed _ => 1

def Statement.gapsOf : List Statement → Nat
  | [] => 0
  | s :: ss => s.gaps + Statement.gapsOf ss

end

def Member.gaps : Member → Nat
  | field _ => 0
  | method declaration => Statement.gapsOf declaration.body
  | malformed _ => 1

def ClassDeclaration.gaps (c : ClassDeclaration) : Nat :=
  (c.members.map Member.gaps).sum

-- A main class that is missing is a gap as well.
def Program.gaps (p : Program) : Nat :=
  p.mainClass.elim 1 (Statement.gapsOf ·.body) + (p.classes.map ClassDeclaration.gaps).sum

-- The placeholders alone.
def Program.placeholders (p : Program) : Nat :=
  p.mainClass.elim 0 (Statement.gapsOf ·.body) + (p.classes.map ClassDeclaration.gaps).sum

theorem Program.gaps_eq (p : Program) :
    p.gaps = p.placeholders + if p.mainClass.isNone then 1 else 0 := by
  obtain ⟨_ | c, classes⟩ := p <;> simp [gaps, placeholders, Nat.add_comm]

end MiniJava
