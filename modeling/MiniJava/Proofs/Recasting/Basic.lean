import MiniJava.Diagnostic.Basic
import MiniJava.Tree.ReadProgram

namespace MiniJava

-- Names that the grammar itself knows stay.
structure Recasting where
  name    : String → String
  place   : Position → Position
  length  : name "length" = "length"
  builtin : ∀ word ∈ builtinTypes, name word = word

variable (ρ : Recasting)

def TokenKind.recast : TokenKind → TokenKind
  | identifier name => identifier (ρ.name name)
  | kind            => kind

def Token.recast (t : Token) : Token :=
  ⟨t.kind.recast ρ, ρ.place t.position⟩

def TypeRef.recast (type : TypeRef) : TypeRef :=
  ⟨ρ.name type.name, type.isArray⟩

def VariableDeclaration.recast (d : VariableDeclaration) : VariableDeclaration :=
  { d with
    name     := ρ.name d.name
    type     := d.type.recast ρ
    position := ρ.place d.position }

mutual

def Expression.recast : Expression → Expression
  | .call i receiver name arguments p =>
    .call i receiver.recast (ρ.name name) (recastAll arguments) (ρ.place p)
  | .newObject i name p               => .newObject i (ρ.name name) (ρ.place p)
  | .newArray i name size p           => .newArray i (ρ.name name) size.recast (ρ.place p)
  | .not i operand p                  => .not i operand.recast (ρ.place p)
  | .binary i op left right p         => .binary i op left.recast right.recast (ρ.place p)
  | .boolean i value p                => .boolean i value (ρ.place p)
  | .integer i value p                => .integer i value (ρ.place p)
  | .self i p                         => .self i (ρ.place p)
  | .index i array subscript p        => .index i array.recast subscript.recast (ρ.place p)
  | .reference i name p               => .reference i (ρ.name name) (ρ.place p)
  | .malformed p                      => .malformed (ρ.place p)

def Expression.recastAll : List Expression → List Expression
  | []      => []
  | e :: es => e.recast :: recastAll es

end

mutual

def Statement.recast : Statement → Statement
  | .declare d                        => .declare (d.recast ρ)
  | .print i e p                      => .print i (e.recast ρ) (ρ.place p)
  | .ret i e p                        => .ret i (e.recast ρ) (ρ.place p)
  | .assert i e p                     => .assert i (e.recast ρ) (ρ.place p)
  | .block i body p                   => .block i (recastAll body) (ρ.place p)
  | .assign i target value p          => .assign i (target.recast ρ) (value.recast ρ) (ρ.place p)
  | .ifThen i e onTrue p              => .ifThen i (e.recast ρ) onTrue.recast (ρ.place p)
  | .ifThenElse i e onTrue onFalse p  =>
    .ifThenElse i (e.recast ρ) onTrue.recast onFalse.recast (ρ.place p)
  | .loop i e body p                  => .loop i (e.recast ρ) body.recast (ρ.place p)
  | .call i receiver name arguments p =>
    .call i (receiver.recast ρ) (ρ.name name) (Expression.recastAll ρ arguments) (ρ.place p)
  | .malformed p                      => .malformed (ρ.place p)

def Statement.recastAll : List Statement → List Statement
  | []      => []
  | s :: ss => s.recast :: recastAll ss

end

def MethodDeclaration.recast (m : MethodDeclaration) : MethodDeclaration :=
  { m with
    name       := ρ.name m.name
    returns    := m.returns.recast ρ
    parameters := m.parameters.map (·.recast ρ)
    body       := Statement.recastAll ρ m.body
    position   := ρ.place m.position }

def Member.recast : Member → Member
  | field d     => field (d.recast ρ)
  | method m    => method (m.recast ρ)
  | malformed p => malformed (ρ.place p)

def ClassDeclaration.recast (c : ClassDeclaration) : ClassDeclaration :=
  { c with
    name       := ρ.name c.name
    superclass := c.superclass.map ρ.name
    members    := c.members.map (·.recast ρ)
    position   := ρ.place c.position }

def MainClass.recast (c : MainClass) : MainClass :=
  { c with
    name     := ρ.name c.name
    body     := Statement.recastAll ρ c.body
    position := ρ.place c.position }

def Program.recast (p : Program) : Program :=
  ⟨p.mainClass.map (·.recast ρ), p.classes.map (·.recast ρ)⟩

-- What is expected is told by the grammar and names no identifier.
def SyntaxError.recast : SyntaxError → SyntaxError
  | unexpected expected found => unexpected expected (found.recast ρ)
  | declarationStart found    => declarationStart (found.recast ρ)
  | termStart found           => termStart (found.recast ρ)
  | error                     => error

-- Reading reports nothing that is found out later.
def Problem.recast : Problem → Problem
  | grammatical error => grammatical (error.recast ρ)
  | problem           => problem

def Diagnostic.recast (d : Diagnostic) : Diagnostic :=
  ⟨d.problem.recast ρ, d.position.map ρ.place⟩

def ParsedProgram.recast (p : ParsedProgram) : ParsedProgram :=
  ⟨p.program.recast ρ, p.diagnostics.map (·.recast ρ)⟩

end MiniJava
