import MiniJava.Code.Emit
import MiniJava.Resolve.Bodies
import MiniJava.Token.Scan
import MiniJava.Tree.ReadProgram

namespace MiniJava

structure MethodCode where
  name : String
  chunk : Chunk

abbrev ProgramCode := Std.TreeMap Nat MethodCode

def ProgramCode.method? (code : ProgramCode) (name : String) : Option MethodCode :=
  code.values.find? (·.name = name)

namespace Emit

structure MethodTask where
  className : String
  symbol : SymbolId
  statements : List Statement

def mainSymbol (g : Context) (main : MainClass) : Except InternalError SymbolId :=
  Environment.orMissing .mainNotResolved do
    let id ← g.table.scopeOf? main.id
    let scope ← g.table.scope? id
    scope.lookup .methodNames "main"

def method (g : Context) (code : ProgramCode) (task : MethodTask) :
    Except InternalError ProgramCode := do
  let name := ((g.table.symbol? task.symbol).map (·.name)).getD ""
  let handle ← g.environment.methodHandle task.symbol
  let chunk ← chunk g task.statements
  return code.insert handle.number ⟨task.className ++ "." ++ name, chunk⟩

def member (g : Context) (className : String) (code : ProgramCode) :
    Member → Except InternalError ProgramCode
  | .field _ => return code
  | .method declaration => do
    let symbol ← Environment.orMissing (.methodNotResolved className declaration.name)
      (g.table.declaredBy? declaration.id)
    method g code ⟨className, symbol, declaration.body⟩
  | .malformed _ => throw .erroneousTree

def classCode (g : Context) (code : ProgramCode) (c : ClassDeclaration) :
    Except InternalError ProgramCode :=
  c.members.foldlM (member g c.name) code

-- The code of a program: the main method, then the members of the classes in order.
def program (g : Context) (p : Program) : Except InternalError ProgramCode := do
  let main ← Environment.orMissing .noMainClass p.mainClass
  let code ← method g ∅ ⟨main.name, ← mainSymbol g main, main.body⟩
  p.classes.foldlM (classCode g) code

end Emit

def ProgramCode.generate (table : SymbolTable) (environment : Environment) (p : Program) :
    Except CompileError ProgramCode :=
  (Emit.program ⟨table, environment⟩ p).mapError .internal

structure Compilation where
  program : Program
  code : ProgramCode

def Compilation.ofText (source : String) : Except CompileError Compilation := do
  let program ← Program.ofStream (.ofText source)
  let table ← SymbolTable.ofProgram program
  let code ← ProgramCode.generate table (.sequential table) program
  return ⟨program, code⟩

end MiniJava
