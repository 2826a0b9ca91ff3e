import MiniJava.Symbol.Table
import MiniJava.Text.Document
import MiniJava.Tree.Shape

namespace MiniJava

def StaticType.document : StaticType → Document
  | int => .text "Int"
  | boolean => .text "Boolean"
  | void => .text "Void"
  | object name => .record [("Class", .text name)]
  | array element => .record [("Array", element.document)]

def TypeSymbol.document (s : TypeSymbol) : Document :=
  .record
    [("builtin", .flag s.builtin), ("scope", .optional .nat s.scope),
      ("superclass", .optional .nat s.superclass)]

def MethodSymbol.document (s : MethodSymbol) : Document :=
  .record
    [("return_type", s.returns.document),
      ("parameters", .list (s.parameters.map StaticType.document)),
      ("scope", .nat s.scope), ("owner", .nat s.owner)]

def VariableSymbol.document (s : VariableSymbol) : Document :=
  .record
    [("ty", s.type.document), ("kind", .text s.storage.name), ("index", .optional .nat s.slot)]

def SymbolKind.document : SymbolKind → Document
  | ofType symbol => .record [("Type", symbol.document)]
  | ofMethod symbol => .record [("Method", symbol.document)]
  | ofVariable symbol => .record [("Variable", symbol.document)]

def Symbol.document (s : Symbol) : Document :=
  .record
    [("name", .text s.name), ("kind", s.kind.document),
      ("declaration", .optional .nat s.declaration)]

def ScopeKind.name : ScopeKind → String
  | global => "Global"
  | ofClass => "Class"
  | ofMethod => "Method"
  | ofBlock => "Block"

def Names.document (names : Names) : Document :=
  .record (names.toList.map fun (name, id) => (name, .nat id))

def Scope.document (s : Scope) : Document :=
  .record
    [("kind", .text s.kind.name), ("parent", .optional .nat s.parent),
      ("owner", .optional .nat s.owner), ("types", Names.document s.typeNames),
      ("methods", Names.document s.methodNames), ("variables", Names.document s.variableNames)]

end MiniJava
