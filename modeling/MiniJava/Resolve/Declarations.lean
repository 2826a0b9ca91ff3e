import MiniJava.Resolve.Basic

namespace MiniJava.Resolve

inductive AnyClass
  | main (declaration : MainClass)
  | regular (declaration : ClassDeclaration)

namespace AnyClass

def id : AnyClass → NodeId
  | main c => c.id
  | regular c => c.id

def name : AnyClass → String
  | main c => c.name
  | regular c => c.name

def position : AnyClass → Position
  | main c => c.position
  | regular c => c.position

end AnyClass

def allClasses (program : Program) : List AnyClass :=
  program.mainClass.toList.map .main ++ program.classes.map .regular

structure DefinedClass where
  declaration : AnyClass
  symbol : SymbolId
  scope : ScopeId

structure MethodBody where
  scope : ScopeId
  parameters : List VariableDeclaration
  statements : List Statement
  isMain : Bool

def builtinTable : SymbolTable :=
  builtinTypes.foldl
    (fun table name =>
      (table.addSymbol SymbolTable.globalScope ⟨name, .ofType ⟨true, none, none⟩, none⟩).2)
    .empty

-- Defines a class and opens its scope. A second class of a name is reported and left out.
def defineClass (c : AnyClass) : Action (Option DefinedClass) := do
  match ← define SymbolTable.globalScope ⟨c.name, .ofType ⟨false, none, none⟩, c.id⟩ with
  | none =>
    report (.duplicate .aClass c.name) c.position
    return none
  | some symbol =>
    let scope ← addScope .ofClass SymbolTable.globalScope symbol
    modifyTable fun table => (table.setTypeScope symbol scope).bindScope c.id scope
    return some ⟨c, symbol, scope⟩

-- The scope of a class that can be extended, which a built-in type cannot.
def extensibleScope? (table : SymbolTable) (type : SymbolId) : Option ScopeId :=
  ((table.symbol? type).bind Symbol.asType?).bind fun type =>
    if type.builtin then none else type.scope

-- Links a class to the class that it extends. Without a class of that name, or if the link would
-- close a cycle, the class stays without superclass.
def linkSuperclass (c : DefinedClass) : Action Unit := do
  match c.declaration with
  | .main _ => return
  | .regular declaration =>
    match declaration.superclass with
    | none => return
    | some superclass =>
      let table := (← get).table
      match table.resolveType? superclass with
      | none => report (.unresolved .superclass superclass) declaration.position
      | some parent =>
        match extensibleScope? table parent with
        | none => report (.extendsBuiltin declaration.name superclass) declaration.position
        | some parentScope =>
          if table.inherits parent c.symbol then
            report (.cyclicInheritance declaration.name) declaration.position
          else
            modifyTable fun table =>
              (table.setSuperclass c.symbol parent).setParent c.scope parentScope

def defineMain (main : MainClass) (c : DefinedClass) : Action (Option MethodBody) := do
  let scope ← addScope .ofMethod c.scope none
  match ← define c.scope ⟨"main", .ofMethod ⟨.void, [], scope, c.symbol⟩, none⟩ with
  | none => return none
  | some symbol =>
    modifyTable (·.setOwner scope symbol)
    return some ⟨scope, [], main.body, true⟩

def defineMethod (declaration : MethodDeclaration) (c : DefinedClass) :
    Action (Option MethodBody) := do
  checkTypeName declaration.returns.name declaration.position
  let scope ← addScope .ofMethod c.scope none
  let parameters := declaration.parameters.map fun p => staticType p.type
  let kind := .ofMethod ⟨staticType declaration.returns, parameters, scope, c.symbol⟩
  match ← define c.scope ⟨declaration.name, kind, declaration.id⟩ with
  | none =>
    report (.duplicate .method declaration.name) declaration.position
    return none
  | some symbol =>
    modifyTable fun table => (table.setOwner scope symbol).bindScope declaration.id scope
    return some ⟨scope, declaration.parameters, declaration.body, false⟩

def defineMember (c : DefinedClass) : Member → Action (Option MethodBody)
  | .field declaration => do
    let _ ← defineVariable declaration c.scope none
    return none
  | .method declaration => defineMethod declaration c
  | .malformed _ => return none

def defineMembers (c : DefinedClass) : Action (List MethodBody) := do
  match c.declaration with
  | .main declaration => return (← defineMain declaration c).toList
  | .regular declaration => return (← declaration.members.mapM (defineMember c)).filterMap id

-- Defines everything that a program declares outside of method bodies, which it gives. All types
-- are defined before classes are linked, and all classes are linked before members are defined.
def declarations (program : Program) : Action (List MethodBody) := do
  let classes := (← (allClasses program).mapM defineClass).filterMap id
  classes.forM linkSuperclass
  return (← classes.mapM defineMembers).flatten

end MiniJava.Resolve
