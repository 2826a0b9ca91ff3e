import MiniJava.Resolve.Declarations

namespace MiniJava.Resolve

structure Place where
  scope : ScopeId
  inMain : Bool

def keepType (node : NodeId) (type : Option StaticType) : Action (Option StaticType) := do
  match type with
  | none => return none
  | some type =>
    modifyTable (·.setType node type)
    return some type

def selfType (table : SymbolTable) (scope : ScopeId) : Option StaticType :=
  (table.enclosingClass? scope).bind fun c => (table.symbol? c).map fun symbol => .object symbol.name

def resolveReference (place : Place) (id : NodeId) (name : String) (position : Position) :
    Action (Option StaticType) := do
  let table := (← get).table
  match table.resolve? place.scope .variableNames name with
  | none =>
    report (.unresolved .aVariable name) position
    return none
  | some symbol =>
    modifyTable (·.bindReference id symbol)
    return ((table.symbol? symbol).bind Symbol.asVariable?).map (·.type)

def resolveCreation (id : NodeId) (typeName : String) (position : Position) :
    Action (Option StaticType) := do
  match (← get).table.resolveType? typeName with
  | none =>
    report (.unresolved .aType typeName) position
    return none
  | some symbol =>
    modifyTable (·.bindReference id symbol)
    return some (.object typeName)

def classScope? (table : SymbolTable) (className : String) : Option ScopeId :=
  (((table.resolveType? className).bind table.symbol?).bind Symbol.asType?).bind (·.scope)

-- Binds the call of a method on an object, found in its class or the nearest superclass.
def resolveMethod (className : String) (id : NodeId) (method : String) (arguments : Nat)
    (position : Position) : Action (Option StaticType) := do
  let table := (← get).table
  match classScope? table className with
  | none => return none
  | some scope =>
    match table.resolve? scope .methodNames method with
    | none =>
      report (.unresolved .method method) position
      return none
    | some symbol =>
      match (table.symbol? symbol).bind Symbol.asMethod? with
      | none => return none
      | some found =>
        if found.parameters.length ≠ arguments then
          report (.argumentCount method found.parameters.length arguments) position
        modifyTable (·.bindReference id symbol)
        return some found.returns

-- Binds a call whose receiver has a type. Arrays have a length and no methods.
def resolveCall (receiver : StaticType) (id : NodeId) (method : String) (arguments : Nat)
    (position : Position) : Action (Option StaticType) := do
  if method = Keyword.lengthWord.spelling then
    match receiver with
    | .array _ => return some .int
    | _ =>
      report .lengthOfNonArray position
      return none
  else
    match receiver with
    | .object className => resolveMethod className id method arguments position
    | other =>
      report (.notCallable method other) position
      return none

mutual

def expression (place : Place) : Expression → Action (Option StaticType)
  | .call id receiver method arguments position => do
    modifyTable (·.bindScope id place.scope)
    let receiverType ← expression place receiver
    expressions place arguments
    match receiverType with
    | none => return none
    | some type => keepType id (← resolveCall type id method arguments.length position)
  | .newObject id typeName position => do
    modifyTable (·.bindScope id place.scope)
    keepType id (← resolveCreation id typeName position)
  | .newArray id typeName size position => do
    modifyTable (·.bindScope id place.scope)
    let _ ← expression place size
    checkTypeName typeName position
    keepType id (some (.ofDeclared typeName true))
  | .not id operand _ => do
    let _ ← expression place operand
    keepType id (some .boolean)
  | .binary id op left right _ => do
    let _ ← expression place left
    let _ ← expression place right
    keepType id (some (if op.family = .arithmetic then .int else .boolean))
  | .boolean id _ _ => keepType id (some .boolean)
  | .integer id _ _ => keepType id (some .int)
  | .self id position => do
    modifyTable (·.bindScope id place.scope)
    if place.inMain then report .thisInMain position
    keepType id (selfType (← get).table place.scope)
  | .index id array subscript position => do
    let arrayType ← expression place array
    let _ ← expression place subscript
    match arrayType with
    | none => return none
    | some (.array element) => keepType id (some element)
    | some other =>
      report (.notIndexable other) position
      return none
  | .reference id name position => do
    modifyTable (·.bindScope id place.scope)
    keepType id (← resolveReference place id name position)
  | .malformed _ => return none

def expressions (place : Place) : List Expression → Action Unit
  | [] => return
  | e :: es => do
    let _ ← expression place e
    expressions place es

end

-- Whether a value can be assigned to an expression of that form.
def isAssignable : ExpressionForm → Bool
  | .variableReference | .arrayIndex => true
  | _ => false

def declareLocal (place : Place) (declaration : VariableDeclaration) : Action Unit := do
  let slot ← slotOf (← get).nextLocal .locals declaration.position
  let defined ← defineVariable declaration place.scope slot
  if defined.isSome && slot.isSome then
    modify fun s => { s with nextLocal := s.nextLocal + 1 }

mutual

-- Resolves a statement. A block opens a scope for its locals; branches and loop bodies do not.
def statement (place : Place) : Statement → Action Unit
  | .declare declaration => declareLocal place declaration
  | .print _ value _ | .ret _ value _ | .assert _ value _ => do
    let _ ← expression place value
  | .block id body _ => do
    let scope ← addScope .ofBlock place.scope none
    modifyTable (·.bindScope id scope)
    statements { place with scope } body
  | .assign _ target value _ => do
    unless isAssignable target.form do
      report (.cannotAssign target.form) target.position
    let _ ← expression place target
    let _ ← expression place value
  | .ifThen _ condition onTrue _ => do
    let _ ← expression place condition
    statement place onTrue
  | .ifThenElse _ condition onTrue onFalse _ => do
    let _ ← expression place condition
    statement place onTrue
    statement place onFalse
  | .loop _ condition body _ => do
    let _ ← expression place condition
    statement place body
  | .call id receiver method arguments position => do
    let _ ← expression place (.call id receiver method arguments position)
  | .malformed _ => return

def statements (place : Place) : List Statement → Action Unit
  | [] => return
  | s :: ss => do
    statement place s
    statements place ss

end

def parameters (scope : ScopeId) : (number : Nat) → List VariableDeclaration → Action Unit
  | _, [] => return
  | number, declaration :: declarations => do
    let slot ← slotOf number .parameters declaration.position
    let _ ← defineVariable declaration scope slot
    parameters scope (number + 1) declarations

def methodBody (body : MethodBody) : Action Unit := do
  modify fun s => { s with nextLocal := 0, slotsReported := false }
  parameters body.scope 1 body.parameters
  statements ⟨body.scope, body.isMain⟩ body.statements

-- Resolves a program: its declarations first, then the bodies in the order of definition.
def program (p : Program) : Action Unit := do
  let bodies ← declarations p
  bodies.forM methodBody

end Resolve

structure ResolvedProgram where
  table : SymbolTable
  diagnostics : List Diagnostic

def ResolvedProgram.ofProgram (p : Program) : ResolvedProgram :=
  let (_, state) := Resolve.program p ⟨Resolve.builtinTable, #[], 0, false⟩
  ⟨state.table, state.diagnostics.toList⟩

def SymbolTable.ofProgram (p : Program) : Except CompileError SymbolTable :=
  let resolved := ResolvedProgram.ofProgram p
  acceptUnless resolved.diagnostics resolved.table

end MiniJava
