import MiniJava.Diagnostic.Basic
import MiniJava.Symbol.Table

namespace MiniJava.Resolve

structure State where
  table : SymbolTable
  diagnostics : Array Diagnostic
  nextLocal : Nat
  slotsReported : Bool

abbrev Action := StateM State

def modifyTable (change : SymbolTable → SymbolTable) : Action Unit :=
  modify fun s => { s with table := change s.table }

def report (error : SemanticError) (position : Position) : Action Unit :=
  modify fun s => { s with diagnostics := s.diagnostics.push (.semantic error position) }

def addScope (kind : ScopeKind) (parent : ScopeId) (owner : Option SymbolId) : Action ScopeId :=
  modifyGet fun s =>
    let (id, table) := s.table.addScope kind parent owner
    (id, { s with table })

def define (scope : ScopeId) (symbol : Symbol) : Action (Option SymbolId) := do
  if (← get).table.accepts scope symbol then
    modifyGet fun s =>
      let (id, table) := s.table.addSymbol scope symbol
      (some id, { s with table })
  else return none

def checkTypeName (name : String) (position : Position) : Action Unit := do
  if ((← get).table.resolveType? name).isNone then report (.unresolved .aType name) position

def staticType (type : TypeRef) : StaticType :=
  .ofDeclared type.name type.isArray

-- Defines a field, formal or local. The slot is the argument or local number, if it has one.
def defineVariable (declaration : VariableDeclaration) (scope : ScopeId) (slot : Option Nat) :
    Action (Option SymbolId) := do
  checkTypeName declaration.type.name declaration.position
  modifyTable (·.bindScope declaration.id scope)
  let kind := .ofVariable ⟨staticType declaration.type, declaration.storage, slot⟩
  let defined ← define scope ⟨declaration.name, kind, declaration.id⟩
  if defined.isNone then report (.duplicate .aVariable declaration.name) declaration.position
  return defined

-- The number as a slot, if instructions can address it. A method that needs more slots is reported
-- once.
def slotOf (number : Nat) (use : SlotUse) (position : Position) : Action (Option Nat) := do
  if number ≤ maxSlot then return some number
  unless (← get).slotsReported do
    modify fun s => { s with slotsReported := true }
    report (.slotsExhausted use) position
  return none

end MiniJava.Resolve
