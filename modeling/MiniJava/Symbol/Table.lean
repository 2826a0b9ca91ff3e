import MiniJava.Symbol.Basic
import Std.Data.TreeMap

namespace MiniJava

inductive ScopeKind
  | global
  | ofClass
  | ofMethod
  | ofBlock
deriving DecidableEq

abbrev Names := Std.TreeMap String SymbolId

-- The parent of a scope is the scope around it, and the parent of a class scope is the scope of its
-- superclass. So a name is looked up by walking from scope to scope.
structure Scope where
  kind : ScopeKind
  parent : Option ScopeId
  owner : Option SymbolId
  typeNames : Names
  methodNames : Names
  variableNames : Names

namespace Scope

def empty (kind : ScopeKind) (parent : Option ScopeId) (owner : Option SymbolId) : Scope :=
  ⟨kind, parent, owner, ∅, ∅, ∅⟩

def names (s : Scope) : Namespace → Names
  | .typeNames => s.typeNames
  | .methodNames => s.methodNames
  | .variableNames => s.variableNames

def lookup (s : Scope) (space : Namespace) (name : String) : Option SymbolId :=
  (s.names space)[name]?

def insert (s : Scope) (space : Namespace) (name : String) (id : SymbolId) : Scope :=
  match space with
  | .typeNames => { s with typeNames := s.typeNames.insert name id }
  | .methodNames => { s with methodNames := s.methodNames.insert name id }
  | .variableNames => { s with variableNames := s.variableNames.insert name id }

@[simp]
theorem lookup_empty (kind : ScopeKind) (parent : Option ScopeId) (owner : Option SymbolId)
    (space : Namespace) (name : String) : (empty kind parent owner).lookup space name = none := by
  cases space <;> simp [lookup, names, empty]

theorem lookup_insert (s : Scope) (space space' : Namespace) (name name' : String)
    (id : SymbolId) :
    (s.insert space name id).lookup space' name' =
      if space = space' ∧ name = name' then some id else s.lookup space' name' := by
  cases space <;> cases space' <;>
    simp [lookup, names, insert, Std.TreeMap.getElem?_insert]

@[simp]
theorem parent_insert (s : Scope) (space : Namespace) (name : String) (id : SymbolId) :
    (s.insert space name id).parent = s.parent := by
  cases space <;> rfl

@[simp]
theorem kind_insert (s : Scope) (space : Namespace) (name : String) (id : SymbolId) :
    (s.insert space name id).kind = s.kind := by
  cases space <;> rfl

@[simp]
theorem owner_insert (s : Scope) (space : Namespace) (name : String) (id : SymbolId) :
    (s.insert space name id).owner = s.owner := by
  cases space <;> rfl

end Scope

structure SymbolTable where
  scopes : Array Scope
  symbols : Array Symbol
  nodeScopes : Std.TreeMap NodeId ScopeId
  declared : Std.TreeMap NodeId SymbolId
  references : Std.TreeMap NodeId SymbolId
  types : Std.TreeMap NodeId StaticType

inductive Walk (α : Type)
  | found (value : α)
  | exhausted
  | dangling (id : Nat)
  -- Never: an element is met again and again.
  | endless
deriving DecidableEq

namespace Walk

def found? : Walk α → Option α
  | found value => some value
  | _ => none

-- Walks `steps` elements at most, up to one where `stop` gives a value.
def along (view : Nat → Option β) (parent : β → Option Nat) (stop : Nat → β → Option α) :
    (steps : Nat) → (id : Nat) → Walk α
  | 0, _ => endless
  | steps + 1, id =>
    match view id with
    | none => dangling id
    | some element =>
      match stop id element with
      | some value => found value
      | none =>
        match parent element with
        | none => exhausted
        | some next => along view parent stop steps next

end Walk

inductive Definition (α : Type)
  | added (id : SymbolId) (table : α)
  | taken
  | noScope

namespace SymbolTable

def globalScope : ScopeId := 0

def empty : SymbolTable where
  scopes := #[.empty .global none none]
  symbols := #[]
  nodeScopes := ∅
  declared := ∅
  references := ∅
  types := ∅

def scope? (t : SymbolTable) (id : ScopeId) : Option Scope :=
  t.scopes[id]?

def symbol? (t : SymbolTable) (id : SymbolId) : Option Symbol :=
  t.symbols[id]?

def scopeOf? (t : SymbolTable) (node : NodeId) : Option ScopeId :=
  t.nodeScopes[node]?

def declaredBy? (t : SymbolTable) (node : NodeId) : Option SymbolId :=
  t.declared[node]?

def referenced? (t : SymbolTable) (node : NodeId) : Option SymbolId :=
  t.references[node]?

def typeOf? (t : SymbolTable) (node : NodeId) : Option StaticType :=
  t.types[node]?

def addScope (t : SymbolTable) (kind : ScopeKind) (parent : ScopeId) (owner : Option SymbolId) :
    ScopeId × SymbolTable :=
  (t.scopes.size, { t with scopes := t.scopes.push (.empty kind (some parent) owner) })

theorem scope?_addScope (t : SymbolTable) (kind : ScopeKind) (parent id : ScopeId)
    (owner : Option SymbolId) :
    (t.addScope kind parent owner).2.scope? id =
      if id = t.scopes.size then some (.empty kind (some parent) owner) else t.scope? id := by
  simp [scope?, addScope, Array.getElem?_push]

def setParent (t : SymbolTable) (scope parent : ScopeId) : SymbolTable :=
  { t with scopes := t.scopes.modify scope fun s => { s with parent := some parent } }

def setOwner (t : SymbolTable) (scope : ScopeId) (owner : SymbolId) : SymbolTable :=
  { t with scopes := t.scopes.modify scope fun s => { s with owner := some owner } }

def setTypeScope (t : SymbolTable) (type : SymbolId) (scope : ScopeId) : SymbolTable :=
  { t with
    symbols := t.symbols.modify type (·.modifyType fun symbol => { symbol with scope := scope }) }

def setSuperclass (t : SymbolTable) (type superclass : SymbolId) : SymbolTable :=
  { t with
    symbols := t.symbols.modify type
      (·.modifyType fun symbol => { symbol with superclass := superclass }) }

def bindScope (t : SymbolTable) (node : NodeId) (scope : ScopeId) : SymbolTable :=
  { t with nodeScopes := t.nodeScopes.insert node scope }

def bindReference (t : SymbolTable) (node : NodeId) (symbol : SymbolId) : SymbolTable :=
  { t with references := t.references.insert node symbol }

def setType (t : SymbolTable) (node : NodeId) (type : StaticType) : SymbolTable :=
  { t with types := t.types.insert node type }

def accepts (t : SymbolTable) (scope : ScopeId) (symbol : Symbol) : Bool :=
  match t.scope? scope with
  | some found => (found.lookup symbol.kind.namespace symbol.name).isNone
  | none => false

def addSymbol (t : SymbolTable) (scope : ScopeId) (symbol : Symbol) : SymbolId × SymbolTable :=
  let id := t.symbols.size
  (id,
    { t with
      scopes := t.scopes.modify scope (·.insert symbol.kind.namespace symbol.name id)
      symbols := t.symbols.push symbol
      declared := match symbol.declaration with
        | some node => t.declared.insert node id
        | none => t.declared })

theorem accepts_iff {t : SymbolTable} {scope : ScopeId} {symbol : Symbol} :
    t.accepts scope symbol = true ↔
      ∃ s, t.scope? scope = some s ∧ s.lookup symbol.kind.namespace symbol.name = none := by
  unfold accepts
  split <;> simp_all

@[simp]
theorem symbol?_addSymbol_self (t : SymbolTable) (scope : ScopeId) (symbol : Symbol) :
    (t.addSymbol scope symbol).2.symbol? (t.addSymbol scope symbol).1 = some symbol := by
  simp [symbol?, addSymbol]

theorem symbol?_addSymbol_of_lt {t : SymbolTable} {scope : ScopeId} {symbol : Symbol}
    {id : SymbolId} (h : id < t.symbols.size) :
    (t.addSymbol scope symbol).2.symbol? id = t.symbol? id := by
  simp [symbol?, addSymbol, Array.getElem?_push_lt, h]

theorem scope?_addSymbol (t : SymbolTable) (scope id : ScopeId) (symbol : Symbol) :
    (t.addSymbol scope symbol).2.scope? id =
      if scope = id then
        (t.scope? id).map (·.insert symbol.kind.namespace symbol.name t.symbols.size)
      else t.scope? id := by
  simp [scope?, addSymbol, Array.getElem?_modify]

theorem declaredBy?_addSymbol (t : SymbolTable) (scope : ScopeId) (symbol : Symbol) (node : NodeId) :
    (t.addSymbol scope symbol).2.declaredBy? node =
      if symbol.declaration = some node then some t.symbols.size else t.declaredBy? node := by
  obtain ⟨name, kind, declaration⟩ := symbol
  cases declaration with
  | none => rfl
  | some declaring =>
    show (t.declared.insert declaring t.symbols.size)[node]? = _
    simp [Std.TreeMap.getElem?_insert, declaredBy?]

-- Defines a symbol in a scope. A name is defined once in each name space of a scope; scopes do not
-- disturb one another.
def define (t : SymbolTable) (scope : ScopeId) (symbol : Symbol) : Definition SymbolTable :=
  if t.accepts scope symbol then
    let (id, table) := t.addSymbol scope symbol
    .added id table
  else if (t.scope? scope).isSome then .taken
  else .noScope

-- Walks outward from a scope. A walk past as many scopes as there are comes back to one.
def walkScopes (t : SymbolTable) (stop : Scope → Option α) (scope : ScopeId) : Walk α :=
  .along t.scope? Scope.parent (fun _ => stop) (t.scopes.size + 1) scope

def walkName (t : SymbolTable) (scope : ScopeId) (space : Namespace) (name : String) :
    Walk SymbolId :=
  t.walkScopes (·.lookup space name) scope

def resolve? (t : SymbolTable) (scope : ScopeId) (space : Namespace) (name : String) :
    Option SymbolId :=
  (t.walkName scope space name).found?

-- The type of that name. All types are global.
def resolveType? (t : SymbolTable) (name : String) : Option SymbolId :=
  (t.scope? globalScope).bind (·.lookup .typeNames name)

def walkClass (t : SymbolTable) (scope : ScopeId) : Walk (Option SymbolId) :=
  t.walkScopes (fun s => if s.kind = .ofClass then some s.owner else none) scope

def enclosingClass? (t : SymbolTable) (scope : ScopeId) : Option SymbolId :=
  (t.walkClass scope).found?.join

def inherits (t : SymbolTable) (type ancestor : SymbolId) : Bool :=
  (Walk.along t.symbol? (fun symbol => symbol.asType?.bind (·.superclass))
    (fun id _ => if id = ancestor then some () else none) (t.symbols.size + 1) type).found?.isSome

end SymbolTable

end MiniJava
