import MiniJava.Symbol.StaticType
import MiniJava.Tree.Basic

namespace MiniJava

abbrev ScopeId := Nat

abbrev SymbolId := Nat

-- The name spaces. A name may stand for one symbol in each of them.
inductive Namespace
  | typeNames
  | methodNames
  | variableNames
deriving DecidableEq

def Namespace.word : Namespace → String
  | typeNames => "type"
  | methodNames => "method"
  | variableNames => "variable"

structure TypeSymbol where
  builtin : Bool
  scope : Option ScopeId
  superclass : Option SymbolId
deriving DecidableEq

structure MethodSymbol where
  returns : StaticType
  parameters : List StaticType
  scope : ScopeId
  owner : SymbolId
deriving DecidableEq

structure VariableSymbol where
  type : StaticType
  storage : Storage
  -- The argument number of a formal, from one, or the slot of a local, from zero.
  slot : Option Nat
deriving DecidableEq

inductive SymbolKind
  | ofType (symbol : TypeSymbol)
  | ofMethod (symbol : MethodSymbol)
  | ofVariable (symbol : VariableSymbol)
deriving DecidableEq

def SymbolKind.namespace : SymbolKind → Namespace
  | ofType _ => .typeNames
  | ofMethod _ => .methodNames
  | ofVariable _ => .variableNames

structure Symbol where
  name : String
  kind : SymbolKind
  -- The node that declares the symbol; built-in types and the main method have none.
  declaration : Option NodeId
deriving DecidableEq

namespace Symbol

def asType? (s : Symbol) : Option TypeSymbol :=
  match s.kind with
  | .ofType type => some type
  | _ => none

def asMethod? (s : Symbol) : Option MethodSymbol :=
  match s.kind with
  | .ofMethod method => some method
  | _ => none

def asVariable? (s : Symbol) : Option VariableSymbol :=
  match s.kind with
  | .ofVariable declared => some declared
  | _ => none

def modifyType (change : TypeSymbol → TypeSymbol) (s : Symbol) : Symbol :=
  match s.kind with
  | .ofType type => { s with kind := .ofType (change type) }
  | _ => s

end Symbol

end MiniJava
