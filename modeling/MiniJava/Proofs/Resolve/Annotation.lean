import Mathlib.Data.List.Nodup
import MiniJava.Proofs.Typing.Notes

namespace MiniJava

-- The symbol of a declaration.
def VariableDeclaration.symbol (d : VariableDeclaration) (slot : Option Nat) : Symbol :=
  ⟨d.name, .ofVariable ⟨Resolve.staticType d.type, d.storage, slot⟩, d.id⟩

namespace SymbolTable

def HasVariable (t : SymbolTable) (s : SymbolId) (d : VariableDeclaration) : Prop :=
  ∃ slot, t.symbol? s = some (d.symbol slot)

def HasMethod (t : SymbolTable) (s : SymbolId) (m : Signature) : Prop :=
  ∃ scope owner, t.symbol? s =
    some ⟨m.name, .ofMethod ⟨m.returns, m.parameters, scope, owner⟩, m.declaration⟩

-- All symbols are still there.
def Keeps (t t' : SymbolTable) : Prop :=
  ∀ i x, t.symbol? i = some x → t'.symbol? i = some x

theorem HasVariable.keep (h : Keeps t t') (hv : HasVariable t s d) : HasVariable t' s d :=
  have ⟨slot, hs⟩ := hv
  ⟨slot, h _ _ hs⟩

theorem HasMethod.keep (h : Keeps t t') (hm : HasMethod t s m) : HasMethod t' s m :=
  have ⟨scope, owner, hs⟩ := hm
  ⟨scope, owner, h _ _ hs⟩

-- What a table has of the nodes of a program.
def notes (t : SymbolTable) : Typing.Notes where
  type i τ     := t.typeOf? i = some τ
  refersTo i d := ∃ s, t.referenced? i = some s ∧ t.HasVariable s d
  calls i m    := ∃ s, t.referenced? i = some s ∧ t.HasMethod s m

end SymbolTable

namespace Resolve

def State.size (σ : State) : Nat :=
  σ.diagnostics.size

-- Diagnostics are only added.
structure Adds (σ σ' : State) : Prop where
  size_le  : σ.size ≤ σ'.size
  semantic : ∀ d ∈ σ'.diagnostics, d ∈ σ.diagnostics ∨ d.kind = .semantic

namespace Adds

theorem refl (σ : State) : Adds σ σ :=
  ⟨Nat.le_refl _, fun _ => .inl⟩

theorem trans (h : Adds σ σ') (h' : Adds σ' σ'') : Adds σ σ'' where
  size_le := Nat.le_trans h.size_le h'.size_le
  semantic d hd := (h'.semantic d hd).elim (h.semantic d) .inr

theorem of_eq (h : σ'.diagnostics = σ.diagnostics) : Adds σ σ' :=
  ⟨Nat.le_of_eq (congrArg Array.size h.symm), fun _ hd => .inl (h ▸ hd)⟩

end Adds

theorem size_report (error : SemanticError) (p : Position) (σ : State) :
    (report error p σ).2.size = σ.size + 1 :=
  Array.size_push _

theorem Adds.report (error : SemanticError) (p : Position) (σ : State) :
    Adds σ (Resolve.report error p σ).2 where
  size_le := (size_report error p σ).symm ▸ Nat.le_succ _
  semantic d hd := by
    cases Array.mem_push.mp hd with
    | inl hd => exact .inl hd
    | inr hd => exact .inr (hd ▸ rfl)

-- Only the nodes in `ids` get notes.
structure Annotates (ids : List NodeId) (σ σ' : State) : Prop where
  adds       : Adds σ σ'
  scopes     : σ'.table.scopes = σ.table.scopes
  symbols    : σ'.table.symbols = σ.table.symbols
  declared   : σ'.table.declared = σ.table.declared
  nextLocal  : σ'.nextLocal = σ.nextLocal
  reported   : σ'.slotsReported = σ.slotsReported
  nodeScopes : ∀ i ∉ ids, σ'.table.scopeOf? i = σ.table.scopeOf? i
  types      : ∀ i ∉ ids, σ'.table.typeOf? i = σ.table.typeOf? i
  references : ∀ i ∉ ids, σ'.table.referenced? i = σ.table.referenced? i

namespace Annotates

theorem refl (ids : List NodeId) (σ : State) : Annotates ids σ σ :=
  ⟨.refl σ, rfl, rfl, rfl, rfl, rfl, fun _ _ => rfl, fun _ _ => rfl, fun _ _ => rfl⟩

theorem mono (h : Annotates ids σ σ') (hs : ids ⊆ ids') : Annotates ids' σ σ' :=
  { h with
    nodeScopes := fun i hi => h.nodeScopes i fun hm => hi (hs hm)
    types      := fun i hi => h.types i fun hm => hi (hs hm)
    references := fun i hi => h.references i fun hm => hi (hs hm) }

theorem trans (h : Annotates ids σ σ') (h' : Annotates ids σ' σ'') : Annotates ids σ σ'' where
  adds            := h.adds.trans h'.adds
  scopes          := h'.scopes.trans h.scopes
  symbols         := h'.symbols.trans h.symbols
  declared        := h'.declared.trans h.declared
  nextLocal       := h'.nextLocal.trans h.nextLocal
  reported        := h'.reported.trans h.reported
  nodeScopes i hi := (h'.nodeScopes i hi).trans (h.nodeScopes i hi)
  types i hi      := (h'.types i hi).trans (h.types i hi)
  references i hi := (h'.references i hi).trans (h.references i hi)

theorem report (error : SemanticError) (p : Position) (σ : State) :
    Annotates ids σ (Resolve.report error p σ).2 :=
  { refl ids σ with adds := .report error p σ }

variable {ids : List NodeId} {i : NodeId}

theorem bindScope (hi : i ∈ ids) (scope : ScopeId) (σ : State) :
    Annotates ids σ (modifyTable (·.bindScope i scope) σ).2 :=
  { refl ids σ with
    adds       := .of_eq rfl
    nodeScopes := fun j hj => by
      have hij : i ≠ j := fun h => hj (h ▸ hi)
      show (σ.table.nodeScopes.insert i scope)[j]? = _
      simp [Std.TreeMap.getElem?_insert, hij, SymbolTable.scopeOf?] }

theorem bindReference (hi : i ∈ ids) (s : SymbolId) (σ : State) :
    Annotates ids σ (modifyTable (·.bindReference i s) σ).2 :=
  { refl ids σ with
    adds       := .of_eq rfl
    references := fun j hj => by
      have hij : i ≠ j := fun h => hj (h ▸ hi)
      show (σ.table.references.insert i s)[j]? = _
      simp [Std.TreeMap.getElem?_insert, hij, SymbolTable.referenced?] }

theorem setType (hi : i ∈ ids) (τ : StaticType) (σ : State) :
    Annotates ids σ (modifyTable (·.setType i τ) σ).2 :=
  { refl ids σ with
    adds  := .of_eq rfl
    types := fun j hj => by
      have hij : i ≠ j := fun h => hj (h ▸ hi)
      show (σ.table.types.insert i τ)[j]? = _
      simp [Std.TreeMap.getElem?_insert, hij, SymbolTable.typeOf?] }

theorem keepType (hi : i ∈ ids) (τ : Option StaticType) (σ : State) :
    Annotates ids σ (Resolve.keepType i τ σ).2 := by
  cases τ with
  | none   => exact refl ids σ
  | some τ => exact setType hi τ σ

theorem symbol? (h : Annotates ids σ σ') : σ.table.Keeps σ'.table :=
  fun i _ hx => (congrArg (·[i]?) h.symbols).trans hx

-- The notes of other nodes are kept.
theorem keeps (h : Annotates ids σ σ') (hd : ids'.Disjoint ids) :
    σ.table.notes.Keeps ids' σ'.table.notes where
  type i hi _ hτ := (h.types i (hd hi)).trans hτ
  refersTo i hi _ := fun ⟨s, hr, hv⟩ => ⟨s, (h.references i (hd hi)).trans hr, hv.keep h.symbol?⟩
  calls i hi _ := fun ⟨s, hr, hm⟩ => ⟨s, (h.references i (hd hi)).trans hr, hm.keep h.symbol?⟩

end Annotates

end Resolve

end MiniJava
