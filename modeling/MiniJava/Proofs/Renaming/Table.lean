import MiniJava.Proofs.Renaming.Basic
import MiniJava.Symbol.Table

namespace MiniJava

section

variable (r : Renaming)

def SymbolKind.rename : SymbolKind → SymbolKind
  | ofType x     => ofType x
  | ofMethod x   => ofMethod
    { x with
      returns    := x.returns.rename r.name
      parameters := x.parameters.map (·.rename r.name) }
  | ofVariable x => ofVariable { x with type := x.type.rename r.name }

def Symbol.rename (x : Symbol) : Symbol :=
  ⟨r.name x.name, x.kind.rename r, x.declaration⟩

structure Scope.Renamed (b b' : Scope) : Prop where
  kind   : b'.kind = b.kind
  parent : b'.parent = b.parent
  owner  : b'.owner = b.owner
  lookup : ∀ space name, b'.lookup space (r.name name) = b.lookup space name

structure SymbolTable.Renamed (t t' : SymbolTable) : Prop where
  size       : t'.scopes.size = t.scopes.size
  scopes     : ∀ i, Option.Rel (Scope.Renamed r) (t.scope? i) (t'.scope? i)
  symbols    : t'.symbols = t.symbols.map (·.rename r)
  nodeScopes : t'.nodeScopes = t.nodeScopes
  declared   : t'.declared = t.declared
  references : t'.references = t.references
  types      : ∀ i, t'.typeOf? i = (t.typeOf? i).map (·.rename r.name)

end

variable {r : Renaming}

namespace Symbol

theorem namespace_rename (x : Symbol) : (x.rename r).kind.namespace = x.kind.namespace := by
  obtain ⟨_, _ | _ | _, _⟩ := x <;> rfl

theorem asType?_rename (x : Symbol) : (x.rename r).asType? = x.asType? := by
  obtain ⟨_, _ | _ | _, _⟩ := x <;> rfl

theorem rename_modifyType (change : TypeSymbol → TypeSymbol) (x : Symbol) :
    (x.rename r).modifyType change = (x.modifyType change).rename r := by
  obtain ⟨_, _ | _ | _, _⟩ := x <;> rfl

end Symbol

namespace Scope.Renamed

variable {b b' : Scope}

theorem of_empty (k : ScopeKind) (p : Option ScopeId) (o : Option SymbolId) :
    (Scope.empty k p o).Renamed r (.empty k p o) :=
  ⟨rfl, rfl, rfl, fun _ _ => by rw [lookup_empty, lookup_empty]⟩

theorem insert (h : b.Renamed r b') (space : Namespace) (name : String) (id : SymbolId) :
    (b.insert space name id).Renamed r (b'.insert space (r.name name) id) where
  kind             := by rw [kind_insert, kind_insert, h.kind]
  parent           := by rw [parent_insert, parent_insert, h.parent]
  owner            := by rw [owner_insert, owner_insert, h.owner]
  lookup space' name' := by
    simp only [lookup_insert, Renaming.name_injective.eq_iff, h.lookup]

end Scope.Renamed

theorem Walk.along_congr {view : Nat → Option β} {view' : Nat → Option β'} {parent : β → Option Nat}
    {parent' : β' → Option Nat} {stop : Nat → β → Option α} {stop' : Nat → β' → Option α}
    (h : ∀ i, Option.Rel (fun b b' => parent' b' = parent b ∧ stop' i b' = stop i b) (view i) (view' i))
    (steps i : Nat) : along view' parent' stop' steps i = along view parent stop steps i := by
  induction steps generalizing i with
  | zero          => rfl
  | succ steps hi =>
    have h := h i
    rw [along, along]
    generalize view i = o at h
    generalize view' i = o' at h
    cases h with
    | none   => rfl
    | some h =>
      simp only [h.1, h.2]
      cases stop i _ with
      | some _ => rfl
      | none   =>
        cases parent _ with
        | none   => rfl
        | some j => exact hi j

namespace SymbolTable.Renamed

variable {t t' : SymbolTable}

theorem symbol? (h : t.Renamed r t') (i : SymbolId) :
    t'.symbol? i = (t.symbol? i).map (·.rename r) := by
  rw [SymbolTable.symbol?, h.symbols, Array.getElem?_map]
  rfl

theorem walkScopes (h : t.Renamed r t') {stop stop' : Scope → Option α}
    (hs : ∀ b b', b.Renamed r b' → stop' b' = stop b) (i : ScopeId) :
    t'.walkScopes stop' i = t.walkScopes stop i := by
  rw [SymbolTable.walkScopes, SymbolTable.walkScopes, h.size]
  refine Walk.along_congr (fun i => ?_) _ i
  have hb := h.scopes i
  generalize t.scope? i = o at hb
  generalize t'.scope? i = o' at hb
  cases hb with
  | none    => exact .none
  | some hb => exact .some ⟨hb.parent, hs _ _ hb⟩

theorem resolve? (h : t.Renamed r t') (i : ScopeId) (space : Namespace) (name : String) :
    t'.resolve? i space (r.name name) = t.resolve? i space name :=
  congrArg Walk.found? (h.walkScopes (fun _ _ hb => hb.lookup space name) i)

theorem resolveType? (h : t.Renamed r t') (name : String) :
    t'.resolveType? (r.name name) = t.resolveType? name := by
  have hb := h.scopes globalScope
  rw [SymbolTable.resolveType?, SymbolTable.resolveType?]
  generalize t.scope? globalScope = o at hb
  generalize t'.scope? globalScope = o' at hb
  cases hb with
  | none    => rfl
  | some hb => exact hb.lookup .typeNames name

theorem enclosingClass? (h : t.Renamed r t') (i : ScopeId) :
    t'.enclosingClass? i = t.enclosingClass? i := by
  refine congrArg (fun w => (Walk.found? w).join) (h.walkScopes (fun _ _ hb => ?_) i)
  rw [hb.kind, hb.owner]

theorem inherits (h : t.Renamed r t') (type ancestor : SymbolId) :
    t'.inherits type ancestor = t.inherits type ancestor := by
  rw [SymbolTable.inherits, SymbolTable.inherits, h.symbols, Array.size_map]
  refine congrArg (fun w => (Walk.found? w).isSome) (Walk.along_congr (fun i => ?_) _ _)
  rw [h.symbol?]
  cases t.symbol? i with
  | none   => exact .none
  | some x => exact .some ⟨by rw [x.asType?_rename], rfl⟩

theorem accepts (h : t.Renamed r t') (i : ScopeId) (x : Symbol) :
    t'.accepts i (x.rename r) = t.accepts i x := by
  have hb := h.scopes i
  rw [SymbolTable.accepts, SymbolTable.accepts]
  generalize t.scope? i = o at hb
  generalize t'.scope? i = o' at hb
  cases hb with
  | none    => rfl
  | some hb =>
    simp only [x.namespace_rename]
    exact congrArg Option.isNone (hb.lookup x.kind.namespace x.name)

theorem addScope (h : t.Renamed r t') (kind : ScopeKind) (parent : ScopeId) (owner : Option SymbolId) :
    (t'.addScope kind parent owner).1 = (t.addScope kind parent owner).1 ∧
      (t.addScope kind parent owner).2.Renamed r (t'.addScope kind parent owner).2 := by
  refine ⟨h.size, { h with size := ?size, scopes := fun i => ?scopes }⟩
  case size => simp [SymbolTable.addScope, h.size]
  case scopes =>
    rw [scope?_addScope, scope?_addScope, h.size]
    split
    case isTrue  => exact .some (.of_empty kind parent owner)
    case isFalse => exact h.scopes i

theorem modifyScope (h : t.Renamed r t') {f g : Scope → Scope}
    (hc : ∀ b b', b.Renamed r b' → (f b).Renamed r (g b')) (i j : ScopeId) :
    Option.Rel (Scope.Renamed r) (t.scopes.modify i f)[j]? (t'.scopes.modify i g)[j]? := by
  have hb : Option.Rel (Scope.Renamed r) t.scopes[j]? t'.scopes[j]? := h.scopes j
  rw [Array.getElem?_modify, Array.getElem?_modify]
  generalize t.scopes[j]? = o at hb
  generalize t'.scopes[j]? = o' at hb
  split
  case isTrue  =>
    cases hb with
    | none    => exact .none
    | some hb => exact .some (hc _ _ hb)
  case isFalse => exact hb

theorem setParent (h : t.Renamed r t') (i parent : ScopeId) :
    (t.setParent i parent).Renamed r (t'.setParent i parent) :=
  { h with
    size   := by simp [SymbolTable.setParent, h.size]
    scopes := h.modifyScope (f := fun s => { s with parent := some parent })
      (g := fun s => { s with parent := some parent })
      (fun _ _ hb => ⟨hb.kind, rfl, hb.owner, hb.lookup⟩) i }

theorem setOwner (h : t.Renamed r t') (i : ScopeId) (owner : SymbolId) :
    (t.setOwner i owner).Renamed r (t'.setOwner i owner) :=
  { h with
    size   := by simp [SymbolTable.setOwner, h.size]
    scopes := h.modifyScope (f := fun s => { s with owner := some owner })
      (g := fun s => { s with owner := some owner })
      (fun _ _ hb => ⟨hb.kind, hb.parent, rfl, hb.lookup⟩) i }

theorem modifySymbol (h : t.Renamed r t') (change : TypeSymbol → TypeSymbol) (i : SymbolId) :
    t'.symbols.modify i (·.modifyType change) =
      (t.symbols.modify i (·.modifyType change)).map (·.rename r) := by
  rw [h.symbols]
  refine Array.ext_getElem? fun j => ?_
  simp only [Array.getElem?_modify, Array.getElem?_map]
  split
  case isTrue  => simp [Function.comp_def, Symbol.rename_modifyType]
  case isFalse => rfl

theorem setTypeScope (h : t.Renamed r t') (i : SymbolId) (scope : ScopeId) :
    (t.setTypeScope i scope).Renamed r (t'.setTypeScope i scope) :=
  { h with symbols := h.modifySymbol _ i }

theorem setSuperclass (h : t.Renamed r t') (i superclass : SymbolId) :
    (t.setSuperclass i superclass).Renamed r (t'.setSuperclass i superclass) :=
  { h with symbols := h.modifySymbol _ i }

theorem bindScope (h : t.Renamed r t') (node : NodeId) (i : ScopeId) :
    (t.bindScope node i).Renamed r (t'.bindScope node i) :=
  { h with nodeScopes := congrArg (·.insert node i) h.nodeScopes }

theorem bindReference (h : t.Renamed r t') (node : NodeId) (i : SymbolId) :
    (t.bindReference node i).Renamed r (t'.bindReference node i) :=
  { h with references := congrArg (·.insert node i) h.references }

theorem setType (h : t.Renamed r t') (node : NodeId) (τ : StaticType) :
    (t.setType node τ).Renamed r (t'.setType node (τ.rename r.name)) :=
  { h with
    types := fun i => by
      have hi := h.types i
      simp only [typeOf?] at hi
      simp only [typeOf?, SymbolTable.setType, Std.TreeMap.getElem?_insert, hi]
      split <;> rfl }

theorem addSymbol (h : t.Renamed r t') (i : ScopeId) (x : Symbol) :
    (t'.addSymbol i (x.rename r)).1 = (t.addSymbol i x).1 ∧
      (t.addSymbol i x).2.Renamed r (t'.addSymbol i (x.rename r)).2 := by
  have hsize : t'.symbols.size = t.symbols.size := by rw [h.symbols, Array.size_map]
  refine ⟨hsize, { h with
    size     := ?size
    scopes   := fun j => ?scopes
    symbols  := ?symbols
    declared := ?declared }⟩
  case size => simp [SymbolTable.addSymbol, h.size]
  case scopes =>
    refine h.modifyScope (fun _ _ hb => ?_) i j
    rw [x.namespace_rename, hsize]
    exact hb.insert x.kind.namespace x.name t.symbols.size
  case symbols => simp [SymbolTable.addSymbol, h.symbols]
  case declared =>
    obtain ⟨name, kind, declaration⟩ := x
    cases declaration with
    | none      => exact h.declared
    | some node =>
      show t'.declared.insert node t'.symbols.size = t.declared.insert node t.symbols.size
      rw [h.declared, hsize]

end SymbolTable.Renamed

end MiniJava
