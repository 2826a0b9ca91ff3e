import MiniJava.Proofs.Resolve.Inheritance

namespace MiniJava.Resolve

open Typing

def HoldsMethods (t : SymbolTable) (b : Scope) (S : List Signature) : Prop :=
  ∀ name, Option.Rel t.HasMethod (b.lookup .methodNames name) (S.find? (·.name = name))

theorem HoldsMethods.keep (h : t.Keeps t') (hb : HoldsMethods t b S) : HoldsMethods t' b S :=
  fun name => rel_imp (fun _ _ => .keep h) (hb name)

structure Members (t : SymbolTable) (D : DefinedClass) (parent : Option DefinedClass) (F : Frame)
    (S : List Signature) : Prop where
  resolved : t.resolveType? D.name = some D.symbol
  symbol   : t.symbol? D.symbol =
    some ⟨D.name, .ofType ⟨false, D.scope, parent.map (·.symbol)⟩, D.declaration.id⟩
  scope    : ∃ b, t.scope? D.scope = some b ∧ b.kind = .ofClass ∧
    b.parent = some (parent.elim SymbolTable.globalScope (·.scope)) ∧ b.owner = some D.symbol ∧
    Holds t b F ∧ HoldsMethods t b S
  node     : t.scopeOf? D.declaration.id = some D.scope

theorem Bare.members (h : Bare t D parent) : Members t D parent [] [] where
  resolved := h.resolved
  symbol   := h.symbol
  scope    := ⟨_, h.scope, rfl, rfl, rfl, fun _ => Scope.lookup_empty .. ▸ .none,
    fun _ => Scope.lookup_empty .. ▸ .none⟩
  node     := h.node

-- Only what is found under each name matters.
theorem Members.congr (h : Members t D parent F S)
    (hF : ∀ name, F'.find? (·.name = name) = F.find? (·.name = name))
    (hS : ∀ name, S'.find? (·.name = name) = S.find? (·.name = name)) :
    Members t D parent F' S' := by
  obtain ⟨b, hb, hk, hp, ho, hF', hS'⟩ := h.scope
  exact ⟨h.resolved, h.symbol, ⟨b, hb, hk, hp, ho, fun name => hF name ▸ hF' name,
    fun name => hS name ▸ hS' name⟩, h.node⟩

-- Only the scope `s` gets new names, and only the nodes in `ids` get scopes.
structure Fills (ids : List NodeId) (s : ScopeId) (σ σ' : State) : Prop where
  adds       : Adds σ σ'
  scopes     : ∀ i b, i ≠ s → σ.table.scope? i = some b → σ'.table.scope? i = some b
  symbols    : σ.table.Keeps σ'.table
  nodeScopes : ∀ i ∉ ids, σ'.table.scopeOf? i = σ.table.scopeOf? i

theorem Grows.fills (h : Grows ids s σ σ') : Fills ids s σ σ' where
  adds       := h.adds
  scopes _ _ := h.scope?
  symbols    := h.symbols
  nodeScopes := h.nodeScopes

namespace Fills

theorem refl (ids : List NodeId) (s : ScopeId) (σ : State) : Fills ids s σ σ :=
  (Grows.refl ids s σ).fills

theorem mono (h : Fills ids s σ σ') (hs : ids ⊆ ids') : Fills ids' s σ σ' :=
  { h with nodeScopes := fun i hi => h.nodeScopes i fun hm => hi (hs hm) }

theorem trans (h : Fills ids s σ σ') (h' : Fills ids s σ' σ'') : Fills ids s σ σ'' where
  adds             := h.adds.trans h'.adds
  scopes i b hi hb := h'.scopes i b hi (h.scopes i b hi hb)
  symbols i x hx   := h'.symbols i x (h.symbols i x hx)
  nodeScopes i hi  := (h'.nodeScopes i hi).trans (h.nodeScopes i hi)

end Fills

theorem Members.keep (h : Members σ.table D parent F S) (hf : Fills ids s σ σ')
    (hs : s ≠ SymbolTable.globalScope) (hD : D.scope ≠ s) (hi : D.declaration.id ∉ ids)
    (ht : Types σ.table names) : Members σ'.table D parent F S where
  resolved := by
    obtain ⟨g, hg, _⟩ := ht.global
    have hr := h.resolved
    rw [SymbolTable.resolveType?, hg] at hr
    rw [SymbolTable.resolveType?, hf.scopes _ g hs.symm hg]
    exact hr
  symbol   := hf.symbols _ _ h.symbol
  scope    := by
    obtain ⟨b, hb, hk, hp, ho, hF, hS⟩ := h.scope
    exact ⟨b, hf.scopes _ b hD hb, hk, hp, ho, hF.keep hf.symbols, hS.keep hf.symbols⟩
  node     := (hf.nodeScopes _ hi).trans h.node

theorem Types.keep (h : Types σ.table names) (hf : Fills ids s σ σ')
    (hs : s ≠ SymbolTable.globalScope) : Types σ'.table names := by
  obtain ⟨g, hg, hk, hp, hl⟩ := h.global
  have hg' := hf.scopes _ g hs.symm hg
  have hr (name) : σ'.table.resolveType? name = σ.table.resolveType? name := by
    rw [SymbolTable.resolveType?, hg', SymbolTable.resolveType?, hg]
  constructor
  case global  => exact ⟨g, hg', hk, hp, hl⟩
  case known   => exact fun name => hr name ▸ h.known name
  case builtin =>
    intro name hname
    obtain ⟨x, hx, hs⟩ := h.builtin name hname
    exact ⟨x, (hr name).trans hx, hf.symbols _ _ hs⟩

-- The scope of a method whose body has not been resolved.
def Opens (t : SymbolTable) (s : ScopeId) (b : MethodBody) : Prop :=
  ∃ owner, t.scope? b.scope = some (.empty .ofMethod (some s) owner)

theorem Opens.keep (h : Opens σ.table s' b) (hf : Fills ids s σ σ') (hs : b.scope ≠ s) :
    Opens σ'.table s' b :=
  have ⟨owner, hb⟩ := h
  ⟨owner, hf.scopes _ _ hs hb⟩

def methodSymbol (m : Signature) (scope : ScopeId) (owner : SymbolId) : Symbol :=
  ⟨m.name, .ofMethod ⟨m.returns, m.parameters, scope, owner⟩, m.declaration⟩

-- The table with a method more, which belongs to the class with the scope `D.scope`.
def withMethod (t : SymbolTable) (D : DefinedClass) (m : Signature) : SymbolTable :=
  let t₁ := (t.addScope .ofMethod D.scope none).2
  let t₂ := (t₁.addSymbol D.scope (methodSymbol m t.scopes.size D.symbol)).2
  t₂.setOwner t.scopes.size t.symbols.size

theorem symbol?_withMethod (t : SymbolTable) (D : DefinedClass) (m : Signature) (i : SymbolId) :
    (withMethod t D m).symbol? i =
      if i = t.symbols.size then some (methodSymbol m t.scopes.size D.symbol) else t.symbol? i := by
  show (t.symbols.push _)[i]? = _
  rw [Array.getElem?_push]
  rfl

theorem keeps_withMethod {t : SymbolTable} : t.Keeps (withMethod t D m) := by
  intro i x hx
  rw [symbol?_withMethod, if_neg (Nat.ne_of_lt (SymbolTable.lt_of_symbol? hx)), hx]

theorem scope?_withMethod {t : SymbolTable} (hb : t.scope? D.scope = some b) (m : Signature)
    (i : ScopeId) :
    (withMethod t D m).scope? i =
      if i = t.scopes.size then some (.empty .ofMethod (some D.scope) (some t.symbols.size))
      else if D.scope = i then some (b.insert .methodNames m.name t.symbols.size)
      else t.scope? i := by
  have hn := Nat.ne_of_lt (SymbolTable.lt_of_scope? hb)
  rw [withMethod, SymbolTable.scope?_setOwner, SymbolTable.scope?_addSymbol,
    SymbolTable.scope?_addScope]
  by_cases hi : i = t.scopes.size
  case pos =>
    rw [hi, if_pos rfl, if_neg hn, if_pos rfl, if_pos rfl]
    rfl
  case neg =>
    rw [if_neg (Ne.symm hi), if_neg hi, if_neg hi]
    by_cases hs : D.scope = i
    case pos =>
      rw [if_pos hs, if_pos hs, ← hs, hb]
      rfl
    case neg => rw [if_neg hs, if_neg hs]

theorem fills_withMethod {σ : State} (hb : σ.table.scope? D.scope = some b) (m : Signature) :
    Fills ids D.scope σ { σ with table := withMethod σ.table D m } where
  adds             := .of_eq rfl
  scopes i b' hi hb' := by
    show (withMethod σ.table D m).scope? i = _
    rw [scope?_withMethod hb, if_neg (Nat.ne_of_lt (SymbolTable.lt_of_scope? hb')), if_neg hi.symm, hb']
  symbols          := keeps_withMethod
  nodeScopes _ _   := rfl

theorem holdsMethods_insert {t : SymbolTable} (hS : HoldsMethods t b S) (D : DefinedClass)
    (m : Signature) :
    HoldsMethods (withMethod t D m) (b.insert .methodNames m.name t.symbols.size) (m :: S) := by
  intro name
  rw [Scope.lookup_insert, List.find?_cons]
  by_cases hn : m.name = name
  case pos =>
    rw [if_pos ⟨rfl, hn⟩, decide_eq_true hn]
    apply Option.Rel.some
    refine ⟨t.scopes.size, D.symbol, ?_⟩
    rw [symbol?_withMethod, if_pos rfl]
    rfl
  case neg =>
    rw [if_neg fun h => hn h.2, decide_eq_false hn]
    exact (hS.keep keeps_withMethod) name

theorem Members.withMethod {t : SymbolTable} (h : Members t D parent F S)
    (hs : D.scope ≠ SymbolTable.globalScope) (ht : Types t names) (m : Signature) :
    Members (Resolve.withMethod t D m) D parent F (m :: S) := by
  obtain ⟨b, hb, hk, hp, ho, hF, hS⟩ := h.scope
  constructor
  case resolved =>
    obtain ⟨g, hg, _⟩ := ht.global
    have hn := Nat.ne_of_lt (SymbolTable.lt_of_scope? hg)
    rw [SymbolTable.resolveType?, scope?_withMethod hb, if_neg hn, if_neg hs]
    exact h.resolved
  case symbol => exact keeps_withMethod _ _ h.symbol
  case scope =>
    have hn := Nat.ne_of_lt (SymbolTable.lt_of_scope? hb)
    refine ⟨b.insert .methodNames m.name t.symbols.size, ?scope, hk, hp, ho, ?others, ?methods⟩
    case scope => rw [scope?_withMethod hb, if_neg hn, if_pos rfl]
    case others =>
      intro name
      rw [Scope.lookup_insert, if_neg (fun h => by cases h.1)]
      exact (hF.keep keeps_withMethod) name
    case methods => exact holdsMethods_insert hS D m
  case node => exact h.node

theorem accepts_method {t : SymbolTable} (h : Members t D parent F S) (m : Signature)
    (scope : ScopeId) (owner : SymbolId) :
    t.accepts D.scope (methodSymbol m scope owner) = true ↔ ∀ m' ∈ S, m'.name ≠ m.name := by
  obtain ⟨b, hb, _, _, _, _, hS⟩ := h.scope
  have hl : t.accepts D.scope (methodSymbol m scope owner) = true ↔
      b.lookup .methodNames m.name = none := by
    simp [SymbolTable.accepts_iff, hb, methodSymbol, SymbolKind.namespace]
  have hf : S.find? (·.name = m.name) = none ↔ ∀ m' ∈ S, m'.name ≠ m.name := by
    simp [List.find?_eq_none]
  rw [hl, ← hf]
  have hS := hS m.name
  generalize b.lookup .methodNames m.name = r at hS
  generalize S.find? (·.name = m.name) = v at hS
  cases hS <;> simp

theorem opens_withMethod {t : SymbolTable} (hb : t.scope? D.scope = some b) (m : Signature)
    (hs : body.scope = t.scopes.size) : Opens (withMethod t D m) D.scope body := by
  refine ⟨t.symbols.size, ?_⟩
  rw [scope?_withMethod hb, hs, if_pos rfl]

-- A new scope does not change what another one accepts.
theorem accepts_addScope {t : SymbolTable} (h : Members t D parent F S) (m : Signature)
    (scope : ScopeId) (owner : SymbolId) :
    (t.addScope .ofMethod D.scope none).2.accepts D.scope (methodSymbol m scope owner) = true ↔
      ∀ m' ∈ S, m'.name ≠ m.name := by
  obtain ⟨b, hb, _⟩ := h.scope
  have hn := Nat.ne_of_lt (SymbolTable.lt_of_scope? hb)
  rw [← accepts_method h, SymbolTable.accepts, SymbolTable.scope?_addScope, if_neg hn]
  rfl

theorem defineMain_of_members {σ : State} (h : Members σ.table D parent F []) (c : MainClass) :
    defineMain c D σ =
      (some ⟨σ.table.scopes.size, [], c.body, true⟩,
        { σ with table := withMethod σ.table D ⟨"main", .void, [], none⟩ }) := by
  have ha := (accepts_addScope h ⟨"main", .void, [], none⟩ σ.table.scopes.size D.symbol).mpr nofun
  have hd : define D.scope
      ⟨"main", .ofMethod ⟨.void, [], (addScope .ofMethod D.scope none σ).1, D.symbol⟩, none⟩
      (addScope .ofMethod D.scope none σ).2 = _ :=
    define_of_accepts ha
  unfold defineMain
  rw [run_bind, run_bind, hd]
  rfl

-- The name of the method is free, whatever there is to say about its type.
theorem defineMethod_of_free {σ : State} (h : Members σ.table D parent F S)
    (m : MethodDeclaration) (hn : ∀ m' ∈ S, m'.name ≠ m.name) :
    defineMethod m D σ =
      (some ⟨σ.table.scopes.size, m.parameters, m.body, false⟩,
        { (checkTypeName m.returns.name m.position σ).2 with
          table := (withMethod σ.table D m.signature).bindScope m.id σ.table.scopes.size }) := by
  have ht := table_checkTypeName m.returns.name m.position σ
  unfold defineMethod
  rw [run_bind]
  generalize (checkTypeName m.returns.name m.position σ).2 = σ₁ at ht ⊢
  rw [← ht] at h ⊢
  have ha := (accepts_addScope h m.signature σ₁.table.scopes.size D.symbol).mpr hn
  have hd : define D.scope ⟨m.name, .ofMethod ⟨staticType m.returns,
      m.parameters.map fun p => staticType p.type, (addScope .ofMethod D.scope none σ₁).1, D.symbol⟩,
      m.id⟩ (addScope .ofMethod D.scope none σ₁).2 = _ :=
    define_of_accepts ha
  dsimp only
  rw [run_bind, run_bind, hd]
  rfl

theorem defineMethod_of_members {σ : State} (h : Members σ.table D parent F S)
    (m : MethodDeclaration) (hk : (σ.table.resolveType? m.returns.name).isSome = true)
    (hn : ∀ m' ∈ S, m'.name ≠ m.name) :
    defineMethod m D σ =
      (some ⟨σ.table.scopes.size, m.parameters, m.body, false⟩,
        { σ with table := (withMethod σ.table D m.signature).bindScope m.id σ.table.scopes.size }) := by
  rw [defineMethod_of_free h m hn, checkTypeName_of_some hk]

-- The name of the method is taken. Its scope is there all the same.
theorem defineMethod_of_taken {σ : State} (h : Members σ.table D parent F S)
    (m : MethodDeclaration) (hn : ¬∀ m' ∈ S, m'.name ≠ m.name) :
    defineMethod m D σ =
      (none, (report (.duplicate .method m.name) m.position
        (addScope .ofMethod D.scope none (checkTypeName m.returns.name m.position σ).2).2).2) := by
  have ht := table_checkTypeName m.returns.name m.position σ
  unfold defineMethod
  rw [run_bind]
  generalize (checkTypeName m.returns.name m.position σ).2 = σ₁ at ht ⊢
  rw [← ht] at h
  have ha := mt (accepts_addScope h m.signature σ₁.table.scopes.size D.symbol).mp hn
  have hd : define D.scope ⟨m.name, .ofMethod ⟨staticType m.returns,
      m.parameters.map fun p => staticType p.type, (addScope .ofMethod D.scope none σ₁).1, D.symbol⟩,
      m.id⟩ (addScope .ofMethod D.scope none σ₁).2 = _ :=
    define_of_not_accepts ha
  dsimp only
  rw [run_bind, run_bind, hd]
  rfl

theorem Adds.checkTypeName (name : String) (p : Position) (σ : State) :
    Adds σ (Resolve.checkTypeName name p σ).2 :=
  (Annotates.checkTypeName name p σ : Annotates [] _ _).adds

-- After the check of the return type, what may be reported is a second method of the name.
theorem defineMethod_cases (m : MethodDeclaration) (D : DefinedClass) (σ : State) :
    let σ₁ := (checkTypeName m.returns.name m.position σ).2
    let s := methodSymbol m.signature σ₁.table.scopes.size D.symbol
    Adds σ₁ (defineMethod m D σ).2 ∧
      (¬(σ₁.table.addScope .ofMethod D.scope none).2.accepts D.scope s = true →
        σ₁.size < (defineMethod m D σ).2.size) := by
  unfold defineMethod
  rw [run_bind]
  generalize (checkTypeName m.returns.name m.position σ).2 = σ₁
  dsimp only
  rw [run_bind, run_bind]
  by_cases ha : (σ₁.table.addScope .ofMethod D.scope none).2.accepts D.scope
      (methodSymbol m.signature σ₁.table.scopes.size D.symbol) = true
  case pos =>
    have hd : define D.scope ⟨m.name, .ofMethod ⟨staticType m.returns,
        m.parameters.map fun p => staticType p.type, (addScope .ofMethod D.scope none σ₁).1,
        D.symbol⟩, m.id⟩ (addScope .ofMethod D.scope none σ₁).2 = _ :=
      define_of_accepts ha
    rw [hd]
    exact ⟨.of_eq rfl, fun hn => absurd ha hn⟩
  case neg =>
    have hd : define D.scope ⟨m.name, .ofMethod ⟨staticType m.returns,
        m.parameters.map fun p => staticType p.type, (addScope .ofMethod D.scope none σ₁).1,
        D.symbol⟩, m.id⟩ (addScope .ofMethod D.scope none σ₁).2 = _ :=
      define_of_not_accepts ha
    rw [hd]
    have hr := Adds.report (.duplicate .method m.name) m.position
      (addScope .ofMethod D.scope none σ₁).2
    exact ⟨⟨hr.size_le, hr.semantic⟩, fun _ => lt_size_report (.duplicate .method m.name) m.position
      (addScope .ofMethod D.scope none σ₁).2⟩

theorem Adds.defineMethod (m : MethodDeclaration) (D : DefinedClass) (σ : State) :
    Adds σ (Resolve.defineMethod m D σ).2 :=
  (Adds.checkTypeName _ _ σ).trans (defineMethod_cases m D σ).1

theorem lt_size_defineMethod {σ : State} (h : Members σ.table D parent F S) (m : MethodDeclaration)
    (hf : (σ.table.resolveType? m.returns.name).isSome = true → ¬∀ m' ∈ S, m'.name ≠ m.name) :
    σ.size < (defineMethod m D σ).2.size := by
  obtain ⟨ha, hlt⟩ := defineMethod_cases m D σ
  by_cases hk : (σ.table.resolveType? m.returns.name).isSome = true
  case neg =>
    rw [checkTypeName_of_none hk] at ha
    exact Nat.lt_of_lt_of_le (lt_size_report _ _ _) ha.size_le
  case pos =>
    rw [checkTypeName_of_some hk] at hlt
    exact hlt (mt (accepts_addScope h m.signature _ _).mp (hf hk))

end MiniJava.Resolve
