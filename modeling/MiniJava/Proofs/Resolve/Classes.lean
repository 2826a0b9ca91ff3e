import MiniJava.Proofs.Resolve.Variable

namespace MiniJava

namespace SymbolTable

variable {t : SymbolTable}

theorem symbol?_setTypeScope (x i : SymbolId) (s : ScopeId) :
    (t.setTypeScope x s).symbol? i =
      if x = i then (t.symbol? i).map (·.modifyType fun type => { type with scope := s })
      else t.symbol? i := by
  simp [symbol?, setTypeScope, Array.getElem?_modify]

theorem symbol?_setSuperclass (x i superclass : SymbolId) :
    (t.setSuperclass x superclass).symbol? i =
      if x = i then (t.symbol? i).map (·.modifyType fun type => { type with superclass := superclass })
      else t.symbol? i := by
  simp [symbol?, setSuperclass, Array.getElem?_modify]

theorem scope?_setParent (s i parent : ScopeId) :
    (t.setParent s parent).scope? i =
      if s = i then (t.scope? i).map fun b => { b with parent := some parent } else t.scope? i := by
  simp [scope?, setParent, Array.getElem?_modify]

theorem scope?_setOwner (s i : ScopeId) (owner : SymbolId) :
    (t.setOwner s owner).scope? i =
      if s = i then (t.scope? i).map fun b => { b with owner := some owner } else t.scope? i := by
  simp [scope?, setOwner, Array.getElem?_modify]

end SymbolTable

namespace Resolve

open Typing

theorem run_mapM_cons (f : α → Action β) (a : α) (l : List α) (σ : State) :
    (a :: l).mapM f σ =
      ((f a σ).1 :: (l.mapM f (f a σ).2).1, (l.mapM f (f a σ).2).2) := by
  rw [List.mapM_cons]
  rfl

theorem run_forM_cons (f : α → Action Unit) (a : α) (l : List α) (σ : State) :
    (a :: l).forM f σ = l.forM f (f a σ).2 :=
  rfl

theorem Adds.mapM {f : α → Action β} (h : ∀ a σ, Adds σ (f a σ).2) (l : List α) (σ : State) :
    Adds σ (l.mapM f σ).2 := by
  induction l generalizing σ with
  | nil         => exact .refl σ
  | cons a l hi =>
    rw [run_mapM_cons]
    exact (h a σ).trans (hi _)

theorem Adds.forM {f : α → Action Unit} (h : ∀ a σ, Adds σ (f a σ).2) (l : List α) (σ : State) :
    Adds σ (l.forM f σ).2 := by
  induction l generalizing σ with
  | nil         => exact .refl σ
  | cons a l hi =>
    rw [run_forM_cons]
    exact (h a σ).trans (hi _)

namespace DefinedClass

abbrev name (D : DefinedClass) : String :=
  D.declaration.name

end DefinedClass

-- The types of a table are the built-in ones and those of that names.
structure Types (t : SymbolTable) (names : List String) : Prop where
  global  : ∃ g, t.scope? SymbolTable.globalScope = some g ∧ g.kind = .global ∧ g.parent = none ∧
    ∀ name, g.lookup .variableNames name = none ∧ g.lookup .methodNames name = none
  known   : ∀ name, (t.resolveType? name).isSome = true ↔ name ∈ builtinTypes ∨ name ∈ names
  builtin : ∀ name ∈ builtinTypes, ∃ x, t.resolveType? name = some x ∧
    t.symbol? x = some ⟨name, .ofType ⟨true, none, none⟩, none⟩

-- A class without members so far.
structure Bare (t : SymbolTable) (D : DefinedClass) (parent : Option DefinedClass) : Prop where
  resolved : t.resolveType? D.name = some D.symbol
  symbol   : t.symbol? D.symbol =
    some ⟨D.name, .ofType ⟨false, D.scope, parent.map (·.symbol)⟩, D.declaration.id⟩
  scope    : t.scope? D.scope =
    some (.empty .ofClass (some (parent.elim SymbolTable.globalScope (·.scope))) D.symbol)
  node     : t.scopeOf? D.declaration.id = some D.scope

def classSymbol (c : AnyClass) : Symbol :=
  ⟨c.name, .ofType ⟨false, none, none⟩, c.id⟩

-- The table with a class more.
def withClass (t : SymbolTable) (c : AnyClass) : SymbolTable :=
  let t₁ := (t.addSymbol SymbolTable.globalScope (classSymbol c)).2
  let t₂ := (t₁.addScope .ofClass SymbolTable.globalScope t.symbols.size).2
  (t₂.setTypeScope t.symbols.size t₁.scopes.size).bindScope c.id t₁.scopes.size

theorem defineClass_of_accepts {σ : State}
    (h : σ.table.accepts SymbolTable.globalScope (classSymbol c) = true) :
    defineClass c σ =
      (some ⟨c, σ.table.symbols.size, σ.table.scopes.size⟩,
        { σ with table := withClass σ.table c }) := by
  have hs : (σ.table.addSymbol SymbolTable.globalScope (classSymbol c)).2.scopes.size =
      σ.table.scopes.size := by
    simp [SymbolTable.addSymbol]
  have hd : define SymbolTable.globalScope ⟨c.name, .ofType ⟨false, none, none⟩, c.id⟩ σ = _ :=
    define_of_accepts h
  unfold defineClass
  rw [run_bind, hd, ← hs]
  rfl

theorem defineClass_of_not_accepts {σ : State}
    (h : ¬σ.table.accepts SymbolTable.globalScope (classSymbol c) = true) :
    defineClass c σ = (none, (report (.duplicate .aClass c.name) c.position σ).2) := by
  have hd : define SymbolTable.globalScope ⟨c.name, .ofType ⟨false, none, none⟩, c.id⟩ σ = _ :=
    define_of_not_accepts h
  unfold defineClass
  rw [run_bind, hd]
  rfl

theorem scope?_withClass (t : SymbolTable) (c : AnyClass) (i : ScopeId) :
    (withClass t c).scope? i =
      if i = t.scopes.size then
        some (.empty .ofClass (some SymbolTable.globalScope) (some t.symbols.size))
      else if SymbolTable.globalScope = i then
        (t.scope? i).map (·.insert .typeNames c.name t.symbols.size)
      else t.scope? i := by
  have hs : (t.addSymbol SymbolTable.globalScope (classSymbol c)).2.scopes.size = t.scopes.size := by
    simp [SymbolTable.addSymbol]
  show (SymbolTable.addScope _ _ _ _).2.scope? i = _
  rw [SymbolTable.scope?_addScope, hs, SymbolTable.scope?_addSymbol]
  rfl

theorem symbol?_withClass (t : SymbolTable) (c : AnyClass) (i : SymbolId) :
    (withClass t c).symbol? i =
      if i = t.symbols.size then
        some ⟨c.name, .ofType ⟨false, t.scopes.size, none⟩, c.id⟩
      else t.symbol? i := by
  have hs : (t.addSymbol SymbolTable.globalScope (classSymbol c)).2.scopes.size = t.scopes.size := by
    simp [SymbolTable.addSymbol]
  show (SymbolTable.setTypeScope _ _ _).symbol? i = _
  rw [SymbolTable.symbol?_setTypeScope, hs]
  show (if t.symbols.size = i then ((t.symbols.push (classSymbol c))[i]?).map _
    else (t.symbols.push (classSymbol c))[i]?) = _
  rw [Array.getElem?_push]
  by_cases h : i = t.symbols.size
  case pos =>
    simp only [h, if_true]
    rfl
  case neg =>
    rw [if_neg (Ne.symm h), if_neg h, if_neg h]
    rfl

theorem scopeOf?_withClass (t : SymbolTable) (c : AnyClass) (i : NodeId) :
    (withClass t c).scopeOf? i = if c.id = i then some t.scopes.size else t.scopeOf? i := by
  have hs : (t.addSymbol SymbolTable.globalScope (classSymbol c)).2.scopes.size = t.scopes.size := by
    simp [SymbolTable.addSymbol]
  show (t.nodeScopes.insert c.id (t.addSymbol _ (classSymbol c)).2.scopes.size)[i]? = _
  rw [hs]
  simp [Std.TreeMap.getElem?_insert, SymbolTable.scopeOf?]

theorem resolveType?_withClass {t : SymbolTable} (hg : t.scope? SymbolTable.globalScope = some g)
    (c : AnyClass) (name : String) :
    (withClass t c).resolveType? name =
      if c.name = name then some t.symbols.size else t.resolveType? name := by
  have hn := Nat.ne_of_lt (SymbolTable.lt_of_scope? hg)
  rw [SymbolTable.resolveType?, scope?_withClass, if_neg hn, if_pos rfl, SymbolTable.resolveType?, hg]
  show (g.insert .typeNames c.name t.symbols.size).lookup .typeNames name = _
  simp [Scope.lookup_insert]

theorem Types.withClass (h : Types t names) (hb : c.name ∉ builtinTypes) :
    Types (Resolve.withClass t c) (names ++ [c.name]) := by
  obtain ⟨g, hg, hk, hp, hl⟩ := h.global
  have hn := Nat.ne_of_lt (SymbolTable.lt_of_scope? hg)
  constructor
  case global =>
    refine ⟨g.insert .typeNames c.name t.symbols.size, ?_, hk, hp, hl⟩
    rw [scope?_withClass, if_neg hn, if_pos rfl, hg]
    rfl
  case known =>
    intro name
    rw [resolveType?_withClass hg]
    by_cases hc : c.name = name
    case pos => simp [hc]
    case neg => simp [hc, h.known, Ne.symm hc]
  case builtin =>
    intro name hname
    obtain ⟨x, hr, hx⟩ := h.builtin name hname
    refine ⟨x, ?resolves, ?symbol⟩
    case resolves =>
      have hne (he : c.name = name) : False := hb (he ▸ hname)
      rw [resolveType?_withClass hg, if_neg hne, hr]
    case symbol => rw [symbol?_withClass, if_neg (Nat.ne_of_lt (SymbolTable.lt_of_symbol? hx)), hx]

theorem Bare.scope_ne (h : Bare t D parent) (ht : Types t names) :
    D.scope ≠ SymbolTable.globalScope := by
  obtain ⟨g, hg, hk, _⟩ := ht.global
  intro he
  have hb := h.scope
  rw [he, hg] at hb
  rw [Option.some.inj hb] at hk
  cases hk

theorem Bare.withClass (h : Bare t D none) (ht : Types t names) (hc : c.name ≠ D.name)
    (hi : c.id ≠ D.declaration.id) : Bare (Resolve.withClass t c) D none where
  resolved := by
    obtain ⟨g, hg, _⟩ := ht.global
    rw [resolveType?_withClass hg, if_neg hc, h.resolved]
  symbol   := by
    rw [symbol?_withClass, if_neg (Nat.ne_of_lt (SymbolTable.lt_of_symbol? h.symbol)), h.symbol]
  scope    := by
    rw [scope?_withClass, if_neg (Nat.ne_of_lt (SymbolTable.lt_of_scope? h.scope)),
      if_neg (h.scope_ne ht).symm, h.scope]
  node     := by rw [scopeOf?_withClass, if_neg hi, h.node]

theorem bare_withClass (hg : t.scope? SymbolTable.globalScope = some g) (c : AnyClass) :
    Bare (withClass t c) ⟨c, t.symbols.size, t.scopes.size⟩ none where
  resolved := by rw [resolveType?_withClass hg, if_pos rfl]
  symbol   := by
    rw [symbol?_withClass, if_pos rfl]
    rfl
  scope    := by
    rw [scope?_withClass, if_pos rfl]
    rfl
  node     := by rw [scopeOf?_withClass, if_pos rfl]

theorem accepts_class_iff (h : Types t names) :
    t.accepts SymbolTable.globalScope (classSymbol c) = true ↔
      ¬(c.name ∈ builtinTypes ∨ c.name ∈ names) := by
  obtain ⟨g, hg, _⟩ := h.global
  have hk := h.known c.name
  rw [SymbolTable.resolveType?, hg] at hk
  simp only [SymbolTable.accepts_iff, hg, Option.some.injEq, exists_eq_left']
  show g.lookup .typeNames c.name = none ↔ _
  rw [← Option.not_isSome_iff_eq_none, not_iff_not]
  exact hk

theorem Adds.defineClass (c : AnyClass) (σ : State) : Adds σ (Resolve.defineClass c σ).2 := by
  by_cases h : σ.table.accepts SymbolTable.globalScope (classSymbol c) = true
  case pos =>
    rw [defineClass_of_accepts h]
    exact .of_eq rfl
  case neg =>
    rw [defineClass_of_not_accepts h]
    exact .report _ _ _

-- The classes `ds` have been defined.
structure Defines (t : SymbolTable) (ds : List DefinedClass) : Prop where
  types : Types t (ds.map (·.name))
  bare  : ∀ D ∈ ds, Bare t D none

theorem Defines.withClass (h : Defines t ds) (hb : c.name ∉ builtinTypes)
    (hc : c.name ∉ ds.map (·.name)) (hi : ∀ D ∈ ds, c.id ≠ D.declaration.id) :
    Defines (Resolve.withClass t c) (ds ++ [⟨c, t.symbols.size, t.scopes.size⟩]) where
  types := by
    rw [List.map_append]
    exact h.types.withClass hb
  bare  := by
    obtain ⟨g, hg, _⟩ := h.types.global
    intro D hD
    cases List.mem_append.mp hD with
    | inl hD =>
      have hc (he : c.name = D.name) : False := hc (he ▸ List.mem_map_of_mem hD)
      exact (h.bare D hD).withClass h.types hc (hi D hD)
    | inr hD =>
      rw [List.mem_singleton.mp hD]
      exact bare_withClass hg c

inductive ClassesVerdict (ds : List DefinedClass) (cs : List AnyClass) (σ : State) :
    List (Option DefinedClass) × State → Prop
  | passed :
    ds'.map (·.declaration) = cs → (ds.map (·.name) ++ cs.map (·.name)).Nodup →
      Defines σ'.table (ds ++ ds') → σ'.size = σ.size → ClassesVerdict ds cs σ (ds'.map some, σ')
  | failed :
    ¬(ds.map (·.name) ++ cs.map (·.name)).Nodup → σ.size < out.2.size → ClassesVerdict ds cs σ out

theorem verdict_defineClasses (cs : List AnyClass) (h : Defines σ.table ds)
    (hb : ∀ c ∈ cs, c.name ∉ builtinTypes) (hd : (ds.map (·.name)).Nodup)
    (hn : (ds.map (·.declaration.id) ++ cs.map (·.id)).Nodup) :
    ClassesVerdict ds cs σ (cs.mapM defineClass σ) := by
  induction cs generalizing ds σ with
  | nil         =>
    have hd : (ds.map (·.name) ++ List.map AnyClass.name []).Nodup := by simpa using hd
    have h : Defines σ.table (ds ++ []) := by rwa [List.append_nil]
    exact .passed rfl hd h rfl
  | cons c cs hi =>
    obtain ⟨hbc, hb⟩ := List.forall_mem_cons.mp hb
    rw [run_mapM_cons]
    by_cases hc : c.name ∈ ds.map (·.name)
    case pos =>
      have ha := mt (accepts_class_iff h.types).mp (not_not.mpr (.inr hc))
      have hlt := lt_size_report (.duplicate .aClass c.name) c.position σ
      rw [defineClass_of_not_accepts ha]
      refine .failed ?taken ?reported
      case taken    => exact fun hn => (List.nodup_append'.mp hn).2.2 hc List.mem_cons_self
      case reported => exact Nat.lt_of_lt_of_le hlt (Adds.mapM Adds.defineClass cs _).size_le
    case neg =>
      rw [defineClass_of_accepts ((accepts_class_iff h.types).mpr (not_or.mpr ⟨hbc, hc⟩))]
      let D : DefinedClass := ⟨c, σ.table.symbols.size, σ.table.scopes.size⟩
      have hid (D') (hD' : D' ∈ ds) : c.id ≠ D'.declaration.id := fun he =>
        (List.nodup_append'.mp hn).2.2 (List.mem_map_of_mem hD') (he ▸ List.mem_cons_self)
      have h' : Defines (withClass σ.table c) (ds ++ [D]) := h.withClass hbc hc hid
      have hd' : ((ds ++ [D]).map (·.name)).Nodup := by
        rw [List.map_append, List.nodup_append']
        exact ⟨hd, List.nodup_singleton _, List.disjoint_singleton.mpr hc⟩
      have hn' : ((ds ++ [D]).map (·.declaration.id) ++ cs.map (·.id)).Nodup := by
        simpa [D] using hn
      have hi := hi (σ := { σ with table := withClass σ.table c }) h' hb hd' hn'
      have he : ds.map (·.name) ++ (c :: cs).map (·.name) =
          (ds ++ [D]).map (·.name) ++ cs.map (·.name) := by
        simp [D]
      dsimp only
      generalize cs.mapM defineClass { σ with table := withClass σ.table c } = out at hi ⊢
      cases hi with
      | failed hu hlt         => exact .failed (he ▸ hu) hlt
      | @passed ds' σ' hm hn hd hq =>
        have hm : (D :: ds').map (·.declaration) = c :: cs := by rw [List.map_cons, hm]
        have hd : Defines σ'.table (ds ++ D :: ds') := by rwa [List.append_cons]
        exact .passed hm (he ▸ hn) hd hq

end Resolve

end MiniJava
