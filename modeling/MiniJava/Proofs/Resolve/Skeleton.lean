import MiniJava.Proofs.Resolve.Builds
import MiniJava.Proofs.Resolve.Inheritance

namespace MiniJava.Resolve

open SymbolTable (Operation Persists)

-- A class without superclass so far.
def Unlinked (t : SymbolTable) (D : DefinedClass) : Prop :=
  ∃ τ, t.type? D.symbol = some τ ∧ τ.superclass = none

def OfKind (k : ScopeKind) (kind : ScopeKind) (_ : Option ScopeId) : Prop :=
  kind = k

theorem path_withClass (t : SymbolTable) (c : AnyClass) :
    Path (OfKind .ofClass) t (withClass t c) := by
  let x := t.symbols.size
  let t₁ := (t.addSymbol SymbolTable.globalScope (classSymbol c)).2
  let t₂ := (t₁.addScope .ofClass SymbolTable.globalScope (some x)).2
  let t₃ := t₂.setTypeScope x t₁.scopes.size
  have hx : t₁.type? x = some ⟨false, none, none⟩ :=
    (SymbolTable.type?_addSymbol ..).trans (if_pos rfl)
  have hs : t₂.IsClassScope t₁.scopes.size x :=
    ⟨_, (SymbolTable.scope?_addScope ..).trans (if_pos rfl), rfl, rfl⟩
  have h₁ : Path (OfKind .ofClass) t t₁ := by
    refine .addSymbol t _ fun τ hτ => ?_
    obtain rfl := Option.some.inj hτ
    exact ⟨rfl, rfl, nofun⟩
  have h₂ : Path (OfKind .ofClass) t₁ t₂ := .single ⟨.openClass hx, opening_addScope rfl⟩
  have h₃ : Path (OfKind .ofClass) t₂ t₃ := .single ⟨.setTypeScope hs hx rfl, opening_of_size rfl⟩
  have h₄ : Path (OfKind .ofClass) t₃ (withClass t c) := .single ⟨.note rfl rfl, opening_of_size rfl⟩
  exact h₁.trans (h₂.trans (h₃.trans h₄))

-- What the classes are, after they have been defined.
structure Classes (t t' : SymbolTable) (ds : List DefinedClass) : Prop where
  path     : Path (OfKind .ofClass) t t'
  isClass  : ∀ D ∈ ds, IsClass t' D
  unlinked : ∀ D ∈ ds, Unlinked t' D
  fresh    : ∀ D ∈ ds, t.symbols.size ≤ D.symbol
  distinct : ds.Pairwise (·.symbol ≠ ·.symbol)
  symbols  : ∀ x a, t.symbol? x = some a → t'.symbol? x = some a

theorem Classes.defineClass (cs : List AnyClass) {σ : State} (ht : σ.table.Tree) :
    Classes σ.table (cs.mapM defineClass σ).2.table
      ((cs.mapM defineClass σ).1.filterMap id) := by
  induction cs generalizing σ with
  | nil => exact ⟨.refl, nofun, nofun, nofun, .nil, fun _ _ h => h⟩
  | cons c cs hi =>
    rw [run_mapM_cons]
    by_cases ha : σ.table.accepts SymbolTable.globalScope (classSymbol c) = true
    case neg =>
      rw [defineClass_of_not_accepts ha]
      exact hi (σ := (report (.duplicate .aClass c.name) c.position σ).2) ht
    case pos =>
      rw [defineClass_of_accepts ha]
      dsimp only [List.filterMap_cons_some, id]
      have hp := path_withClass σ.table c
      have hcs := hi (σ := { σ with table := withClass σ.table c }) (hp.keeps ht).1
      generalize cs.mapM Resolve.defineClass { σ with table := withClass σ.table c } = out at hcs ⊢
      let D : DefinedClass := ⟨c, σ.table.symbols.size, σ.table.scopes.size⟩
      have hsymbol : (withClass σ.table c).symbol? D.symbol = _ :=
        (symbol?_withClass ..).trans (if_pos rfl)
      have hps := (hcs.path.keeps (hp.keeps ht).1).2
      constructor
      case path     => exact hp.trans hcs.path
      case isClass  =>
        refine List.forall_mem_cons.mpr ⟨⟨hps.isClassScope ?_, _, hcs.symbols _ _ hsymbol, rfl, rfl⟩,
          hcs.isClass⟩
        exact ⟨_, (scope?_withClass ..).trans (if_pos rfl), rfl, rfl⟩
      case unlinked =>
        refine List.forall_mem_cons.mpr ⟨⟨⟨false, some σ.table.scopes.size, none⟩, ?_, rfl⟩,
          hcs.unlinked⟩
        rw [SymbolTable.type?, hcs.symbols _ _ hsymbol]
        rfl
      case fresh    =>
        refine List.forall_mem_cons.mpr ⟨Nat.le_refl _, fun D' hD' => ?_⟩
        exact Nat.le_trans (Nat.le_of_lt (SymbolTable.lt_of_symbol? hsymbol)) (hcs.fresh D' hD')
      case distinct =>
        refine List.pairwise_cons.mpr ⟨fun D' hD' => ?_, hcs.distinct⟩
        exact Nat.ne_of_lt (Nat.lt_of_lt_of_le (SymbolTable.lt_of_symbol? hsymbol) (hcs.fresh D' hD'))
      case symbols  =>
        intro x a hx
        refine hcs.symbols x a ((symbol?_withClass ..).trans ?_)
        rw [if_neg (Nat.ne_of_lt (SymbolTable.lt_of_symbol? hx)), hx]

def Nothing (_ : ScopeKind) (_ : Option ScopeId) : Prop :=
  False

theorem type?_of_extensible {t : SymbolTable} (h : extensibleScope? t y = some q) :
    ∃ υ, t.type? y = some υ ∧ υ.scope = some q := by
  obtain ⟨υ, hυ, hq⟩ := Option.bind_eq_some_iff.mp h
  split at hq
  case isTrue  => cases hq
  case isFalse => exact ⟨υ, hυ, hq⟩

-- Only the class itself is linked.
theorem linkSuperclass_cases {σ : State} (hD : IsClass σ.table D) (hu : Unlinked σ.table D) :
    Path Nothing σ.table (linkSuperclass D σ).2.table ∧
      ∀ x ≠ D.symbol, (linkSuperclass D σ).2.table.type? x = σ.table.type? x := by
  unfold linkSuperclass
  cases D.declaration with
  | main m    => exact ⟨.refl, fun _ _ => rfl⟩
  | regular c =>
    dsimp only
    cases c.superclass with
    | none      => exact ⟨.refl, fun _ _ => rfl⟩
    | some name =>
      dsimp only
      rw [run_bind, run_get]
      dsimp only
      cases σ.table.resolveType? name with
      | none   => exact ⟨.refl, fun _ _ => rfl⟩
      | some y =>
        dsimp only
        cases he : extensibleScope? σ.table y with
        | none   => exact ⟨.refl, fun _ _ => rfl⟩
        | some q =>
          dsimp only
          split
          case isTrue     => exact ⟨.refl, fun _ _ => rfl⟩
          case isFalse hi =>
            obtain ⟨τ, hτ, hn⟩ := hu
            obtain ⟨υ, hυ, hq⟩ := type?_of_extensible he
            let t₁ := σ.table.setSuperclass D.symbol y
            have hτ₁ : t₁.type? D.symbol = some { τ with superclass := some y } :=
              (SymbolTable.type?_modify ..).trans (by rw [if_pos rfl, hτ]; rfl)
            have hυ₁ : ∃ υ, t₁.type? y = some υ ∧ υ.scope = some q := by
              by_cases hy : D.symbol = y
              case pos =>
                subst hy
                obtain rfl := Option.some.inj (hτ.symm.trans hυ)
                exact ⟨_, hτ₁, hq⟩
              case neg =>
                exact ⟨υ, (SymbolTable.type?_modify ..).trans (by rw [if_neg hy, hυ]), hq⟩
            obtain ⟨υ₁, hυ₁, hq₁⟩ := hυ₁
            have hs : t₁.IsClassScope D.scope D.symbol := hD.scope
            have h₁ : Path Nothing σ.table t₁ :=
              .single ⟨.setSuperclass hτ hn hυ hq (Bool.eq_false_iff.mpr hi), opening_of_size rfl⟩
            have h₂ : Path Nothing t₁ (t₁.setParent D.scope q) :=
              .single ⟨.setParent hs hτ₁ rfl hυ₁ hq₁,
                opening_of_size (by simp [SymbolTable.setParent])⟩
            refine ⟨h₁.trans h₂, fun x hx => ?_⟩
            exact (SymbolTable.type?_modify ..).trans (if_neg (Ne.symm hx))

-- Classes that are still to be linked, each of them once.
structure Linkable (t : SymbolTable) (ds : List DefinedClass) : Prop where
  isClass  : ∀ D ∈ ds, IsClass t D
  unlinked : ∀ D ∈ ds, Unlinked t D
  distinct : ds.Pairwise (·.symbol ≠ ·.symbol)

theorem Linkable.tail {σ : State} (h : Linkable σ.table (D :: ds))
    (hp : Persists σ.table (linkSuperclass D σ).2.table) :
    Linkable (linkSuperclass D σ).2.table ds := by
  obtain ⟨hD, hDs⟩ := List.forall_mem_cons.mp h.isClass
  obtain ⟨hu, hus⟩ := List.forall_mem_cons.mp h.unlinked
  obtain ⟨hne, hd⟩ := List.pairwise_cons.mp h.distinct
  refine ⟨fun D' hD' => (hDs D' hD').persist hp, fun D' hD' => ?_, hd⟩
  obtain ⟨τ, hτ, hn⟩ := hus D' hD'
  exact ⟨τ, ((linkSuperclass_cases hD hu).2 _ (hne D' hD').symm).trans hτ, hn⟩

theorem Linkable.path {σ : State} (h : Linkable σ.table ds) (ht : σ.table.Tree) :
    Path Nothing σ.table (ds.forM linkSuperclass σ).2.table := by
  induction ds generalizing σ with
  | nil          => exact .refl
  | cons D ds hi =>
    obtain ⟨hp, _⟩ := linkSuperclass_cases (h.isClass D List.mem_cons_self)
      (h.unlinked D List.mem_cons_self)
    obtain ⟨ht', hps⟩ := hp.keeps ht
    rw [run_forM_cons]
    exact hp.trans (hi (h.tail hps) ht')

theorem Classes.linkable (h : Classes t t' ds) : Linkable t' ds :=
  ⟨h.isClass, h.unlinked, h.distinct⟩

-- The scopes of the methods of a class.
def MethodIn (s : ScopeId) (kind : ScopeKind) (parent : Option ScopeId) : Prop :=
  kind = .ofMethod ∧ parent = some s

theorem path_addMethodScope (h : IsClass t D) :
    Path (MethodIn D.scope) t (t.addScope .ofMethod D.scope none).2 :=
  .single ⟨.openMethod h.scope, opening_addScope ⟨rfl, rfl⟩⟩

theorem path_withMethod (ht : t.Tree) (h : IsClass t D) (m : Signature) :
    Path (MethodIn D.scope) t (withMethod t D m) := by
  let s := t.scopes.size
  let t₁ := (t.addScope .ofMethod D.scope none).2
  let t₂ := (t₁.addSymbol D.scope (methodSymbol m s D.symbol)).2
  have h₁ : Path (MethodIn D.scope) t t₁ := path_addMethodScope h
  have h₂ : Path (MethodIn D.scope) t₁ t₂ := .addSymbol t₁ D.scope fun τ hτ => by cases hτ
  obtain ⟨ht₁, hp₁⟩ := h₁.keeps ht
  obtain ⟨_, hp₂⟩ := h₂.keeps ht₁
  obtain ⟨b, hb, hk, hp, _⟩ := hp₂.scope s _ ((SymbolTable.scope?_addScope ..).trans (if_pos rfl))
  have hm : t₂.method? t.symbols.size = some ⟨m.returns, m.parameters, s, D.symbol⟩ := by
    have hx : t₂.symbol? t.symbols.size = some _ :=
      (SymbolTable.symbol?_addSymbol ..).trans (if_pos rfl)
    rw [SymbolTable.method?, hx]
    rfl
  have hs : t₂.IsClassScope D.scope D.symbol := (h.persist (hp₁.trans hp₂)).scope
  have h₃ : Path (MethodIn D.scope) t₂ (t₂.setOwner s t.symbols.size) :=
    .single ⟨.setOwner hb hk (hp (by simp [Scope.empty])) hs hm rfl rfl,
      opening_of_size (by simp [SymbolTable.setOwner])⟩
  exact h₁.trans (h₂.trans h₃)

-- What a class leaves of its methods: their scopes, and the bodies that are to be resolved.
structure Methods (D : DefinedClass) (t : SymbolTable) (bs : List MethodBody) (t' : SymbolTable) :
    Prop where
  path   : Path (MethodIn D.scope) t t'
  bodies : ∀ b ∈ bs, InBody t' b.scope ∧ t.scopes.size ≤ b.scope ∧ b.scope < t'.scopes.size

namespace Methods

theorem none (D : DefinedClass) (h : Path (MethodIn D.scope) t t') : Methods D t [] t' :=
  ⟨h, nofun⟩

theorem trans (h : Methods D t bs t₁) (ht : t.Tree) (h' : Methods D t₁ bs' t') :
    Methods D t (bs ++ bs') t' := by
  obtain ⟨ht₁, hp⟩ := h.path.keeps ht
  obtain ⟨_, hp'⟩ := h'.path.keeps ht₁
  refine ⟨h.path.trans h'.path, fun b hb => ?_⟩
  cases List.mem_append.mp hb with
  | inl hb =>
    obtain ⟨hi, hle, hlt⟩ := h.bodies b hb
    exact ⟨hi.persist hp', hle, Nat.lt_of_lt_of_le hlt (size_le_of_persists hp')⟩
  | inr hb =>
    obtain ⟨hi, hle, hlt⟩ := h'.bodies b hb
    exact ⟨hi, Nat.le_trans (size_le_of_persists hp) hle, hlt⟩

-- A method that has been accepted has a scope.
theorem of_withMethod (ht : t.Tree) (h : IsClass t D) (m : Signature)
    (hs : t'.scopes = (withMethod t D m).scopes) (hx : t'.symbols = (withMethod t D m).symbols)
    (hb : b.scope = t.scopes.size) : Methods D t [b] t' := by
  have hp := path_withMethod ht h m
  obtain ⟨c, hc, _⟩ := h.scope
  have hscope : t'.scope? b.scope =
      some (.empty .ofMethod (some D.scope) (some t.symbols.size)) := by
    rw [SymbolTable.scope?, hs]
    exact (scope?_withMethod hc m b.scope).trans (if_pos hb)
  refine ⟨hp.trans (.single ⟨.note hs hx, opening_of_size (congrArg Array.size hs)⟩), ?_⟩
  intro b' hb'
  obtain rfl := List.mem_singleton.mp hb'
  exact ⟨⟨_, hscope, .inl rfl⟩, Nat.le_of_eq hb.symm, SymbolTable.lt_of_scope? hscope⟩

theorem defineMain (c : MainClass) {σ : State} (ht : σ.table.Tree) (h : IsClass σ.table D) :
    Methods D σ.table (Resolve.defineMain c D σ).1.toList (Resolve.defineMain c D σ).2.table := by
  let m : Signature := ⟨"main", .void, [], Option.none⟩
  let s := methodSymbol m σ.table.scopes.size D.symbol
  unfold Resolve.defineMain
  rw [run_bind, run_bind]
  by_cases ha : (σ.table.addScope .ofMethod D.scope Option.none).2.accepts D.scope s = true
  case pos =>
    have hd : define D.scope s (addScope .ofMethod D.scope Option.none σ).2 = _ := define_of_accepts ha
    have he : define D.scope ⟨"main", .ofMethod ⟨.void, [],
      (addScope .ofMethod D.scope Option.none σ).1, D.symbol⟩, Option.none⟩
      (addScope .ofMethod D.scope Option.none σ).2 = _ := hd
    rw [he]
    exact of_withMethod ht h m rfl rfl rfl
  case neg =>
    have hd : define D.scope s (addScope .ofMethod D.scope Option.none σ).2 = _ :=
      define_of_not_accepts ha
    have he : define D.scope ⟨"main", .ofMethod ⟨.void, [],
      (addScope .ofMethod D.scope Option.none σ).1, D.symbol⟩, Option.none⟩
      (addScope .ofMethod D.scope Option.none σ).2 = _ := hd
    rw [he]
    exact none D (path_addMethodScope h)

theorem defineMethod (m : MethodDeclaration) {σ : State} (ht : σ.table.Tree)
    (h : IsClass σ.table D) :
    Methods D σ.table (Resolve.defineMethod m D σ).1.toList
      (Resolve.defineMethod m D σ).2.table := by
  have hc : Annotates [] σ _ := .checkTypeName m.returns.name m.position σ
  unfold Resolve.defineMethod
  rw [run_bind]
  have hpath : Path (MethodIn D.scope) σ.table (checkTypeName m.returns.name m.position σ).2.table :=
    Builds.annotate hc ht
  generalize (checkTypeName m.returns.name m.position σ).2 = σ₁ at hpath
  obtain ⟨ht₁, hp⟩ := hpath.keeps ht
  have h := h.persist hp
  refine (none D hpath).trans ht (?_ : Methods D σ₁.table _ _)
  dsimp only
  rw [run_bind, run_bind]
  let s := methodSymbol m.signature σ₁.table.scopes.size D.symbol
  by_cases ha : (σ₁.table.addScope .ofMethod D.scope Option.none).2.accepts D.scope s = true
  case pos =>
    have hd : define D.scope ⟨m.name, .ofMethod ⟨staticType m.returns,
        m.parameters.map fun p => staticType p.type, (addScope .ofMethod D.scope Option.none σ₁).1,
        D.symbol⟩, m.id⟩ (addScope .ofMethod D.scope Option.none σ₁).2 = _ :=
      define_of_accepts ha
    rw [hd]
    exact of_withMethod ht₁ h m.signature rfl rfl rfl
  case neg =>
    have hd : define D.scope ⟨m.name, .ofMethod ⟨staticType m.returns,
        m.parameters.map fun p => staticType p.type, (addScope .ofMethod D.scope Option.none σ₁).1,
        D.symbol⟩, m.id⟩ (addScope .ofMethod D.scope Option.none σ₁).2 = _ :=
      define_of_not_accepts ha
    rw [hd]
    exact none D (path_addMethodScope h)

theorem defineMember (m : Member) {σ : State} (ht : σ.table.Tree) (h : IsClass σ.table D) :
    Methods D σ.table (Resolve.defineMember D m σ).1.toList
      (Resolve.defineMember D m σ).2.table := by
  cases m with
  | field d     => exact none D (Builds.defineVariable d D.scope Option.none σ ht)
  | method m    => exact defineMethod m ht h
  | malformed _ => exact none D .refl

theorem defineAll (ms : List Member) {σ : State} (ht : σ.table.Tree) (h : IsClass σ.table D) :
    Methods D σ.table ((ms.mapM (Resolve.defineMember D) σ).1.filterMap id)
      (ms.mapM (Resolve.defineMember D) σ).2.table := by
  induction ms generalizing σ with
  | nil          => exact none D .refl
  | cons m ms hi =>
    rw [run_mapM_cons]
    have hm := defineMember m ht h
    obtain ⟨ht₁, hp⟩ := hm.path.keeps ht
    have hms := hm.trans ht (hi ht₁ (h.persist hp))
    generalize Resolve.defineMember D m σ = out at hms
    obtain ⟨r, σ₁⟩ := out
    cases r <;> exact hms

theorem defineMembers {σ : State} (ht : σ.table.Tree) (h : IsClass σ.table D) :
    Methods D σ.table (Resolve.defineMembers D σ).1 (Resolve.defineMembers D σ).2.table := by
  unfold Resolve.defineMembers
  cases D.declaration with
  | main c    => exact defineMain c ht h
  | regular c => exact defineAll c.members ht h

end Methods

end MiniJava.Resolve
