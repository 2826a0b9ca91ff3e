import MiniJava.Proofs.Resolve.Declarations
import MiniJava.Proofs.Resolve.Faithful
import MiniJava.Proofs.Resolve.Operation

namespace MiniJava

namespace Diagnostic

def isCyclic (d : Diagnostic) : Bool :=
  match d.problem with
  | .semantic (.cyclicInheritance _) => true
  | _                                => false

def isExhausted (d : Diagnostic) : Bool :=
  match d.problem with
  | .semantic (.slotsExhausted _) => true
  | _                             => false

-- Two reports come from one place only: that of a cycle from the linking of a class, that of used
-- up slots from the choice of a slot. Everything else leaves both of them as they are.
def isNotice (d : Diagnostic) : Bool :=
  d.isCyclic || d.isExhausted

end Diagnostic

namespace Resolve

-- What has been reported of cycles and of used up slots so far.
def State.notices (σ : State) : List Diagnostic :=
  σ.diagnostics.toList.filter (·.isNotice)

theorem State.notices_report (error : SemanticError) (p : Position) (σ : State) :
    (report error p σ).2.notices =
      σ.notices ++ [Diagnostic.semantic error p].filter (·.isNotice) := by
  show (σ.diagnostics.push _).toList.filter _ = _
  rw [Array.toList_push, List.filter_append]
  rfl

def Quiet (σ σ' : State) : Prop :=
  σ'.notices = σ.notices

namespace Quiet

theorem refl (σ : State) : Quiet σ σ :=
  rfl

theorem trans (h : Quiet σ σ₁) (h' : Quiet σ₁ σ') : Quiet σ σ' :=
  Eq.trans h' h

theorem report (error : SemanticError) (p : Position) (σ : State)
    (he : [Diagnostic.semantic error p].filter (·.isNotice) = [] := by rfl) :
    Quiet σ (Resolve.report error p σ).2 := by
  rw [Quiet, State.notices_report, he, List.append_nil]

theorem checkTypeName (name : String) (p : Position) (σ : State) :
    Quiet σ (Resolve.checkTypeName name p σ).2 := by
  by_cases h : (σ.table.resolveType? name).isSome = true
  case pos =>
    rw [checkTypeName_of_some h]
    exact refl σ
  case neg =>
    rw [checkTypeName_of_none h]
    exact report (.unresolved .aType name) p σ

theorem define (s : ScopeId) (symbol : Symbol) (σ : State) :
    Quiet σ (Resolve.define s symbol σ).2 := by
  by_cases h : σ.table.accepts s symbol = true
  case pos =>
    rw [define_of_accepts h]
    rfl
  case neg =>
    rw [define_of_not_accepts h]
    exact refl σ

theorem defineVariable (d : VariableDeclaration) (s : ScopeId) (slot : Option Nat) (σ : State) :
    Quiet σ (Resolve.defineVariable d s slot σ).2 := by
  rw [defineVariable_eq]
  let σ₁ := (modifyTable (·.bindScope d.id s) (Resolve.checkTypeName d.type.name d.position σ).2).2
  have hc : Quiet σ σ₁ := checkTypeName d.type.name d.position σ
  have hd := hc.trans (define s (d.symbol slot) σ₁)
  split
  case isTrue  => exact hd.trans (report (.duplicate .aVariable d.name) d.position _)
  case isFalse => exact hd

theorem keepType (i : NodeId) (τ : Option StaticType) (σ : State) :
    Quiet σ (Resolve.keepType i τ σ).2 := by
  cases τ <;> rfl

theorem resolveReference (place : Place) (i : NodeId) (name : String) (p : Position) (σ : State) :
    Quiet σ (Resolve.resolveReference place i name p σ).2 := by
  unfold Resolve.resolveReference
  rw [run_bind, run_get]
  cases σ.table.resolve? place.scope .variableNames name with
  | none   => exact report (.unresolved .aVariable name) p σ
  | some s => rfl

theorem resolveCreation (i : NodeId) (name : String) (p : Position) (σ : State) :
    Quiet σ (Resolve.resolveCreation i name p σ).2 := by
  unfold Resolve.resolveCreation
  rw [run_bind, run_get]
  cases σ.table.resolveType? name with
  | none   => exact report (.unresolved .aType name) p σ
  | some s => rfl

theorem resolveMethod (className : String) (i : NodeId) (name : String) (n : Nat) (p : Position)
    (σ : State) : Quiet σ (Resolve.resolveMethod className i name n p σ).2 := by
  unfold Resolve.resolveMethod
  rw [run_bind, run_get]
  dsimp only
  cases classScope? σ.table className with
  | none => exact refl σ
  | some scope =>
    dsimp only
    cases σ.table.resolve? scope .methodNames name with
    | none => exact report (.unresolved .method name) p σ
    | some s =>
      dsimp only
      cases (σ.table.symbol? s).bind Symbol.asMethod? with
      | none => exact refl σ
      | some found =>
        dsimp only
        split
        case isTrue  => exact report (.argumentCount name found.parameters.length n) p σ
        case isFalse => rfl

theorem resolveCall (τ : StaticType) (i : NodeId) (name : String) (n : Nat) (p : Position)
    (σ : State) : Quiet σ (Resolve.resolveCall τ i name n p σ).2 := by
  unfold Resolve.resolveCall
  split
  case isTrue  => cases τ <;> first | exact refl σ | exact report .lengthOfNonArray p σ
  case isFalse =>
    cases τ with
    | object className => exact resolveMethod className i name n p σ
    | _                => exact report (.notCallable name _) p σ

mutual

theorem expression (place : Place) (e : Expression) (σ : State) :
    Quiet σ (Resolve.expression place e σ).2 := by
  match e with
  | .call i receiver name arguments p =>
    rw [Resolve.expression]
    have hr := expression place receiver (modifyTable (·.bindScope i place.scope) σ).2
    refine trans hr (trans (expressions place arguments _) ?_)
    simp only [run_bind]
    cases (Resolve.expression place receiver (modifyTable (·.bindScope i place.scope) σ).2).1 with
    | none   => exact refl _
    | some τ => exact trans (resolveCall τ i name arguments.length p _) (keepType i _ _)
  | .newObject i name p =>
    rw [Resolve.expression]
    exact trans (resolveCreation i name p (modifyTable (·.bindScope i place.scope) σ).2)
      (keepType i _ _)
  | .newArray i name size p =>
    rw [Resolve.expression]
    have hs := expression place size (modifyTable (·.bindScope i place.scope) σ).2
    exact trans hs (trans (checkTypeName name p _) (keepType i (some _) _))
  | .not i operand p =>
    rw [Resolve.expression]
    exact trans (expression place operand σ) (keepType i (some .boolean) _)
  | .binary i op left right p =>
    rw [Resolve.expression]
    exact trans (expression place left σ) (trans (expression place right _) (keepType i (some _) _))
  | .boolean i _ _ | .integer i _ _ =>
    rw [Resolve.expression]
    exact keepType i _ σ
  | .self i p =>
    rw [Resolve.expression]
    simp only [run_bind]
    split
    case isTrue  => exact trans (report .thisInMain p _) (keepType i _ _)
    case isFalse => exact keepType i _ _
  | .index i array subscript p =>
    rw [Resolve.expression]
    refine trans (expression place array σ) (trans (expression place subscript _) ?_)
    simp only [run_bind]
    match (Resolve.expression place array σ).1 with
    | none            => exact refl _
    | some (.array τ) => exact keepType i _ _
    | some .int | some .boolean | some .void | some (.object _) => exact report (.notIndexable _) p _
  | .reference i name p =>
    rw [Resolve.expression]
    exact trans (resolveReference place i name p (modifyTable (·.bindScope i place.scope) σ).2)
      (keepType i _ _)
  | .malformed _ => exact refl σ

theorem expressions (place : Place) (es : List Expression) (σ : State) :
    Quiet σ (Resolve.expressions place es σ).2 := by
  match es with
  | []      => exact refl σ
  | e :: es => exact trans (expression place e σ) (expressions place es _)

end

end Quiet

end Resolve

theorem Symbol.asVariable?_modifyType (change : TypeSymbol → TypeSymbol) (a : Symbol) :
    (a.modifyType change).asVariable? = a.asVariable? := by
  obtain ⟨name, kind, i⟩ := a
  cases kind <;> rfl

-- What has been declared has a symbol, which is no variable with a slot.
def SymbolTable.Unslotted (t : SymbolTable) : Prop :=
  ∀ i x, t.declaredBy? i = some x →
    ∃ a, t.symbol? x = some a ∧ ∀ v, a.asVariable? = some v → v.slot = none

namespace Resolve

-- What a pass does that defines types, methods and fields.
structure Plain (σ σ' : State) : Prop where
  quiet     : Quiet σ σ'
  unslotted : σ.table.Unslotted → σ'.table.Unslotted

namespace Plain

theorem of_symbols (hq : Quiet σ σ') (hs : σ'.table.symbols = σ.table.symbols)
    (hd : σ'.table.declared = σ.table.declared) : Plain σ σ' where
  quiet     := hq
  unslotted h i x hx := by
    obtain ⟨a, ha, hv⟩ := h i x ((congrArg (·[i]?) hd).symm.trans hx)
    exact ⟨a, (congrArg (·[x]?) hs).trans ha, hv⟩

theorem refl (σ : State) : Plain σ σ :=
  of_symbols (.refl σ) rfl rfl

theorem trans (h : Plain σ σ₁) (h' : Plain σ₁ σ') : Plain σ σ' :=
  ⟨h.quiet.trans h'.quiet, h'.unslotted ∘ h.unslotted⟩

theorem checkTypeName (name : String) (p : Position) (σ : State) :
    Plain σ (Resolve.checkTypeName name p σ).2 :=
  of_symbols (.checkTypeName name p σ)
    (congrArg SymbolTable.symbols (table_checkTypeName name p σ))
    (congrArg SymbolTable.declared (table_checkTypeName name p σ))

theorem define (s : ScopeId) {symbol : Symbol} (σ : State)
    (hv : ∀ v, symbol.asVariable? = some v → v.slot = none := by exact nofun) :
    Plain σ (Resolve.define s symbol σ).2 where
  quiet       := .define s symbol σ
  unslotted h := by
    by_cases ha : σ.table.accepts s symbol = true
    case neg =>
      rw [define_of_not_accepts ha]
      exact h
    case pos =>
      rw [define_of_accepts ha]
      intro i x hx
      rw [SymbolTable.declaredBy?_addSymbol] at hx
      split at hx
      case isTrue  =>
        obtain rfl := Option.some.inj hx
        exact ⟨symbol, SymbolTable.symbol?_addSymbol_self .., hv⟩
      case isFalse =>
        obtain ⟨a, ha, hv⟩ := h i x hx
        exact ⟨a, SymbolTable.keeps_addSymbol x a ha, hv⟩

theorem modifyType {σ : State} (change : TypeSymbol → TypeSymbol) (y : SymbolId) {t : SymbolTable}
    (ht : t.symbols = σ.table.symbols.modify y (·.modifyType change))
    (hd : t.declared = σ.table.declared) : Plain σ { σ with table := t } where
  quiet       := .refl σ
  unslotted h := by
    intro i x hx
    obtain ⟨a, ha, hv⟩ := h i x ((congrArg (·[i]?) hd).symm.trans hx)
    have hs : t.symbol? x = if y = x then some (a.modifyType change) else some a := by
      show t.symbols[x]? = _
      rw [ht, Array.getElem?_modify]
      rw [SymbolTable.symbol?] at ha
      rw [ha]
      rfl
    split at hs
    case isTrue  => exact ⟨_, hs, Symbol.asVariable?_modifyType change a ▸ hv⟩
    case isFalse => exact ⟨a, hs, hv⟩

theorem defineVariable (d : VariableDeclaration) (s : ScopeId) (σ : State) :
    Plain σ (Resolve.defineVariable d s none σ).2 := by
  let σ₁ := (modifyTable (·.bindScope d.id s) (Resolve.checkTypeName d.type.name d.position σ).2).2
  have hc : Plain σ σ₁ :=
    (checkTypeName d.type.name d.position σ).trans (of_symbols (.refl _) rfl rfl)
  have hd : Plain σ (Resolve.define s (d.symbol none) σ₁).2 :=
    hc.trans (define s σ₁ fun v hv => Option.some.inj hv ▸ rfl)
  rw [defineVariable_eq]
  split
  case isTrue  =>
    exact hd.trans (of_symbols (Quiet.report (.duplicate .aVariable d.name) d.position _) rfl rfl)
  case isFalse => exact hd

theorem defineClass (c : AnyClass) (σ : State) : Plain σ (Resolve.defineClass c σ).2 := by
  have hd : Plain σ (Resolve.define SymbolTable.globalScope (classSymbol c) σ).2 :=
    define SymbolTable.globalScope σ
  by_cases ha : σ.table.accepts SymbolTable.globalScope (classSymbol c) = true
  case neg =>
    rw [defineClass_of_not_accepts ha]
    exact of_symbols (Quiet.report (.duplicate .aClass c.name) c.position σ) rfl rfl
  case pos =>
    rw [define_of_accepts ha] at hd
    rw [defineClass_of_accepts ha]
    exact hd.trans (modifyType _ _ rfl rfl)

theorem defineMain (c : MainClass) (D : DefinedClass) (σ : State) :
    Plain σ (Resolve.defineMain c D σ).2 := by
  let s : Symbol :=
    ⟨"main", .ofMethod ⟨.void, [], (addScope .ofMethod D.scope none σ).1, D.symbol⟩, none⟩
  have ha : Plain σ (addScope .ofMethod D.scope none σ).2 := of_symbols (.refl σ) rfl rfl
  have hd : Plain σ (Resolve.define D.scope s (addScope .ofMethod D.scope none σ).2).2 :=
    ha.trans (define D.scope _)
  unfold Resolve.defineMain
  rw [run_bind, run_bind]
  generalize Resolve.define D.scope s _ = out at hd
  cases out.1 with
  | none   => exact hd
  | some x => exact hd.trans (of_symbols (.refl _) rfl rfl)

theorem defineMethod (m : MethodDeclaration) (D : DefinedClass) (σ : State) :
    Plain σ (Resolve.defineMethod m D σ).2 := by
  unfold Resolve.defineMethod
  rw [run_bind]
  refine (checkTypeName m.returns.name m.position σ).trans ?_
  generalize (Resolve.checkTypeName m.returns.name m.position σ).2 = σ₁
  rw [run_bind, run_bind]
  let s : Symbol := ⟨m.name, .ofMethod ⟨staticType m.returns,
    m.parameters.map fun p => staticType p.type, (addScope .ofMethod D.scope none σ₁).1, D.symbol⟩,
    m.id⟩
  have ha : Plain σ₁ (addScope .ofMethod D.scope none σ₁).2 := of_symbols (.refl σ₁) rfl rfl
  have hd : Plain σ₁ (Resolve.define D.scope s (addScope .ofMethod D.scope none σ₁).2).2 :=
    ha.trans (define D.scope _)
  generalize Resolve.define D.scope s _ = out at hd
  cases out.1 with
  | none   => exact hd.trans (of_symbols (Quiet.report (.duplicate .method m.name) m.position _) rfl rfl)
  | some x => exact hd.trans (of_symbols (.refl _) rfl rfl)

theorem mapM {f : α → Action β} (h : ∀ a σ, Plain σ (f a σ).2) (l : List α) (σ : State) :
    Plain σ (l.mapM f σ).2 := by
  induction l generalizing σ with
  | nil         => exact refl σ
  | cons a l hi =>
    rw [run_mapM_cons]
    exact (h a σ).trans (hi _)

theorem defineMember (D : DefinedClass) (m : Member) (σ : State) :
    Plain σ (Resolve.defineMember D m σ).2 := by
  cases m with
  | field d     => exact defineVariable d D.scope σ
  | method m    => exact defineMethod m D σ
  | malformed _ => exact refl σ

theorem defineMembers (D : DefinedClass) (σ : State) :
    Plain σ (Resolve.defineMembers D σ).2 := by
  obtain ⟨c, x, s⟩ := D
  cases c with
  | main c    => exact defineMain c _ σ
  | regular c => exact mapM (defineMember _) c.members σ

end Plain

theorem filter_isExhausted_notices (σ : State) :
    σ.notices.filter (·.isExhausted) = σ.diagnostics.toList.filter (·.isExhausted) := by
  rw [State.notices, List.filter_filter]
  refine congrArg (List.filter · _) (funext fun d => ?_)
  cases h : d.isExhausted <;> simp [Diagnostic.isNotice, h]

theorem filter_isCyclic_notices (σ : State) :
    σ.notices.filter (·.isCyclic) = σ.diagnostics.toList.filter (·.isCyclic) := by
  rw [State.notices, List.filter_filter]
  refine congrArg (List.filter · _) (funext fun d => ?_)
  cases h : d.isCyclic <;> simp [Diagnostic.isNotice, h]

-- A class that is linked may be reported, but for no slots.
theorem plain_linkSuperclass (D : DefinedClass) (σ : State) :
    ((linkSuperclass D σ).2.notices.filter (·.isExhausted) = σ.notices.filter (·.isExhausted)) ∧
      (σ.table.Unslotted → (linkSuperclass D σ).2.table.Unslotted) := by
  unfold linkSuperclass
  cases D.declaration with
  | main m    => exact ⟨rfl, id⟩
  | regular c =>
    dsimp only
    cases c.superclass with
    | none      => exact ⟨rfl, id⟩
    | some name =>
      dsimp only
      rw [run_bind, run_get]
      dsimp only
      cases σ.table.resolveType? name with
      | none   => exact ⟨congrArg _ (Quiet.report (.unresolved .superclass name) c.position σ), id⟩
      | some x =>
        dsimp only
        cases extensibleScope? σ.table x with
        | none   => exact ⟨congrArg _ (Quiet.report (.extendsBuiltin c.name name) c.position σ), id⟩
        | some s =>
          dsimp only
          split
          case isTrue  =>
            refine ⟨?_, id⟩
            rw [State.notices_report, List.filter_append]
            exact List.append_nil _
          case isFalse =>
            have hp : Plain σ
                { σ with table := (σ.table.setSuperclass D.symbol x).setParent D.scope s } :=
              .modifyType _ _ rfl rfl
            exact ⟨rfl, hp.unslotted⟩

theorem plain_linkSuperclasses (ds : List DefinedClass) (σ : State) :
    ((ds.forM linkSuperclass σ).2.notices.filter (·.isExhausted) =
        σ.notices.filter (·.isExhausted)) ∧
      (σ.table.Unslotted → (ds.forM linkSuperclass σ).2.table.Unslotted) := by
  induction ds generalizing σ with
  | nil          => exact ⟨rfl, id⟩
  | cons D ds hi =>
    obtain ⟨hD, hu⟩ := plain_linkSuperclass D σ
    obtain ⟨hds, hus⟩ := hi (linkSuperclass D σ).2
    rw [run_forM_cons]
    exact ⟨hds.trans hD, hus ∘ hu⟩

end Resolve

end MiniJava
