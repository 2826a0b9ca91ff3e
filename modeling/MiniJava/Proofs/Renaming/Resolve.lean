import MiniJava.Proofs.Renaming.Table
import MiniJava.Resolve.Bodies

namespace MiniJava

variable {r : Renaming}

namespace Resolve

structure State.Renamed (r : Renaming) (σ σ' : State) : Prop where
  table         : σ.table.Renamed r σ'.table
  diagnostics   : σ'.diagnostics = σ.diagnostics.map (·.rename r)
  nextLocal     : σ'.nextLocal = σ.nextLocal
  slotsReported : σ'.slotsReported = σ.slotsReported

-- Actions that only differ in names, where `f` renames values.
def Action.Renames (r : Renaming) (f : α → β) (a : Action α) (a' : Action β) : Prop :=
  ∀ σ σ', σ.Renamed r σ' → (a' σ').1 = f (a σ).1 ∧ (a σ).2.Renamed r (a' σ').2

namespace Action

theorem Renames.pure {f : α → β} (h : b = f a) : Renames r f (pure a : Action α) (pure b : Action β) :=
  fun _ _ hσ => ⟨h, hσ⟩

theorem Renames.bind {a : Action α} {a' : Action α'} {k : α → Action β} {k' : α' → Action β'}
    {f : α → α'} {g : β → β'} (h : Renames r f a a') (hk : ∀ x, Renames r g (k x) (k' (f x))) :
    Renames r g (a >>= k) (a' >>= k') := by
  intro σ σ' hσ
  obtain ⟨hv, hs⟩ := h σ σ' hσ
  have hk := hk (a σ).1 _ _ hs
  rw [← hv] at hk
  exact hk

theorem Renames.get_bind {k k' : State → Action α} {f : α → α}
    (h : ∀ σ σ', σ.Renamed r σ' → Renames r f (k σ) (k' σ')) :
    Renames r f (get >>= k) (get >>= k') :=
  fun σ σ' hσ => h σ σ' hσ σ σ' hσ

theorem Renames.modifyTable {change change' : SymbolTable → SymbolTable}
    (h : ∀ t t', t.Renamed r t' → (change t).Renamed r (change' t')) :
    Renames r id (modifyTable change) (modifyTable change') :=
  fun _ _ hσ => ⟨rfl, { hσ with table := h _ _ hσ.table }⟩

theorem renames_report (e : SemanticError) (p : Position) :
    Renames r id (report e p) (report (e.rename r) p) := by
  refine fun σ σ' hσ => ⟨rfl, { hσ with diagnostics := ?_ }⟩
  show σ'.diagnostics.push _ = (σ.diagnostics.push _).map _
  rw [hσ.diagnostics, Array.map_push]
  rfl

theorem renames_addScope (kind : ScopeKind) (parent : ScopeId) (owner : Option SymbolId) :
    Renames r id (addScope kind parent owner) (addScope kind parent owner) :=
  fun _ _ hσ => ⟨(hσ.table.addScope kind parent owner).1,
    { hσ with table := (hσ.table.addScope kind parent owner).2 }⟩

theorem renames_define (scope : ScopeId) (x : Symbol) :
    Renames r id (define scope x) (define scope (x.rename r)) := by
  refine .get_bind fun σ σ' hσ => ?_
  rw [hσ.table.accepts scope x]
  split
  case isTrue  =>
    exact fun _ _ hσ => ⟨congrArg some (hσ.table.addSymbol scope x).1,
      { hσ with table := (hσ.table.addSymbol scope x).2 }⟩
  case isFalse => exact .pure rfl

theorem renames_checkTypeName (name : String) (p : Position) :
    Renames r id (checkTypeName name p) (checkTypeName (r.name name) p) := by
  refine .get_bind fun σ σ' hσ => ?_
  rw [hσ.table.resolveType? name]
  split
  case isTrue  => exact renames_report (.unresolved .aType name) p
  case isFalse => exact .pure rfl

theorem renames_mapM {a : α → Action β} {a' : α' → Action β'} {f : α → α'} {g : β → β'} (l : List α)
    (h : ∀ x, Renames r g (a x) (a' (f x))) :
    Renames r (List.map g) (l.mapM a) ((l.map f).mapM a') := by
  induction l with
  | nil         => exact .pure rfl
  | cons x l hi =>
    rw [List.map_cons, List.mapM_cons, List.mapM_cons]
    exact (h x).bind fun _ => hi.bind fun _ => .pure rfl

theorem renames_forM {a : α → Action Unit} {a' : α' → Action Unit} {f : α → α'} (l : List α)
    (h : ∀ x, Renames r id (a x) (a' (f x))) : Renames r id (l.forM a) ((l.map f).forM a') := by
  induction l with
  | nil         => exact .pure rfl
  | cons x l hi => exact (h x).bind fun _ => hi

end Action

open Resolve.Action

theorem ofName_rename (name : String) :
    StaticType.ofName (r.name name) = (StaticType.ofName name).rename r.name := by
  have hb (word) (h : word ∈ builtinTypes) : r.name name = word ↔ name = word :=
    Renaming.name_eq_iff (Renaming.not_isIdentifier_of_builtin word h)
  have hi := hb "int" (by decide)
  have hbool := hb "boolean" (by decide)
  have hv := hb "void" (by decide)
  cases h : StaticType.ofName name with
  | int     => simpa [StaticType.rename, hi] using h
  | boolean => simpa [StaticType.rename, hbool] using h
  | void    => simpa [StaticType.rename, hv] using h
  | object c =>
    obtain ⟨rfl, hn⟩ := StaticType.ofName_eq_object.mp h
    exact StaticType.ofName_eq_object.mpr ⟨rfl, by rwa [ne_eq, ne_eq, ne_eq, hi, hbool, hv]⟩
  | array τ => exact absurd h StaticType.ofName_ne_array

theorem ofDeclared_rename (name : String) (isArray : Bool) :
    StaticType.ofDeclared (r.name name) isArray = (StaticType.ofDeclared name isArray).rename r.name := by
  cases isArray with
  | false => exact ofName_rename name
  | true  => exact congrArg StaticType.array (ofName_rename name)

theorem staticType_rename (type : TypeRef) :
    staticType (type.rename r) = (staticType type).rename r.name :=
  ofDeclared_rename type.name type.isArray

theorem renames_defineVariable (d : VariableDeclaration) (scope : ScopeId) (slot : Option Nat) :
    Renames r id (defineVariable d scope slot) (defineVariable (d.rename r) scope slot) := by
  refine (renames_checkTypeName d.type.name d.position).bind fun _ => ?_
  refine (Renames.modifyTable fun _ _ ht => ht.bindScope d.id scope).bind fun _ => ?_
  have hx : (⟨r.name d.name, .ofVariable ⟨staticType (d.type.rename r), d.storage, slot⟩, d.id⟩ : Symbol) =
      Symbol.rename r ⟨d.name, .ofVariable ⟨staticType d.type, d.storage, slot⟩, d.id⟩ := by
    rw [staticType_rename]
    rfl
  have hdefine := renames_define (r := r) scope
    ⟨d.name, .ofVariable ⟨staticType d.type, d.storage, slot⟩, d.id⟩
  rw [← hx] at hdefine
  refine hdefine.bind fun defined => ?_
  cases defined with
  | none   => exact (renames_report (.duplicate .aVariable d.name) d.position).bind fun _ => .pure rfl
  | some _ => exact .pure rfl

theorem renames_slotOf (number : Nat) (use : SlotUse) (p : Position) :
    Renames r id (slotOf number use p) (slotOf number use p) := by
  unfold slotOf
  split
  case isTrue  => exact .pure rfl
  case isFalse =>
    refine .get_bind fun σ σ' hσ => ?_
    rw [hσ.slotsReported]
    split
    case isTrue  => exact .pure rfl
    case isFalse =>
      have hm : Renames r id (modify fun σ : State => { σ with slotsReported := true })
          (modify fun σ => { σ with slotsReported := true }) :=
        fun _ _ hσ => ⟨rfl, { hσ with slotsReported := rfl }⟩
      exact hm.bind fun _ => (renames_report (.slotsExhausted use) p).bind fun _ => .pure rfl

def AnyClass.rename (r : Renaming) : AnyClass → AnyClass
  | main c    => main (c.rename r)
  | regular c => regular (c.rename r)

def DefinedClass.rename (r : Renaming) (c : DefinedClass) : DefinedClass :=
  { c with declaration := c.declaration.rename r }

def MethodBody.rename (r : Renaming) (b : MethodBody) : MethodBody :=
  { b with
    parameters := b.parameters.map (·.rename r)
    statements := Statement.renameAll r b.statements }

theorem allClasses_rename (p : Program) :
    allClasses (p.rename r) = (allClasses p).map (·.rename r) := by
  obtain ⟨main, classes⟩ := p
  cases main <;> simp [allClasses, Program.rename, Function.comp_def, AnyClass.rename]

theorem renames_defineClass (c : AnyClass) :
    Renames r (Option.map (·.rename r)) (defineClass c) (defineClass (c.rename r)) := by
  have hname : (c.rename r).name = r.name c.name := by cases c <;> rfl
  have hid : (c.rename r).id = c.id := by cases c <;> rfl
  have hposition : (c.rename r).position = c.position := by cases c <;> rfl
  unfold defineClass
  rw [hname, hid, hposition]
  refine (renames_define SymbolTable.globalScope ⟨c.name, .ofType ⟨false, none, none⟩, c.id⟩).bind
    fun defined => ?_
  cases defined with
  | none        => exact (renames_report (.duplicate .aClass c.name) c.position).bind fun _ => .pure rfl
  | some symbol =>
    refine (renames_addScope .ofClass SymbolTable.globalScope symbol).bind fun scope => ?_
    exact (Renames.modifyTable fun _ _ ht => (ht.setTypeScope symbol scope).bindScope c.id scope).bind
      fun _ => .pure rfl

theorem extensibleScope?_renamed {t t' : SymbolTable} (h : t.Renamed r t') (i : SymbolId) :
    extensibleScope? t' i = extensibleScope? t i := by
  unfold extensibleScope?
  rw [h.symbol?]
  cases t.symbol? i with
  | none   => rfl
  | some x => exact congrArg (Option.bind · _) x.asType?_rename

theorem renames_linkSuperclass (c : DefinedClass) :
    Renames r id (linkSuperclass c) (linkSuperclass (c.rename r)) := by
  obtain ⟨c | c, symbol, scope⟩ := c
  case main    => exact .pure rfl
  case regular =>
    obtain ⟨i, name, superclass, members, p⟩ := c
    cases superclass with
    | none            => exact .pure rfl
    | some superclass =>
      refine .get_bind fun σ σ' hσ => ?_
      dsimp only [DefinedClass.rename, ClassDeclaration.rename]
      rw [hσ.table.resolveType? superclass]
      cases σ.table.resolveType? superclass with
      | none        => exact renames_report (.unresolved .superclass superclass) p
      | some parent =>
        dsimp only
        rw [extensibleScope?_renamed hσ.table]
        cases extensibleScope? σ.table parent with
        | none             => exact renames_report (.extendsBuiltin name superclass) p
        | some parentScope =>
          have hi := hσ.table.inherits parent symbol
          by_cases hc : σ.table.inherits parent symbol = true
          case pos =>
            simp only [hc, hi]
            exact renames_report (.cyclicInheritance name) p
          case neg =>
            simp only [hc, hi]
            exact .modifyTable fun _ _ ht => (ht.setSuperclass symbol parent).setParent scope parentScope

theorem renames_defineMain (main : MainClass) (c : DefinedClass) :
    Renames r (Option.map (·.rename r)) (defineMain main c) (defineMain (main.rename r) (c.rename r)) := by
  refine (renames_addScope .ofMethod c.scope none).bind fun scope => ?_
  have hx : (⟨"main", .ofMethod ⟨.void, [], scope, c.symbol⟩, none⟩ : Symbol) =
      Symbol.rename r ⟨"main", .ofMethod ⟨.void, [], scope, c.symbol⟩, none⟩ :=
    congrArg (Symbol.mk · _ none) Renaming.name_main.symm
  have hdefine := renames_define (r := r) c.scope ⟨"main", .ofMethod ⟨.void, [], scope, c.symbol⟩, none⟩
  rw [← hx] at hdefine
  refine hdefine.bind fun defined => ?_
  cases defined with
  | none        => exact .pure rfl
  | some symbol =>
    exact (Renames.modifyTable fun _ _ ht => ht.setOwner scope symbol).bind fun _ => .pure rfl

theorem renames_defineMethod (m : MethodDeclaration) (c : DefinedClass) :
    Renames r (Option.map (·.rename r)) (defineMethod m c) (defineMethod (m.rename r) (c.rename r)) := by
  refine (renames_checkTypeName m.returns.name m.position).bind fun _ => ?_
  refine (renames_addScope .ofMethod c.scope none).bind fun scope => ?_
  let x : Symbol := ⟨m.name, .ofMethod ⟨staticType m.returns,
    m.parameters.map fun d => staticType d.type, scope, c.symbol⟩, m.id⟩
  have hx : (⟨r.name m.name, .ofMethod ⟨staticType (m.returns.rename r),
      (m.parameters.map (·.rename r)).map fun d => staticType d.type, scope, c.symbol⟩, m.id⟩ : Symbol) =
      x.rename r := by
    simp only [x, Symbol.rename, SymbolKind.rename, staticType_rename, List.map_map, Function.comp_def,
      VariableDeclaration.rename]
  have hdefine := renames_define (r := r) c.scope x
  rw [← hx] at hdefine
  refine hdefine.bind fun defined => ?_
  cases defined with
  | none        => exact (renames_report (.duplicate .method m.name) m.position).bind fun _ => .pure rfl
  | some symbol =>
    exact (Renames.modifyTable fun _ _ ht => (ht.setOwner scope symbol).bindScope m.id scope).bind
      fun _ => .pure rfl

theorem renames_defineMember (c : DefinedClass) (m : Member) :
    Renames r (Option.map (·.rename r)) (defineMember c m) (defineMember (c.rename r) (m.rename r)) := by
  cases m with
  | field d     => exact (renames_defineVariable d c.scope none).bind fun _ => .pure rfl
  | method m    => exact renames_defineMethod m c
  | malformed p => exact .pure rfl

theorem filterMap_map_option (l : List (Option α)) (f : α → β) :
    (l.map (Option.map f)).filterMap id = (l.filterMap id).map f := by
  rw [List.filterMap_map, List.map_filterMap]
  rfl

theorem renames_defineMembers (c : DefinedClass) :
    Renames r (List.map (·.rename r)) (defineMembers c) (defineMembers (c.rename r)) := by
  obtain ⟨declaration, symbol, scope⟩ := c
  cases declaration with
  | main main =>
    exact (renames_defineMain main _).bind fun o => .pure (Option.toList_map ..)
  | regular c =>
    exact (renames_mapM c.members (renames_defineMember _)).bind fun l =>
      .pure (filterMap_map_option l _)

theorem renames_declarations (p : Program) :
    Renames r (List.map (·.rename r)) (declarations p) (declarations (p.rename r)) := by
  unfold declarations
  rw [allClasses_rename]
  refine (renames_mapM (allClasses p) renames_defineClass).bind fun l => ?_
  rw [filterMap_map_option]
  refine (renames_forM (l.filterMap id) renames_linkSuperclass).bind fun _ => ?_
  refine (renames_mapM (l.filterMap id) renames_defineMembers).bind fun bodies => .pure ?_
  rw [List.map_flatten]

abbrev renameType (r : Renaming) : Option StaticType → Option StaticType :=
  Option.map (·.rename r.name)

theorem renames_keepType (node : NodeId) (type : Option StaticType) :
    Renames r (renameType r) (keepType node type) (keepType node (renameType r type)) := by
  cases type with
  | none      => exact .pure rfl
  | some type =>
    exact (Renames.modifyTable fun _ _ ht => ht.setType node type).bind fun _ => .pure rfl

theorem selfType_renamed {t t' : SymbolTable} (h : t.Renamed r t') (scope : ScopeId) :
    selfType t' scope = renameType r (selfType t scope) := by
  unfold selfType
  rw [h.enclosingClass?]
  cases t.enclosingClass? scope with
  | none   => rfl
  | some c =>
    simp only [Option.bind_some, h.symbol?]
    cases t.symbol? c <;> rfl

theorem renames_resolveReference (place : Place) (i : NodeId) (name : String) (p : Position) :
    Renames r (renameType r) (resolveReference place i name p)
      (resolveReference place i (r.name name) p) := by
  refine .get_bind fun σ σ' hσ => ?_
  dsimp only
  rw [hσ.table.resolve?]
  cases σ.table.resolve? place.scope .variableNames name with
  | none   => exact (renames_report (.unresolved .aVariable name) p).bind fun _ => .pure rfl
  | some s =>
    refine (Renames.modifyTable fun _ _ ht => ht.bindReference i s).bind fun _ => .pure ?_
    rw [hσ.table.symbol?]
    cases σ.table.symbol? s with
    | none   => rfl
    | some x =>
      obtain ⟨_, _ | _ | _, _⟩ := x <;> rfl

theorem renames_resolveCreation (i : NodeId) (name : String) (p : Position) :
    Renames r (renameType r) (resolveCreation i name p) (resolveCreation i (r.name name) p) := by
  refine .get_bind fun σ σ' hσ => ?_
  rw [hσ.table.resolveType?]
  cases σ.table.resolveType? name with
  | none   => exact (renames_report (.unresolved .aType name) p).bind fun _ => .pure rfl
  | some s => exact (Renames.modifyTable fun _ _ ht => ht.bindReference i s).bind fun _ => .pure rfl

theorem classScope?_renamed {t t' : SymbolTable} (h : t.Renamed r t') (name : String) :
    classScope? t' (r.name name) = classScope? t name := by
  unfold classScope?
  rw [h.resolveType?]
  cases t.resolveType? name with
  | none   => rfl
  | some s =>
    simp only [Option.bind_some, h.symbol?]
    cases t.symbol? s with
    | none   => rfl
    | some x => exact congrArg (Option.bind · _) x.asType?_rename

theorem asMethod?_renamed {t t' : SymbolTable} (h : t.Renamed r t') (s : SymbolId) :
    (t'.symbol? s).bind Symbol.asMethod? =
      ((t.symbol? s).bind Symbol.asMethod?).map fun m => { m with
        returns    := m.returns.rename r.name
        parameters := m.parameters.map (·.rename r.name) } := by
  rw [h.symbol?]
  cases t.symbol? s with
  | none   => rfl
  | some x => obtain ⟨_, _ | _ | _, _⟩ := x <;> rfl

theorem renames_resolveMethod (className : String) (i : NodeId) (method : String) (supplied : Nat)
    (p : Position) :
    Renames r (renameType r) (resolveMethod className i method supplied p)
      (resolveMethod (r.name className) i (r.name method) supplied p) := by
  refine .get_bind fun σ σ' hσ => ?_
  dsimp only
  rw [classScope?_renamed hσ.table]
  cases classScope? σ.table className with
  | none       => exact .pure rfl
  | some scope =>
    dsimp only
    rw [hσ.table.resolve?]
    cases σ.table.resolve? scope .methodNames method with
    | none   => exact (renames_report (.unresolved .method method) p).bind fun _ => .pure rfl
    | some s =>
      dsimp only
      rw [asMethod?_renamed hσ.table]
      cases (σ.table.symbol? s).bind Symbol.asMethod? with
      | none       => exact .pure rfl
      | some found =>
        dsimp only [Option.map_some]
        rw [List.length_map]
        have hend : Renames r (renameType r)
            (do modifyTable (·.bindReference i s); return some found.returns)
            (do modifyTable (·.bindReference i s); return some (found.returns.rename r.name)) :=
          (Renames.modifyTable fun _ _ ht => ht.bindReference i s).bind fun _ => .pure rfl
        split
        case isTrue  =>
          exact (renames_report (.argumentCount method found.parameters.length supplied) p).bind
            fun _ => hend
        case isFalse => exact hend

theorem renames_resolveCall (receiver : StaticType) (i : NodeId) (method : String) (supplied : Nat)
    (p : Position) :
    Renames r (renameType r) (resolveCall receiver i method supplied p)
      (resolveCall (receiver.rename r.name) i (r.name method) supplied p) := by
  have hlength : r.name method = Keyword.lengthWord.spelling ↔ method = Keyword.lengthWord.spelling :=
    Renaming.name_eq_iff (Renaming.not_isIdentifier_spelling _)
  unfold resolveCall
  simp only [hlength]
  split
  case isTrue  =>
    cases receiver with
    | array τ => exact .pure rfl
    | _       => exact (renames_report .lengthOfNonArray p).bind fun _ => .pure rfl
  case isFalse =>
    cases receiver with
    | object className => exact renames_resolveMethod className i method supplied p
    | _                => exact (renames_report (.notCallable method _) p).bind fun _ => .pure rfl

theorem length_renameAll (es : List Expression) : (Expression.renameAll r es).length = es.length := by
  induction es with
  | nil          => rfl
  | cons e es hi => exact congrArg (· + 1) hi

mutual

theorem renames_expression (place : Place) (e : Expression) :
    Renames r (renameType r) (expression place e) (expression place (e.rename r)) := by
  have hplace (i : NodeId) : Renames r id (modifyTable (·.bindScope i place.scope))
      (modifyTable (·.bindScope i place.scope)) :=
    .modifyTable fun _ _ ht => ht.bindScope i place.scope
  cases e with
  | call i receiver method arguments p =>
    refine (hplace i).bind fun _ => (renames_expression place receiver).bind fun type => ?_
    refine (renames_expressions place arguments).bind fun _ => ?_
    rw [length_renameAll]
    cases type with
    | none      => exact .pure rfl
    | some type => exact (renames_resolveCall type i method _ p).bind (renames_keepType i)
  | newObject i name p        =>
    exact (hplace i).bind fun _ => (renames_resolveCreation i name p).bind (renames_keepType i)
  | newArray i name size p    =>
    refine (hplace i).bind fun _ => (renames_expression place size).bind fun _ => ?_
    refine (renames_checkTypeName name p).bind fun _ => ?_
    rw [ofDeclared_rename]
    exact renames_keepType i (some (.ofDeclared name true))
  | not i operand p           =>
    exact (renames_expression place operand).bind fun _ => renames_keepType i (some .boolean)
  | binary i op left right p  =>
    refine (renames_expression place left).bind fun _ => (renames_expression place right).bind fun _ => ?_
    have hτ (τ : StaticType) (h : τ.rename r.name = τ) :
        Renames r (renameType r) (keepType i (some τ)) (keepType i (some τ)) := by
      have hk := renames_keepType (r := r) i (some τ)
      rwa [renameType, Option.map_some, h] at hk
    split
    case isTrue  => exact hτ .int rfl
    case isFalse => exact hτ .boolean rfl
  | boolean i value p         => exact renames_keepType i (some .boolean)
  | integer i value p         => exact renames_keepType i (some .int)
  | self i p                  =>
    have hend : Renames r (renameType r)
        (do keepType i (selfType (← get).table place.scope))
        (do keepType i (selfType (← get).table place.scope)) := by
      refine .get_bind fun σ σ' hσ => ?_
      rw [selfType_renamed hσ.table]
      exact renames_keepType i _
    refine (hplace i).bind fun _ => ?_
    split
    case isTrue  => exact (renames_report .thisInMain p).bind fun _ => hend
    case isFalse => exact hend
  | index i array subscript p =>
    refine (renames_expression place array).bind fun type => ?_
    refine (renames_expression place subscript).bind fun _ => ?_
    cases type with
    | none      => exact .pure rfl
    | some type =>
      cases type with
      | array element => exact renames_keepType i (some element)
      | _             => exact (renames_report (.notIndexable _) p).bind fun _ => .pure rfl
  | reference i name p        =>
    exact (hplace i).bind fun _ => (renames_resolveReference place i name p).bind (renames_keepType i)
  | malformed p               => exact .pure rfl

theorem renames_expressions (place : Place) (es : List Expression) :
    Renames r id (expressions place es) (expressions place (Expression.renameAll r es)) := by
  cases es with
  | nil       => exact .pure rfl
  | cons e es => exact (renames_expression place e).bind fun _ => renames_expressions place es

end

theorem renames_declareLocal (place : Place) (d : VariableDeclaration) :
    Renames r id (declareLocal place d) (declareLocal place (d.rename r)) := by
  refine .get_bind fun σ σ' hσ => ?_
  rw [hσ.nextLocal]
  refine (renames_slotOf σ.nextLocal .locals d.position).bind fun slot => ?_
  refine (renames_defineVariable d place.scope slot).bind fun defined => ?_
  have hm : Renames r id (modify fun σ : State => { σ with nextLocal := σ.nextLocal + 1 })
      (modify fun σ => { σ with nextLocal := σ.nextLocal + 1 }) :=
    fun _ _ hσ => ⟨rfl, { hσ with nextLocal := congrArg (· + 1) hσ.nextLocal }⟩
  show Renames r id (if (defined.isSome && slot.isSome) = true then _ else _)
    (if (defined.isSome && slot.isSome) = true then _ else _)
  split
  case isTrue  => exact hm
  case isFalse => exact .pure rfl

theorem form_rename (e : Expression) : (e.rename r).form = e.form := by
  cases e <;> rfl

theorem position_rename (e : Expression) : (e.rename r).position = e.position := by
  cases e <;> rfl

mutual

theorem renames_statement (place : Place) (s : Statement) :
    Renames r id (statement place s) (statement place (s.rename r)) := by
  have he (e : Expression) : Renames r id (do let _ ← expression place e)
      (do let _ ← expression place (e.rename r)) :=
    (renames_expression place e).bind fun _ => .pure rfl
  cases s with
  | declare d                         => exact renames_declareLocal place d
  | print _ e _ | ret _ e _ | assert _ e _ => exact he e
  | block i body p                    =>
    refine (renames_addScope .ofBlock place.scope none).bind fun scope => ?_
    exact (Renames.modifyTable fun _ _ ht => ht.bindScope i scope).bind fun _ =>
      renames_statements _ body
  | assign i target value p           =>
    have hend : Renames r id
        (do
          let _ ← expression place target
          let _ ← expression place value)
        (do
          let _ ← expression place (target.rename r)
          let _ ← expression place (value.rename r)) :=
      (renames_expression place target).bind fun _ => he value
    show Renames r id (if isAssignable target.form = true then _ else _)
      (if isAssignable (target.rename r).form = true then _ else _)
    rw [form_rename]
    split
    case isTrue  => exact hend
    case isFalse =>
      rw [position_rename]
      exact (renames_report (.cannotAssign target.form) target.position).bind fun _ => hend
  | ifThen i e s p                    =>
    exact (renames_expression place e).bind fun _ => renames_statement place s
  | ifThenElse i e s s' p             =>
    exact (renames_expression place e).bind fun _ => (renames_statement place s).bind fun _ =>
      renames_statement place s'
  | loop i e s p                      =>
    exact (renames_expression place e).bind fun _ => renames_statement place s
  | call i receiver method arguments p => exact he (.call i receiver method arguments p)
  | malformed p                       => exact .pure rfl

theorem renames_statements (place : Place) (ss : List Statement) :
    Renames r id (statements place ss) (statements place (Statement.renameAll r ss)) := by
  cases ss with
  | nil       => exact .pure rfl
  | cons s ss => exact (renames_statement place s).bind fun _ => renames_statements place ss

end

theorem renames_parameters (scope : ScopeId) (number : Nat) (ds : List VariableDeclaration) :
    Renames r id (parameters scope number ds) (parameters scope number (ds.map (·.rename r))) := by
  induction ds generalizing number with
  | nil          => exact .pure rfl
  | cons d ds hi =>
    exact (renames_slotOf number .parameters d.position).bind fun slot =>
      (renames_defineVariable d scope slot).bind fun _ => hi (number + 1)

theorem renames_methodBody (b : MethodBody) : Renames r id (methodBody b) (methodBody (b.rename r)) := by
  have hm : Renames r id
      (modify fun σ : State => { σ with nextLocal := 0, slotsReported := false })
      (modify fun σ => { σ with nextLocal := 0, slotsReported := false }) :=
    fun _ _ hσ => ⟨rfl, { hσ with nextLocal := rfl, slotsReported := rfl }⟩
  exact hm.bind fun _ => (renames_parameters b.scope 1 b.parameters).bind fun _ =>
    renames_statements ⟨b.scope, b.isMain⟩ b.statements

theorem renames_program (p : Program) : Renames r id (program p) (program (p.rename r)) :=
  (renames_declarations p).bind fun bodies => renames_forM bodies renames_methodBody

theorem renamed_builtinTable : builtinTable.Renamed r builtinTable := by
  have hempty : SymbolTable.empty.Renamed r .empty := by
    refine ⟨rfl, fun i => ?scopes, Array.map_empty.symm, rfl, rfl, rfl, fun i => ?types⟩
    case scopes =>
      cases i with
      | zero   => exact .some (.of_empty .global none none)
      | succ i => exact .none
    case types => simp [SymbolTable.typeOf?, SymbolTable.empty]
  unfold builtinTable
  have hstep (names : List String) (hn : ∀ name ∈ names, name ∈ builtinTypes) {t t' : SymbolTable}
      (ht : t.Renamed r t') :
      (names.foldl (fun t name => (t.addSymbol SymbolTable.globalScope
        ⟨name, .ofType ⟨true, none, none⟩, none⟩).2) t).Renamed r
      (names.foldl (fun t name => (t.addSymbol SymbolTable.globalScope
        ⟨name, .ofType ⟨true, none, none⟩, none⟩).2) t') := by
    induction names generalizing t t' with
    | nil                => exact ht
    | cons name names hi =>
      obtain ⟨hname, hnames⟩ := List.forall_mem_cons.mp hn
      have hx : Symbol.rename r ⟨name, .ofType ⟨true, none, none⟩, none⟩ =
          ⟨name, .ofType ⟨true, none, none⟩, none⟩ :=
        congrArg (Symbol.mk · _ none)
          (Renaming.name_of_not (Renaming.not_isIdentifier_of_builtin name hname))
      have ha := (ht.addSymbol SymbolTable.globalScope ⟨name, .ofType ⟨true, none, none⟩, none⟩).2
      rw [hx] at ha
      exact hi hnames ha
  exact hstep builtinTypes (fun _ h => h) hempty

end Resolve

theorem ResolvedProgram.ofProgram_rename (p : Program) :
    (ofProgram p).table.Renamed r (ofProgram (p.rename r)).table ∧
      (ofProgram (p.rename r)).diagnostics = (ofProgram p).diagnostics.map (·.rename r) := by
  have hstart : Resolve.State.Renamed r ⟨Resolve.builtinTable, #[], 0, false⟩
      ⟨Resolve.builtinTable, #[], 0, false⟩ :=
    ⟨Resolve.renamed_builtinTable, Array.map_empty.symm, rfl, rfl⟩
  have h := (Resolve.renames_program (r := r) p _ _ hstart).2
  exact ⟨h.table, (congrArg Array.toList h.diagnostics).trans Array.toList_map⟩

end MiniJava
