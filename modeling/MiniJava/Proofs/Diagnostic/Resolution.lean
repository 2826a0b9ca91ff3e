import MiniJava.Proofs.Diagnostic.Names
import MiniJava.Resolve.Bodies

namespace MiniJava

variable {P : String → Prop}

section

variable (P)

-- Names reach a diagnostic also through the table, as the names and types of symbols.
def SymbolKind.Bears : SymbolKind → Prop
  | ofType _     => True
  | ofMethod x   => x.returns.Bears P
  | ofVariable x => x.type.Bears P

structure Symbol.Bears (x : Symbol) : Prop where
  name : P x.name
  kind : x.kind.Bears P

def SymbolTable.Bears (t : SymbolTable) : Prop :=
  ∀ s x, t.symbol? s = some x → x.Bears P

end

theorem StaticType.bears_ofDeclared (h : P name) (isArray : Bool) :
    (StaticType.ofDeclared name isArray).Bears P := by
  have hn : (StaticType.ofName name).Bears P := by
    unfold ofName
    split_ifs <;> trivial
  cases isArray <;> exact hn

namespace SymbolTable.Bears

variable {t : SymbolTable}

theorem of_symbols {t' : SymbolTable} (h : t.Bears P) (hs : t'.symbols = t.symbols) : t'.Bears P :=
  fun s x hx => h s x (by rwa [symbol?, ← hs])

theorem addSymbol (h : t.Bears P) (scope : ScopeId) {x : Symbol} (hx : x.Bears P) :
    (t.addSymbol scope x).2.Bears P := by
  intro s y hy
  have hy : (t.symbols.push x)[s]? = some y := hy
  rw [Array.getElem?_push] at hy
  split at hy
  case isTrue  => exact Option.some.inj hy ▸ hx
  case isFalse => exact h s y hy

theorem modifyType (h : t.Bears P) (s : SymbolId) (change : TypeSymbol → TypeSymbol) :
    SymbolTable.Bears P { t with symbols := t.symbols.modify s (·.modifyType change) } := by
  intro i y hy
  have hy : (t.symbols.modify s (·.modifyType change))[i]? = some y := hy
  rw [Array.getElem?_modify] at hy
  split at hy
  case isFalse => exact h i y hy
  case isTrue  =>
    obtain ⟨x, hx, rfl⟩ := Option.map_eq_some_iff.mp hy
    have hb := h i x hx
    obtain ⟨name, _ | _ | _, declaration⟩ := x <;> exact ⟨hb.name, hb.kind⟩

end SymbolTable.Bears

namespace Resolve

structure State.Bears (P : String → Prop) (σ : State) : Prop where
  table       : σ.table.Bears P
  diagnostics : ∀ d ∈ σ.diagnostics, d.Bears P

-- The action tells only words with `P`, and what it gives satisfies `Q`.
def Action.Bears (P : String → Prop) (Q : α → Prop) (e : Action α) : Prop :=
  ∀ σ, σ.Bears P → Q (e σ).1 ∧ (e σ).2.Bears P

namespace Action

variable {Q : α → Prop} {R : β → Prop}

theorem Bears.pure (h : Q a) : Bears P Q (pure a : Action α) :=
  fun _ hσ => ⟨h, hσ⟩

theorem Bears.bind {e : Action α} {k : α → Action β} (h : e.Bears P Q)
    (hk : ∀ a, Q a → (k a).Bears P R) : Bears P R (e >>= k) :=
  fun σ hσ => hk _ (h σ hσ).1 _ (h σ hσ).2

theorem Bears.get_bind {k : State → Action α} (h : ∀ σ, σ.Bears P → (k σ).Bears P Q) :
    Bears P Q (get >>= k) :=
  fun σ hσ => h σ hσ σ hσ

theorem Bears.modifyTable {change : SymbolTable → SymbolTable}
    (h : ∀ t, t.Bears P → (change t).Bears P) : Bears P (fun _ => True) (modifyTable change) :=
  fun _ hσ => ⟨trivial, h _ hσ.table, hσ.diagnostics⟩

-- A change that leaves the symbols.
theorem bears_note {change : SymbolTable → SymbolTable}
    (h : ∀ t, (change t).symbols = t.symbols := by exact fun _ => rfl) :
    Bears P (fun _ => True) (Resolve.modifyTable change) :=
  .modifyTable fun t ht => ht.of_symbols (h t)

-- The slots are not told.
theorem bears_modify {change : State → State}
    (ht : ∀ σ, (change σ).table = σ.table := by exact fun _ => rfl)
    (hd : ∀ σ, (change σ).diagnostics = σ.diagnostics := by exact fun _ => rfl) :
    Bears P (fun _ => True) (modify change : Action Unit) :=
  fun σ hσ => ⟨trivial, ht σ ▸ hσ.table, hd σ ▸ hσ.diagnostics⟩

theorem bears_report (error : SemanticError) (he : error.Bears P) (p : Position) :
    Bears P (fun _ => True) (report error p) := by
  refine fun σ hσ => ⟨trivial, hσ.table, fun d hd => ?_⟩
  cases Array.mem_push.mp hd with
  | inl hd => exact hσ.diagnostics d hd
  | inr hd => exact hd ▸ ⟨he, rfl⟩

theorem bears_addScope (kind : ScopeKind) (parent : ScopeId) (owner : Option SymbolId) :
    Bears P (fun _ => True) (addScope kind parent owner) :=
  fun _ hσ => ⟨trivial, hσ.table.of_symbols rfl, hσ.diagnostics⟩

theorem bears_define (scope : ScopeId) {x : Symbol} (hx : x.Bears P) :
    Bears P (fun _ => True) (define scope x) := by
  refine .get_bind fun σ hσ => ?_
  split
  case isTrue  => exact fun _ hσ => ⟨trivial, hσ.table.addSymbol scope hx, hσ.diagnostics⟩
  case isFalse => exact .pure trivial

theorem bears_checkTypeName (h : P name) (p : Position) :
    Bears P (fun _ => True) (checkTypeName name p) := by
  refine .get_bind fun σ hσ => ?_
  split
  case isTrue  => exact bears_report (.unresolved .aType name) h p
  case isFalse => exact .pure trivial

theorem bears_mapM {e : α → Action β} {l : List α} (h : ∀ a ∈ l, (e a).Bears P R) :
    Bears P (fun bs => ∀ b ∈ bs, R b) (l.mapM e) := by
  induction l with
  | nil         => exact .pure nofun
  | cons a l hi =>
    obtain ⟨ha, hl⟩ := List.forall_mem_cons.mp h
    rw [List.mapM_cons]
    exact ha.bind fun b hb => (hi hl).bind fun bs hbs => .pure (List.forall_mem_cons.mpr ⟨hb, hbs⟩)

theorem bears_forM {e : α → Action Unit} {l : List α} (h : ∀ a ∈ l, (e a).Bears P fun _ => True) :
    Bears P (fun _ => True) (l.forM e) := by
  induction l with
  | nil         => exact .pure trivial
  | cons a l hi =>
    obtain ⟨ha, hl⟩ := List.forall_mem_cons.mp h
    exact ha.bind fun _ _ => hi hl

end Action

open Resolve.Action

abbrev Tells (P : String → Prop) (e : Action α) : Prop :=
  e.Bears P fun _ => True

theorem bears_defineVariable {d : VariableDeclaration} (hd : d.Bears P) (scope : ScopeId)
    (slot : Option Nat) : Tells P (defineVariable d scope slot) := by
  have hx : Symbol.Bears P ⟨d.name, .ofVariable ⟨staticType d.type, d.storage, slot⟩, d.id⟩ :=
    ⟨hd.name, StaticType.bears_ofDeclared hd.type d.type.isArray⟩
  refine (bears_checkTypeName hd.type d.position).bind fun _ _ => (bears_note).bind fun _ _ => ?_
  refine (bears_define scope hx).bind fun defined _ => ?_
  cases defined with
  | none   =>
    exact (bears_report (.duplicate .aVariable d.name) hd.name d.position).bind fun _ _ =>
      .pure trivial
  | some _ => exact .pure trivial

theorem bears_slotOf (number : Nat) (use : SlotUse) (p : Position) :
    Tells P (slotOf number use p) := by
  unfold slotOf
  split
  case isTrue  => exact .pure trivial
  case isFalse =>
    refine .get_bind fun σ _ => ?_
    split
    case isTrue  => exact .pure trivial
    case isFalse =>
      exact (bears_modify).bind fun _ _ =>
        (bears_report (.slotsExhausted use) trivial p).bind fun _ _ => .pure trivial

def AnyClass.Bears (P : String → Prop) : AnyClass → Prop
  | main c    => c.Bears P
  | regular c => c.Bears P

def DefinedClass.Bears (P : String → Prop) (c : DefinedClass) : Prop :=
  c.declaration.Bears P

structure MethodBody.Bears (P : String → Prop) (b : MethodBody) : Prop where
  parameters : ∀ d ∈ b.parameters, d.Bears P
  statements : Statement.BearAll P b.statements

theorem AnyClass.Bears.name {c : AnyClass} (h : c.Bears P) : P c.name := by
  cases c with
  | main c    => exact MainClass.Bears.name h
  | regular c => exact ClassDeclaration.Bears.name h

theorem bears_allClasses {p : Program} (h : p.Bears P) : ∀ c ∈ allClasses p, c.Bears P := by
  intro c hc
  cases List.mem_append.mp hc with
  | inl hc =>
    obtain ⟨main, hm, rfl⟩ := List.mem_map.mp hc
    exact h.mainClass main (Option.mem_toList.mp hm)
  | inr hc =>
    obtain ⟨c', hc', rfl⟩ := List.mem_map.mp hc
    exact h.classes c' hc'

theorem bears_defineClass {c : AnyClass} (hc : c.Bears P) :
    (defineClass c).Bears P fun defined => ∀ D ∈ defined, D.Bears P := by
  refine (bears_define SymbolTable.globalScope (x := ⟨c.name, .ofType ⟨false, none, none⟩, c.id⟩)
    ⟨hc.name, trivial⟩).bind fun defined _ => ?_
  cases defined with
  | none        =>
    exact (bears_report (.duplicate .aClass c.name) hc.name c.position).bind fun _ _ =>
      .pure nofun
  | some symbol =>
    refine (bears_addScope .ofClass SymbolTable.globalScope symbol).bind fun scope _ => ?_
    have hscope : Tells P
        (modifyTable fun t => (t.setTypeScope symbol scope).bindScope c.id scope) :=
      .modifyTable fun _ ht => (ht.modifyType symbol _).of_symbols rfl
    exact hscope.bind fun _ _ => .pure fun D hD => Option.some.inj hD ▸ hc

theorem bears_linkSuperclass {c : DefinedClass} (hc : c.Bears P) : Tells P (linkSuperclass c) := by
  obtain ⟨c | c, symbol, scope⟩ := c
  case main    => exact .pure trivial
  case regular =>
    have hc : c.Bears P := hc
    obtain ⟨i, name, superclass, members, p⟩ := c
    cases superclass with
    | none            => exact .pure trivial
    | some superclass =>
      have hs : P superclass := hc.superclass superclass rfl
      refine .get_bind fun σ _ => ?_
      dsimp only
      cases σ.table.resolveType? superclass with
      | none        => exact bears_report (.unresolved .superclass superclass) hs p
      | some parent =>
        dsimp only
        cases extensibleScope? σ.table parent with
        | none             => exact bears_report (.extendsBuiltin name superclass) ⟨hc.name, hs⟩ p
        | some parentScope =>
          dsimp only
          split
          case isTrue  => exact bears_report (.cyclicInheritance name) hc.name p
          case isFalse => exact .modifyTable fun _ ht => (ht.modifyType symbol _).of_symbols rfl

theorem bears_defineMain (hm : P "main") {main : MainClass} (hb : main.Bears P) (c : DefinedClass) :
    (defineMain main c).Bears P fun body => ∀ b ∈ body, b.Bears P := by
  refine (bears_addScope .ofMethod c.scope none).bind fun scope _ => ?_
  refine (bears_define c.scope (x := ⟨"main", .ofMethod ⟨.void, [], scope, c.symbol⟩, none⟩)
    ⟨hm, trivial⟩).bind fun defined _ => ?_
  cases defined with
  | none        => exact .pure nofun
  | some symbol =>
    exact (bears_note).bind fun _ _ => .pure fun b hb' => Option.some.inj hb' ▸ ⟨nofun, hb.body⟩

theorem bears_defineMethod {m : MethodDeclaration} (hm : m.Bears P) (c : DefinedClass) :
    (defineMethod m c).Bears P fun body => ∀ b ∈ body, b.Bears P := by
  refine (bears_checkTypeName hm.returns m.position).bind fun _ _ => ?_
  refine (bears_addScope .ofMethod c.scope none).bind fun scope _ => ?_
  have hreturns : (staticType m.returns).Bears P :=
    StaticType.bears_ofDeclared hm.returns m.returns.isArray
  refine (bears_define c.scope
    (x := ⟨m.name, .ofMethod ⟨staticType m.returns, _, scope, c.symbol⟩, m.id⟩)
    ⟨hm.name, hreturns⟩).bind fun defined _ => ?_
  cases defined with
  | none        =>
    exact (bears_report (.duplicate .method m.name) hm.name m.position).bind fun _ _ =>
      .pure nofun
  | some symbol =>
    exact (bears_note).bind fun _ _ =>
      .pure fun b hb => Option.some.inj hb ▸ ⟨hm.parameters, hm.body⟩

theorem bears_defineMember {m : Member} (hm : m.Bears P) (c : DefinedClass) :
    (defineMember c m).Bears P fun body => ∀ b ∈ body, b.Bears P := by
  cases m with
  | field d     => exact (bears_defineVariable hm c.scope none).bind fun _ _ => .pure nofun
  | method m    => exact bears_defineMethod hm c
  | malformed p => exact .pure nofun

theorem bears_defineMembers (hm : P "main") {c : DefinedClass} (hc : c.Bears P) :
    (defineMembers c).Bears P fun bodies => ∀ b ∈ bodies, b.Bears P := by
  obtain ⟨main | c', symbol, scope⟩ := c
  case main    =>
    exact (bears_defineMain hm hc _).bind fun body hb =>
      .pure fun b h => hb b (Option.mem_toList.mp h)
  case regular =>
    refine (bears_mapM fun m h => bears_defineMember (ClassDeclaration.Bears.members hc m h) _).bind
      fun bodies hbodies => .pure fun b h => ?_
    obtain ⟨body, hbody, hb⟩ := List.mem_filterMap.mp h
    exact hbodies body hbody b hb

theorem bears_declarations (hm : P "main") {p : Program} (hp : p.Bears P) :
    (declarations p).Bears P fun bodies => ∀ b ∈ bodies, b.Bears P := by
  have hall := bears_allClasses hp
  refine (bears_mapM fun c hc => bears_defineClass (hall c hc)).bind fun defined hd => ?_
  have hclasses : ∀ c ∈ defined.filterMap id, c.Bears P := by
    intro c hc
    obtain ⟨o, ho, hc⟩ := List.mem_filterMap.mp hc
    exact hd o ho c hc
  refine (bears_forM fun c hc => bears_linkSuperclass (hclasses c hc)).bind fun _ _ => ?_
  refine (bears_mapM fun c hc => bears_defineMembers hm (hclasses c hc)).bind fun bodies hb => ?_
  refine .pure fun b hm => ?_
  obtain ⟨l, hl, hb'⟩ := List.mem_flatten.mp hm
  exact hb l hl b hb'

-- The type of an expression is told only in words with `P`.
abbrev TellsType (P : String → Prop) (e : Action (Option StaticType)) : Prop :=
  e.Bears P fun type => ∀ τ ∈ type, τ.Bears P

theorem tellsType_none : TellsType P (pure none) :=
  .pure nofun

theorem tellsType_some {τ : StaticType} (h : τ.Bears P) : TellsType P (pure (some τ)) :=
  .pure fun _ hτ => Option.some.inj hτ ▸ h

theorem tellsType_keepSome (i : NodeId) {τ : StaticType} (h : τ.Bears P) :
    TellsType P (keepType i (some τ)) :=
  (bears_note).bind fun _ _ => tellsType_some h

theorem tellsType_keepType (i : NodeId) {type : Option StaticType} (h : ∀ τ ∈ type, τ.Bears P) :
    TellsType P (keepType i type) := by
  cases type with
  | none   => exact tellsType_none
  | some τ => exact tellsType_keepSome i (h τ rfl)

theorem tellsType_report (error : SemanticError) (he : error.Bears P) (p : Position) :
    TellsType P (do report error p; return none) :=
  (bears_report error he p).bind fun _ _ => tellsType_none

theorem bears_selfType {t : SymbolTable} (h : t.Bears P) (scope : ScopeId) :
    ∀ τ ∈ selfType t scope, τ.Bears P := by
  intro τ hτ
  obtain ⟨c, _, hc⟩ := Option.bind_eq_some_iff.mp hτ
  obtain ⟨x, hx, rfl⟩ := Option.map_eq_some_iff.mp hc
  exact (h c x hx).name

theorem tellsType_resolveReference (place : Place) (i : NodeId) (h : P name) (p : Position) :
    TellsType P (resolveReference place i name p) := by
  refine .get_bind fun σ hσ => ?_
  dsimp only
  cases σ.table.resolve? place.scope .variableNames name with
  | none   => exact tellsType_report (.unresolved .aVariable name) h p
  | some s =>
    refine (bears_note).bind fun _ _ => .pure fun τ hτ => ?_
    obtain ⟨v, hv, rfl⟩ := Option.map_eq_some_iff.mp hτ
    obtain ⟨x, hx, hv⟩ := Option.bind_eq_some_iff.mp hv
    have hk := (hσ.table s x hx).kind
    obtain ⟨_, _ | _ | _, _⟩ := x <;> cases hv
    exact hk

theorem tellsType_resolveCreation (i : NodeId) (h : P name) (p : Position) :
    TellsType P (resolveCreation i name p) := by
  refine .get_bind fun σ _ => ?_
  cases σ.table.resolveType? name with
  | none   => exact tellsType_report (.unresolved .aType name) h p
  | some s => exact (bears_note).bind fun _ _ => tellsType_some h

theorem tellsType_resolveMethod (className : String) (i : NodeId) (h : P method) (supplied : Nat)
    (p : Position) : TellsType P (resolveMethod className i method supplied p) := by
  refine .get_bind fun σ hσ => ?_
  dsimp only
  cases classScope? σ.table className with
  | none       => exact tellsType_none
  | some scope =>
    dsimp only
    cases σ.table.resolve? scope .methodNames method with
    | none   => exact tellsType_report (.unresolved .method method) h p
    | some s =>
      dsimp only
      cases hf : (σ.table.symbol? s).bind Symbol.asMethod? with
      | none       => exact tellsType_none
      | some found =>
        have hreturns : found.returns.Bears P := by
          obtain ⟨x, hx, hf⟩ := Option.bind_eq_some_iff.mp hf
          have hk := (hσ.table s x hx).kind
          obtain ⟨_, _ | _ | _, _⟩ := x <;> cases hf
          exact hk
        have hend : TellsType P (do modifyTable (·.bindReference i s); return some found.returns) :=
          (bears_note).bind fun _ _ => tellsType_some hreturns
        dsimp only
        split
        case isTrue  =>
          exact (bears_report (.argumentCount method found.parameters.length supplied) h p).bind
            fun _ _ => hend
        case isFalse => exact hend

theorem tellsType_resolveCall {receiver : StaticType} (hr : receiver.Bears P) (i : NodeId)
    (h : P method) (supplied : Nat) (p : Position) :
    TellsType P (resolveCall receiver i method supplied p) := by
  unfold resolveCall
  split
  case isTrue  =>
    cases receiver with
    | array τ => exact tellsType_some trivial
    | _       => exact tellsType_report .lengthOfNonArray trivial p
  case isFalse =>
    cases receiver with
    | object className => exact tellsType_resolveMethod className i h supplied p
    | _                => exact tellsType_report (.notCallable method _) ⟨h, hr⟩ p

mutual

theorem tellsType_expression (place : Place) (e : Expression) (h : e.Bears P) :
    TellsType P (expression place e) := by
  cases e with
  | call i receiver method arguments p =>
    refine (bears_note).bind fun _ _ => ?_
    refine (tellsType_expression place receiver h.1).bind fun type ht => ?_
    refine (bears_expressions place arguments h.2.2).bind fun _ _ => ?_
    cases type with
    | none      => exact tellsType_none
    | some type =>
      exact (tellsType_resolveCall (ht type rfl) i h.2.1 _ p).bind fun _ => tellsType_keepType i
  | newObject i name p        =>
    refine (bears_note).bind fun _ _ => ?_
    exact (tellsType_resolveCreation i h p).bind fun _ => tellsType_keepType i
  | newArray i name size p    =>
    refine (bears_note).bind fun _ _ => (tellsType_expression place size h.2).bind fun _ _ => ?_
    exact (bears_checkTypeName h.1 p).bind fun _ _ =>
      tellsType_keepSome i (StaticType.bears_ofDeclared h.1 true)
  | not i operand p           =>
    exact (tellsType_expression place operand h).bind fun _ _ => tellsType_keepSome i trivial
  | binary i op left right p  =>
    refine (tellsType_expression place left h.1).bind fun _ _ => ?_
    refine (tellsType_expression place right h.2).bind fun _ _ => ?_
    split <;> exact tellsType_keepSome i trivial
  | boolean i value p         => exact tellsType_keepSome i trivial
  | integer i value p         => exact tellsType_keepSome i trivial
  | self i p                  =>
    have hend : TellsType P (do keepType i (selfType (← get).table place.scope)) :=
      .get_bind fun σ hσ => tellsType_keepType i (bears_selfType hσ.table place.scope)
    refine (bears_note).bind fun _ _ => ?_
    split
    case isTrue  => exact (bears_report .thisInMain trivial p).bind fun _ _ => hend
    case isFalse => exact hend
  | index i array subscript p =>
    refine (tellsType_expression place array h.1).bind fun type ht => ?_
    refine (tellsType_expression place subscript h.2).bind fun _ _ => ?_
    cases type with
    | none      => exact tellsType_none
    | some type =>
      have ht := ht type rfl
      have hreport := tellsType_report (.notIndexable type) ht p
      cases type with
      | array element => exact tellsType_keepSome i ht
      | _             => exact hreport
  | reference i name p        =>
    exact (bears_note).bind fun _ _ =>
      (tellsType_resolveReference place i h p).bind fun _ => tellsType_keepType i
  | malformed p               => exact tellsType_none

theorem bears_expressions (place : Place) (es : List Expression) (h : Expression.BearAll P es) :
    Tells P (expressions place es) := by
  cases es with
  | nil       => exact .pure trivial
  | cons e es =>
    exact (tellsType_expression place e h.1).bind fun _ _ => bears_expressions place es h.2

end

theorem bears_declareLocal (place : Place) {d : VariableDeclaration} (hd : d.Bears P) :
    Tells P (declareLocal place d) := by
  refine .get_bind fun σ _ => (bears_slotOf σ.nextLocal .locals d.position).bind fun slot _ => ?_
  refine (bears_defineVariable hd place.scope slot).bind fun defined _ => ?_
  split
  case isTrue  => exact bears_modify
  case isFalse => exact .pure trivial

mutual

theorem bears_statement (place : Place) (s : Statement) (h : s.Bears P) :
    Tells P (statement place s) := by
  have he (e : Expression) (h : e.Bears P) : Tells P (do let _ ← expression place e) :=
    (tellsType_expression place e h).bind fun _ _ => .pure trivial
  cases s with
  | declare d                         => exact bears_declareLocal place h
  | print _ e _ | ret _ e _ | assert _ e _ => exact he e h
  | block i body p                    =>
    refine (bears_addScope .ofBlock place.scope none).bind fun scope _ => ?_
    exact (bears_note).bind fun _ _ => bears_statements _ body h
  | assign i target value p           =>
    have hend : Tells P (do
        let _ ← expression place target
        let _ ← expression place value) :=
      (tellsType_expression place target h.1).bind fun _ _ => he value h.2
    show Tells P (if isAssignable target.form = true then _ else _)
    split
    case isTrue  => exact hend
    case isFalse =>
      exact (bears_report (.cannotAssign target.form) trivial target.position).bind
        fun _ _ => hend
  | ifThen i e s p                    =>
    exact (tellsType_expression place e h.1).bind fun _ _ => bears_statement place s h.2
  | ifThenElse i e s s' p             =>
    exact (tellsType_expression place e h.1).bind fun _ _ => (bears_statement place s h.2.1).bind
      fun _ _ => bears_statement place s' h.2.2
  | loop i e s p                      =>
    exact (tellsType_expression place e h.1).bind fun _ _ => bears_statement place s h.2
  | call i receiver method arguments p => exact he (.call i receiver method arguments p) h
  | malformed p                       => exact .pure trivial

theorem bears_statements (place : Place) (ss : List Statement) (h : Statement.BearAll P ss) :
    Tells P (statements place ss) := by
  cases ss with
  | nil       => exact .pure trivial
  | cons s ss => exact (bears_statement place s h.1).bind fun _ _ => bears_statements place ss h.2

end

theorem bears_parameters (scope : ScopeId) (number : Nat) {ds : List VariableDeclaration}
    (h : ∀ d ∈ ds, d.Bears P) : Tells P (parameters scope number ds) := by
  induction ds generalizing number with
  | nil          => exact .pure trivial
  | cons d ds hi =>
    obtain ⟨hd, hds⟩ := List.forall_mem_cons.mp h
    exact (bears_slotOf number .parameters d.position).bind fun slot _ =>
      (bears_defineVariable hd scope slot).bind fun _ _ => hi (number + 1) hds

theorem bears_methodBody {b : MethodBody} (h : b.Bears P) : Tells P (methodBody b) :=
  (bears_modify).bind fun _ _ => (bears_parameters b.scope 1 h.parameters).bind fun _ _ =>
    bears_statements ⟨b.scope, b.isMain⟩ b.statements h.statements

theorem bears_program (hm : P "main") {p : Program} (hp : p.Bears P) : Tells P (program p) :=
  (bears_declarations hm hp).bind fun _ hb => bears_forM fun b h => bears_methodBody (hb b h)

theorem bears_builtinTable (h : ∀ word ∈ builtinTypes, P word) : builtinTable.Bears P := by
  have hempty : SymbolTable.empty.Bears P := fun s x hx => by
    simp [SymbolTable.symbol?, SymbolTable.empty] at hx
  unfold builtinTable
  generalize SymbolTable.empty = t at hempty ⊢
  generalize builtinTypes = names at h ⊢
  induction names generalizing t with
  | nil                => exact hempty
  | cons name names hi =>
    obtain ⟨hname, hnames⟩ := List.forall_mem_cons.mp h
    have hx : Symbol.Bears P ⟨name, .ofType ⟨true, none, none⟩, none⟩ := ⟨hname, trivial⟩
    exact hi _ (hempty.addSymbol SymbolTable.globalScope hx) hnames

end Resolve

theorem ResolvedProgram.bears_diagnostics {p : Program} (hp : p.Bears P) (hm : P "main")
    (hb : ∀ word ∈ builtinTypes, P word) : ∀ d ∈ (ofProgram p).diagnostics, d.Bears P := by
  intro d hd
  have hσ : Resolve.State.Bears P ⟨Resolve.builtinTable, #[], 0, false⟩ :=
    ⟨Resolve.bears_builtinTable hb, fun _ hd => absurd hd (Array.not_mem_empty _)⟩
  exact (Resolve.bears_program hm hp _ hσ).2.diagnostics d (Array.mem_toList_iff.mp hd)

end MiniJava
