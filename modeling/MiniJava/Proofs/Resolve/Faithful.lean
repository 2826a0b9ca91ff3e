import MiniJava.Proofs.Resolve.Body
import MiniJava.Proofs.Resolve.Declarations

namespace MiniJava

namespace SymbolTable

def declarationOf? (t : SymbolTable) (s : SymbolId) : Option NodeId :=
  (t.symbol? s).bind (·.declaration)

-- A symbol with a declaration is the one that is kept for it.
def Faithful (t : SymbolTable) : Prop :=
  ∀ s i, t.declarationOf? s = some i → t.declaredBy? i = some s

theorem Faithful.unique (h : Faithful t) (hs : t.declarationOf? s = some i)
    (hs' : t.declarationOf? s' = some i) : s = s' :=
  Option.some.inj ((h s i hs).symm.trans (h s' i hs'))

variable {t : SymbolTable}

theorem declarationOf?_addSymbol (t : SymbolTable) (scope : ScopeId) (symbol : Symbol) (s : SymbolId) :
    (t.addSymbol scope symbol).2.declarationOf? s =
      if s = t.symbols.size then symbol.declaration else t.declarationOf? s := by
  show ((t.symbols.push symbol)[s]?).bind _ = _
  rw [Array.getElem?_push]
  split <;> rfl

-- The change of a type leaves it with its declaration.
theorem declarationOf?_modify (change : TypeSymbol → TypeSymbol) (x s : SymbolId) :
    declarationOf? { t with symbols := t.symbols.modify x (·.modifyType change) } s =
      t.declarationOf? s := by
  have hm (symbol : Symbol) : (symbol.modifyType change).declaration = symbol.declaration := by
    unfold Symbol.modifyType
    split <;> rfl
  show ((t.symbols.modify x _)[s]?).bind _ = (t.symbols[s]?).bind _
  rw [Array.getElem?_modify]
  split
  case isTrue  => cases t.symbols[s]? <;> simp [hm]
  case isFalse => rfl

end SymbolTable

namespace Resolve

-- Only the nodes in `ids` declare symbols.
structure Declares (ids : List NodeId) (σ σ' : State) : Prop where
  declaredBy? : ∀ i ∉ ids, σ'.table.declaredBy? i = σ.table.declaredBy? i
  faithful    : σ.table.Faithful → (∀ i ∈ ids, σ.table.declaredBy? i = none) → σ'.table.Faithful

namespace Declares

theorem of_eq (hd : σ'.table.declared = σ.table.declared)
    (hs : ∀ s, σ'.table.declarationOf? s = σ.table.declarationOf? s) : Declares ids σ σ' where
  declaredBy? i _  := congrArg (·[i]?) hd
  faithful hf _ s i hi := (congrArg (·[i]?) hd).trans (hf s i (hs s ▸ hi))

theorem of_symbols (hd : σ'.table.declared = σ.table.declared)
    (hs : σ'.table.symbols = σ.table.symbols) : Declares ids σ σ' :=
  of_eq hd fun s => congrArg (fun symbols : Array Symbol => symbols[s]?.bind (·.declaration)) hs

theorem refl (ids : List NodeId) (σ : State) : Declares ids σ σ :=
  of_symbols rfl rfl

theorem append (h : Declares ids σ σ') (h' : Declares ids' σ' σ'') (hd : ids.Disjoint ids') :
    Declares (ids ++ ids') σ σ'' where
  declaredBy? i hi := by
    obtain ⟨hi, hi'⟩ := not_or.mp (mt List.mem_append.mpr hi)
    exact (h'.declaredBy? i hi').trans (h.declaredBy? i hi)
  faithful hf hn := by
    obtain ⟨hn, hn'⟩ := List.forall_mem_append.mp hn
    exact h'.faithful (h.faithful hf hn) fun i hi => (h.declaredBy? i fun hi' => hd hi' hi).trans (hn' i hi)

theorem mono (h : Declares ids σ σ') (hs : ids ⊆ ids') : Declares ids' σ σ' where
  declaredBy? i hi := h.declaredBy? i fun hm => hi (hs hm)
  faithful hf hn   := h.faithful hf fun i hi => hn i (hs hi)

-- What declares nothing can stand before and behind what does.
theorem before (h : Declares [] σ σ') (h' : Declares ids σ' σ'') : Declares ids σ σ'' :=
  h.append h' (List.disjoint_nil_left _)

theorem behind (h : Declares ids σ σ') (h' : Declares [] σ' σ'') : Declares ids σ σ'' :=
  List.append_nil ids ▸ h.append h' (List.disjoint_nil_right _)

theorem define (s : ScopeId) (symbol : Symbol) (σ : State) :
    Declares symbol.declaration.toList σ (Resolve.define s symbol σ).2 := by
  by_cases h : σ.table.accepts s symbol = true
  case neg =>
    rw [define_of_not_accepts h]
    exact refl _ _
  case pos =>
    rw [define_of_accepts h]
    constructor
    case declaredBy? =>
      intro i hi
      rw [SymbolTable.declaredBy?_addSymbol, if_neg]
      exact fun he => hi (he ▸ List.mem_singleton_self i)
    case faithful =>
      intro hf hn x i hx
      rw [SymbolTable.declarationOf?_addSymbol] at hx
      rw [SymbolTable.declaredBy?_addSymbol]
      split at hx
      case isTrue hs  => rw [if_pos hx, hs]
      case isFalse hs =>
        have hx := hf x i hx
        rw [if_neg, hx]
        intro he
        have hn := hn i (he ▸ List.mem_singleton_self i)
        cases hx.symm.trans hn

theorem defineVariable (d : VariableDeclaration) (s : ScopeId) (slot : Option Nat) (σ : State) :
    Declares [d.id] σ (Resolve.defineVariable d s slot σ).2 := by
  have hc : Annotates [] σ (checkTypeName d.type.name d.position σ).2 :=
    .checkTypeName d.type.name d.position σ
  let σ₁ := (modifyTable (·.bindScope d.id s) (checkTypeName d.type.name d.position σ).2).2
  have h₁ : Declares [] σ σ₁ := of_symbols hc.declared hc.symbols
  have h₂ : Declares [d.id] σ₁ (Resolve.define s (d.symbol slot) σ₁).2 := define s (d.symbol slot) σ₁
  have he := defineVariable_eq d s slot σ
  dsimp only at he
  rw [he]
  split
  case isTrue  => exact h₁.before (h₂.behind (of_symbols rfl rfl))
  case isFalse => exact h₁.before h₂

theorem slotOf (number : Nat) (use : SlotUse) (p : Position) (σ : State) :
    Declares [] σ (Resolve.slotOf number use p σ).2 := by
  unfold Resolve.slotOf
  split
  case isTrue  => exact refl _ _
  case isFalse =>
    rw [run_bind, run_get]
    split
    case isTrue  => exact refl _ _
    case isFalse => exact of_symbols rfl rfl

theorem expression (place : Place) (e : Expression) (σ : State) :
    Declares ids σ (Resolve.expression place e σ).2 :=
  have ha := Annotates.expression place e σ
  of_symbols ha.declared ha.symbols

theorem declareLocal (place : Place) (d : VariableDeclaration) (σ : State) :
    Declares [d.id] σ (Resolve.declareLocal place d σ).2 := by
  unfold Resolve.declareLocal
  refine .before (slotOf σ.nextLocal .locals d.position σ) ?_
  refine .behind (defineVariable d place.scope (Resolve.slotOf σ.nextLocal .locals d.position σ).1 _) ?_
  simp only [run_bind]
  split
  case isTrue  => exact of_symbols rfl rfl
  case isFalse => exact refl _ _

mutual

theorem statement (place : Place) (s : Statement) (σ : State) (hn : (s.locals.map (·.id)).Nodup) :
    Declares (s.locals.map (·.id)) σ (Resolve.statement place s σ).2 := by
  match s with
  | .declare d => exact declareLocal place d σ
  | .print i e p | .ret i e p | .assert i e p =>
    rw [Resolve.statement]
    exact expression place e σ
  | .block i body p =>
    rw [Resolve.statement]
    let σ₁ : State := (modifyTable (·.bindScope i σ.table.scopes.size)
      (addScope .ofBlock place.scope none σ).2).2
    have h₁ : Declares [] σ σ₁ := of_symbols rfl rfl
    exact h₁.before (statements ⟨σ.table.scopes.size, place.inMain⟩ body σ₁ hn)
  | .assign i target value p =>
    rw [Resolve.statement]
    have hv (σ : State) : Declares [] σ
        (Resolve.expression place value (Resolve.expression place target σ).2).2 :=
      .before (expression place target σ) (expression place value _)
    split
    case isTrue  => exact hv σ
    case isFalse =>
      have hr : Declares [] σ (report (.cannotAssign target.form) target.position σ).2 :=
        of_symbols rfl rfl
      exact hr.before (hv _)
  | .ifThen i e onTrue p =>
    rw [Resolve.statement]
    exact .before (expression place e σ) (statement place onTrue _ hn)
  | .ifThenElse i e onTrue onFalse p =>
    rw [Resolve.statement]
    rw [Statement.locals, List.map_append] at hn ⊢
    obtain ⟨ht, hf, hd⟩ := List.nodup_append'.mp hn
    exact .before (expression place e σ)
      ((statement place onTrue _ ht).append (statement place onFalse _ hf) hd)
  | .loop i e body p =>
    rw [Resolve.statement]
    exact .before (expression place e σ) (statement place body _ hn)
  | .call i receiver name arguments p =>
    rw [Resolve.statement]
    exact expression place (.call i receiver name arguments p) σ
  | .malformed _ => exact refl _ _

theorem statements (place : Place) (ss : List Statement) (σ : State)
    (hn : ((Statement.localsOf ss).map (·.id)).Nodup) :
    Declares ((Statement.localsOf ss).map (·.id)) σ (Resolve.statements place ss σ).2 := by
  match ss with
  | []      => exact refl _ _
  | s :: ss =>
    rw [Statement.localsOf, List.map_append] at hn ⊢
    obtain ⟨hs, hss, hd⟩ := List.nodup_append'.mp hn
    exact (statement place s σ hs).append (statements place ss _ hss) hd

end

theorem parameters (s : ScopeId) (number : Nat) (ds : List VariableDeclaration) (σ : State)
    (hn : (ds.map (·.id)).Nodup) : Declares (ds.map (·.id)) σ (Resolve.parameters s number ds σ).2 := by
  induction ds generalizing number σ with
  | nil          => exact refl _ _
  | cons d ds hi =>
    rw [Resolve.parameters]
    obtain ⟨hd, hn⟩ := List.nodup_cons.mp hn
    have h := (slotOf number .parameters d.position σ).before
      (defineVariable d s (Resolve.slotOf number .parameters d.position σ).1 _)
    exact h.append (hi _ _ hn) (List.singleton_disjoint.mpr hd)

end Declares

-- The numbers of the formals and the locals.
def MethodBody.variableIds (b : MethodBody) : List NodeId :=
  b.parameters.map (·.id) ++ (Statement.localsOf b.statements).map (·.id)

theorem MethodBody.variableIds_sublist (b : MethodBody) : b.variableIds.Sublist b.nodeIds :=
  (List.Sublist.refl _).append (Statement.localsOf_sublist b.statements)

namespace Declares

theorem methodBody (b : MethodBody) (σ : State) (hn : b.variableIds.Nodup) :
    Declares b.variableIds σ (Resolve.methodBody b σ).2 := by
  obtain ⟨hp, hl, hd⟩ := List.nodup_append'.mp hn
  let σ₁ : State := { σ with nextLocal := 0, slotsReported := false }
  have h₁ : Declares [] σ σ₁ := of_symbols rfl rfl
  have h₂ := parameters b.scope 1 b.parameters σ₁ hp
  exact h₁.before (h₂.append (statements ⟨b.scope, b.isMain⟩ b.statements _ hl) hd)

theorem mapM {f : α → Action β} {ids : α → List NodeId}
    (h : ∀ a σ, (ids a).Nodup → Declares (ids a) σ (f a σ).2) (l : List α) (σ : State)
    (hn : (l.flatMap ids).Nodup) : Declares (l.flatMap ids) σ (l.mapM f σ).2 := by
  induction l generalizing σ with
  | nil         => exact refl _ _
  | cons a l hi =>
    rw [List.flatMap_cons] at hn ⊢
    obtain ⟨ha, hl, hd⟩ := List.nodup_append'.mp hn
    rw [run_mapM_cons]
    exact (h a σ ha).append (hi _ hl) hd

theorem forM {f : α → Action Unit} {ids : α → List NodeId}
    (h : ∀ a σ, (ids a).Nodup → Declares (ids a) σ (f a σ).2) (l : List α) (σ : State)
    (hn : (l.flatMap ids).Nodup) : Declares (l.flatMap ids) σ (l.forM f σ).2 := by
  induction l generalizing σ with
  | nil         => exact refl _ _
  | cons a l hi =>
    rw [List.flatMap_cons] at hn ⊢
    obtain ⟨ha, hl, hd⟩ := List.nodup_append'.mp hn
    rw [run_forM_cons]
    exact (h a σ ha).append (hi _ hl) hd

theorem defineClass (c : AnyClass) (σ : State) : Declares [c.id] σ (Resolve.defineClass c σ).2 := by
  have h := define SymbolTable.globalScope (classSymbol c) σ
  by_cases ha : σ.table.accepts SymbolTable.globalScope (classSymbol c) = true
  case neg =>
    rw [define_of_not_accepts ha] at h
    rw [defineClass_of_not_accepts ha]
    exact h.behind (of_symbols rfl rfl)
  case pos =>
    rw [define_of_accepts ha] at h
    rw [defineClass_of_accepts ha]
    exact h.behind (of_eq rfl fun s => SymbolTable.declarationOf?_modify _ _ s)

theorem linkSuperclass (D : DefinedClass) (σ : State) :
    Declares [] σ (Resolve.linkSuperclass D σ).2 := by
  unfold Resolve.linkSuperclass
  cases D.declaration with
  | main m    => exact refl _ _
  | regular c =>
    dsimp only
    cases c.superclass with
    | none      => exact refl _ _
    | some name =>
      dsimp only
      rw [run_bind, run_get]
      dsimp only
      cases σ.table.resolveType? name with
      | none   => exact of_symbols rfl rfl
      | some x =>
        dsimp only
        cases extensibleScope? σ.table x with
        | none   => exact of_symbols rfl rfl
        | some s =>
          dsimp only
          split
          case isTrue  => exact of_symbols rfl rfl
          case isFalse => exact of_eq rfl fun s => SymbolTable.declarationOf?_modify _ _ s

theorem linkSuperclasses (ds : List DefinedClass) (σ : State) :
    Declares [] σ (ds.forM Resolve.linkSuperclass σ).2 := by
  have he : ds.flatMap (fun _ => ([] : List NodeId)) = [] := List.flatMap_eq_nil_iff.mpr fun _ _ => rfl
  have hn : (ds.flatMap (fun _ => ([] : List NodeId))).Nodup := he.symm ▸ .nil
  have h := forM (fun D σ _ => linkSuperclass D σ) ds σ hn
  rwa [he] at h

theorem defineMain (c : MainClass) (D : DefinedClass) (σ : State) :
    Declares [] σ (Resolve.defineMain c D σ).2 := by
  let s : Symbol :=
    ⟨"main", .ofMethod ⟨.void, [], (addScope .ofMethod D.scope none σ).1, D.symbol⟩, none⟩
  have h : Declares [] (addScope .ofMethod D.scope none σ).2 _ :=
    define D.scope s (addScope .ofMethod D.scope none σ).2
  have ha : Declares [] σ (addScope .ofMethod D.scope none σ).2 := of_symbols rfl rfl
  have h := ha.before h
  unfold Resolve.defineMain
  rw [run_bind, run_bind]
  generalize Resolve.define D.scope s _ = out at h
  cases out.1 with
  | none   => exact h
  | some x => exact h.behind (of_symbols rfl rfl)

theorem defineMethod (m : MethodDeclaration) (D : DefinedClass) (σ : State) :
    Declares [m.id] σ (Resolve.defineMethod m D σ).2 := by
  have hc : Annotates [] σ (checkTypeName m.returns.name m.position σ).2 :=
    .checkTypeName m.returns.name m.position σ
  unfold Resolve.defineMethod
  rw [run_bind]
  have hc : Declares [] σ (checkTypeName m.returns.name m.position σ).2 :=
    of_symbols hc.declared hc.symbols
  refine .before hc ?_
  generalize (checkTypeName m.returns.name m.position σ).2 = σ₁
  rw [run_bind, run_bind]
  let s : Symbol := ⟨m.name, .ofMethod ⟨staticType m.returns,
    m.parameters.map fun p => staticType p.type, (addScope .ofMethod D.scope none σ₁).1, D.symbol⟩,
    m.id⟩
  have h : Declares [m.id] (addScope .ofMethod D.scope none σ₁).2 _ :=
    define D.scope s (addScope .ofMethod D.scope none σ₁).2
  have ha : Declares [] σ₁ (addScope .ofMethod D.scope none σ₁).2 := of_symbols rfl rfl
  refine ha.before ?_
  generalize Resolve.define D.scope s _ = out at h
  cases out.1 with
  | none   => exact h.behind (of_symbols rfl rfl)
  | some x => exact h.behind (of_symbols rfl rfl)

theorem defineMember (D : DefinedClass) (m : Member) (σ : State) :
    Declares m.ownIds σ (Resolve.defineMember D m σ).2 := by
  cases m with
  | field d     => exact defineVariable d D.scope none σ
  | method m    => exact defineMethod m D σ
  | malformed _ => exact refl _ _

theorem defineMembers (D : DefinedClass) (σ : State) (hn : D.declaration.memberIds.Nodup) :
    Declares D.declaration.memberIds σ (Resolve.defineMembers D σ).2 := by
  obtain ⟨c, x, s⟩ := D
  cases c with
  | main c    => exact defineMain c _ σ
  | regular c => exact mapM (fun m σ _ => defineMember _ m σ) c.members σ hn

end Declares

end Resolve

end MiniJava
