import MiniJava.Proofs.Resolve.Exact

namespace MiniJava

inductive SymbolSort
  | builtinType
  | declaredClass
  | method
  | variable (storage : Storage)
deriving DecidableEq

-- What a symbol is, without what is known of its type and its scope.
structure Outline where
  name        : String
  sort        : SymbolSort
  declaration : Option NodeId

def SymbolKind.sort : SymbolKind → SymbolSort
  | ofType τ     => if τ.builtin then .builtinType else .declaredClass
  | ofMethod _   => .method
  | ofVariable v => .variable v.storage

def Symbol.outline (x : Symbol) : Outline :=
  ⟨x.name, x.kind.sort, x.declaration⟩

def SymbolTable.outlines (t : SymbolTable) : List Outline :=
  t.symbols.toList.map (·.outline)

def VariableDeclaration.outline (d : VariableDeclaration) : Outline :=
  ⟨d.name, .variable d.storage, d.id⟩

def MethodDeclaration.outline (m : MethodDeclaration) : Outline :=
  ⟨m.name, .method, m.id⟩

namespace Member

def outline? : Member → Option Outline
  | field d     => some d.outline
  | method m    => some m.outline
  | malformed _ => none

end Member

namespace Resolve.AnyClass

-- A resolution that reports nothing defines the built-in types, then the classes, then the members
-- class by class, then the formals and locals body by body.
def outline (c : AnyClass) : Outline :=
  ⟨c.name, .declaredClass, c.id⟩

def memberOutlines : AnyClass → List Outline
  | main _    => [⟨"main", .method, none⟩]
  | regular c => c.members.filterMap Member.outline?

end Resolve.AnyClass

def Body.outlines (b : Body) : List Outline :=
  b.parameters.map (·.outline) ++ (Statement.localsOf b.statements).map (·.outline)

namespace Program

open Resolve

-- What is declared outside of the bodies.
def outerOutlines (p : Program) : List Outline :=
  builtinTypes.map (⟨·, .builtinType, none⟩) ++ (allClasses p).map (·.outline) ++
    (allClasses p).flatMap (·.memberOutlines)

def innerOutlines (p : Program) : List Outline :=
  ((allClasses p).flatMap (·.bodies)).flatMap (·.outlines)

end Program

namespace SymbolTable

variable {t : SymbolTable}

theorem getElem?_outlines (s : SymbolId) : t.outlines[s]? = (t.symbol? s).map (·.outline) := by
  simp [outlines, symbol?]

theorem outlines_addSymbol (t : SymbolTable) (s : ScopeId) (x : Symbol) :
    (t.addSymbol s x).2.outlines = t.outlines ++ [x.outline] := by
  simp [outlines, addSymbol]

theorem outline_modifyType (change : TypeSymbol → TypeSymbol) (hc : ∀ τ, (change τ).builtin = τ.builtin)
    (x : Symbol) : (x.modifyType change).outline = x.outline := by
  obtain ⟨_, k, _⟩ := x
  cases k with
  | ofType τ                  => simp [Symbol.modifyType, Symbol.outline, SymbolKind.sort, hc]
  | ofMethod _ | ofVariable _ => rfl

theorem outlines_modify (change : TypeSymbol → TypeSymbol)
    (hc : ∀ τ, (change τ).builtin = τ.builtin) (x : SymbolId) :
    outlines { t with symbols := t.symbols.modify x (·.modifyType change) } = t.outlines := by
  refine List.ext_getElem? fun s => ?_
  rw [getElem?_outlines, getElem?_outlines]
  show ((t.symbols.modify x _)[s]?).map _ = (t.symbols[s]?).map _
  rw [Array.getElem?_modify]
  split
  case isTrue  => simp [Function.comp_def, outline_modifyType change hc]
  case isFalse => rfl

theorem outlines_setTypeScope (t : SymbolTable) (x : SymbolId) (s : ScopeId) :
    (t.setTypeScope x s).outlines = t.outlines :=
  outlines_modify (fun τ => { τ with scope := s }) (fun _ => rfl) x

theorem outlines_setSuperclass (t : SymbolTable) (x y : SymbolId) :
    (t.setSuperclass x y).outlines = t.outlines :=
  outlines_modify (fun τ => { τ with superclass := y }) (fun _ => rfl) x

end SymbolTable

namespace Resolve

open Typing

-- A run that reports nothing adds symbols with those outlines.
structure Lists (os : List Outline) (σ σ' : State) : Prop where
  size_le  : σ.size ≤ σ'.size
  outlines : σ'.size = σ.size → σ'.table.outlines = σ.table.outlines ++ os

namespace Lists

theorem of_symbols (hd : σ.size ≤ σ'.size) (hs : σ'.table.symbols = σ.table.symbols) :
    Lists [] σ σ' where
  size_le    := hd
  outlines _ := by rw [SymbolTable.outlines, hs, List.append_nil, SymbolTable.outlines]

theorem refl (σ : State) : Lists [] σ σ :=
  of_symbols (Nat.le_refl _) rfl

theorem append (h : Lists os σ σ') (h' : Lists os' σ' σ'') : Lists (os ++ os') σ σ'' where
  size_le := Nat.le_trans h.size_le h'.size_le
  outlines hq := by
    have hle := h.size_le
    have hle' := h'.size_le
    rw [h'.outlines (by omega), h.outlines (by omega), List.append_assoc]

-- What adds no symbols can stand before and behind what does.
theorem before (h : Lists [] σ σ') (h' : Lists os σ' σ'') : Lists os σ σ'' :=
  h.append h'

theorem behind (h : Lists os σ σ') (h' : Lists [] σ' σ'') : Lists os σ σ'' :=
  List.append_nil os ▸ h.append h'

-- Nothing is asked of a run that reports something.
theorem of_lt (h : σ.size < σ'.size) : Lists os σ σ' :=
  ⟨Nat.le_of_lt h, fun hq => absurd hq (Nat.ne_of_gt h)⟩

theorem define {σ : State} (h : σ.table.accepts s x = true) :
    Lists [x.outline] σ (Resolve.define s x σ).2 := by
  rw [define_of_accepts h]
  exact ⟨Nat.le_refl _, fun _ => SymbolTable.outlines_addSymbol _ _ _⟩

theorem checkTypeName (name : String) (p : Position) (σ : State) :
    Lists [] σ (Resolve.checkTypeName name p σ).2 :=
  have ha : Annotates [] σ _ := .checkTypeName name p σ
  of_symbols ha.adds.size_le ha.symbols

theorem defineVariable (d : VariableDeclaration) (s : ScopeId) (slot : Option Nat) (σ : State) :
    Lists [d.outline] σ (Resolve.defineVariable d s slot σ).2 := by
  let σ₁ := (modifyTable (·.bindScope d.id s) (Resolve.checkTypeName d.type.name d.position σ).2).2
  have h₁ : Lists [] σ σ₁ := (checkTypeName d.type.name d.position σ).behind (of_symbols (Nat.le_refl _) rfl)
  have he := defineVariable_eq d s slot σ
  dsimp only at he
  rw [he]
  refine h₁.before ?_
  by_cases ha : σ₁.table.accepts s (d.symbol slot) = true
  case pos =>
    have h₂ := define ha
    rw [define_of_accepts ha] at h₂ ⊢
    exact h₂
  case neg =>
    rw [define_of_not_accepts ha]
    exact of_lt (lt_size_report _ _ _)

theorem slotOf (number : Nat) (use : SlotUse) (p : Position) (σ : State) :
    Lists [] σ (Resolve.slotOf number use p σ).2 := by
  have ha : Grows [] 0 σ _ := .slotOf number use p σ
  refine of_symbols ha.adds.size_le ?_
  unfold Resolve.slotOf
  split
  case isTrue  => rfl
  case isFalse =>
    rw [run_bind, run_get]
    split
    case isTrue  => rfl
    case isFalse => rfl

theorem expression (place : Place) (e : Expression) (σ : State) :
    Lists [] σ (Resolve.expression place e σ).2 :=
  have ha := Annotates.expression place e σ
  of_symbols ha.adds.size_le ha.symbols

theorem declareLocal (place : Place) (d : VariableDeclaration) (σ : State) :
    Lists [d.outline] σ (Resolve.declareLocal place d σ).2 := by
  unfold Resolve.declareLocal
  refine .before (slotOf σ.nextLocal .locals d.position σ) ?_
  refine .behind (defineVariable d place.scope (Resolve.slotOf σ.nextLocal .locals d.position σ).1 _) ?_
  simp only [run_bind]
  split
  case isTrue  => exact of_symbols (Nat.le_refl _) rfl
  case isFalse => exact refl _

mutual

theorem statement (place : Place) (s : Statement) (σ : State) :
    Lists (s.locals.map (·.outline)) σ (Resolve.statement place s σ).2 := by
  match s with
  | .declare d => exact declareLocal place d σ
  | .print i e p | .ret i e p | .assert i e p =>
    rw [Resolve.statement]
    exact expression place e σ
  | .block i body p =>
    rw [Resolve.statement]
    let σ₁ : State := (modifyTable (·.bindScope i σ.table.scopes.size)
      (addScope .ofBlock place.scope none σ).2).2
    have h₁ : Lists [] σ σ₁ := of_symbols (Nat.le_refl _) rfl
    exact h₁.before (statements ⟨σ.table.scopes.size, place.inMain⟩ body σ₁)
  | .assign i target value p =>
    rw [Resolve.statement]
    have hv (σ : State) : Lists [] σ
        (Resolve.expression place value (Resolve.expression place target σ).2).2 :=
      .before (expression place target σ) (expression place value _)
    split
    case isTrue  => exact hv σ
    case isFalse =>
      have hr : Lists [] σ (report (.cannotAssign target.form) target.position σ).2 :=
        of_symbols (Adds.report _ _ σ).size_le rfl
      exact hr.before (hv _)
  | .ifThen i e onTrue p =>
    rw [Resolve.statement]
    exact .before (expression place e σ) (statement place onTrue _)
  | .ifThenElse i e onTrue onFalse p =>
    rw [Resolve.statement, Statement.locals, List.map_append]
    exact .before (expression place e σ)
      ((statement place onTrue _).append (statement place onFalse _))
  | .loop i e body p =>
    rw [Resolve.statement]
    exact .before (expression place e σ) (statement place body _)
  | .call i receiver name arguments p =>
    rw [Resolve.statement]
    exact expression place (.call i receiver name arguments p) σ
  | .malformed _ => exact refl _

theorem statements (place : Place) (ss : List Statement) (σ : State) :
    Lists ((Statement.localsOf ss).map (·.outline)) σ (Resolve.statements place ss σ).2 := by
  match ss with
  | []      => exact refl _
  | s :: ss =>
    rw [Statement.localsOf, List.map_append]
    exact (statement place s σ).append (statements place ss _)

end

theorem parameters (s : ScopeId) (number : Nat) (ds : List VariableDeclaration) (σ : State) :
    Lists (ds.map (·.outline)) σ (Resolve.parameters s number ds σ).2 := by
  induction ds generalizing number σ with
  | nil          => exact refl _
  | cons d ds hi =>
    rw [Resolve.parameters]
    have h := (slotOf number .parameters d.position σ).before
      (defineVariable d s (Resolve.slotOf number .parameters d.position σ).1 _)
    exact h.append (hi _ _)

theorem methodBody (b : MethodBody) (σ : State) :
    Lists b.toBody.outlines σ (Resolve.methodBody b σ).2 := by
  let σ₁ : State := { σ with nextLocal := 0, slotsReported := false }
  have h₁ : Lists [] σ σ₁ := of_symbols (Nat.le_refl _) rfl
  have h₂ := parameters b.scope 1 b.parameters σ₁
  exact h₁.before (h₂.append (statements ⟨b.scope, b.isMain⟩ b.statements _))

theorem mapM {f : α → Action β} {os : α → List Outline}
    (h : ∀ a σ, Lists (os a) σ (f a σ).2) (l : List α) (σ : State) :
    Lists (l.flatMap os) σ (l.mapM f σ).2 := by
  induction l generalizing σ with
  | nil         => exact refl _
  | cons a l hi =>
    rw [List.flatMap_cons, run_mapM_cons]
    exact (h a σ).append (hi _)

theorem forM {f : α → Action Unit} {os : α → List Outline}
    (h : ∀ a σ, Lists (os a) σ (f a σ).2) (l : List α) (σ : State) :
    Lists (l.flatMap os) σ (l.forM f σ).2 := by
  induction l generalizing σ with
  | nil         => exact refl _
  | cons a l hi =>
    rw [List.flatMap_cons, run_forM_cons]
    exact (h a σ).append (hi _)

theorem defineClass (c : AnyClass) (σ : State) : Lists [c.outline] σ (Resolve.defineClass c σ).2 := by
  by_cases ha : σ.table.accepts SymbolTable.globalScope (classSymbol c) = true
  case neg =>
    rw [defineClass_of_not_accepts ha]
    exact of_lt (lt_size_report _ _ _)
  case pos =>
    have h := define ha
    rw [define_of_accepts ha] at h
    rw [defineClass_of_accepts ha]
    refine h.behind ⟨Nat.le_refl _, fun _ => ?_⟩
    rw [List.append_nil]
    exact SymbolTable.outlines_setTypeScope _ _ _

theorem linkSuperclass (D : DefinedClass) (σ : State) :
    Lists [] σ (Resolve.linkSuperclass D σ).2 := by
  have hr (error : SemanticError) (p : Position) : Lists [] σ (report error p σ).2 :=
    of_lt (lt_size_report error p σ)
  unfold Resolve.linkSuperclass
  cases D.declaration with
  | main m    => exact refl _
  | regular c =>
    dsimp only
    cases c.superclass with
    | none      => exact refl _
    | some name =>
      dsimp only
      rw [run_bind, run_get]
      dsimp only
      cases σ.table.resolveType? name with
      | none   => exact hr _ _
      | some x =>
        dsimp only
        cases extensibleScope? σ.table x with
        | none   => exact hr _ _
        | some s =>
          dsimp only
          split
          case isTrue  => exact hr _ _
          case isFalse =>
            refine ⟨Nat.le_refl _, fun _ => ?_⟩
            rw [List.append_nil]
            exact SymbolTable.outlines_setSuperclass σ.table D.symbol x

theorem linkSuperclasses (ds : List DefinedClass) (σ : State) :
    Lists [] σ (ds.forM Resolve.linkSuperclass σ).2 := by
  have he : ds.flatMap (fun _ => ([] : List Outline)) = [] := List.flatMap_eq_nil_iff.mpr fun _ _ => rfl
  have h := forM linkSuperclass ds σ
  rwa [he] at h

theorem defineMethod (m : MethodDeclaration) (D : DefinedClass) (σ : State) :
    Lists [m.outline] σ (Resolve.defineMethod m D σ).2 := by
  unfold Resolve.defineMethod
  rw [run_bind]
  refine .before (checkTypeName m.returns.name m.position σ) ?_
  generalize (Resolve.checkTypeName m.returns.name m.position σ).2 = σ₁
  rw [run_bind, run_bind]
  let x : Symbol := ⟨m.name, .ofMethod ⟨staticType m.returns,
    m.parameters.map fun p => staticType p.type, (addScope .ofMethod D.scope none σ₁).1, D.symbol⟩,
    m.id⟩
  let σ₂ : State := (addScope .ofMethod D.scope none σ₁).2
  have h₁ : Lists [] σ₁ σ₂ := of_symbols (Nat.le_refl _) rfl
  refine h₁.before ?_
  by_cases ha : σ₂.table.accepts D.scope x = true
  case pos =>
    have h := define ha
    have he : Resolve.define D.scope x σ₂ = _ := define_of_accepts ha
    rw [he] at h ⊢
    exact h.behind (of_symbols (Nat.le_refl _) rfl)
  case neg =>
    have he : Resolve.define D.scope x σ₂ = _ := define_of_not_accepts ha
    rw [he]
    exact of_lt (lt_size_report (.duplicate .method m.name) m.position σ₂)

theorem defineMember (D : DefinedClass) (m : Member) (σ : State) :
    Lists m.outline?.toList σ (Resolve.defineMember D m σ).2 := by
  cases m with
  | field d     => exact defineVariable d D.scope none σ
  | method m    => exact defineMethod m D σ
  | malformed _ => exact refl _

theorem defineMembers_regular (c : ClassDeclaration) (x : SymbolId) (s : ScopeId) (σ : State) :
    Lists (AnyClass.regular c).memberOutlines σ (Resolve.defineMembers ⟨.regular c, x, s⟩ σ).2 := by
  have h := mapM (fun m σ => defineMember ⟨.regular c, x, s⟩ m σ) c.members σ
  rwa [← List.filterMap_eq_flatMap_toList] at h

-- The scope of the main class has room for the main method if it is empty.
theorem defineMembers_main {σ : State} (c : MainClass) (x : SymbolId) (s : ScopeId)
    (h : Members σ.table ⟨.main c, x, s⟩ parent F []) :
    Lists (AnyClass.main c).memberOutlines σ (Resolve.defineMembers ⟨.main c, x, s⟩ σ).2 := by
  show Lists _ σ (defineMain c ⟨.main c, x, s⟩ σ).2
  rw [defineMain_of_members h]
  refine ⟨Nat.le_refl _, fun _ => ?_⟩
  exact SymbolTable.outlines_addSymbol (σ.table.addScope .ofMethod s none).2 s
    (methodSymbol ⟨"main", .void, [], none⟩ σ.table.scopes.size x)

section

variable {p : Program}

theorem defineAllMembers (ds : List DefinedClass) (σ : State)
    (h : ∀ D ∈ ds, ∃ c, D.declaration = .regular c) :
    Lists (ds.flatMap fun D => D.declaration.memberOutlines) σ (ds.mapM defineMembers σ).2 := by
  induction ds generalizing σ with
  | nil          => exact refl _
  | cons D ds hi =>
    obtain ⟨⟨c, hc⟩, hds⟩ := List.forall_mem_cons.mp h
    obtain ⟨_, x, s⟩ := D
    subst hc
    rw [run_mapM_cons]
    exact (defineMembers_regular c x s σ).append (hi _ hds)

theorem declarations (hp : p.Proper) (hn : p.nodeIds.Nodup) :
    Lists ((allClasses p).map (·.outline) ++ (allClasses p).flatMap (·.memberOutlines)) start
      (Resolve.declarations p start).2 := by
  obtain ⟨hids, hrest, hd⟩ := List.nodup_append'.mp ((nodeIds_perm p).nodup_iff.mp hn)
  obtain ⟨hd, _⟩ := List.disjoint_append_right.mp hd
  have he : Resolve.declarations p start =
      let out := (allClasses p).mapM Resolve.defineClass start
      let ds := out.1.filterMap id
      let out := ds.mapM defineMembers (ds.forM Resolve.linkSuperclass out.2).2
      (out.1.flatten, out.2) := rfl
  rw [he]
  have hstart : Defines start.table [] := ⟨types_builtinTable, nofun⟩
  have hc := verdict_defineClasses (allClasses p) hstart (fun _ => name_of_proper hp) .nil hids
  have h₁ := mapM defineClass (allClasses p) start
  rw [← List.map_eq_flatMap] at h₁
  have hadds (ds : List DefinedClass) (σ : State) :
      Adds σ (ds.mapM defineMembers (ds.forM Resolve.linkSuperclass σ).2).2 :=
    (Adds.forM Adds.linkSuperclass ds σ).trans (Adds.mapM Adds.defineMembers ds _)
  dsimp only
  generalize (allClasses p).mapM Resolve.defineClass start = out at hc h₁ ⊢
  cases hc with
  | failed _ hlt => exact of_lt (Nat.lt_of_lt_of_le hlt (hadds _ _).size_le)
  | @passed ds σ₁ hds hnames hdef hq =>
    have hnames : (classNames p).Nodup := hnames
    have hdn : (ds.map (·.name)).Nodup := by
      rw [classNames, ← hds, List.map_map] at hnames
      exact hnames
    have hf : (ds.map some).filterMap id = ds := by simp
    rw [hf]
    refine h₁.append ?_
    have hl := verdict_linkSuperclasses ds hdef.links hds hnames
      fun _ hc _ hs => superclass_of_proper hp hc hs
    have h₂ := linkSuperclasses ds σ₁
    generalize (ds.forM Resolve.linkSuperclass σ₁).2 = σ₂ at hl h₂ ⊢
    cases hl with
    | failed _ hlt =>
      exact of_lt (Nat.lt_of_lt_of_le hlt (Adds.mapM Adds.defineMembers ds σ₂).size_le)
    | passed hl _ =>
      have hpr := hl.progress hds hdn hd
      obtain ⟨m, hm, _⟩ := hp.mainClass
      have hall : allClasses p = .main m :: p.classes.map .regular := by simp [allClasses, hm]
      rw [hall] at hds
      obtain ⟨⟨_, x, s⟩, ds, rfl, rfl, hrs⟩ := List.map_eq_cons_iff.mp hds
      have hregular (D) (hD : D ∈ ds) : ∃ c, D.declaration = .regular c := by
        have hD : D.declaration ∈ p.classes.map .regular := hrs ▸ List.mem_map_of_mem hD
        obtain ⟨c, _, hc⟩ := List.mem_map.mp hD
        exact ⟨c, hc.symm⟩
      rw [hall, List.flatMap_cons, ← hrs, List.flatMap_map, run_mapM_cons]
      have hmain := defineMembers_main m x s (hpr.bare _ List.mem_cons_self)
      exact h₂.before (hmain.append (defineAllMembers ds _ hregular))

theorem program (hp : p.Proper) (hn : p.nodeIds.Nodup) :
    Lists ((allClasses p).map (·.outline) ++ (allClasses p).flatMap (·.memberOutlines) ++
      p.innerOutlines) start (Resolve.program p start).2 := by
  have h := declarations hp hn
  have hv := verdict_declarations hp hn
  have he : (Resolve.program p start).2 =
      ((Resolve.declarations p start).1.forM Resolve.methodBody (Resolve.declarations p start).2).2 :=
    rfl
  rw [he]
  generalize Resolve.declarations p start = out at h hv ⊢
  have h' := forM methodBody out.1 out.2
  cases hv with
  | failed _ hlt => exact of_lt (Nat.lt_of_lt_of_le hlt h'.size_le)
  | @passed ds σ₀ σ bss hdec hfill _ _ =>
    have hbodies : (bss.flatten.map (·.toBody)) = (allClasses p).flatMap (·.bodies) := by
      rw [← hdec.classes, List.flatMap_map]
      have hb := hfill.bodies
      clear hdec hfill h h' he
      induction hb with
      | nil            => rfl
      | cons hb _ hi => simp [hb.1, hi]
    rw [Program.innerOutlines, ← hbodies, List.flatMap_map]
    exact h.append h'

end

end Lists

theorem outlines_builtinTable :
    builtinTable.outlines = builtinTypes.map (⟨·, .builtinType, none⟩) :=
  rfl

end Resolve

section

variable {p : Program} {t : SymbolTable}

-- The symbols of the table of a program that is accepted.
theorem outlines_ofProgram (hp : p.Proper) (hn : p.nodeIds.Nodup)
    (ht : SymbolTable.ofProgram p = .ok t) : t.outlines = p.outerOutlines ++ p.innerOutlines := by
  obtain ⟨hd, rfl⟩ := acceptUnless_eq_ok.mp ht
  have hl := Resolve.Lists.program hp hn
  have hq : (Resolve.program p Resolve.start).2.size = 0 :=
    congrArg List.length hd
  have h := hl.outlines hq
  rw [show Resolve.start.table = Resolve.builtinTable from rfl, Resolve.outlines_builtinTable,
    List.append_assoc] at h
  rw [Program.outerOutlines]
  simp only [List.append_assoc] at h ⊢
  exact h

theorem declared_of_mem_innerOutlines (ho : o ∈ p.innerOutlines) : o.declaration.isSome := by
  obtain ⟨b, _, ho⟩ := List.mem_flatMap.mp ho
  rcases List.mem_append.mp ho with ho | ho <;> obtain ⟨d, _, rfl⟩ := List.mem_map.mp ho <;> rfl

theorem declared_of_mem_memberOutlines {c : ClassDeclaration}
    (ho : o ∈ (Resolve.AnyClass.regular c).memberOutlines) : o.declaration.isSome := by
  obtain ⟨m, _, ho⟩ := List.mem_filterMap.mp ho
  cases m with
  | field d | method m => exact Option.some.inj ho ▸ rfl
  | malformed _        => cases ho

-- The main method is the only one that nothing declares.
theorem eq_of_undeclared (ho : t.outlines = p.outerOutlines ++ p.innerOutlines)
    (hm : p.mainClass = some c) (hx : t.outlines[s]? = some o) (hk : o.sort = .method)
    (hd : o.declaration = none) : s = builtinTypes.length + (Resolve.allClasses p).length := by
  let before : List Outline :=
    builtinTypes.map (⟨·, .builtinType, none⟩) ++ (Resolve.allClasses p).map (·.outline)
  let behind : List Outline :=
    (p.classes.map Resolve.AnyClass.regular).flatMap (·.memberOutlines) ++ p.innerOutlines
  have hall : Resolve.allClasses p = .main c :: p.classes.map .regular := by
    simp [Resolve.allClasses, hm]
  have hos : t.outlines = before ++ ⟨"main", .method, none⟩ :: behind := by
    rw [ho, Program.outerOutlines, List.append_assoc]
    congr 1
    rw [hall]
    rfl
  have hlen : before.length = builtinTypes.length + (Resolve.allClasses p).length := by simp [before]
  rw [hos] at hx
  rw [← hlen]
  rcases Nat.lt_trichotomy s before.length with hlt | heq | hgt
  case inl     =>
    rw [List.getElem?_append_left hlt] at hx
    rcases List.mem_append.mp (List.mem_of_getElem? hx) with hb | hb <;>
      obtain ⟨_, _, rfl⟩ := List.mem_map.mp hb <;> cases hk
  case inr.inl => exact heq
  case inr.inr =>
    rw [List.getElem?_append_right (Nat.le_of_lt hgt), List.getElem?_cons,
      if_neg (by omega)] at hx
    have hsome : o.declaration.isSome := by
      rcases List.mem_append.mp (List.mem_of_getElem? hx) with hb | hb
      case inl =>
        obtain ⟨c, hc, ho⟩ := List.mem_flatMap.mp hb
        obtain ⟨c, _, rfl⟩ := List.mem_map.mp hc
        exact declared_of_mem_memberOutlines ho
      case inr => exact declared_of_mem_innerOutlines hb
    rw [hd] at hsome
    cases hsome

end

end MiniJava
