import MiniJava.Proofs.Resolve.Expression

namespace MiniJava.Resolve

theorem define_of_accepts {σ : State} (h : σ.table.accepts s symbol = true) :
    define s symbol σ =
      (some σ.table.symbols.size, { σ with table := (σ.table.addSymbol s symbol).2 }) := by
  unfold define
  rw [run_bind, run_get]
  split
  case isTrue     => rfl
  case isFalse hn => exact absurd h hn

theorem define_of_not_accepts {σ : State} (h : ¬σ.table.accepts s symbol = true) :
    define s symbol σ = (none, σ) := by
  unfold define
  rw [run_bind, run_get]
  split
  case isTrue ht => exact absurd ht h
  case isFalse   => rfl

theorem Adds.define (s : ScopeId) (symbol : Symbol) (σ : State) :
    Adds σ (Resolve.define s symbol σ).2 := by
  by_cases h : σ.table.accepts s symbol = true
  case pos =>
    rw [define_of_accepts h]
    exact .of_eq rfl
  case neg =>
    rw [define_of_not_accepts h]
    exact .refl σ

-- Only the nodes in `ids` get notes, and only the scope `s` gets variables.
structure Grows (ids : List NodeId) (s : ScopeId) (σ σ' : State) : Prop where
  adds       : Adds σ σ'
  scopes     : ∀ i b, σ.table.scope? i = some b →
    ∃ names, σ'.table.scope? i = some { b with variableNames := names } ∧
      (i ≠ s → names = b.variableNames)
  symbols    : σ.table.Keeps σ'.table
  nodeScopes : ∀ i ∉ ids, σ'.table.scopeOf? i = σ.table.scopeOf? i
  types      : ∀ i ∉ ids, σ'.table.typeOf? i = σ.table.typeOf? i
  references : ∀ i ∉ ids, σ'.table.referenced? i = σ.table.referenced? i

theorem Annotates.grows (h : Annotates ids σ σ') (s : ScopeId) : Grows ids s σ σ' where
  adds         := h.adds
  scopes i b hb := ⟨b.variableNames, by rw [← hb, SymbolTable.scope?, h.scopes]; rfl, fun _ => rfl⟩
  symbols      := h.symbol?
  nodeScopes   := h.nodeScopes
  types        := h.types
  references   := h.references

namespace Grows

variable {ids : List NodeId} {s : ScopeId}

theorem of_table (hd : Adds σ σ') (ht : σ'.table = σ.table) : Grows ids s σ σ' where
  adds           := hd
  scopes i b hb  := ⟨b.variableNames, by rw [ht]; exact hb, fun _ => rfl⟩
  symbols i x hx := ht ▸ hx
  nodeScopes _ _ := ht ▸ rfl
  types _ _      := ht ▸ rfl
  references _ _ := ht ▸ rfl

theorem refl (ids : List NodeId) (s : ScopeId) (σ : State) : Grows ids s σ σ :=
  of_table (.refl σ) rfl

theorem mono (h : Grows ids s σ σ') (hs : ids ⊆ ids') : Grows ids' s σ σ' :=
  { h with
    nodeScopes := fun i hi => h.nodeScopes i fun hm => hi (hs hm)
    types      := fun i hi => h.types i fun hm => hi (hs hm)
    references := fun i hi => h.references i fun hm => hi (hs hm) }

theorem trans (h : Grows ids s σ σ') (h' : Grows ids s σ' σ'') : Grows ids s σ σ'' where
  adds            := h.adds.trans h'.adds
  scopes i b hb   := by
    obtain ⟨names, hb', hn⟩ := h.scopes i b hb
    obtain ⟨names', hb'', hn'⟩ := h'.scopes i _ hb'
    exact ⟨names', hb'', fun hi => (hn' hi).trans (hn hi)⟩
  symbols i x hx  := h'.symbols i x (h.symbols i x hx)
  nodeScopes i hi := (h'.nodeScopes i hi).trans (h.nodeScopes i hi)
  types i hi      := (h'.types i hi).trans (h.types i hi)
  references i hi := (h'.references i hi).trans (h.references i hi)

theorem slotOf (number : Nat) (use : SlotUse) (p : Position) (σ : State) :
    Grows ids s σ (Resolve.slotOf number use p σ).2 := by
  unfold Resolve.slotOf
  split
  case isTrue  => exact .refl _ _ _
  case isFalse =>
    rw [run_bind, run_get]
    split
    case isTrue  => exact .refl _ _ _
    case isFalse =>
      have hr := Adds.report (.slotsExhausted use) p { σ with slotsReported := true }
      exact .of_table ⟨hr.size_le, hr.semantic⟩ rfl

-- A scope that was not there is none of the scopes that are kept.
theorem of_addScope (h : Grows ids σ.table.scopes.size (addScope kind parent owner σ).2 σ') :
    Grows ids s σ σ' :=
  { h with
    adds   := ⟨h.adds.size_le, h.adds.semantic⟩
    scopes := fun i b hb => by
      have hi := Nat.ne_of_lt (SymbolTable.lt_of_scope? hb)
      have hb' : (addScope kind parent owner σ).2.table.scope? i = some b := by
        show (σ.table.addScope kind parent owner).2.scope? i = some b
        rw [SymbolTable.scope?_addScope, if_neg hi, hb]
      obtain ⟨names, hb'', hn⟩ := h.scopes i b hb'
      exact ⟨names, hb'', fun _ => hn hi⟩ }

theorem bindScope (hi : i ∈ ids) (scope : ScopeId) (σ : State) :
    Grows ids s σ (modifyTable (·.bindScope i scope) σ).2 :=
  (Annotates.bindScope hi scope σ).grows s

theorem define (name : String) (v : VariableSymbol) (i : Option NodeId) (σ : State) :
    Grows ids s σ (Resolve.define s ⟨name, .ofVariable v, i⟩ σ).2 := by
  by_cases h : σ.table.accepts s ⟨name, .ofVariable v, i⟩ = true
  case neg =>
    rw [define_of_not_accepts h]
    exact refl _ _ _
  case pos =>
    rw [define_of_accepts h]
    refine { refl ids s σ with
      adds    := .of_eq rfl
      scopes  := fun j b hb => ?scopes
      symbols := fun j x hx => ?symbols }
    case scopes =>
      dsimp only
      rw [SymbolTable.scope?_addSymbol]
      split
      case isTrue hj  => exact ⟨_, by rw [hb]; rfl, fun hn => absurd hj.symm hn⟩
      case isFalse hj => exact ⟨_, hb, fun _ => rfl⟩
    case symbols =>
      exact (SymbolTable.symbol?_addSymbol_of_lt (SymbolTable.lt_of_symbol? hx)).trans hx

theorem defineVariable {d : VariableDeclaration} (hd : d.id ∈ ids) (slot : Option Nat) (σ : State) :
    Grows ids s σ (Resolve.defineVariable d s slot σ).2 := by
  unfold Resolve.defineVariable
  refine .trans ((Annotates.checkTypeName d.type.name d.position σ).grows s) ?_
  refine .trans (bindScope hd s _) ?_
  refine .trans (define d.name ⟨staticType d.type, d.storage, slot⟩ d.id _) ?_
  simp only [run_bind]
  split
  case isTrue  => exact .of_table (.report _ _ _) rfl
  case isFalse => exact .refl _ _ _

theorem declareLocal {place : Place} {d : VariableDeclaration} (hd : d.id ∈ ids) (σ : State) :
    Grows ids place.scope σ (Resolve.declareLocal place d σ).2 := by
  unfold Resolve.declareLocal
  refine .trans (slotOf σ.nextLocal .locals d.position σ) ?_
  refine .trans (defineVariable hd (Resolve.slotOf σ.nextLocal .locals d.position σ).1 _) ?_
  simp only [run_bind]
  split
  case isTrue  => exact .of_table (.of_eq rfl) rfl
  case isFalse => exact .refl _ _ _

mutual

theorem statement (place : Place) (s : Statement) (σ : State) :
    Grows s.nodeIds place.scope σ (Resolve.statement place s σ).2 := by
  have he (e : Expression) (σ : State) :
      Grows e.nodeIds place.scope σ (Resolve.expression place e σ).2 :=
    (Annotates.expression place e σ).grows place.scope
  match s with
  | .declare d => exact declareLocal (List.mem_singleton_self _) σ
  | .print i e p | .ret i e p | .assert i e p =>
    rw [Resolve.statement]
    exact (he e σ).mono (List.subset_append_left _ _)
  | .block i body p =>
    rw [Resolve.statement]
    let inner : Place := ⟨σ.table.scopes.size, place.inMain⟩
    let σ₁ : State := (addScope .ofBlock place.scope none σ).2
    have hi : i ∈ (Statement.block i body p).nodeIds := by simp [Statement.nodeIds]
    have hb := statements inner body (modifyTable (·.bindScope i inner.scope) σ₁).2
    have h : Grows (Statement.block i body p).nodeIds inner.scope σ₁ _ :=
      .trans (bindScope hi inner.scope σ₁) (hb.mono (List.subset_append_left _ _))
    exact of_addScope h
  | .assign i target value p =>
    rw [Resolve.statement]
    have hv (σ : State) : Grows (Statement.assign i target value p).nodeIds place.scope σ
        (Resolve.expression place value (Resolve.expression place target σ).2).2 :=
      .trans ((he target σ).mono (by simp [Statement.nodeIds]))
        ((he value _).mono (by simp [Statement.nodeIds]))
    split
    case isTrue  => exact hv σ
    case isFalse => exact .trans (.of_table (.report _ _ _) rfl) (hv _)
  | .ifThen i e onTrue p =>
    rw [Resolve.statement]
    refine .trans ((he e σ).mono (by simp [Statement.nodeIds])) ?_
    exact (statement place onTrue _).mono (by simp [Statement.nodeIds])
  | .ifThenElse i e onTrue onFalse p =>
    rw [Resolve.statement]
    refine .trans ((he e σ).mono (by simp [Statement.nodeIds])) ?_
    refine .trans ((statement place onTrue _).mono fun _ hi => by simp [Statement.nodeIds, hi]) ?_
    exact (statement place onFalse _).mono fun _ hi => by simp [Statement.nodeIds, hi]
  | .loop i e body p =>
    rw [Resolve.statement]
    refine .trans ((he e σ).mono (by simp [Statement.nodeIds])) ?_
    exact (statement place body _).mono (by simp [Statement.nodeIds])
  | .call i receiver name arguments p =>
    rw [Resolve.statement]
    exact he (.call i receiver name arguments p) σ
  | .malformed _ => exact .refl _ _ _

theorem statements (place : Place) (ss : List Statement) (σ : State) :
    Grows (Statement.nodeIdsOf ss) place.scope σ (Resolve.statements place ss σ).2 := by
  match ss with
  | []      => exact .refl _ _ _
  | s :: ss =>
    have hs := statement place s σ
    have hss := statements place ss (Resolve.statement place s σ).2
    exact (hs.mono (by simp [Statement.nodeIdsOf])).trans (hss.mono (by simp [Statement.nodeIdsOf]))

end

theorem parameters (s : ScopeId) (number : Nat) (ds : List VariableDeclaration) (σ : State) :
    Grows (ds.map (·.id)) s σ (Resolve.parameters s number ds σ).2 := by
  induction ds generalizing number σ with
  | nil          => exact .refl _ _ _
  | cons d ds hi =>
    rw [Resolve.parameters]
    have hd : d.id ∈ (d :: ds).map (·.id) := List.mem_cons_self
    refine .trans (.slotOf number .parameters d.position σ) ?_
    refine .trans (.defineVariable hd (Resolve.slotOf number .parameters d.position σ).1 _) ?_
    exact (hi _ _).mono (List.subset_cons_self _ _)

theorem methodBody (b : MethodBody) (σ : State) :
    Grows (b.parameters.map (·.id) ++ Statement.nodeIdsOf b.statements) b.scope σ
      (Resolve.methodBody b σ).2 := by
  let σ₁ : State := { σ with nextLocal := 0, slotsReported := false }
  have h₁ : Grows (b.parameters.map (·.id) ++ Statement.nodeIdsOf b.statements) b.scope σ σ₁ :=
    .of_table (.of_eq rfl) rfl
  have hp := parameters b.scope 1 b.parameters σ₁
  have hs := statements ⟨b.scope, b.isMain⟩ b.statements
    (Resolve.parameters b.scope 1 b.parameters σ₁).2
  exact .trans h₁ (.trans (hp.mono (List.subset_append_left _ _))
    (hs.mono (List.subset_append_right _ _)))

end Grows

end MiniJava.Resolve
