import MiniJava.Proofs.Binding.Expression
import MiniJava.Proofs.Resolve.Body

namespace MiniJava.Binding

open Resolve Typing

theorem Grows.touches (h : Grows ids s σ σ') : Touches ids σ σ' :=
  ⟨h.symbols, h.types, h.references⟩

theorem Knows.classScope?_grows (h : Knows σ.table p) (hg : Grows ids s σ σ') (className : String) :
    classScope? σ'.table className = classScope? σ.table className := by
  rw [classScope?, classScope?, hg.resolveType? h.global]
  cases hx : σ.table.resolveType? className with
  | none   => rfl
  | some x =>
    obtain ⟨a, ha⟩ := h.types className x hx
    rw [Option.bind_some, Option.bind_some, ha, hg.symbols x a ha]

theorem Knows.grow (h : Knows σ.table p) (hg : Grows ids s σ σ') : Knows σ'.table p where
  global  := by
    obtain ⟨b, hb⟩ := h.global
    obtain ⟨names, hb', _⟩ := hg.scopes _ b hb
    exact ⟨_, hb'⟩
  types name x hx := by
    rw [hg.resolveType? h.global] at hx
    obtain ⟨a, ha⟩ := h.types name x hx
    exact ⟨a, hg.symbols x a ha⟩
  known name := by
    rw [hg.resolveType? h.global]
    exact h.known name
  classes className := by
    rw [h.classScope?_grows hg]
    refine rel_imp (fun s c hc => ?_) (h.classes className)
    obtain ⟨⟨l, hl⟩, hm⟩ := hc
    obtain ⟨l', hl', _⟩ := hg.chain hl
    refine ⟨⟨l', hl'⟩, fun name => ?_⟩
    rw [hg.resolve?_methodNames hl]
    exact rel_imp (fun _ _ hm => hm.keep hg.symbols) (hm name)

namespace Around

-- What happens in scopes elsewhere does not matter.
theorem keep_of_chain (h : Around σ.table i Γ) (hg : Grows ids s σ σ')
    (hs : ∀ l, σ.table.Chain i l → ∀ e ∈ l, e.1 ≠ s) : Around σ'.table i Γ := by
  obtain ⟨l, hc, hf⟩ := h.frames
  exact ⟨hg.selfType hc h.self, l, hg.frames hc (hs l hc) hf⟩

theorem keep (h : Around σ.table i Γ) (hg : Grows ids s σ σ') (hs : σ.table.scopes.size ≤ s) :
    Around σ'.table i Γ :=
  h.keep_of_chain hg fun _ hc _ he =>
    Nat.ne_of_lt (Nat.lt_of_lt_of_le (SymbolTable.lt_of_scope? (hc.view_of_mem he)) hs)

theorem grow {Γ : Context} (h : Around σ.table i (Γ.push F)) (hg : Grows ids i σ σ')
    (hh : ∀ b, σ'.table.scope? i = some b → Holds σ'.table b F') :
    Around σ'.table i (Γ.push F') := by
  obtain ⟨l, hc, _⟩ := h.frames
  exact ⟨hg.selfType hc h.self, hg.frames_grow h.frames hh⟩

theorem addScope {Γ : Context} (h : Around σ.table i Γ) :
    Around (Resolve.addScope .ofBlock i none σ).2.table σ.table.scopes.size (Γ.push []) := by
  obtain ⟨l, hc, _⟩ := h.frames
  exact ⟨selfType_addScope hc h.self, frames_addScope h.frames⟩

theorem scope {Γ : Context} (h : Around t i (Γ.push F)) : ∃ b, t.scope? i = some b ∧ Holds t b F := by
  obtain ⟨l, hc, hf⟩ := h.frames
  obtain ⟨b, l', hb, rfl⟩ := hc.head
  cases hf with | cons hh => exact ⟨b, hb, hh⟩

end Around

section

variable {f : α → String} {l : List α} {a : α}

-- Of two with the same name the earlier one counts.
theorem find?_concat (f : α → String) (l : List α) (a : α) (name : String) :
    (l ++ [a]).find? (f · = name) =
      (l.find? (f · = name)).or (if f a = name then some a else none) := by
  rw [List.find?_append]
  congr 1
  by_cases h : f a = name
  case pos => simp [h]
  case neg => simp [h]

theorem find?_concat_of_new (h : ∀ b ∈ l, f b ≠ f a) (name : String) :
    (l ++ [a]).find? (f · = name) = (a :: l).find? (f · = name) := by
  rw [find?_concat, List.find?_cons]
  by_cases hn : f a = name
  case pos =>
    have hf : l.find? (f · = name) = none := by
      refine List.find?_eq_none.mpr fun b hb => ?_
      rw [decide_eq_true_eq, ← hn]
      exact h b hb
    simp [hn, hf]
  case neg => simp [hn]

theorem find?_concat_of_taken (h : ¬∀ b ∈ l, f b ≠ f a) (name : String) :
    (l ++ [a]).find? (f · = name) = l.find? (f · = name) := by
  rw [find?_concat]
  by_cases hn : f a = name
  case neg => simp [hn]
  case pos =>
    push Not at h
    obtain ⟨b, hb, he⟩ := h
    have hf : (l.find? (f · = name)).isSome = true :=
      List.find?_isSome.mpr ⟨b, hb, decide_eq_true (he.trans hn)⟩
    obtain ⟨c, hf⟩ := Option.isSome_iff_exists.mp hf
    rw [hf]
    rfl

end

-- The scope has one variable more, unless it had one of that name.
theorem holds_defineVariable {σ : State} (hb : σ.table.scope? s = some b) (hh : Holds σ.table b F)
    (d : VariableDeclaration) (slot : Option Nat)
    (hb' : (defineVariable d s slot σ).2.table.scope? s = some b') :
    Holds (defineVariable d s slot σ).2.table b' (F ++ [d]) := by
  rw [defineVariable_eq] at hb' ⊢
  generalize hσ : (modifyTable (·.bindScope d.id s) (checkTypeName d.type.name d.position σ).2).2 = σ₁
    at hb' ⊢
  have ht : σ₁.table = σ.table.bindScope d.id s := by
    rw [← hσ, ← table_checkTypeName d.type.name d.position σ]
    rfl
  have hb₁ : σ₁.table.scope? s = some b := by rw [ht]; exact hb
  have hh₁ : Holds σ₁.table b F := by rw [ht]; exact hh
  have ha : σ₁.table.accepts s (d.symbol slot) = true ↔ ∀ d' ∈ F, d'.name ≠ d.name :=
    accepts_variable hb₁ hh₁ _ _
  by_cases hn : ∀ d' ∈ F, d'.name ≠ d.name
  case pos =>
    rw [define_of_accepts (ha.mpr hn)] at hb' ⊢
    rw [if_neg (by simp)] at hb' ⊢
    intro name
    rw [find?_concat_of_new (f := VariableDeclaration.name) hn]
    exact holds_addSymbol hb₁ hh₁ hb' name
  case neg =>
    rw [define_of_not_accepts (mt ha.mp hn)] at hb' ⊢
    obtain rfl := Option.some.inj (hb₁.symm.trans hb')
    intro name
    rw [find?_concat_of_taken (f := VariableDeclaration.name) hn]
    exact hh₁ name

theorem missing_define (s : ScopeId) (symbol : Symbol) (σ : State) :
    (define s symbol σ).2.missing = σ.missing := by
  by_cases h : σ.table.accepts s symbol = true
  case pos => rw [define_of_accepts h]; rfl
  case neg => rw [define_of_not_accepts h]

theorem missing_slotOf (number : Nat) (use : SlotUse) (p : Position) (σ : State) :
    (slotOf number use p σ).2.missing = σ.missing := by
  unfold slotOf
  split
  case isTrue  => rfl
  case isFalse =>
    rw [run_bind, run_get]
    split
    case isTrue  => rfl
    case isFalse =>
      refine (State.missing_report (.slotsExhausted use) p { σ with slotsReported := true }).trans ?_
      exact List.append_nil _

theorem missing_defineVariable
    (hk : ∀ name, (σ.table.resolveType? name).isSome = true ↔ Known p name)
    (d : VariableDeclaration) (s : ScopeId) (slot : Option Nat) :
    (defineVariable d s slot σ).2.missing =
      σ.missing ++ missing [.ofType p d.type.name d.position] := by
  rw [defineVariable_eq, ← missing_checkTypeName hk]
  split
  case isTrue  =>
    rw [State.missing_report, missing_define]
    exact List.append_nil _
  case isFalse => rw [missing_define]; rfl

-- A declaration has no node that is bound.
theorem Binds.declaration (hg : Grows [d.id] s σ σ')
    (hm : σ'.missing =
      σ.missing ++ Binding.missing [.ofType Γ.program d.type.name d.position]) :
    Binds [d.id] [.declaration Γ d] σ σ' :=
  { Grows.touches hg with
    missing := hm
    within  := by simp
    noted   := by simp }

theorem binds_variable {i : ScopeId} {Γ : Context} (Γ' : Context) (d : VariableDeclaration)
    (slot : Option Nat) (hk : Knows σ.table Γ'.program) (ha : Around σ.table i (Γ.push F)) :
    Around (defineVariable d i slot σ).2.table i (Γ.push (F ++ [d])) ∧
      Binds [d.id] [.declaration Γ' d] σ (defineVariable d i slot σ).2 := by
  have hg : Grows [d.id] i σ (defineVariable d i slot σ).2 :=
    .defineVariable (List.mem_singleton_self d.id) slot σ
  obtain ⟨b, hb, hh⟩ := ha.scope
  exact ⟨ha.grow hg fun b' hb' => holds_defineVariable hb hh d slot hb',
    .declaration hg (missing_defineVariable hk.known d i slot)⟩

theorem table_slotOf (number : Nat) (use : SlotUse) (p : Position) (σ : State) :
    (slotOf number use p σ).2.table = σ.table := by
  unfold slotOf
  split
  case isTrue  => rfl
  case isFalse =>
    rw [run_bind, run_get]
    split
    case isTrue  => rfl
    case isFalse => rfl

theorem Binds.slotOf (number : Nat) (use : SlotUse) (p : Position) (σ : State) :
    Binds [] [] σ (slotOf number use p σ).2 :=
  .nil (Grows.touches (.slotOf (s := 0) number use p σ)) (missing_slotOf number use p σ)

theorem binds_declareLocal {Γ : Context} (place : Place) (d : VariableDeclaration)
    (hk : Knows σ.table Γ.program) (ha : Around σ.table place.scope (Γ.push F)) :
    Around (declareLocal place d σ).2.table place.scope (Γ.push (F ++ [d])) ∧
      Binds [d.id] [.declaration (Γ.push F) d] σ (declareLocal place d σ).2 := by
  have ht := table_slotOf σ.nextLocal .locals d.position σ
  have hs := Binds.slotOf σ.nextLocal .locals d.position σ
  rw [declareLocal_eq]
  generalize slotOf σ.nextLocal .locals d.position σ = out at ht hs
  obtain ⟨ha, hd⟩ := binds_variable (Γ.push F) d out.1 (ht ▸ hk) (ht ▸ ha)
  have hd := hs.after hd
  dsimp only
  split
  case isTrue  => exact ⟨ha, { hd with }⟩
  case isFalse => exact ⟨ha, hd⟩

theorem binds_parameters {i : ScopeId} {Γ : Context} (ds : List VariableDeclaration)
    (hk : Knows σ.table Γ.program) (ha : Around σ.table i (Γ.push F)) (hn : (ds.map (·.id)).Nodup) :
    Around (parameters i number ds σ).2.table i (Γ.push (F ++ ds)) ∧
      Binds (ds.map (·.id)) (ds.map (.declaration Γ)) σ (parameters i number ds σ).2 := by
  induction ds generalizing number σ F with
  | nil          =>
    rw [List.append_nil]
    exact ⟨ha, .nil (.refl [] σ) rfl⟩
  | cons d ds hi =>
    obtain ⟨hd, hn⟩ := List.nodup_cons.mp hn
    have ht := table_slotOf number .parameters d.position σ
    have hs := Binds.slotOf number .parameters d.position σ
    rw [parameters]
    simp only [run_bind]
    generalize slotOf number .parameters d.position σ = out at ht hs ⊢
    obtain ⟨ha, hb⟩ := binds_variable Γ d out.1 (ht ▸ hk) (ht ▸ ha)
    have hk := (ht ▸ hk : Knows out.2.table Γ.program).grow
      (.defineVariable (List.mem_singleton_self d.id) out.1 out.2 (s := i))
    obtain ⟨ha, hbs⟩ : _ ∧ Binds _ _ _ (parameters i (number + 1) ds _).2 := hi hk ha hn
    rw [List.append_assoc] at ha
    exact ⟨ha, (hs.after hb).append hbs (List.singleton_disjoint.mpr hd)⟩

theorem binds_assign {Γ : Context} {place : Place} {target value : Expression} (i : NodeId)
    (p : Position) (hk : Knows σ.table Γ.program) (ha : Around σ.table place.scope (Γ.push F))
    (hn : (target.nodeIds ++ value.nodeIds).Nodup) :
    Around (statement place (.assign i target value p) σ).2.table place.scope (Γ.push F) ∧
      Binds (Statement.assign i target value p).nodeIds (visitsIn Γ F (.assign i target value p)) σ
        (statement place (.assign i target value p) σ).2 := by
  obtain ⟨hnt, hnv, hd⟩ := List.nodup_append'.mp hn
  -- A target that cannot be assigned to is reported first, and resolved all the same.
  have hs (σ₀ : State) (ht : σ₀.table = σ.table) (hm : σ₀.missing = σ.missing) :
      Around (expression place value (expression place target σ₀).2).2.table place.scope
          (Γ.push F) ∧
        Binds (Statement.assign i target value p).nodeIds
          (visitsIn Γ F (.assign i target value p)) σ
          (expression place value (expression place target σ₀).2).2 := by
    have h₀ : Binds [] [] σ σ₀ := by
      refine .nil ⟨fun _ _ h => ?known, fun _ _ => ?type, fun _ _ => ?reference⟩ hm
      case known => rw [ht]; exact h
      case type => rw [ht]
      case reference => rw [ht]
    rw [← ht] at hk ha
    have h₁ := Annotates.expression place target σ₀
    have h₂ := Annotates.expression place value (expression place target σ₀).2
    have hbt := (binds_expression (Γ := Γ.push F) place target σ₀ hk ha hnt).2
    have hbv := (binds_expression (Γ := Γ.push F) place value _ (hk.annotate h₁) (ha.annotate h₁) hnv).2
    exact ⟨(ha.annotate h₁).annotate h₂,
      (h₀.after (hbt.append hbv hd)).mono (List.subset_append_left _ _)⟩
  rw [statement]
  split
  case isTrue  => exact hs σ rfl rfl
  case isFalse =>
    refine hs (report (.cannotAssign target.form) target.position σ).2 rfl ?_
    rw [State.missing_report]
    exact List.append_nil _

mutual

theorem binds_statement {Γ : Context} (place : Place) (s : Statement) (σ : State)
    (hk : Knows σ.table Γ.program) (ha : Around σ.table place.scope (Γ.push F))
    (hn : s.nodeIds.Nodup) :
    Around (statement place s σ).2.table place.scope (Γ.push (F ++ s.declares)) ∧
      Binds s.nodeIds (visitsIn Γ F s) σ (statement place s σ).2 := by
  have he (e : Expression) (hn : e.nodeIds.Nodup) :
      Around (expression place e σ).2.table place.scope (Γ.push F) ∧
        Knows (expression place e σ).2.table Γ.program ∧
        Binds e.nodeIds (visits (Γ.push F) e) σ (expression place e σ).2 :=
    have h := Annotates.expression place e σ
    ⟨ha.annotate h, hk.annotate h, (binds_expression (Γ := Γ.push F) place e σ hk ha hn).2⟩
  match s with
  | .declare d => exact binds_declareLocal place d hk ha
  | .print i e p | .ret i e p | .assert i e p =>
    obtain ⟨ha, -, hb⟩ := he e (nodup_append_singleton hn).1
    rw [Statement.declares, List.append_nil]
    exact ⟨ha, hb.mono (List.subset_append_left _ _)⟩
  | .call i receiver name arguments p =>
    obtain ⟨ha, -, hb⟩ := he (.call i receiver name arguments p) hn
    rw [Statement.declares, List.append_nil]
    exact ⟨ha, hb⟩
  | .malformed p =>
    rw [Statement.declares, List.append_nil]
    exact ⟨ha, .nil (.refl [] σ) rfl⟩
  | .assign i target value p =>
    rw [Statement.declares, List.append_nil]
    exact binds_assign i p hk ha (nodup_append_singleton hn).1
  | .block i body p =>
    let inner : Place := ⟨σ.table.scopes.size, place.inMain⟩
    let σ₁ := (addScope .ofBlock place.scope none σ).2
    let σ₂ := (modifyTable (·.bindScope i inner.scope) σ₁).2
    have hb : Annotates [i] σ₁ σ₂ := .bindScope (List.mem_singleton_self i) inner.scope σ₁
    have hg : Grows (Statement.nodeIdsOf body ++ [i]) inner.scope σ (statements inner body σ₂).2 :=
      .of_addScope (.trans ((hb.grows _).mono (List.subset_append_right _ _))
        ((Grows.statements inner body σ₂).mono (List.subset_append_left _ _)))
    have h₁ : Grows [] inner.scope σ σ₁ := .of_addScope (.refl _ _ _)
    have hk₂ : Knows σ₂.table Γ.program := (hk.grow h₁).annotate hb
    have hb₁ : Binds [] [] σ σ₁ := .nil (Grows.touches h₁) rfl
    have hb₂ := hb₁.after (.bindScope i inner.scope σ₁)
    have hbs := binds_statements (Γ := Γ.push F) inner body σ₂ hk₂ (ha.addScope.annotate hb)
      (nodup_append_singleton hn).1
    rw [statement, Statement.declares, List.append_nil]
    exact ⟨ha.keep hg (Nat.le_refl _), (hb₂.after hbs).mono (List.subset_append_left _ _)⟩
  | .ifThen i e onTrue p =>
    obtain ⟨hne, hnt, hd⟩ := List.nodup_append'.mp (nodup_append_singleton hn).1
    obtain ⟨ha, hk, hb⟩ := he e hne
    obtain ⟨ha, hbt⟩ := binds_statement place onTrue _ hk ha hnt
    exact ⟨ha, (hb.append hbt hd).mono (List.subset_append_left _ _)⟩
  | .loop i e body p =>
    obtain ⟨hne, hnb, hd⟩ := List.nodup_append'.mp (nodup_append_singleton hn).1
    obtain ⟨ha, hk, hb⟩ := he e hne
    obtain ⟨ha, hbb⟩ := binds_statement place body _ hk ha hnb
    exact ⟨ha, (hb.append hbb hd).mono (List.subset_append_left _ _)⟩
  | .ifThenElse i e onTrue onFalse p =>
    obtain ⟨hn, hnf, hdf⟩ := List.nodup_append'.mp (nodup_append_singleton hn).1
    obtain ⟨hne, hnt, hdt⟩ := List.nodup_append'.mp hn
    obtain ⟨ha, hk, hb⟩ := he e hne
    have hg := Grows.statement place onTrue (expression place e σ).2
    obtain ⟨ha, hbt⟩ := binds_statement place onTrue _ hk ha hnt
    obtain ⟨ha, hbf⟩ := binds_statement place onFalse _ (hk.grow hg) ha hnf
    rw [List.append_assoc] at ha
    exact ⟨ha, ((hb.append hbt hdt).append hbf hdf).mono (List.subset_append_left _ _)⟩

theorem binds_statements {Γ : Context} (place : Place) (ss : List Statement) (σ : State)
    (hk : Knows σ.table Γ.program) (ha : Around σ.table place.scope (Γ.push F))
    (hn : (Statement.nodeIdsOf ss).Nodup) :
    Binds (Statement.nodeIdsOf ss) (visitsAll Γ F ss) σ (statements place ss σ).2 := by
  match ss with
  | []      => exact .nil (.refl [] σ) rfl
  | s :: ss =>
    obtain ⟨hns, hnss, hd⟩ := List.nodup_append'.mp hn
    obtain ⟨ha, hs⟩ := binds_statement place s σ hk ha hns
    exact hs.append (binds_statements place ss _ (hk.grow (.statement place s σ)) ha hnss) hd

end

theorem binds_methodBody {Γ : Context} (b : MethodBody) (hk : Knows σ.table Γ.program)
    (ha : Around σ.table b.scope (Γ.push [])) (hn : b.nodeIds.Nodup) :
    Binds b.nodeIds (visitsOf Γ b.toBody) σ (methodBody b σ).2 := by
  obtain ⟨hp, hs, hd⟩ := List.nodup_append'.mp hn
  let σ₁ : State := { σ with nextLocal := 0, slotsReported := false }
  have h₁ : Binds [] [] σ σ₁ := .nil ⟨fun _ _ => id, fun _ _ => rfl, fun _ _ => rfl⟩ rfl
  have hk₁ : Knows σ₁.table Γ.program := hk
  have hg : Grows (b.parameters.map (·.id)) b.scope σ₁ (parameters b.scope 1 b.parameters σ₁).2 :=
    .parameters b.scope 1 b.parameters σ₁
  obtain ⟨ha₂, hb⟩ : _ ∧ Binds _ _ σ₁ (parameters b.scope 1 b.parameters σ₁).2 :=
    binds_parameters b.parameters hk₁ ha hp
  exact h₁.after (hb.append
    (binds_statements ⟨b.scope, b.isMain⟩ b.statements _ (hk₁.grow hg) ha₂ hs) hd)

-- The bodies one after the other. What is in the scopes around one of them is not changed by the
-- others.
theorem binds_bodies {f : ι → MethodBody} {Γ : ι → Context} (l : List ι) (hk : Knows σ.table p)
    (hp : ∀ i ∈ l, (Γ i).program = p) (hn : (l.flatMap fun i => (f i).nodeIds).Nodup)
    (hs : (l.map fun i => (f i).scope).Nodup)
    (ha : ∀ i ∈ l, Around σ.table (f i).scope ((Γ i).push []) ∧ Outermost σ.table (f i).scope) :
    Binds (l.flatMap fun i => (f i).nodeIds) (l.flatMap fun i => visitsOf (Γ i) (f i).toBody) σ
      ((l.map f).forM methodBody σ).2 := by
  induction l generalizing σ with
  | nil         => exact .nil (.refl [] σ) rfl
  | cons i l hi =>
    obtain ⟨hpi, hp⟩ := List.forall_mem_cons.mp hp
    obtain ⟨hni, hn, hd⟩ := List.nodup_append'.mp hn
    obtain ⟨hsi, hs⟩ := List.nodup_cons.mp hs
    obtain ⟨⟨hai, hoi⟩, ha⟩ := List.forall_mem_cons.mp ha
    have hg := Grows.methodBody (f i) σ
    have hb := binds_methodBody (f i) (hpi ▸ hk) hai hni
    rw [List.map_cons, run_forM_cons]
    refine hb.append (hi (hk.grow hg) hp hn hs fun j hj => ?_) hd
    obtain ⟨haj, hoj⟩ := ha j hj
    have hne : (f j).scope ≠ (f i).scope := fun he => hsi (List.mem_map.mpr ⟨j, hj, he⟩)
    obtain ⟨l, hc, _⟩ := haj.frames
    exact ⟨haj.keep_of_chain hg fun _ hc _ he => hoj.ne_of_mem hoi.scope hne hc he,
      hoj.keep hg ⟨l, hc⟩⟩

end MiniJava.Binding
