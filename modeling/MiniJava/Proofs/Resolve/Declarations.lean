import MiniJava.Proofs.Resolve.ClassBody

namespace MiniJava.Resolve

open Typing

-- The numbers of the members of a class without what is in them.
def AnyClass.memberIds : AnyClass → List NodeId
  | main _    => []
  | regular c => c.members.flatMap Member.ownIds

def AnyClass.Proper : AnyClass → Prop
  | main c    => c.Proper
  | regular c => c.Proper

-- What is asked of the members of a class on their own.
structure ClassOk (p : Program) (c : AnyClass) : Prop where
  fields      : (c.fields.map (·.name)).Nodup
  methods     : (c.signatures.map (·.name)).Nodup
  fieldTypes  : ∀ d ∈ c.fields, Known p d.type.name
  returnTypes : ∀ r, c = .regular r → ∀ m ∈ r.methods, Known p m.returns.name

-- The order of things with different names does not matter.
theorem find?_perm {α : Type} {f : α → String} {l l' : List α} (hp : l.Perm l')
    (hn : (l'.map f).Nodup) (name : String) : l.find? (f · = name) = l'.find? (f · = name) := by
  ext a
  rw [find?_eq_some_iff_of_nodup hn, find?_eq_some_iff_of_nodup ((hp.map f).nodup_iff.mpr hn),
    hp.mem_iff]

-- A class with all its members, and the bodies that are to be resolved: those in `f`.
structure ClassOpened (f : AnyClass → List Body) (D : DefinedClass) (parent : Option DefinedClass)
    (σ σ' : State) (bs : List MethodBody) : Prop
    extends OpensBodies D.scope D.declaration.memberIds σ σ' bs where
  members : Members σ'.table D parent D.declaration.fields D.declaration.signatures
  bodies  : bs.map (·.toBody) = f D.declaration

structure ClassFilled (p : Program) (D : DefinedClass) (parent : Option DefinedClass)
    (σ σ' : State) (bs : List MethodBody) : Prop
    extends ClassOpened AnyClass.bodies D parent σ σ' bs where
  ok   : ClassOk p D.declaration
  size : σ'.size = σ.size

inductive ClassVerdict (p : Program) (D : DefinedClass) (parent : Option DefinedClass) (σ : State) :
    List MethodBody × State → Prop
  | passed : ClassFilled p D parent σ σ' bs → ClassVerdict p D parent σ (bs, σ')
  | failed : ¬ClassOk p D.declaration → σ.size < out.2.size → ClassVerdict p D parent σ out

theorem defineMembers_main {σ : State} (c : MainClass) (x : SymbolId) (s : ScopeId)
    (h : Members σ.table ⟨.main c, x, s⟩ parent [] []) :
    defineMembers ⟨.main c, x, s⟩ σ =
      ([⟨σ.table.scopes.size, [], c.body, true⟩],
        { σ with table := withMethod σ.table ⟨.main c, x, s⟩ ⟨"main", .void, [], none⟩ }) := by
  show ((defineMain c ⟨.main c, x, s⟩ σ).1.toList, (defineMain c ⟨.main c, x, s⟩ σ).2) = _
  rw [defineMain_of_members h]
  rfl

-- The only member of the main class is its method.
theorem ClassOpened.main {σ : State} (c : MainClass) (x : SymbolId) (s : ScopeId)
    (h : Members σ.table ⟨.main c, x, s⟩ parent [] []) (hD : s ≠ SymbolTable.globalScope)
    (ht : Types σ.table names) (hf : f (.main c) = [⟨[], c.body, true⟩]) :
    ClassOpened f ⟨.main c, x, s⟩ parent σ (defineMembers ⟨.main c, x, s⟩ σ).2
      (defineMembers ⟨.main c, x, s⟩ σ).1 := by
  obtain ⟨b, hb, _⟩ := h.scope
  rw [defineMembers_main c x s h]
  exact {
    members := h.withMethod hD ht _
    bodies  := hf.symm
    opens   := List.forall_mem_singleton.mpr (opens_withMethod hb _ rfl)
    fresh   := List.forall_mem_singleton.mpr Array.getElem?_size
    nodup   := List.nodup_singleton _
    fills   := fills_withMethod hb _ }

theorem verdict_defineMembers_main {σ : State} (c : MainClass) (x : SymbolId) (s : ScopeId)
    (h : Members σ.table ⟨.main c, x, s⟩ parent [] []) (hD : s ≠ SymbolTable.globalScope)
    (ht : Types σ.table (classNames p)) :
    ClassVerdict p ⟨.main c, x, s⟩ parent σ (defineMembers ⟨.main c, x, s⟩ σ) := by
  have hq : (defineMembers ⟨.main c, x, s⟩ σ).2.size = σ.size := by
    rw [defineMembers_main c x s h]
    rfl
  exact .passed ⟨.main c x s h hD ht rfl, ⟨.nil, List.nodup_singleton _, nofun, nofun⟩, hq⟩

theorem verdict_defineMembers_regular {σ : State} (c : ClassDeclaration) (x : SymbolId)
    (s : ScopeId) (h : Members σ.table ⟨.regular c, x, s⟩ parent [] []) (hp : c.Proper)
    (hD : s ≠ SymbolTable.globalScope) (ht : Types σ.table (classNames p))
    (hi : c.id ∉ c.members.flatMap Member.ownIds) :
    ClassVerdict p ⟨.regular c, x, s⟩ parent σ (defineMembers ⟨.regular c, x, s⟩ σ) := by
  have hv := verdict_defineMembers c.members h hp.members hD ht hi .nil .nil
  have he : defineMembers ⟨.regular c, x, s⟩ σ =
      ((c.members.mapM (defineMember ⟨.regular c, x, s⟩) σ).1.filterMap id,
        (c.members.mapM (defineMember ⟨.regular c, x, s⟩) σ).2) := rfl
  rw [he]
  generalize c.members.mapM (defineMember ⟨.regular c, x, s⟩) σ = out at hv ⊢
  cases hv with
  | failed hu hlt =>
    refine .failed (fun hok => hu ?_) hlt
    refine ⟨hok.fields, ?_, hok.fieldTypes, hok.returnTypes c rfl⟩
    have hm := hok.methods
    rwa [AnyClass.signatures, List.map_map] at hm
  | passed hb hf =>
    rw [hb]
    have hm : (((methodsOf c.members).map (·.signature)).map (·.name)).Nodup := by
      rw [List.map_map]
      exact hf.ok.methods
    refine .passed ⟨⟨hf.toOpensBodies, ?members, hf.bodies⟩, ⟨hf.ok.fields, hm, ?fields, ?types⟩,
      hf.size⟩
    case fields => exact hf.ok.fieldTypes
    case types =>
      intro r hr
      cases hr
      exact hf.ok.returnTypes
    case members =>
      have hF := find?_perm (f := VariableDeclaration.name) (List.reverse_perm _) hf.ok.fields
      have hS := find?_perm (f := Signature.name) (List.reverse_perm _) hm
      have hms := hf.members
      rw [List.append_nil, List.append_nil] at hms
      exact hms.congr (fun name => (hF name).symm) fun name => (hS name).symm

theorem verdict_defineClassMembers {σ : State} (D : DefinedClass)
    (h : Members σ.table D parent [] []) (hp : D.declaration.Proper)
    (hD : D.scope ≠ SymbolTable.globalScope) (ht : Types σ.table (classNames p))
    (hi : D.declaration.id ∉ D.declaration.memberIds) :
    ClassVerdict p D parent σ (defineMembers D σ) := by
  obtain ⟨c, x, s⟩ := D
  cases c with
  | main c    => exact verdict_defineMembers_main c x s h hD ht
  | regular c => exact verdict_defineMembers_regular c x s h hp hD ht hi

theorem Adds.defineMembers (D : DefinedClass) (σ : State) : Adds σ (Resolve.defineMembers D σ).2 := by
  obtain ⟨c, x, s⟩ := D
  cases c with
  | regular c => exact Adds.mapM (Adds.defineMember _) c.members σ
  | main c    =>
    show Adds σ (defineMain c ⟨.main c, x, s⟩ σ).2
    have hd := Adds.define s
      ⟨"main", .ofMethod ⟨.void, [], (addScope .ofMethod s none σ).1, x⟩, none⟩
      (addScope .ofMethod s none σ).2
    refine .trans ⟨hd.size_le, hd.semantic⟩ ?_
    unfold defineMain
    rw [run_bind, run_bind]
    dsimp only
    generalize Resolve.define s _ _ = out
    cases out.1 with
    | none   => exact .refl _
    | some x => exact .of_eq rfl

theorem Members.name_eq (h : Members t D parent F S) (h' : Members t D' parent' F' S')
    (hs : D.scope = D'.scope) : D.name = D'.name := by
  obtain ⟨b, hb, _, _, ho, _⟩ := h.scope
  obtain ⟨b', hb', _, _, ho', _⟩ := h'.scope
  obtain rfl := Option.some.inj ((hs ▸ hb).symm.trans hb')
  have hx := Option.some.inj (ho.symm.trans ho')
  exact congrArg Symbol.name (Option.some.inj ((hx ▸ h.symbol).symm.trans h'.symbol))

-- The members of the classes in `done` have been defined, those of the classes in `todo` not yet.
structure Progress (p : Program) (parent : DefinedClass → Option DefinedClass) (t : SymbolTable)
    (done todo : List DefinedClass) : Prop where
  types    : Types t (classNames p)
  distinct : ((done ++ todo).map (·.name)).Nodup
  filled   : ∀ D ∈ done, Members t D (parent D) D.declaration.fields D.declaration.signatures
  bare     : ∀ D ∈ todo, Members t D (parent D) [] []
  inner    : ∀ D ∈ done ++ todo, D.scope ≠ SymbolTable.globalScope
  ids      : ∀ D ∈ done ++ todo, ∀ D' ∈ done ++ todo, D.declaration.id ∉ D'.declaration.memberIds

theorem Progress.step {σ : State} (h : Progress p parent σ.table done (D :: todo))
    (hc : ClassOpened f D (parent D) σ σ' bs) : Progress p parent σ'.table (done ++ [D]) todo := by
  have he : done ++ [D] ++ todo = done ++ D :: todo := by simp
  have hD : D ∈ done ++ D :: todo := by simp
  have hn := h.distinct
  rw [List.map_append, List.map_cons, List.nodup_middle, ← List.map_append] at hn
  have hne (D') (hD' : D' ∈ done ++ todo) : D'.name ≠ D.name := fun hn' =>
    (List.nodup_cons.mp hn).1 (hn' ▸ List.mem_map_of_mem hD')
  have hkeep {D' F S} (hD' : D' ∈ done ++ todo) (hm : Members σ.table D' (parent D') F S) :
      Members σ'.table D' (parent D') F S := by
    have hmem : D' ∈ done ++ D :: todo := by
      cases List.mem_append.mp hD' with
      | inl hD' => exact List.mem_append_left _ hD'
      | inr hD' => exact List.mem_append_right _ (List.mem_cons_of_mem _ hD')
    have hs : D'.scope ≠ D.scope := fun hs =>
      hne D' hD' (hm.name_eq (h.bare D List.mem_cons_self) hs)
    exact hm.keep hc.fills (h.inner D hD) hs (h.ids D' hmem D hD) h.types
  constructor
  case types    => exact h.types.keep hc.fills (h.inner D hD)
  case distinct => exact he ▸ h.distinct
  case filled   =>
    intro D' hD'
    cases List.mem_append.mp hD' with
    | inl hD' => exact hkeep (List.mem_append_left _ hD') (h.filled D' hD')
    | inr hD' => exact List.mem_singleton.mp hD' ▸ hc.members
  case bare     =>
    intro D' hD'
    exact hkeep (List.mem_append_right _ hD') (h.bare D' (List.mem_cons_of_mem _ hD'))
  case inner    => exact he ▸ h.inner
  case ids      => exact he ▸ h.ids

-- What has come of the classes `ds`, with the bodies of the methods of each.
structure AllOpened (f : AnyClass → List Body) (ds : List DefinedClass) (σ σ' : State)
    (bss : List (List MethodBody)) : Prop where
  bodies : List.Forall₂ (fun D bs => bs.map (·.toBody) = f D.declaration ∧
    ∀ b ∈ bs, Opens σ'.table D.scope b) ds bss
  scopes : ∀ i b, (∀ D ∈ ds, i ≠ D.scope) → σ.table.scope? i = some b → σ'.table.scope? i = some b
  fresh  : ∀ b ∈ bss.flatten, σ.table.scope? b.scope = none
  nodup  : (bss.flatten.map (·.scope)).Nodup

structure AllFilled (p : Program) (ds : List DefinedClass) (σ σ' : State)
    (bss : List (List MethodBody)) : Prop extends AllOpened AnyClass.bodies ds σ σ' bss where
  ok   : ∀ D ∈ ds, ClassOk p D.declaration
  size : σ'.size = σ.size

inductive ClassesFilled (p : Program) (parent : DefinedClass → Option DefinedClass)
    (done todo : List DefinedClass) (σ : State) : List (List MethodBody) × State → Prop
  | passed :
    Progress p parent σ'.table (done ++ todo) [] → AllFilled p todo σ σ' bss →
      ClassesFilled p parent done todo σ (bss, σ')
  | failed :
    (¬∀ D ∈ todo, ClassOk p D.declaration) → σ.size < out.2.size →
      ClassesFilled p parent done todo σ out

theorem AllOpened.cons {σ : State} (h : Progress p parent σ.table done (D :: todo))
    (hc : ClassOpened f D (parent D) σ σ₁ bs) (hr : AllOpened f todo σ₁ σ' bss) :
    AllOpened f (D :: todo) σ σ' (bs :: bss) := by
  have hs : ∃ b, σ₁.table.scope? D.scope = some b := by
    obtain ⟨b, hb, _⟩ := hc.members.scope
    exact ⟨b, hb⟩
  -- The scope of a method is new, so it is none of the scopes of the classes.
  have hne (b) (hb : b ∈ bs) (D') (hD' : D' ∈ todo) : b.scope ≠ D'.scope := by
    obtain ⟨b', hb', _⟩ := (h.bare D' (List.mem_cons_of_mem _ hD')).scope
    intro he
    cases (hc.fresh b hb).symm.trans (he ▸ hb')
  constructor
  case bodies =>
    refine .cons ⟨hc.bodies, fun b hb => ?_⟩ hr.bodies
    obtain ⟨owner, ho⟩ := hc.opens b hb
    exact ⟨owner, hr.scopes _ _ (hne b hb) ho⟩
  case scopes =>
    intro i b hi hb
    obtain ⟨hiD, hi⟩ := List.forall_mem_cons.mp hi
    exact hr.scopes i b hi (hc.fills.scopes i b hiD hb)
  case fresh  =>
    intro b hb
    cases List.mem_append.mp hb with
    | inl hb => exact hc.fresh b hb
    | inr hb => exact fresh_of_fills hc.fills hs (hr.fresh b hb)
  case nodup  =>
    rw [List.flatten_cons, List.map_append, List.nodup_append']
    refine ⟨hc.nodup, hr.nodup, fun i hi hi' => ?_⟩
    obtain ⟨b, hb, rfl⟩ := List.mem_map.mp hi
    obtain ⟨b', hb', he⟩ := List.mem_map.mp hi'
    obtain ⟨owner, ho⟩ := hc.opens b hb
    cases (he ▸ hr.fresh b' hb').symm.trans ho

theorem AllFilled.cons {σ : State} (h : Progress p parent σ.table done (D :: todo))
    (hc : ClassFilled p D (parent D) σ σ₁ bs) (hr : AllFilled p todo σ₁ σ' bss) :
    AllFilled p (D :: todo) σ σ' (bs :: bss) where
  toAllOpened := .cons h hc.toClassOpened hr.toAllOpened
  ok          := List.forall_mem_cons.mpr ⟨hc.ok, hr.ok⟩
  size        := hr.size.trans hc.size

theorem verdict_defineAllMembers {σ : State} (todo : List DefinedClass)
    (h : Progress p parent σ.table done todo) (hp : ∀ D ∈ todo, D.declaration.Proper) :
    ClassesFilled p parent done todo σ (todo.mapM defineMembers σ) := by
  induction todo generalizing done σ with
  | nil            =>
    have h : Progress p parent σ.table (done ++ []) [] := by rwa [List.append_nil]
    exact .passed h ⟨⟨.nil, fun _ _ _ => id, nofun, .nil⟩, nofun, rfl⟩
  | cons D todo hi =>
    have hD : D ∈ done ++ D :: todo := by simp
    have hv := verdict_defineClassMembers D (h.bare D List.mem_cons_self) (hp D List.mem_cons_self)
      (h.inner D hD) h.types (h.ids D hD D hD)
    have ha (σ : State) := Adds.mapM Adds.defineMembers todo σ
    rw [run_mapM_cons]
    generalize defineMembers D σ = out at hv ⊢
    cases hv with
    | failed hu hlt =>
      exact .failed (fun hok => hu (hok D List.mem_cons_self)) (Nat.lt_of_lt_of_le hlt (ha _).size_le)
    | passed hc =>
      have hi := hi (h.step hc.toClassOpened) fun D' hD' => hp D' (List.mem_cons_of_mem _ hD')
      dsimp only at hi ⊢
      generalize todo.mapM defineMembers _ = rest at hi ⊢
      cases hi with
      | failed hu hlt =>
        exact .failed (fun hok => hu fun D' hD' => hok D' (List.mem_cons_of_mem _ hD')) (hc.size ▸ hlt)
      | passed hp hr  => exact .passed (List.append_cons .. ▸ hp) (.cons h hc hr)

end MiniJava.Resolve
