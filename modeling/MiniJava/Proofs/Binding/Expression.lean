import MiniJava.Proofs.Binding.Basic
import MiniJava.Proofs.Resolve.Standing

namespace MiniJava

def Diagnostic.isUnresolved (d : Diagnostic) : Bool :=
  match d.problem with
  | .semantic (.unresolved ..) => true
  | _                          => false

namespace Binding

open Resolve Typing

def Denotes (t : SymbolTable) (s : SymbolId) : Target → Prop
  | .ofVariable d => t.HasVariable s d
  | .ofMethod m   => t.HasMethod s m

theorem Denotes.keep (h : t.Keeps t') (hd : Denotes t s x) : Denotes t' s x := by
  cases x with
  | ofVariable => exact SymbolTable.HasVariable.keep h hd
  | ofMethod   => exact SymbolTable.HasMethod.keep h hd

-- What a table has to keep of an expression in its environment.
structure Noted (t : SymbolTable) (Γ : Context) (e : Expression) : Prop where
  type  : ∀ i, e.id? = some i → t.typeOf? i = typeOf? Γ e
  bound : ∀ u, use? Γ e = some u → Option.Rel (Denotes t) (t.referenced? u.node) u.target

theorem called?_node (h : called? p i name position τ = some u) : u.node = i := by
  cases τ with
  | object =>
    rw [called?] at h
    split at h
    case isTrue  => cases h
    case isFalse =>
      obtain ⟨c, _, rfl⟩ := Option.map_eq_some_iff.mp h
      rfl
  | _      => cases h

theorem use?_node (h : use? Γ e = some u) : e.id? = some u.node := by
  cases e with
  | reference => exact Option.some.inj h ▸ rfl
  | call      =>
    obtain ⟨τ, _, hu⟩ := Option.bind_eq_some_iff.mp h
    rw [called?_node hu]
    rfl
  | _         => cases h

-- Nothing is noted of a node.
structure Blank (t : SymbolTable) (i : NodeId) : Prop where
  type      : t.typeOf? i = none
  reference : t.referenced? i = none

-- Only the nodes in `ids` get notes.
structure Touches (ids : List NodeId) (σ σ' : State) : Prop where
  symbols    : σ.table.Keeps σ'.table
  types      : ∀ i ∉ ids, σ'.table.typeOf? i = σ.table.typeOf? i
  references : ∀ i ∉ ids, σ'.table.referenced? i = σ.table.referenced? i

theorem Touches.refl (ids : List NodeId) (σ : State) : Touches ids σ σ :=
  ⟨fun _ _ => id, fun _ _ => rfl, fun _ _ => rfl⟩

theorem Touches.trans (h : Touches ids σ σ₁) (h' : Touches ids' σ₁ σ') :
    Touches (ids ++ ids') σ σ' where
  symbols i x hx  := h'.symbols i x (h.symbols i x hx)
  types i hi      := by
    obtain ⟨hi, hi'⟩ := not_or.mp (mt List.mem_append.mpr hi)
    exact (h'.types i hi').trans (h.types i hi)
  references i hi := by
    obtain ⟨hi, hi'⟩ := not_or.mp (mt List.mem_append.mpr hi)
    exact (h'.references i hi').trans (h.references i hi)

theorem Touches.blank (h : Touches ids σ σ') (hi : i ∉ ids) (hb : Blank σ.table i) :
    Blank σ'.table i :=
  ⟨(h.types i hi).trans hb.type, (h.references i hi).trans hb.reference⟩

theorem Noted.keep (h : Noted σ.table Γ e) (ht : Touches ids σ σ') (hi : ∀ i, e.id? = some i → i ∉ ids) :
    Noted σ'.table Γ e where
  type i he  := (ht.types i (hi i he)).trans (h.type i he)
  bound u hu := by
    rw [ht.references _ (hi _ (use?_node hu))]
    exact rel_imp (fun _ _ => .keep ht.symbols) (h.bound u hu)

end Binding

namespace Resolve.State

-- The names that have not been found so far.
def missing (σ : State) : List Diagnostic :=
  σ.diagnostics.toList.filter (·.isUnresolved)

theorem missing_report (error : SemanticError) (p : Position) (σ : State) :
    (report error p σ).2.missing =
      σ.missing ++ [Diagnostic.semantic error p].filter (·.isUnresolved) := by
  show (σ.diagnostics.push _).toList.filter _ = _
  rw [Array.toList_push, List.filter_append]
  rfl

end Resolve.State

namespace Binding

open Resolve Typing

-- The nodes in `ids` have been resolved, which came to the visits `vs`.
structure Binds (ids : List NodeId) (vs : List Visit) (σ σ' : State) : Prop extends Touches ids σ σ' where
  missing : σ'.missing = σ.missing ++ Binding.missing (vs.flatMap Visit.sites)
  within  : ∀ Γ e, .expression Γ e ∈ vs → ∀ i, e.id? = some i → i ∈ ids
  noted   : (∀ i ∈ ids, Blank σ.table i) → ∀ Γ e, .expression Γ e ∈ vs → Noted σ'.table Γ e

namespace Binds

theorem nil (h : Touches [] σ σ') (hm : σ'.missing = σ.missing) : Binds [] [] σ σ' :=
  { h with
    missing := hm.trans (List.append_nil _).symm
    within  := nofun
    noted   := nofun }

theorem bindScope (i : NodeId) (scope : ScopeId) (σ : State) :
    Binds [] [] σ (modifyTable (·.bindScope i scope) σ).2 :=
  nil ⟨fun _ _ => id, fun _ _ => rfl, fun _ _ => rfl⟩ rfl

theorem mono (h : Binds ids vs σ σ') (hs : ids ⊆ ids') : Binds ids' vs σ σ' where
  symbols           := h.symbols
  types i hi        := h.types i fun hm => hi (hs hm)
  references i hi   := h.references i fun hm => hi (hs hm)
  missing           := h.missing
  within Γ e he i h' := hs (h.within Γ e he i h')
  noted hb          := h.noted fun i hi => hb i (hs hi)

-- What is resolved one after the other has different nodes.
theorem append (h : Binds ids vs σ σ₁) (h' : Binds ids' vs' σ₁ σ') (hd : ids.Disjoint ids') :
    Binds (ids ++ ids') (vs ++ vs') σ σ' :=
  { h.toTouches.trans h'.toTouches with
    missing := by
      rw [h'.missing, h.missing, List.flatMap_append, Binding.missing, Binding.missing,
        Binding.missing, List.filter_append, List.map_append, List.append_assoc]
    within  := fun Γ e he i hi => by
      rcases List.mem_append.mp he with he | he
      case inl => exact List.mem_append_left _ (h.within Γ e he i hi)
      case inr => exact List.mem_append_right _ (h'.within Γ e he i hi)
    noted   := fun hb Γ e he => by
      obtain ⟨hb, hb'⟩ := List.forall_mem_append.mp hb
      rcases List.mem_append.mp he with he | he
      case inl =>
        exact (h.noted hb Γ e he).keep h'.toTouches fun i hi => hd (h.within Γ e he i hi)
      case inr =>
        exact h'.noted (fun i hi => h.toTouches.blank (fun hi' => hd hi' hi) (hb' i hi)) Γ e he }

theorem after (h : Binds [] [] σ σ₁) (h' : Binds ids vs σ₁ σ') : Binds ids vs σ σ' :=
  h.append h' (List.disjoint_nil_left _)

-- The node itself, when its parts have been resolved.
theorem node (hi : e.id? = some i) (ha : Annotates [i] σ σ')
    (hm : σ'.missing = σ.missing ++ Binding.missing (Visit.expression Γ e).sites)
    (hn : Blank σ.table i → Noted σ'.table Γ e) : Binds [i] [.expression Γ e] σ σ' where
  symbols      := ha.symbol?
  types        := ha.types
  references   := ha.references
  missing      := by rw [hm, List.flatMap_singleton]
  within Γ' e' he j hj := by
    obtain ⟨rfl, rfl⟩ := Visit.expression.inj (List.mem_singleton.mp he)
    exact List.mem_singleton.mpr (Option.some.inj (hj.symm.trans hi))
  noted hb Γ' e' he := by
    obtain ⟨rfl, rfl⟩ := Visit.expression.inj (List.mem_singleton.mp he)
    exact hn (hb i (List.mem_singleton_self i))

end Binds

-- What a table knows of the classes of a program.
structure Knows (t : SymbolTable) (p : Program) : Prop where
  global  : ∃ g, t.scope? SymbolTable.globalScope = some g
  types   : ∀ name x, t.resolveType? name = some x → ∃ a, t.symbol? x = some a
  known   : ∀ name, (t.resolveType? name).isSome = true ↔ Known p name
  classes : ∀ className, Option.Rel
    (fun s c => (∃ l, t.Chain s l) ∧
      ∀ name, Option.Rel t.HasMethod (t.resolve? s .methodNames name) (callee? p c name))
    (classScope? t className) (class? (classes p) className)

-- The scopes from `s` outward hold the frames of the environment. The last scope is the global one,
-- which has no variables.
structure Around (t : SymbolTable) (s : ScopeId) (Γ : Context) : Prop where
  self   : selfType t s = some (.object Γ.className)
  frames : ∃ l, t.Chain s l ∧ List.Forall₂ (fun e F => Holds t e.2 F) l (Γ.frames ++ [[]])

theorem Around.resolves (h : Around t s Γ) (name : String) :
    Option.Rel t.HasVariable (t.resolve? s .variableNames name) (Γ.lookup? name) := by
  obtain ⟨l, hc, hf⟩ := h.frames
  exact resolves_of_frames hc hf name

theorem Knows.annotate (h : Knows σ.table p) (ha : Annotates ids σ σ') : Knows σ'.table p := by
  obtain ⟨⟨scopes, symbols, _, declared, _, _⟩, _, _, _⟩ := σ
  obtain ⟨⟨scopes', symbols', _, declared', _, _⟩, _, _, _⟩ := σ'
  obtain rfl : scopes' = scopes := ha.scopes
  obtain rfl : symbols' = symbols := ha.symbols
  exact ⟨h.global, h.types, h.known, h.classes⟩

theorem Around.annotate (h : Around σ.table s Γ) (ha : Annotates ids σ σ') :
    Around σ'.table s Γ := by
  obtain ⟨⟨scopes, symbols, _, declared, _, _⟩, _, _, _⟩ := σ
  obtain ⟨⟨scopes', symbols', _, declared', _, _⟩, _, _, _⟩ := σ'
  obtain rfl : scopes' = scopes := ha.scopes
  obtain rfl : symbols' = symbols := ha.symbols
  exact ⟨h.self, h.frames⟩

section

variable {i : NodeId} {σ : State} {Γ : Context}

theorem keepType_fst (i : NodeId) (o : Option StaticType) (σ : State) : (keepType i o σ).1 = o := by
  cases o <;> rfl

theorem missing_keepType (i : NodeId) (o : Option StaticType) (σ : State) :
    (keepType i o σ).2.missing = σ.missing := by
  cases o <;> rfl

theorem referenced?_keepType (i j : NodeId) (o : Option StaticType) (σ : State) :
    (keepType i o σ).2.table.referenced? j = σ.table.referenced? j := by
  cases o <;> rfl

theorem symbol?_keepType (i : NodeId) (o : Option StaticType) (σ : State) :
    σ.table.Keeps (keepType i o σ).2.table := by
  cases o <;> exact fun _ _ => id

theorem typeOf?_keepType (h : σ.table.typeOf? i = none) (o : Option StaticType) :
    (keepType i o σ).2.table.typeOf? i = o := by
  cases o with
  | none   => exact h
  | some τ => exact Std.TreeMap.getElem?_insert_self

theorem referenced?_bindReference (i : NodeId) (s : SymbolId) (t : SymbolTable) :
    (t.bindReference i s).referenced? i = some s :=
  Std.TreeMap.getElem?_insert_self

-- What the binding of a name does, before the type of its node is kept.
structure Resolves (i : NodeId) (τ : Option StaticType) (u : Option Use) (σ : State)
    (out : Option StaticType × State) : Prop where
  type    : out.1 = τ
  missing : out.2.missing = σ.missing ++ Binding.missing (u.toList.map Use.site)
  types   : out.2.table.types = σ.table.types
  bound   : σ.table.referenced? i = none → ∀ x, u = some x →
    Option.Rel (Denotes out.2.table) (out.2.table.referenced? i) x.target

theorem Resolves.node {σ₀ σ₁ : State} {out : Option StaticType × State}
    (h : Resolves i (typeOf? Γ e) (use? Γ e) σ₁ out) (hi : e.id? = some i)
    (ha : Annotates [i] σ₀ (Resolve.keepType i out.1 out.2).2) (hm : σ₁.missing = σ₀.missing)
    (ht : σ₁.table.types = σ₀.table.types) (hr : σ₁.table.references = σ₀.table.references)
    (hs : (Visit.expression Γ e).sites = (use? Γ e).toList.map Use.site := by rfl) :
    Binds [i] [.expression Γ e] σ₀ (Resolve.keepType i out.1 out.2).2 := by
  refine .node hi ha ?missing fun hb => ⟨fun j hj => ?typed, fun u hu => ?refers⟩
  case missing => rw [missing_keepType, h.missing, hm, hs]
  case typed =>
    obtain rfl := Option.some.inj (hi.symm.trans hj)
    have hn : out.2.table.typeOf? i = none := by
      rw [SymbolTable.typeOf?, h.types, ht]
      exact hb.type
    rw [typeOf?_keepType hn, h.type]
  case refers =>
    have hb : σ₁.table.referenced? i = none := by
      rw [SymbolTable.referenced?, hr]
      exact hb.reference
    obtain rfl := Option.some.inj (hi.symm.trans (use?_node hu))
    rw [referenced?_keepType]
    exact rel_imp (fun _ _ => .keep (symbol?_keepType _ out.1 out.2)) (h.bound hb u hu)

namespace Resolves

theorem missed (i : NodeId) (entity : Entity) (name : String) (p : Position) (σ : State) :
    Resolves i none (some ⟨i, entity, name, p, none⟩) σ
      (none, (report (.unresolved entity name) p σ).2) := by
  refine ⟨rfl, State.missing_report _ _ _, rfl, fun hb u hu => ?_⟩
  obtain rfl := Option.some.inj hu
  show Option.Rel _ (σ.table.referenced? i) none
  exact hb ▸ .none

theorem binds (σ σ' : State) (hm : σ'.missing = σ.missing) (ht : σ'.table = σ.table)
    (hd : Denotes σ.table s x) (entity : Entity) (name : String) (p : Position)
    (τ : Option StaticType) :
    Resolves i τ (some ⟨i, entity, name, p, some x⟩) σ
      (τ, (modifyTable (·.bindReference i s) σ').2) := by
  have hτ : σ'.table.types = σ.table.types := congrArg SymbolTable.types ht
  refine ⟨rfl, hm.trans (List.append_nil _).symm, hτ, fun _ u hu => ?_⟩
  obtain rfl := Option.some.inj hu
  have hk : σ.table.Keeps (modifyTable (·.bindReference i s) σ').2.table := by
    intro j a ha
    show σ'.table.symbol? j = some a
    rw [ht, ha]
  show Option.Rel _ ((σ'.table.bindReference i s).referenced? i) _
  exact referenced?_bindReference i s σ'.table ▸ .some (hd.keep hk)

-- Nothing is looked up.
theorem nothing (τ : Option StaticType) (σ σ' : State) (ht : σ'.table = σ.table)
    (hm : σ'.missing = σ.missing) : Resolves i τ none σ (τ, σ') :=
  ⟨rfl, hm.trans (List.append_nil _).symm, congrArg SymbolTable.types ht, fun _ => nofun⟩

end Resolves

-- A node without a name of its own. What is reported of it is something else.
theorem Binds.unnamed {σ' : State} (hi : e.id? = some i) (ha : Annotates [i] σ σ')
    (ht : σ'.table = σ.table) (hm : σ'.missing = σ.missing) (hτ : typeOf? Γ e = τ)
    (hu : use? Γ e = none := by rfl) (hs : (Visit.expression Γ e).sites = [] := by rfl) :
    Binds [i] [.expression Γ e] σ (Resolve.keepType i τ σ').2 := by
  have h : Resolves i (typeOf? Γ e) (use? Γ e) σ (τ, σ') := by
    rw [hτ, hu]
    exact .nothing τ σ σ' ht hm
  exact h.node hi (ha.trans (.keepType (List.mem_singleton_self i) τ σ')) rfl rfl rfl
    (by rw [hs, hu]; rfl)

theorem Binds.keepType (hi : e.id? = some i) (hτ : typeOf? Γ e = τ)
    (hu : use? Γ e = none := by rfl) (hs : (Visit.expression Γ e).sites = [] := by rfl) :
    Binds [i] [.expression Γ e] σ (Resolve.keepType i τ σ).2 :=
  unnamed hi (.refl [i] σ) rfl rfl hτ hu hs

theorem missing_checkTypeName (hk : ∀ name, (σ.table.resolveType? name).isSome = true ↔ Known p name)
    (name : String) (position : Position) :
    (checkTypeName name position σ).2.missing =
      σ.missing ++ Binding.missing [.ofType p name position] := by
  by_cases hn : Known p name
  case pos =>
    rw [checkTypeName_of_some ((hk name).mpr hn), Binding.missing]
    simp [Site.ofType, hn]
  case neg =>
    rw [checkTypeName_of_none (mt (hk name).mp hn), State.missing_report, Binding.missing]
    simp [Site.ofType, hn, Site.report, Diagnostic.isUnresolved, Diagnostic.semantic]

theorem resolves_reference (ha : Around σ.table place.scope Γ) (name : String) (p : Position) :
    Resolves i (typeOf? Γ (.reference i name p)) (use? Γ (.reference i name p)) σ
      (resolveReference place i name p σ) := by
  have hr := ha.resolves name
  rw [typeOf?, use?]
  unfold resolveReference
  rw [run_bind, run_get]
  dsimp only
  generalize Γ.lookup? name = v at hr
  generalize σ.table.resolve? place.scope .variableNames name = s at hr
  cases hr with
  | none         => exact .missed i .aVariable name p σ
  | @some s d hv =>
    have hτ : ((σ.table.symbol? s).bind Symbol.asVariable?).map (·.type) = some (staticType d.type) := by
      obtain ⟨slot, hx⟩ := hv
      rw [hx]
      rfl
    have hd : Denotes σ.table s (.ofVariable d) := hv
    show Resolves _ _ _ _ (((σ.table.symbol? s).bind Symbol.asVariable?).map (·.type), _)
    rw [hτ]
    exact .binds σ σ rfl rfl hd _ _ _ _

theorem resolves_method (hk : Knows σ.table p) (hl : name ≠ "length") (className : String) (n : Nat)
    (position : Position) :
    Resolves i (answer? p name (.object className)) (called? p i name position (.object className)) σ
      (resolveMethod className i name n position σ) := by
  have hc := hk.classes className
  rw [answer?, called?, if_neg hl, if_neg hl]
  unfold resolveMethod
  rw [run_bind, run_get]
  dsimp only
  generalize class? (classes p) className = c at hc
  generalize classScope? σ.table className = s at hc
  cases hc with
  | none         => exact .nothing none σ σ rfl rfl
  | @some s c hc =>
    have hm := hc.2 name
    dsimp only
    rw [Option.bind_some, Option.map_some]
    generalize callee? p c name = m at hm
    generalize σ.table.resolve? s .methodNames name = x at hm
    cases hm with
    | none         => exact .missed i .method name position σ
    | @some x m hm =>
      have hd : Denotes σ.table x (.ofMethod m) := hm
      obtain ⟨scope, owner, hx⟩ := hm
      have hf : (σ.table.symbol? x).bind Symbol.asMethod? =
          some ⟨m.returns, m.parameters, scope, owner⟩ := by
        rw [hx]
        rfl
      dsimp only
      rw [hf]
      dsimp only
      split
      case isTrue  =>
        refine .binds σ (report (.argumentCount name m.parameters.length n) position σ).2 ?_ rfl hd
          _ _ _ _
        rw [State.missing_report]
        exact List.append_nil _
      case isFalse => exact .binds σ σ rfl rfl hd _ _ _ _

theorem resolves_call (hk : Knows σ.table p) (τ : StaticType) (name : String) (n : Nat)
    (position : Position) :
    Resolves i (answer? p name τ) (called? p i name position τ) σ
      (resolveCall τ i name n position σ) := by
  have hr (error : SemanticError)
      (he : [Diagnostic.semantic error position].filter (·.isUnresolved) = []) :
      Resolves i none none σ (none, (report error position σ).2) := by
    refine .nothing none σ _ rfl ?_
    rw [State.missing_report, he]
    exact List.append_nil _
  unfold resolveCall
  split
  case isTrue hl  =>
    have hl : name = "length" := hl
    cases τ with
    | array                => rw [answer?, if_pos hl]; exact .nothing _ σ σ rfl rfl
    | object               => rw [answer?, called?, if_pos hl, if_pos hl]; exact hr _ rfl
    | int | boolean | void => exact hr _ rfl
  case isFalse hl =>
    have hl : name ≠ "length" := hl
    cases τ with
    | object className     => exact resolves_method hk hl className n position
    | array                => rw [answer?, if_neg hl]; exact hr _ rfl
    | int | boolean | void => exact hr _ rfl

-- The class of a new object is not among the names that are bound.
theorem binds_creation (hk : Knows σ.table Γ.program) (name : String) (p : Position) :
    (resolveCreation i name p σ).1 = typeOf? Γ (.newObject i name p) ∧
      Binds [i] [.expression Γ (.newObject i name p)] σ
        (Resolve.keepType i (resolveCreation i name p σ).1 (resolveCreation i name p σ).2).2 := by
  have hi : i ∈ [i] := List.mem_singleton_self i
  have ha := (Annotates.resolveCreation hi name p σ).trans
    (.keepType hi (resolveCreation i name p σ).1 (resolveCreation i name p σ).2)
  have hkn := hk.known name
  have hr : (resolveCreation i name p σ).1 = typeOf? Γ (.newObject i name p) ∧
      (resolveCreation i name p σ).2.missing =
        σ.missing ++ Binding.missing [.ofType Γ.program name p] ∧
      (resolveCreation i name p σ).2.table.types = σ.table.types := by
    unfold resolveCreation
    rw [run_bind, run_get, typeOf?]
    dsimp only
    cases hs : σ.table.resolveType? name with
    | none   =>
      have hn : ¬Known Γ.program name := mt hkn.mpr (by simp [hs])
      refine ⟨by rw [if_neg hn]; rfl, ?_, rfl⟩
      refine (State.missing_report _ _ _).trans ?_
      simp [Binding.missing, Site.ofType, hn, Site.report, Diagnostic.isUnresolved,
        Diagnostic.semantic]
    | some s =>
      have hn : Known Γ.program name := hkn.mp (by simp [hs])
      refine ⟨by rw [if_pos hn]; rfl, ?_, rfl⟩
      simp [Binding.missing, Site.ofType, hn]
      rfl
  obtain ⟨hτ, hm, ht⟩ := hr
  refine ⟨hτ, .node rfl ha (by rw [missing_keepType, hm]; rfl) fun hb => ⟨fun j hj => ?_, nofun⟩⟩
  obtain rfl := Option.some.inj hj
  have hb : (resolveCreation i name p σ).2.table.typeOf? i = none := by
    rw [SymbolTable.typeOf?, ht]
    exact hb.type
  rw [typeOf?_keepType hb, hτ]

theorem binds_creation_array (hk : Knows σ.table Γ.program) (name : String) (size : Expression)
    (p : Position) :
    Binds [i] [.expression Γ (.newArray i name size p)] σ
      (Resolve.keepType i (some (.ofDeclared name true)) (checkTypeName name p σ).2).2 := by
  have hc : Annotates [i] σ (checkTypeName name p σ).2 := .checkTypeName name p σ
  have ha := hc.trans (.keepType (List.mem_singleton_self i) (some (.ofDeclared name true)) _)
  have hn : ∀ j ∉ [], (checkTypeName name p σ).2.table.typeOf? j = σ.table.typeOf? j :=
    (Annotates.checkTypeName name p σ).types
  refine .node rfl ha ?missing fun hb => ⟨fun j hj => ?typed, nofun⟩
  case missing => rw [missing_keepType, missing_checkTypeName hk.known]; rfl
  case typed =>
    obtain rfl := Option.some.inj hj
    exact typeOf?_keepType ((hn i List.not_mem_nil).trans hb.type) _

theorem binds_untyped_call (h : typeOf? Γ receiver = none) (name : String)
    (arguments : List Expression) (p : Position) :
    Binds [i] [.expression Γ (.call i receiver name arguments p)] σ σ :=
  have hu : use? Γ (.call i receiver name arguments p) = none := by rw [use?, h]; rfl
  .keepType (τ := none) rfl (by rw [typeOf?, h]; rfl) hu
    (congrArg (fun u : Option Use => u.toList.map Use.site) hu)

theorem binds_call (hk : Knows σ.table Γ.program) (h : typeOf? Γ receiver = some τ) (name : String)
    (arguments : List Expression) (p : Position) :
    (resolveCall τ i name arguments.length p σ).1 = typeOf? Γ (.call i receiver name arguments p) ∧
      Binds [i] [.expression Γ (.call i receiver name arguments p)] σ
        (Resolve.keepType i (resolveCall τ i name arguments.length p σ).1
          (resolveCall τ i name arguments.length p σ).2).2 := by
  have hi : i ∈ [i] := List.mem_singleton_self i
  have hr : Resolves i (typeOf? Γ (.call i receiver name arguments p))
      (use? Γ (.call i receiver name arguments p)) σ (resolveCall τ i name arguments.length p σ) := by
    rw [typeOf?, use?, h]
    exact resolves_call hk τ name arguments.length p
  have ha := (Annotates.resolveCall hi τ name arguments.length p σ).trans
    (.keepType hi (resolveCall τ i name arguments.length p σ).1 _)
  exact ⟨hr.type, hr.node rfl ha rfl rfl rfl⟩

theorem binds_report (hi : e.id? = some i) (error : SemanticError) (p : Position)
    (hτ : typeOf? Γ e = τ) (hu : use? Γ e = none := by rfl)
    (hs : (Visit.expression Γ e).sites = [] := by rfl)
    (he : [Diagnostic.semantic error p].filter (·.isUnresolved) = [] := by rfl) :
    Binds [i] [.expression Γ e] σ (Resolve.keepType i τ (report error p σ).2).2 := by
  refine .unnamed hi (.report error p σ) rfl ?_ hτ hu hs
  rw [State.missing_report, he, List.append_nil]

-- An expression after its parts.
theorem Binds.whole {σ₁ σ' : State} (h : Binds ids vs σ σ₁) (h' : Binds [i] [.expression Γ e] σ₁ σ')
    (hd : ids.Disjoint [i]) (hv : visits Γ e = vs ++ [.expression Γ e]) :
    Binds (ids ++ [i]) (visits Γ e) σ σ' :=
  hv ▸ h.append h' hd

mutual

theorem binds_expression (place : Place) (e : Expression) (σ : State)
    (hk : Knows σ.table Γ.program) (ha : Around σ.table place.scope Γ) (hn : e.nodeIds.Nodup) :
    (Resolve.expression place e σ).1 = typeOf? Γ e ∧
      Binds e.nodeIds (visits Γ e) σ (Resolve.expression place e σ).2 := by
  match e with
  | .call i receiver name arguments p =>
    rw [Expression.nodeIds] at hn ⊢
    obtain ⟨hn, -, hd⟩ := List.nodup_append'.mp hn
    obtain ⟨hnr, hna, hdr⟩ := List.nodup_append'.mp hn
    let σ₁ : State := (modifyTable (·.bindScope i place.scope) σ).2
    have h₁ : Annotates [i] σ σ₁ := .bindScope (List.mem_singleton_self i) place.scope σ
    have hb₁ : Binds [] [] σ σ₁ := .bindScope i place.scope σ
    obtain ⟨hτ, hr⟩ := binds_expression place receiver σ₁ (hk.annotate h₁) (ha.annotate h₁) hnr
    have h₂ := Annotates.expression place receiver σ₁
    have hk₂ := (hk.annotate h₁).annotate h₂
    have has := binds_expressions place arguments _ hk₂ ((ha.annotate h₁).annotate h₂) hna
    have h₃ := Annotates.expressions place arguments (Resolve.expression place receiver σ₁).2
    have hk₃ := hk₂.annotate h₃
    have hparts := hb₁.after (hr.append has hdr)
    have hv : visits Γ (.call i receiver name arguments p) =
        visits Γ receiver ++ (Expression.partsOf arguments).map (.expression Γ) ++
          [.expression Γ (.call i receiver name arguments p)] := by
      simp [visits, Expression.parts]
    rw [Resolve.expression]
    simp only [run_bind]
    rw [hτ]
    cases hc : typeOf? Γ receiver with
    | none   =>
      refine ⟨?_, hparts.whole (binds_untyped_call hc name arguments p) hd hv⟩
      rw [typeOf?, hc]
      rfl
    | some τ =>
      obtain ⟨hτ, hb⟩ := binds_call hk₃ hc name arguments p
      exact ⟨(keepType_fst _ _ _).trans hτ, hparts.whole hb hd hv⟩
  | .newObject i name p =>
    let σ₁ : State := (modifyTable (·.bindScope i place.scope) σ).2
    have h₁ : Annotates [i] σ σ₁ := .bindScope (List.mem_singleton_self i) place.scope σ
    have hb₁ : Binds [] [] σ σ₁ := .bindScope i place.scope σ
    obtain ⟨hτ, hb⟩ := binds_creation (i := i) (hk.annotate h₁) name p
    rw [Resolve.expression]
    exact ⟨(keepType_fst _ _ _).trans hτ, hb₁.after hb⟩
  | .newArray i name size p =>
    rw [Expression.nodeIds] at hn ⊢
    obtain ⟨hn, -, hd⟩ := List.nodup_append'.mp hn
    let σ₁ : State := (modifyTable (·.bindScope i place.scope) σ).2
    have h₁ : Annotates [i] σ σ₁ := .bindScope (List.mem_singleton_self i) place.scope σ
    have hb₁ : Binds [] [] σ σ₁ := .bindScope i place.scope σ
    obtain ⟨-, hs⟩ := binds_expression place size σ₁ (hk.annotate h₁) (ha.annotate h₁) hn
    have h₂ := Annotates.expression place size σ₁
    have hc := binds_creation_array (i := i) ((hk.annotate h₁).annotate h₂) name size p
    rw [Resolve.expression]
    exact ⟨rfl, (hb₁.after hs).whole hc hd (by simp [visits, Expression.parts])⟩
  | .not i operand p =>
    rw [Expression.nodeIds] at hn ⊢
    obtain ⟨hn, -, hd⟩ := List.nodup_append'.mp hn
    obtain ⟨-, ho⟩ := binds_expression place operand σ hk ha hn
    rw [Resolve.expression]
    exact ⟨rfl, ho.whole (.keepType rfl rfl) hd (by simp [visits, Expression.parts])⟩
  | .binary i op left right p =>
    rw [Expression.nodeIds] at hn ⊢
    obtain ⟨hn, -, hd⟩ := List.nodup_append'.mp hn
    obtain ⟨hnl, hnr, hdr⟩ := List.nodup_append'.mp hn
    have h := Annotates.expression place left σ
    obtain ⟨-, hl⟩ := binds_expression place left σ hk ha hnl
    obtain ⟨-, hr⟩ := binds_expression place right _ (hk.annotate h) (ha.annotate h) hnr
    rw [Resolve.expression]
    exact ⟨rfl, (hl.append hr hdr).whole (.keepType rfl rfl) hd (by simp [visits, Expression.parts])⟩
  | .boolean i value p | .integer i value p =>
    rw [Resolve.expression]
    exact ⟨rfl, .keepType rfl rfl⟩
  | .self i p =>
    let σ₁ : State := (modifyTable (·.bindScope i place.scope) σ).2
    have h₁ : Annotates [i] σ σ₁ := .bindScope (List.mem_singleton_self i) place.scope σ
    have hb₁ : Binds [] [] σ σ₁ := .bindScope i place.scope σ
    have hs : selfType σ₁.table place.scope = some (.object Γ.className) := (ha.annotate h₁).self
    rw [Resolve.expression]
    simp only [run_bind]
    split
    case isTrue  =>
      refine ⟨(keepType_fst _ _ _).trans hs, hb₁.after ?_⟩
      exact binds_report rfl .thisInMain p hs.symm
    case isFalse =>
      exact ⟨(keepType_fst _ _ _).trans hs, hb₁.after (.keepType rfl hs.symm)⟩
  | .index i array subscript p =>
    rw [Expression.nodeIds] at hn ⊢
    obtain ⟨hn, -, hd⟩ := List.nodup_append'.mp hn
    obtain ⟨hna, hns, hds⟩ := List.nodup_append'.mp hn
    have h := Annotates.expression place array σ
    obtain ⟨hτ, hl⟩ := binds_expression place array σ hk ha hna
    obtain ⟨-, hr⟩ := binds_expression place subscript _ (hk.annotate h) (ha.annotate h) hns
    have hparts := hl.append hr hds
    have hv : visits Γ (.index i array subscript p) =
        visits Γ array ++ visits Γ subscript ++ [.expression Γ (.index i array subscript p)] := by
      simp [visits, Expression.parts]
    have hi : typeOf? Γ (.index i array subscript p) =
        (typeOf? Γ array).bind StaticType.element? := rfl
    rw [Resolve.expression]
    simp only [run_bind]
    rw [hτ, hi]
    cases hc : typeOf? Γ array with
    | none   => exact ⟨rfl, hparts.whole (.keepType (τ := none) rfl (by rw [hi, hc]; rfl)) hd hv⟩
    | some τ =>
      cases τ with
      | array τ => exact ⟨rfl, hparts.whole (.keepType rfl (by rw [hi, hc]; rfl)) hd hv⟩
      | int | boolean | void | object _ =>
        refine ⟨rfl, hparts.whole ?_ hd hv⟩
        exact binds_report (τ := none) rfl (.notIndexable _) p (by rw [hi, hc]; rfl)
  | .reference i name p =>
    let σ₁ : State := (modifyTable (·.bindScope i place.scope) σ).2
    have h₁ : Annotates [i] σ σ₁ := .bindScope (List.mem_singleton_self i) place.scope σ
    have hr := resolves_reference (i := i) (ha.annotate h₁) name p
    have hb := hr.node rfl (Annotates.expression place (.reference i name p) σ) rfl rfl rfl
    rw [Resolve.expression]
    exact ⟨(keepType_fst _ _ _).trans hr.type, hb⟩
  | .malformed p =>
    refine ⟨rfl, { Touches.refl [] σ with
      missing := (List.append_nil _).symm
      within  := fun Γ' e' he => ?within
      noted   := fun _ Γ' e' he => ?noted }⟩
    case within =>
      obtain ⟨rfl, rfl⟩ := Visit.expression.inj (List.mem_singleton.mp he)
      nofun
    case noted =>
      obtain ⟨rfl, rfl⟩ := Visit.expression.inj (List.mem_singleton.mp he)
      exact ⟨nofun, nofun⟩

theorem binds_expressions (place : Place) (es : List Expression) (σ : State)
    (hk : Knows σ.table Γ.program) (ha : Around σ.table place.scope Γ)
    (hn : (Expression.nodeIdsOf es).Nodup) :
    Binds (Expression.nodeIdsOf es) ((Expression.partsOf es).map (.expression Γ)) σ
      (Resolve.expressions place es σ).2 := by
  match es with
  | []      => exact .nil (.refl [] σ) rfl
  | e :: es =>
    rw [Expression.nodeIdsOf] at hn ⊢
    obtain ⟨he, hes, hd⟩ := List.nodup_append'.mp hn
    have h := Annotates.expression place e σ
    rw [Expression.partsOf, List.map_append]
    exact (binds_expression place e σ hk ha he).2.append
      (binds_expressions place es _ (hk.annotate h) (ha.annotate h) hes) hd

end

end

end Binding

end MiniJava
