import MiniJava.Proofs.Resolve.Members

namespace MiniJava

-- The number of a member without what is in it.
def Member.ownIds : Member → List NodeId
  | field d     => [d.id]
  | method m    => [m.id]
  | malformed _ => []

namespace Resolve

open Typing

def fieldsOf (ms : List Member) : Frame :=
  ms.filterMap Member.field?

def methodsOf (ms : List Member) : List MethodDeclaration :=
  ms.filterMap Member.method?

-- Members that can be declared besides fields `F` and methods `S`.
structure MembersOk (p : Program) (F : Frame) (S : List Signature) (ms : List Member) : Prop where
  fields      : (F.map (·.name) ++ (fieldsOf ms).map (·.name)).Nodup
  methods     : (S.map (·.name) ++ (methodsOf ms).map (·.name)).Nodup
  fieldTypes  : ∀ d ∈ fieldsOf ms, Known p d.type.name
  returnTypes : ∀ m ∈ methodsOf ms, Known p m.returns.name

theorem membersOk_field :
    MembersOk p F S (.field d :: ms) ↔ Known p d.type.name ∧ MembersOk p (d :: F) S ms := by
  constructor
  case mp =>
    intro ⟨hf, hm, ht, hr⟩
    obtain ⟨hd, ht⟩ := List.forall_mem_cons.mp ht
    exact ⟨hd, List.nodup_middle.mp hf, hm, ht, hr⟩
  case mpr =>
    intro ⟨hd, hf, hm, ht, hr⟩
    exact ⟨List.nodup_middle.mpr hf, hm, List.forall_mem_cons.mpr ⟨hd, ht⟩, hr⟩

theorem membersOk_method :
    MembersOk p F S (.method m :: ms) ↔
      Known p m.returns.name ∧ MembersOk p F (m.signature :: S) ms := by
  constructor
  case mp =>
    intro ⟨hf, hm, ht, hr⟩
    obtain ⟨hm', hr⟩ := List.forall_mem_cons.mp hr
    exact ⟨hm', hf, List.nodup_middle.mp hm, ht, hr⟩
  case mpr =>
    intro ⟨hm', hf, hm, ht, hr⟩
    exact ⟨hf, List.nodup_middle.mpr hm, ht, List.forall_mem_cons.mpr ⟨hm', hr⟩⟩

theorem forall_name_ne {α : Type} {f : α → String} {l : List α} :
    (∀ a ∈ l, f a ≠ name) ↔ name ∉ l.map f := by
  simp

theorem Members.defineVariable (h : Members σ.table D parent F S) (ht : Types σ.table names)
    (hg : Grows ids D.scope σ σ') (hi : D.declaration.id ∉ ids)
    (hF : ∀ b, σ'.table.scope? D.scope = some b → Holds σ'.table b F') :
    Members σ'.table D parent F' S := by
  obtain ⟨b, hb, hk, hp, ho, _, hS⟩ := h.scope
  obtain ⟨names, hb', _⟩ := hg.scopes _ b hb
  constructor
  case resolved =>
    obtain ⟨g, hg', _⟩ := ht.global
    exact (hg.resolveType? ⟨g, hg'⟩ D.name).trans h.resolved
  case symbol => exact hg.symbols _ _ h.symbol
  case scope  => exact ⟨_, hb', hk, hp, ho, hF _ hb', hS.keep hg.symbols⟩
  case node   => exact (hg.nodeScopes _ hi).trans h.node

theorem Adds.defineMember (D : DefinedClass) (m : Member) (σ : State) :
    Adds σ (Resolve.defineMember D m σ).2 := by
  cases m with
  | field d     => exact (Grows.defineVariable (List.mem_singleton_self d.id) none σ).adds
  | method m    => exact .defineMethod m D σ
  | malformed _ => exact .refl σ

-- The bodies that are to be resolved, each with a scope of its own in the scope `s`.
structure OpensBodies (s : ScopeId) (ids : List NodeId) (σ σ' : State) (bs : List MethodBody) :
    Prop where
  opens : ∀ b ∈ bs, Opens σ'.table s b
  fresh : ∀ b ∈ bs, σ.table.scope? b.scope = none
  nodup : (bs.map (·.scope)).Nodup
  fills : Fills ids s σ σ'

theorem fresh_of_fills (hf : Fills ids s σ σ') (hs : ∃ b, σ'.table.scope? s = some b)
    (hi : σ'.table.scope? i = none) : σ.table.scope? i = none := by
  by_contra hn
  obtain ⟨b, hb⟩ := Option.ne_none_iff_exists'.mp hn
  by_cases his : i = s
  case pos =>
    obtain ⟨b', hb'⟩ := hs
    cases (his ▸ hi).symm.trans hb'
  case neg => cases hi.symm.trans (hf.scopes i b his hb)

-- The state after a method has been defined.
def afterMethod (D : DefinedClass) (m : MethodDeclaration) (σ : State) : State :=
  { σ with table := (withMethod σ.table D m.signature).bindScope m.id σ.table.scopes.size }

theorem fills_afterMethod {σ : State} (hb : σ.table.scope? D.scope = some b)
    (m : MethodDeclaration) : Fills [m.id] D.scope σ (afterMethod D m σ) := by
  have hf : Fills [m.id] D.scope σ _ := fills_withMethod hb m.signature
  have ha := Annotates.bindScope (List.mem_singleton_self m.id) σ.table.scopes.size
    { σ with table := withMethod σ.table D m.signature }
  exact hf.trans (ha.grows D.scope).fills

theorem Members.afterMethod {σ : State} (h : Members σ.table D parent F S)
    (hD : D.scope ≠ SymbolTable.globalScope) (ht : Types σ.table names) {m : MethodDeclaration}
    (hi : D.declaration.id ∉ [m.id]) :
    Members (Resolve.afterMethod D m σ).table D parent F (m.signature :: S) := by
  obtain ⟨b, hb, _⟩ := h.scope
  have hm := h.withMethod hD ht m.signature
  have hf := fills_afterMethod hb m
  exact ⟨hm.resolved, hm.symbol, hm.scope, (hf.nodeScopes _ hi).trans h.node⟩

namespace OpensBodies

theorem nil (s : ScopeId) (σ : State) : OpensBodies s [] σ σ [] :=
  ⟨nofun, nofun, .nil, .refl _ _ _⟩

theorem after (hf : Fills ids s σ σ₁) (hs : ∃ b, σ₁.table.scope? s = some b)
    (h : OpensBodies s ids' σ₁ σ' bs) : OpensBodies s (ids ++ ids') σ σ' bs where
  opens      := h.opens
  fresh b hb := fresh_of_fills hf hs (h.fresh b hb)
  nodup      := h.nodup
  fills      := (hf.mono (List.subset_append_left _ _)).trans
    (h.fills.mono (List.subset_append_right _ _))

theorem method {m : MethodDeclaration} {σ : State} (hb : σ.table.scope? D.scope = some b)
    (h : OpensBodies D.scope ids (afterMethod D m σ) σ' bs) :
    OpensBodies D.scope ([m.id] ++ ids) σ σ'
      (⟨σ.table.scopes.size, m.parameters, m.body, false⟩ :: bs) := by
  have hn := Nat.ne_of_lt (SymbolTable.lt_of_scope? hb)
  let body : MethodBody := ⟨σ.table.scopes.size, m.parameters, m.body, false⟩
  have ho : Opens (afterMethod D m σ).table D.scope body := opens_withMethod hb m.signature rfl
  have hs : ∃ b, (afterMethod D m σ).table.scope? D.scope = some b := by
    refine ⟨b.insert .methodNames m.name σ.table.symbols.size, ?_⟩
    show (withMethod σ.table D m.signature).scope? D.scope = _
    rw [scope?_withMethod hb, if_neg hn, if_pos rfl]
    rfl
  have ha := h.after (fills_afterMethod hb m) hs
  refine ⟨?opens, ?fresh, List.nodup_cons.mpr ⟨fun hm => ?nodup, h.nodup⟩, ha.fills⟩
  case opens => exact List.forall_mem_cons.mpr ⟨ho.keep h.fills hn.symm, h.opens⟩
  case fresh => exact List.forall_mem_cons.mpr ⟨Array.getElem?_size, ha.fresh⟩
  case nodup =>
    obtain ⟨b, hb, he⟩ := List.mem_map.mp hm
    obtain ⟨owner, ho⟩ := ho
    cases ho.symm.trans (he ▸ h.fresh b hb)

end OpensBodies

-- What has come of the members `ms` with the bodies of the methods among them.
structure Filled (p : Program) (D : DefinedClass) (parent : Option DefinedClass) (F : Frame)
    (S : List Signature) (ms : List Member) (σ σ' : State) (bs : List MethodBody) : Prop
    extends OpensBodies D.scope (ms.flatMap Member.ownIds) σ σ' bs where
  ok      : MembersOk p F S ms
  members : Members σ'.table D parent ((fieldsOf ms).reverse ++ F)
    (((methodsOf ms).map (·.signature)).reverse ++ S)
  bodies  : bs.map (·.toBody) = (methodsOf ms).map (·.toBody)
  size    : σ'.size = σ.size

inductive MembersVerdict (p : Program) (D : DefinedClass) (parent : Option DefinedClass) (F : Frame)
    (S : List Signature) (ms : List Member) (σ : State) : List (Option MethodBody) × State → Prop
  | passed :
    out.filterMap id = bs → Filled p D parent F S ms σ σ' bs →
      MembersVerdict p D parent F S ms σ (out, σ')
  | failed : ¬MembersOk p F S ms → σ.size < out.2.size → MembersVerdict p D parent F S ms σ out

theorem Filled.field {σ : State} (h : Filled p D parent (d :: F) S ms σ₁ σ' bs)
    (hs : ∃ b, σ₁.table.scope? D.scope = some b) (hk : Known p d.type.name)
    (hg : Grows [d.id] D.scope σ σ₁) (hq : σ₁.size = σ.size) :
    Filled p D parent F S (.field d :: ms) σ σ' bs where
  toOpensBodies := h.toOpensBodies.after hg.fills hs
  ok            := membersOk_field.mpr ⟨hk, h.ok⟩
  members       := by
    have hm := h.members
    rwa [List.append_cons, ← List.reverse_cons] at hm
  bodies        := h.bodies
  size          := h.size.trans hq

theorem Filled.method {σ : State}
    (h : Filled p D parent F (m.signature :: S) ms (afterMethod D m σ) σ' bs)
    (hm : Members σ.table D parent F S) (hk : Known p m.returns.name) :
    Filled p D parent F S (.method m :: ms) σ σ'
      (⟨σ.table.scopes.size, m.parameters, m.body, false⟩ :: bs) where
  toOpensBodies := by
    obtain ⟨b, hb, _⟩ := hm.scope
    exact h.toOpensBodies.method hb
  ok            := membersOk_method.mpr ⟨hk, h.ok⟩
  members       := by
    have hm := h.members
    rwa [List.append_cons, ← List.reverse_cons] at hm
  bodies        := congrArg (m.toBody :: ·) h.bodies
  size          := h.size

theorem verdict_defineMembers {σ : State} (ms : List Member) (h : Members σ.table D parent F S)
    (hp : ∀ m ∈ ms, m.Proper) (hD : D.scope ≠ SymbolTable.globalScope)
    (ht : Types σ.table (classNames p)) (hi : D.declaration.id ∉ ms.flatMap Member.ownIds)
    (hF : (F.map (·.name)).Nodup) (hS : (S.map (·.name)).Nodup) :
    MembersVerdict p D parent F S ms σ (ms.mapM (defineMember D) σ) := by
  induction ms generalizing F S σ with
  | nil         =>
    have hok : MembersOk p F S [] := by
      constructor
      case fields      => simpa [fieldsOf] using hF
      case methods     => simpa [methodsOf] using hS
      case fieldTypes  => nofun
      case returnTypes => nofun
    exact .passed rfl ⟨.nil D.scope σ, hok, h, rfl, rfl⟩
  | cons m ms hm =>
    obtain ⟨hpm, hpms⟩ := List.forall_mem_cons.mp hp
    rw [List.flatMap_cons, List.mem_append, not_or] at hi
    obtain ⟨him, hims⟩ := hi
    have ha (σ : State) : Adds σ (ms.mapM (defineMember D) σ).2 := Adds.mapM (Adds.defineMember D) ms σ
    rw [run_mapM_cons]
    cases m with
    | malformed _ => exact hpm.elim
    | field d     =>
      obtain ⟨b, hb, _, _, _, hh, _⟩ := h.scope
      have hg := Grows.defineVariable (s := D.scope) (List.mem_singleton_self d.id) none σ
      have hv := defined_defineVariable hb hh d none
      have he : defineMember D (.field d) σ = (none, (defineVariable d D.scope none σ).2) := rfl
      rw [he]
      generalize defineVariable d D.scope none σ = out at hg hv ⊢
      cases hv with
      | reported hu hlt =>
        refine .failed (fun hok => ?_) (Nat.lt_of_lt_of_le hlt (ha out.2).size_le)
        obtain ⟨hk, hok⟩ := membersOk_field.mp hok
        have hf := hu ((ht.known _).mpr hk)
        rw [forall_name_ne, not_not] at hf
        exact (List.nodup_cons.mp (List.nodup_append'.mp hok.fields).1).1 hf
      | added hk hf hq _ _ hF' _ =>
        have hk := (ht.known _).mp hk
        have hm' := h.defineVariable ht hg him hF'
        have hFn := List.nodup_cons.mpr ⟨forall_name_ne.mp hf, hF⟩
        have hm := hm hm' hpms (ht.keep hg.fills hD) hims hFn hS
        obtain ⟨b', hb', _⟩ := hm'.scope
        dsimp only at hm ⊢
        generalize ms.mapM (defineMember D) _ = rest at hm ⊢
        cases hm with
        | failed hu hlt => exact .failed (fun hok => hu (membersOk_field.mp hok).2) (hq ▸ hlt)
        | passed he hr  => exact .passed he (hr.field ⟨b', hb'⟩ hk hg hq)
    | method m    =>
      obtain ⟨b, hb, _⟩ := h.scope
      by_cases hok : Known p m.returns.name ∧ ∀ m' ∈ S, m'.name ≠ m.name
      case neg =>
        refine .failed (fun hok' => ?unknown) ?reported
        case unknown =>
          obtain ⟨hk, hok'⟩ := membersOk_method.mp hok'
          have hn := (List.nodup_cons.mp (List.nodup_append'.mp hok'.methods).1).1
          exact hok ⟨hk, forall_name_ne.mpr hn⟩
        case reported =>
          have hlt := lt_size_defineMethod h m fun hk hn => hok ⟨(ht.known _).mp hk, hn⟩
          exact Nat.lt_of_lt_of_le hlt (ha _).size_le
      case pos =>
        obtain ⟨hk, hn⟩ := hok
        have he : defineMember D (.method m) σ =
            (some ⟨σ.table.scopes.size, m.parameters, m.body, false⟩, afterMethod D m σ) :=
          defineMethod_of_members h m ((ht.known _).mpr hk) hn
        have hf := fills_afterMethod hb m
        have hm' := h.afterMethod hD ht him
        have hSn := List.nodup_cons.mpr ⟨forall_name_ne.mp hn, hS⟩
        have hm := hm hm' hpms (ht.keep hf hD) hims hF hSn
        rw [he]
        dsimp only
        generalize ms.mapM (defineMember D) (afterMethod D m σ) = rest at hm ⊢
        cases hm with
        | failed hu hlt => exact .failed (fun hok => hu (membersOk_method.mp hok).2) hlt
        | passed he hr  => exact .passed (congrArg (_ :: ·) he) (hr.method h hk)

end Resolve

end MiniJava
