import MiniJava.Proofs.Binding.Classes
import MiniJava.Proofs.Binding.Statement
import MiniJava.Proofs.Resolve.Declarations

namespace MiniJava

namespace Binding

open Resolve (AnyClass DefinedClass MethodBody State Members Types Fills Opens OpensBodies
  ClassOpened AllOpened Progress HoldsMethods Grows Adds defineMember fieldsOf methodsOf afterMethod run_mapM_cons)
open Typing

-- Where a member names a type: a field its own, a method that of its result.
def memberSites (p : Program) : Member → List Site
  | .field d     => [.ofType p d.type.name d.position]
  | .method m    => [.ofType p m.returns.name m.position]
  | .malformed _ => []

def classSites (p : Program) : AnyClass → List Site
  | .main _    => []
  | .regular c => c.members.flatMap (memberSites p)

namespace LooksUp

theorem checkTypeName {σ : State} (ht : Types σ.table (classNames p)) (name : String)
    (position : Position) :
    LooksUp [.ofType p name position] σ (Resolve.checkTypeName name position σ).2 := by
  have h := Resolve.table_checkTypeName name position σ
  exact ⟨congrArg _ h, congrArg _ h, missing_checkTypeName ht.known name position⟩

theorem defineVariable {σ : State} (ht : Types σ.table (classNames p)) (d : VariableDeclaration)
    (s : ScopeId) (slot : Option Nat) :
    LooksUp [.ofType p d.type.name d.position] σ (Resolve.defineVariable d s slot σ).2 := by
  have hd (symbol : Symbol) (σ : State) :
      (Resolve.define s symbol σ).2.table.types = σ.table.types ∧
        (Resolve.define s symbol σ).2.table.references = σ.table.references := by
    by_cases ha : σ.table.accepts s symbol = true
    case pos => rw [Resolve.define_of_accepts ha]; exact ⟨rfl, rfl⟩
    case neg => rw [Resolve.define_of_not_accepts ha]; exact ⟨rfl, rfl⟩
  obtain ⟨hτ, hr, _⟩ := LooksUp.checkTypeName ht d.type.name d.position
  refine ⟨?accepted, ?table, missing_defineVariable ht.known d s slot⟩
  case accepted =>
    rw [Resolve.defineVariable_eq]
    split
    case isTrue  => exact (hd _ _).1.trans hτ
    case isFalse => exact (hd _ _).1.trans hτ
  case table =>
    rw [Resolve.defineVariable_eq]
    split
    case isTrue  => exact (hd _ _).2.trans hr
    case isFalse => exact (hd _ _).2.trans hr

end LooksUp

-- What has come of the members `ms` besides the fields `F` and the methods `S`. Of the fields and
-- of the methods of a name the first is defined, and the bodies of the others are left out.
structure Gathers (p : Program) (D : DefinedClass) (parent : Option DefinedClass) (F : Frame)
    (S : List Signature) (taken : List String) (ms : List Member) (σ σ' : State)
    (bs : List MethodBody) : Prop
    extends OpensBodies D.scope (ms.flatMap Member.ownIds) σ σ' bs where
  members : Members σ'.table D parent (F ++ fieldsOf ms) (S ++ (methodsOf ms).map (·.signature))
  bodies  : bs.map (·.toBody) = (accepted (·.name) taken (methodsOf ms)).map (·.toBody)
  looksUp : LooksUp (ms.flatMap (memberSites p)) σ σ'

namespace Gathers

variable {p : Program} {D : DefinedClass} {parent : Option DefinedClass} {F : Frame}
  {S : List Signature} {taken : List String} {ms : List Member} {bs : List MethodBody}
  {σ σ₁ σ' : State}

theorem field (h : Gathers p D parent (F ++ [d]) S taken ms σ₁ σ' bs)
    (hs : ∃ b, σ₁.table.scope? D.scope = some b) (hf : Fills [d.id] D.scope σ σ₁)
    (hl : LooksUp [.ofType p d.type.name d.position] σ σ₁) :
    Gathers p D parent F S taken (.field d :: ms) σ σ' bs where
  toOpensBodies := h.toOpensBodies.after hf hs
  members       := by
    have hm := h.members
    rwa [List.append_assoc] at hm
  bodies        := h.bodies
  looksUp       := hl.trans h.looksUp

-- A method whose name is taken leaves a scope that nothing is in.
theorem reject {m : MethodDeclaration}
    (h : Gathers p D parent F (S ++ [m.signature]) taken ms σ₁ σ' bs) (hm : m.name ∈ taken)
    (hs : ∃ b, σ₁.table.scope? D.scope = some b) (hf : Fills [m.id] D.scope σ σ₁)
    (hl : LooksUp [.ofType p m.returns.name m.position] σ σ₁) :
    Gathers p D parent F S taken (.method m :: ms) σ σ' bs where
  toOpensBodies := h.toOpensBodies.after hf hs
  members       := by
    have hm := h.members
    rwa [List.append_assoc] at hm
  bodies        := by
    show _ = (accepted (·.name) taken (m :: methodsOf ms)).map _
    rw [accepted, if_pos hm, h.bodies]
  looksUp       := hl.trans h.looksUp

theorem accept {m : MethodDeclaration}
    (h : Gathers p D parent F (S ++ [m.signature]) (m.name :: taken) ms (afterMethod D m σ₁) σ' bs)
    (hm : m.name ∉ taken) (hb : σ₁.table.scope? D.scope = some b) (ha : Adds σ σ₁)
    (ht : σ₁.table = σ.table) (hl : LooksUp [.ofType p m.returns.name m.position] σ σ₁) :
    Gathers p D parent F S taken (.method m :: ms) σ σ'
      (⟨σ.table.scopes.size, m.parameters, m.body, false⟩ :: bs) where
  toOpensBodies := by
    have hf : Fills [] D.scope σ σ₁ := (Grows.of_table ha ht).fills
    have ho := (h.toOpensBodies.method hb).after hf ⟨b, hb⟩
    rwa [ht] at ho
  members       := by
    have hm := h.members
    rwa [List.append_assoc] at hm
  bodies        := by
    show _ = (accepted (·.name) taken (m :: methodsOf ms)).map _
    rw [accepted, if_neg hm, List.map_cons, List.map_cons, h.bodies]
    rfl
  looksUp       := by
    have hn : LooksUp [] σ₁ (afterMethod D m σ₁) := ⟨rfl, rfl, (List.append_nil _).symm⟩
    exact hl.trans (hn.trans h.looksUp)

end Gathers

theorem gathers_defineMember {σ : State} (ms : List Member) (h : Members σ.table D parent F S)
    (hD : D.scope ≠ SymbolTable.globalScope) (ht : Types σ.table (classNames p))
    (hi : D.declaration.id ∉ ms.flatMap Member.ownIds)
    (hT : ∀ name, name ∈ taken ↔ name ∈ S.map (·.name)) :
    Gathers p D parent F S taken ms σ (ms.mapM (defineMember D) σ).2
      ((ms.mapM (defineMember D) σ).1.filterMap id) := by
  induction ms generalizing F S taken σ with
  | nil         =>
    have hm : Members σ.table D parent (F ++ []) (S ++ []) := by
      rwa [List.append_nil, List.append_nil]
    exact ⟨.nil D.scope σ, hm, rfl, .refl σ⟩
  | cons m ms hms =>
    rw [List.flatMap_cons, List.mem_append, not_or] at hi
    obtain ⟨him, hims⟩ := hi
    obtain ⟨b, hb, _⟩ := h.scope
    rw [run_mapM_cons]
    cases m with
    | malformed _ =>
      have hg := hms h ht hims hT
      exact ⟨hg.toOpensBodies, hg.members, hg.bodies, hg.looksUp⟩
    | field d     =>
      have hg := Grows.defineVariable (s := D.scope) (List.mem_singleton_self d.id) none σ
      have hl := LooksUp.defineVariable ht d D.scope none
      obtain ⟨b, hb, _, _, _, hh, _⟩ := h.scope
      have hm := h.defineVariable ht hg him fun b' hb' => holds_defineVariable hb hh d none hb'
      obtain ⟨b', hb', _⟩ := hm.scope
      exact (hms hm (ht.keep hg.fills hD) hims hT).field ⟨b', hb'⟩ hg.fills hl
    | method m    =>
      let σ₁ := (Resolve.checkTypeName m.returns.name m.position σ).2
      have ha : Adds σ σ₁ := .checkTypeName m.returns.name m.position σ
      have hσ : σ₁.table = σ.table := Resolve.table_checkTypeName m.returns.name m.position σ
      have hl : LooksUp _ σ σ₁ := .checkTypeName ht m.returns.name m.position
      have hc : m.name ∈ taken ↔ ¬∀ m' ∈ S, m'.name ≠ m.name := by
        rw [hT, Resolve.forall_name_ne, not_not]
      by_cases hm : m.name ∈ taken
      case pos =>
        let inner := (Resolve.addScope .ofMethod D.scope none σ₁).2
        let σ₂ := (Resolve.report (.duplicate .method m.name) m.position inner).2
        have he : defineMember D (.method m) σ = (none, σ₂) :=
          Resolve.defineMethod_of_taken h m (hc.mp hm)
        have hf (s) : Fills [m.id] s σ σ₂ :=
          ((Grows.of_table ha hσ).trans ((Grows.of_addScope (.refl _ _ _)).trans
            (.of_table (.report _ _ _) rfl))).fills
        -- Nothing but a new scope is there afterwards.
        obtain ⟨g, hg, _⟩ := ht.global
        have hs : σ.table.scopes.size ≠ SymbolTable.globalScope :=
          Nat.ne_of_gt (SymbolTable.lt_of_scope? hg)
        have hsD := Nat.ne_of_lt (SymbolTable.lt_of_scope? hb)
        have hm' : Members σ₂.table D parent F (S ++ [m.signature]) :=
          (h.keep (hf _) hs hsD him ht).congr (fun _ => rfl)
            (find?_concat_of_taken (f := Signature.name) (a := m.signature) (hc.mp hm))
        have hT' (name) : name ∈ taken ↔ name ∈ (S ++ [m.signature]).map (·.name) := by
          rw [hT, List.map_append, List.mem_append, List.map_singleton, List.mem_singleton]
          exact ⟨.inl, fun hn => hn.elim id fun he => he ▸ (hT _).mp hm⟩
        have hr : LooksUp [] inner σ₂ := .report (.duplicate .method m.name) m.position inner
        have hl₂ : LooksUp _ σ σ₂ := hl.trans ⟨hr.types, hr.references, hr.missing⟩
        rw [he]
        exact (hms hm' (ht.keep (hf _) hs) hims hT').reject hm
          ⟨b, (hf σ.table.scopes.size).scopes _ _ hsD hb⟩ (hf D.scope) hl₂
      case neg =>
        have he : defineMember D (.method m) σ =
            (some ⟨σ.table.scopes.size, m.parameters, m.body, false⟩, afterMethod D m σ₁) := by
          rw [afterMethod, hσ]
          exact Resolve.defineMethod_of_free h m (not_not.mp (mt hc.mpr hm))
        rw [← hσ] at h ht hb
        have hm' : Members (afterMethod D m σ₁).table D parent F (S ++ [m.signature]) :=
          (h.afterMethod hD ht him).congr (fun _ => rfl) <|
            find?_concat_of_new (f := Signature.name) (a := m.signature)
              (not_not.mp (mt hc.mpr hm))
        have hT' (name) : name ∈ m.name :: taken ↔ name ∈ (S ++ [m.signature]).map (·.name) := by
          rw [List.mem_cons, hT, List.map_append, List.mem_append, List.map_singleton,
            List.mem_singleton, or_comm]
          rfl
        have hf := Resolve.fills_afterMethod hb m
        rw [he]
        exact (hms hm' (ht.keep hf hD) hims hT').accept hm hb ha hσ hl

theorem opened_defineMembers {σ : State} (D : DefinedClass) (h : Members σ.table D parent [] [])
    (hD : D.scope ≠ SymbolTable.globalScope) (ht : Types σ.table (classNames p))
    (hi : D.declaration.id ∉ D.declaration.memberIds) :
    ClassOpened bodies D parent σ (Resolve.defineMembers D σ).2 (Resolve.defineMembers D σ).1 ∧
      LooksUp (classSites p D.declaration) σ (Resolve.defineMembers D σ).2 := by
  obtain ⟨c, x, s⟩ := D
  cases c with
  | main c    =>
    refine ⟨.main c x s h hD ht rfl, ?_⟩
    rw [Resolve.defineMembers_main c x s h]
    exact ⟨rfl, rfl, (List.append_nil _).symm⟩
  | regular c =>
    have hg : Gathers p ⟨.regular c, x, s⟩ parent [] [] [] c.members σ _ _ :=
      gathers_defineMember c.members h hD ht hi fun name => by simp
    exact ⟨⟨hg.toOpensBodies, hg.members, hg.bodies⟩, hg.looksUp⟩

theorem opened_defineAllMembers {σ : State} (todo : List DefinedClass)
    (h : Progress p parent σ.table done todo) :
    Progress p parent (todo.mapM Resolve.defineMembers σ).2.table (done ++ todo) [] ∧
      AllOpened bodies todo σ (todo.mapM Resolve.defineMembers σ).2
        (todo.mapM Resolve.defineMembers σ).1 ∧
      LooksUp (todo.flatMap fun D => classSites p D.declaration) σ
        (todo.mapM Resolve.defineMembers σ).2 := by
  induction todo generalizing done σ with
  | nil            =>
    rw [List.append_nil]
    exact ⟨h, ⟨.nil, fun _ _ _ => id, nofun, .nil⟩, .refl σ⟩
  | cons D todo hi =>
    have hD : D ∈ done ++ D :: todo := List.mem_append_right _ List.mem_cons_self
    obtain ⟨hc, hl⟩ := opened_defineMembers D (h.bare D List.mem_cons_self) (h.inner D hD) h.types
      (h.ids D hD D hD)
    obtain ⟨hp, ho, hls⟩ := hi (h.step hc)
    rw [run_mapM_cons]
    exact ⟨List.append_cons .. ▸ hp, .cons h hc ho, hl.trans hls⟩

end Binding

end MiniJava
