import MiniJava.Proofs.Emit.Counterparts
import MiniJava.Proofs.Resolve.Order

namespace MiniJava

open Resolve Typing

section

variable [BEq α] [LawfulBEq α] {l l' : List α}

-- The place in the second list of what has the place `k` in the first one.
def transfer (l l' : List α) (k : Nat) : Nat :=
  (l[k]?.map fun a => l'.idxOf a).getD k

theorem getElem?_transfer (h : l'.Perm l) (hk : l[k]? = some a) : l'[transfer l l' k]? = some a := by
  have ha : a ∈ l' := h.mem_iff.mpr (List.mem_of_getElem? hk)
  simp [transfer, hk, List.getElem?_idxOf ha]

end

namespace HandleMap

-- What has a name in one program has its name in the other.
def between (p p' : Program) : HandleMap where
  types t        := ⟨transfer p.typeNames p'.typeNames t.number⟩
  constructors c := ⟨transfer p.typeNames p'.typeNames c.number⟩
  methods m      := ⟨transfer p.methodKeys p'.methodKeys m.number⟩
  fields f       := ⟨transfer p.fieldKeys p'.fieldKeys f.number⟩

end HandleMap

section

variable {P : Position → Position → Prop} {e : String → String → Prop} {p p' : Program}

theorem flatMap_perm_of_forall₂ {R : α → β → Prop} {f : α → List γ} {g : β → List γ}
    (hR : ∀ a b, R a b → (g b).Perm (f a)) (h : List.Forall₂ R l l') :
    (l'.flatMap g).Perm (l.flatMap f) := by
  induction h with
  | nil         => exact .refl _
  | cons h _ hi =>
    rw [List.flatMap_cons, List.flatMap_cons]
    exact (hR _ _ h).append hi

theorem keys_perm {f : AnyClass → List β} {name : β → String}
    (hR : ∀ c c', NamesPermuted c c' → ((f c').map name).Perm ((f c).map name))
    (hcs : cs.Perm (allClasses p)) (h : List.Forall₂ NamesPermuted cs (allClasses p')) :
    ((allClasses p').flatMap fun c => (f c).map fun b => (c.name, name b)).Perm
      ((allClasses p).flatMap fun c => (f c).map fun b => (c.name, name b)) := by
  refine (flatMap_perm_of_forall₂ (fun c c' h => ?_) h).trans (hcs.flatMap_right _)
  have hp := (hR c c' h).map (Prod.mk c.name)
  rw [List.map_map, List.map_map] at hp
  rw [h.name]
  exact hp

theorem Program.Permuted.links (h : p.Permuted P e p') : (HandleMap.between p p').Links p p' := by
  obtain ⟨cs, hcs, hl⟩ := h.exists_allClasses
  have htypes : p'.typeNames.Perm p.typeNames := h.classNames_perm.append_left builtinTypes
  have hfields : p'.fieldKeys.Perm p.fieldKeys := keys_perm (fun _ _ h => h.fields) hcs hl
  have hmethods : p'.methodKeys.Perm p.methodKeys := keys_perm (fun _ _ h => h.signatures) hcs hl
  exact ⟨fun hk => ⟨_, getElem?_transfer htypes hk, rfl, rfl⟩,
    fun hk => ⟨_, getElem?_transfer hfields hk, rfl⟩,
    fun hk => ⟨_, getElem?_transfer hmethods hk, rfl⟩⟩

end

-- The handles of what the first program declares are sent to the handles that the same has in the
-- second one, and every method of the first has its code there, up to these handles.
structure Rehandled (P : Position → Position → Prop) (ρ : HandleMap) (p p' : Program)
    (t t' : SymbolTable) (code code' : ProgramCode) : Prop where
  types        : Known p name → ∃ τ, (Environment.sequential t).typeHandle name = .ok τ ∧
    (Environment.sequential t').typeHandle name = .ok (ρ.types τ)
  constructors : name ∈ classNames p → ∃ τ k, (Environment.sequential t).typeHandle name = .ok τ ∧
    (Environment.sequential t).constructor τ = .ok k ∧
    (Environment.sequential t').constructor (ρ.types τ) = .ok (ρ.constructors k)
  fields       : SameField p p' d d' → ∃ s s' f, t.HasVariable s d ∧ t'.HasVariable s' d' ∧
    (Environment.sequential t).fieldHandle s = .ok f ∧
    (Environment.sequential t').fieldHandle s' = .ok (ρ.fields f)
  methods      : SameMethod p p' m m' → ∃ s s' h, t.HasMethod s m ∧ t'.HasMethod s' m' ∧
    (Environment.sequential t).methodHandle s = .ok h ∧
    (Environment.sequential t').methodHandle s' = .ok (ρ.methods h)
  entries      : code[k]? = some m → ∃ m', code'[(ρ.methods ⟨k⟩).number]? = some m' ∧
    m'.name = m.name ∧ m.chunk.Like P ρ m'.chunk

namespace Pair

variable {p p' : Program} {t t' : SymbolTable} {ρ : HandleMap} {P : Position → Position → Prop}

theorem exists_types (h : Pair p p' t t' ρ) (hk : Known p name) :
    ∃ τ, (Environment.sequential t).typeHandle name = .ok τ ∧
      (Environment.sequential t').typeHandle name = .ok (ρ.types τ) := by
  obtain ⟨τ, hτ⟩ := h.accepted.exists_typeHandle hk
  exact ⟨τ, hτ, h.typeHandle hτ⟩

theorem exists_constructors (h : Pair p p' t t' ρ) (hn : name ∈ classNames p) :
    ∃ τ k, (Environment.sequential t).typeHandle name = .ok τ ∧
      (Environment.sequential t).constructor τ = .ok k ∧
      (Environment.sequential t').constructor (ρ.types τ) = .ok (ρ.constructors k) := by
  obtain ⟨c, hc, rfl⟩ := List.mem_map.mp hn
  obtain ⟨τ, hτ⟩ := h.accepted.exists_typeHandle (.inr hn)
  obtain ⟨k, hk⟩ :=
    Environment.exists_constructor h.accepted.tree hτ (name_of_proper h.accepted.proper hc)
  exact ⟨τ, k, hτ, hk, h.constructor hτ hk⟩

theorem exists_fields (h : Pair p p' t t' ρ) (hd : SameField p p' d d') :
    ∃ s s' f, t.HasVariable s d ∧ t'.HasVariable s' d' ∧
      (Environment.sequential t).fieldHandle s = .ok f ∧
      (Environment.sequential t').fieldHandle s' = .ok (ρ.fields f) := by
  cases hd with | intro hc hc' hname hd hd' hn =>
  obtain ⟨s, slot, hs⟩ := h.accepted.exists_fieldSymbol hc hd
  obtain ⟨s', slot', hs'⟩ := h.accepted'.exists_fieldSymbol hc' hd'
  have hdecl := declarationOf?_of_symbol? hs
  obtain ⟨k, _, hk⟩ := h.accepted.exists_fieldHandle h.outlines hc hd hdecl
  exact ⟨s, s', _, ⟨slot, hs⟩, ⟨slot', hs'⟩, hk,
    h.fieldHandle (.intro hc hc' hname hd hd' hn) hdecl (declarationOf?_of_symbol? hs') hk⟩

theorem exists_methods (h : Pair p p' t t' ρ) (hm : SameMethod p p' m m') :
    ∃ s s' k, t.HasMethod s m ∧ t'.HasMethod s' m' ∧
      (Environment.sequential t).methodHandle s = .ok k ∧
      (Environment.sequential t').methodHandle s' = .ok (ρ.methods k) := by
  cases hm with | intro hc hc' hname hm hm' hn =>
  obtain ⟨_, s, _, _, hs⟩ := h.accepted.exists_symbol hc hm
  obtain ⟨_, s', _, _, hs'⟩ := h.accepted'.exists_symbol hc' hm'
  obtain ⟨k, _, hk⟩ := h.accepted.exists_methodHandle_of_mem h.outlines hc hm hs
  exact ⟨s, s', _, hs, hs', hk, h.methodHandle (.intro hc hc' hname hm hm' hn) hs hs' hk⟩

theorem exists_code_like (h : Pair p p' t t' ρ) (hl : p.Reordered P p')
    (hcode : ProgramCode.generate t (.sequential t) p = .ok code)
    (hcode' : ProgramCode.generate t' (.sequential t') p' = .ok code') (hk : code[k]? = some m) :
    ∃ m', code'[(ρ.methods ⟨k⟩).number]? = some m' ∧ m'.name = m.name ∧
      m.chunk.Like P ρ m'.chunk := by
  obtain ⟨task, hof⟩ := Emit.Sourced.program (ProgramCode.generate_eq_ok.mp hcode) k m hk
  obtain ⟨_, _, _, hmethod⟩ := h.accepted.exists_methodOf hof.task
  obtain ⟨_, _, hx⟩ := hmethod.symbol
  obtain ⟨_, _, _, _, _, _, he⟩ := h.exists_entries hl hcode hcode' hof.task hx not_false
  cases he with | intro hh _ he he' hn hlike =>
  obtain rfl := Except.ok.inj (hof.handle.symm.trans hh)
  obtain rfl := Option.some.inj (hk.symm.trans he)
  exact ⟨_, he', hn, hlike⟩

theorem rehandled (h : Pair p p' t t' ρ) (hl : p.Reordered P p')
    (hcode : ProgramCode.generate t (.sequential t) p = .ok code)
    (hcode' : ProgramCode.generate t' (.sequential t') p' = .ok code') :
    Rehandled P ρ p p' t t' code code' where
  types        := h.exists_types
  constructors := h.exists_constructors
  fields       := h.exists_fields
  methods      := h.exists_methods
  entries      := h.exists_code_like hl hcode hcode'

end Pair

-- A rearrangement of the very nodes.
structure Program.Rearranged (p p' : Program) : Prop where
  mainClass : p'.mainClass = p.mainClass
  classes   : ∃ cs, cs.Perm p.classes ∧ List.Forall₂ (fun c c' => c'.name = c.name ∧
    c'.superclass = c.superclass ∧ c'.members.Perm c.members) cs p'.classes

theorem Program.Rearranged.reordered {p p' : Program} (h : p.Rearranged p') : p.Reordered Eq p' where
  mainClass := by
    rw [h.mainClass]
    cases p.mainClass with
    | none   => exact .none
    | some c => exact .some (c.like_refl fun _ => rfl)
  classes   := by
    obtain ⟨cs, hcs, hl⟩ := h.classes
    exact ⟨cs, hcs, hl.imp fun c c' ⟨hn, hs, hm⟩ => ⟨hn, hs, _, hm,
      List.forall₂_same.mpr fun m _ => m.like_refl fun _ => rfl⟩⟩

namespace ProgramCode

-- Neither what is accepted nor the code depends on the order of classes and members, but for the
-- handles.
theorem generate_reordered {P : Position → Position → Prop}
    (hp : Program.ofStream (.ofText text) = .ok p) (h : p.Reordered P p') (hn : p'.nodeIds.Nodup) :
    ((∃ t, SymbolTable.ofProgram p = .ok t) ↔ ∃ t, SymbolTable.ofProgram p' = .ok t) ∧
    ∀ t t', SymbolTable.ofProgram p = .ok t → SymbolTable.ofProgram p' = .ok t' →
      ∃ code code', generate t (.sequential t) p = .ok code ∧
        generate t' (.sequential t') p' = .ok code' ∧
        ∃ ρ ρ', Rehandled P ρ p p' t t' code code' ∧ Rehandled (flip P) ρ' p' p t' t code' code := by
  have hproper := Program.proper_of_ofText hp
  have hnodup := Program.nodup_of_ofText hp
  refine ⟨h.accepts_iff hproper hnodup hn, fun t t' ht ht' => ?_⟩
  have ha := accepted_of_ofText hp ht
  have ha' := accepted_of_proper (h.proper hproper) hn ht'
  obtain ⟨code, hcode⟩ := ha.exists_code
  obtain ⟨code', hcode'⟩ := ha'.exists_code
  have hpair : Pair p p' t t' (.between p p') := .of_accepted ha ht ha' ht' h.links
  have hpair' : Pair p' p t' t (.between p' p) := .of_accepted ha' ht' ha ht h.symm.links
  exact ⟨code, code', hcode, hcode', _, _, hpair.rehandled h hcode hcode',
    hpair'.rehandled h.symm hcode' hcode⟩

def forward : String :=
  "class M { public static void main() { } } class A extends B { int x; public int f() { } } class B { }"

def reversed (p : Program) : Program :=
  { p with classes := p.classes.reverse.map fun c => { c with members := c.members.reverse } }

theorem rearranged_reversed (p : Program) : p.Rearranged (reversed p) where
  mainClass := rfl
  classes   := ⟨p.classes.reverse, List.reverse_perm _, List.forall₂_map_right_iff.mpr
    (List.forall₂_same.mpr fun _ _ => ⟨rfl, rfl, List.reverse_perm _⟩)⟩

theorem generate_reordered_forward :
    let p := (ParsedProgram.ofStream (.ofText forward)).program
    let t := (ResolvedProgram.ofProgram p).table
    SymbolTable.ofProgram p = .ok t ∧ p.Reordered Eq (reversed p) ∧
      ∃ t' code code', SymbolTable.ofProgram (reversed p) = .ok t' ∧
        generate t (.sequential t) p = .ok code ∧
        generate t' (.sequential t') (reversed p) = .ok code' ∧
        ∃ ρ, Rehandled Eq ρ p (reversed p) t t' code code' := by
  intro p t
  have hp : Program.ofStream (.ofText forward) = .ok p :=
    Program.ofStream_eq_ok.mpr ⟨by decide +kernel, rfl⟩
  have ht : SymbolTable.ofProgram p = .ok t := acceptUnless_eq_ok.mpr ⟨by decide +kernel, rfl⟩
  have h : p.Reordered Eq (reversed p) := (rearranged_reversed p).reordered
  obtain ⟨haccepts, hcode⟩ := generate_reordered hp h (by decide +kernel)
  obtain ⟨t', ht'⟩ := haccepts.mp ⟨t, ht⟩
  obtain ⟨code, code', hcode, hcode', ρ, _, hρ, _⟩ := hcode t t' ht ht'
  exact ⟨ht, h, t', code, code', ht', hcode, hcode', ρ, hρ⟩

end ProgramCode

end MiniJava
