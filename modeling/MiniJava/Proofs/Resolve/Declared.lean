import MiniJava.Proofs.Resolve.Body
import MiniJava.Proofs.Resolve.Declarations

namespace MiniJava.Resolve

open Typing

-- All that is outside of the bodies has been declared, and nothing is wrong with it.
structure Declared (p : Program) (ds : List DefinedClass) (t : SymbolTable) : Prop where
  classes  : ds.map (·.declaration) = allClasses p
  progress : Progress p (parent? ds) t ds []
  ok       : ∀ D ∈ ds, ClassOk p D.declaration
  lineage  : ∀ D ∈ ds, ∃ l, Lineage p D.declaration l

-- The scope of a class.
structure HoldsClass (t : SymbolTable) (b : Scope) (c : AnyClass) : Prop where
  kind    : b.kind = .ofClass
  fields  : Holds t b c.fields
  methods : HoldsMethods t b c.signatures

-- The scopes of a lineage, the global one behind them.
def LineageScopes (t : SymbolTable) (s : ScopeId) (l : List AnyClass) : Prop :=
  ∃ cs g, t.Chain s (cs ++ [(SymbolTable.globalScope, g)]) ∧
    List.Forall₂ (fun e c => HoldsClass t e.2 c) cs l ∧ g.kind = .global ∧
    ∀ name, g.lookup .variableNames name = none ∧ g.lookup .methodNames name = none

namespace LineageScopes

variable {t : SymbolTable} {D P : DefinedClass} {b : MethodBody}

theorem root (hm : Members t D none D.declaration.fields D.declaration.signatures)
    (ht : Types t names) : LineageScopes t D.scope [D.declaration] := by
  obtain ⟨b, hb, hk, hp, _, hF, hS⟩ := hm.scope
  obtain ⟨g, hg, hgk, hgp, hgl⟩ := ht.global
  exact ⟨[(D.scope, b)], g, .step hb hp (.last hg hgp), .cons ⟨hk, hF, hS⟩ .nil, hgk, hgl⟩

theorem extend (hm : Members t D (some P) D.declaration.fields D.declaration.signatures)
    (hl : LineageScopes t P.scope l) : LineageScopes t D.scope (D.declaration :: l) := by
  obtain ⟨b, hb, hk, hp, _, hF, hS⟩ := hm.scope
  obtain ⟨cs, g, hc, hcs, hg⟩ := hl
  exact ⟨(D.scope, b) :: cs, g, .step hb hp hc, .cons ⟨hk, hF, hS⟩ hcs, hg⟩

theorem chain (h : LineageScopes t s l) : ∃ scopes, t.Chain s scopes :=
  have ⟨_, _, hc, _⟩ := h
  ⟨_, hc⟩

-- A method is found in the scope of the nearest class that has it.
theorem resolve?_method (h : LineageScopes t s l) (name : String) :
    Option.Rel t.HasMethod (t.resolve? s .methodNames name) (method? l name) := by
  obtain ⟨cs, g, hc, hcs, _, hg⟩ := h
  rw [SymbolTable.resolve?_of_chain hc, List.findSome?_append]
  have hlast : [(SymbolTable.globalScope, g)].findSome? (fun e => e.2.lookup .methodNames name) =
      none := by
    simp [hg name]
  rw [hlast, Option.or_none]
  exact rel_findSome? (hcs.imp fun _ _ hb => hb.methods name)

-- Before its formals are defined, the innermost frame of a method is empty.
theorem frames (h : LineageScopes t s l) (ho : Opens t s b) :
    ∃ scopes, t.Chain b.scope scopes ∧
      List.Forall₂ (fun e F => Holds t e.2 F) scopes (([] :: l.map (·.fields)) ++ [[]]) := by
  obtain ⟨owner, hb⟩ := ho
  obtain ⟨cs, g, hc, hcs, hgk, hg⟩ := h
  refine ⟨_, .step hb rfl hc, .cons (fun _ => Scope.lookup_empty .. ▸ .none) ?_⟩
  refine List.rel_append ?_ (.cons (fun name => (hg name).1 ▸ .none) .nil)
  exact List.forall₂_map_right_iff.mpr (hcs.imp fun _ _ hb => hb.fields)

theorem selfType (h : LineageScopes t D.scope l)
    (hm : Members t D parent F S) (ho : Opens t D.scope b) :
    selfType t b.scope = some (.object D.name) := by
  obtain ⟨owner, hb⟩ := ho
  obtain ⟨scopes, hc⟩ := h.chain
  obtain ⟨b', hb', hk, _, ho, _⟩ := hm.scope
  obtain ⟨b'', l', hb'', rfl⟩ := hc.head
  obtain rfl := Option.some.inj (hb'.symm.trans hb'')
  have hc' : t.Chain b.scope _ := .step hb rfl hc
  have he : t.enclosingClass? b.scope = some D.symbol := by
    rw [SymbolTable.enclosingClass?_of_chain hc', List.findSome?_cons, List.findSome?_cons]
    simp [hk, ho, Scope.empty]
  rw [Resolve.selfType, he, Option.bind_some, hm.symbol]
  rfl

theorem outermost (h : LineageScopes t s l) (ho : Opens t s b) : Outermost t b.scope := by
  obtain ⟨owner, hb⟩ := ho
  obtain ⟨cs, g, hc, hcs, hgk, hg⟩ := h
  refine ⟨⟨_, hb, rfl⟩, fun l' hl' e he hne => ?_⟩
  rw [hl'.unique (.step hb rfl hc)] at he
  cases List.mem_cons.mp he with
  | inl he => exact absurd (congrArg Prod.fst he) hne
  | inr he =>
    cases List.mem_append.mp he with
    | inl he =>
      obtain ⟨c, _, hb⟩ := exists_of_forall₂ hcs.flip he
      simp [hb.kind]
    | inr he => simp [List.mem_singleton.mp he, hgk]

end LineageScopes

namespace Declared

variable {p : Program} {ds : List DefinedClass} {t : SymbolTable}

theorem names (h : Declared p ds t) : ds.map (·.name) = classNames p := by
  rw [classNames, ← h.classes, List.map_map]
  rfl

theorem distinct (h : Declared p ds t) : (ds.map (·.name)).Nodup := by
  have hd := h.progress.distinct
  rwa [List.append_nil] at hd

theorem nodup (h : Declared p ds t) : (classNames p).Nodup :=
  h.names ▸ h.distinct

theorem exists_of_mem (h : Declared p ds t) (hc : c ∈ allClasses p) : ∃ D ∈ ds, D.declaration = c :=
  List.mem_map.mp (h.classes ▸ hc)

theorem mem (h : Declared p ds t) (hD : D ∈ ds) : D.declaration ∈ allClasses p :=
  h.classes ▸ List.mem_map_of_mem hD

theorem members (h : Declared p ds t) (hD : D ∈ ds) :
    Members t D (parent? ds D) D.declaration.fields D.declaration.signatures :=
  h.progress.filled D hD

theorem classOk (h : Declared p ds t) (hc : c ∈ allClasses p) : ClassOk p c := by
  obtain ⟨D, hD, rfl⟩ := h.exists_of_mem hc
  exact h.ok D hD

theorem parent?_eq (h : Declared p ds t) (hP : P ∈ ds)
    (hs : D.declaration.superclass = some P.name) : parent? ds D = some P := by
  rw [parent?, hs]
  exact (find?_eq_some_iff_of_nodup h.distinct).mpr ⟨hP, rfl⟩

theorem lineageScopes (h : Declared p ds t) (hD : D ∈ ds) (hl : Lineage p D.declaration l) :
    LineageScopes t D.scope l := by
  generalize hc : D.declaration = c at hl
  induction hl generalizing D with
  | root _ hs =>
    subst hc
    have hn : parent? ds D = none := by rw [parent?, hs]; rfl
    exact .root (hn ▸ h.members hD) h.progress.types
  | extend _ hs hl hi =>
    subst hc
    obtain ⟨P, hP, rfl⟩ := h.exists_of_mem hl.mem
    exact .extend (h.parent?_eq hP hs ▸ h.members hD) (hi hP rfl)

theorem classScope?_eq (h : Declared p ds t) (hD : D ∈ ds) :
    classScope? t D.name = some D.scope := by
  rw [classScope?, (h.members hD).resolved, Option.bind_some, (h.members hD).symbol]
  rfl

theorem denotes_returns (h : Declared p ds t) (hm : HasMethod p c name m) : Denotes p m.returns := by
  cases hm with
  | intro hl hm =>
    obtain ⟨c, hc, hm⟩ := List.exists_of_findSome?_eq_some hm
    have hm := List.mem_of_find?_eq_some hm
    have hok := h.classOk (hl.subset c hc)
    cases c with
    | main m    =>
      rw [List.mem_singleton.mp hm]
      trivial
    | regular r =>
      obtain ⟨m', hm', rfl⟩ := List.mem_map.mp hm
      exact denotes_ofDeclared (hok.returnTypes r rfl m' hm') _

theorem sound (h : Declared p ds t) (hl : Lineage p c l) (b : Body) :
    (bodyContext p c l b).Sound where
  declared  := by
    intro F hF d hd
    obtain ⟨c', hc', rfl⟩ := List.mem_map.mp hF
    exact (h.classOk (hl.subset c' hc')).fieldTypes d hd
  methods _ _ _ := h.denotes_returns
  className := List.mem_map_of_mem hl.mem

theorem methods (h : Declared p ds t) (hc : className ∈ classNames p) :
    ∃ scope, classScope? t className = some scope ∧ ∀ name,
      (∃ s m, t.resolve? scope .methodNames name = some s ∧ t.HasMethod s m ∧
        ∀ m', HasMethod p className name m' ↔ m' = m) ∨
      t.resolve? scope .methodNames name = none ∧ ∀ m, ¬HasMethod p className name m := by
  rw [← h.names] at hc
  obtain ⟨D, hD, rfl⟩ := List.mem_map.mp hc
  obtain ⟨l, hl⟩ := h.lineage D hD
  refine ⟨D.scope, h.classScope?_eq hD, fun name => ?_⟩
  have hm := (h.lineageScopes hD hl).resolve?_method name
  have hi (m) : HasMethod p D.name name m ↔ method? l name = some m := hasMethod_iff h.nodup hl
  generalize t.resolve? D.scope .methodNames name = s at hm
  generalize method? l name = v at hm hi
  cases hm with
  | none         => exact .inr ⟨rfl, fun m hm => by cases (hi m).mp hm⟩
  | @some s m hm => exact .inl ⟨s, m, rfl, hm, fun m' => (hi m').trans (by simp [eq_comm])⟩

theorem ready (h : Declared p ds t) (hD : D ∈ ds) (hl : Lineage p D.declaration l)
    (ho : Opens t D.scope b) : Ready t b (bodyContext p D.declaration l b.toBody) := by
  have hls := h.lineageScopes hD hl
  have hout := hls.outermost ho
  obtain ⟨scopes, hc, hframes⟩ := hls.frames ho
  constructor
  case stands =>
    constructor
    case sees =>
      constructor
      case sound    =>
        have hs := h.sound hl b.toBody
        exact ⟨List.forall_mem_cons.mpr ⟨nofun, hs.declared⟩, hs.methods, hs.className⟩
      case inMain   => rfl
      case self     => exact hls.selfType (h.members hD) ho
      case known    => exact h.progress.types.known
      case resolves => exact resolves_of_frames hc hframes
      case methods  => exact fun _ => h.methods
    case global =>
      obtain ⟨g, hg, _⟩ := h.progress.types.global
      exact ⟨g, hg⟩
    case frames => exact ⟨scopes, hc, hframes⟩
    case chains =>
      intro className hcn scope hs
      have hcn : className ∈ ds.map (·.name) := h.names ▸ hcn
      obtain ⟨D', hD', rfl⟩ := List.mem_map.mp hcn
      rw [h.classScope?_eq hD'] at hs
      obtain ⟨l', hl'⟩ := h.lineage D' hD'
      exact Option.some.inj hs ▸ (h.lineageScopes hD' hl').chain
  case scope => exact hout.scope
  case outer => exact hout.outer

end Declared

end MiniJava.Resolve
