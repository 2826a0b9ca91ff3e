import MiniJava.Proofs.Binding.Allotment
import MiniJava.Proofs.Binding.Cycles

namespace MiniJava

namespace Binding

open Resolve (AnyClass DefinedClass MethodBody Grows Members Plain State allClasses classScope?
  methodBody run_forM_cons stages start)
open Typing

-- The class in the table, with its superclass and the scope around its own.
def Records (t : SymbolTable) (c : AnyClass) (superclass : Option SymbolId) (outer : ScopeId) :
    Prop :=
  ∃ x s b, t.resolveType? c.name = some x ∧
    t.symbol? x = some ⟨c.name, .ofType ⟨false, some s, superclass⟩, c.id⟩ ∧
    t.scope? s = some b ∧ b.kind = .ofClass ∧ b.parent = some outer

-- A class without superclass is in the global scope, every other one in that of its superclass.
inductive Inherits (t : SymbolTable) (c : AnyClass) : Option AnyClass → Prop
  | root   : Records t c none SymbolTable.globalScope → Inherits t c none
  | extend : t.resolveType? d.name = some y → classScope? t d.name = some q →
    Records t c (some y) q → Inherits t c (some d)

-- A class of the table with the one that it has been linked with.
structure Hangs (t : SymbolTable) (D : DefinedClass) (parent : Option DefinedClass) : Prop where
  resolved : t.resolveType? D.name = some D.symbol
  symbol   : t.symbol? D.symbol =
    some ⟨D.name, .ofType ⟨false, D.scope, parent.map (·.symbol)⟩, D.declaration.id⟩
  scope    : ∃ b, t.scope? D.scope = some b ∧ b.kind = .ofClass ∧
    b.parent = some (parent.elim SymbolTable.globalScope (·.scope))

namespace Hangs

variable {D : DefinedClass} {parent : Option DefinedClass}

theorem of_members (h : Members t D parent F S) : Hangs t D parent := by
  obtain ⟨b, hb, hk, hp, _⟩ := h.scope
  exact ⟨h.resolved, h.symbol, b, hb, hk, hp⟩

theorem grow {σ σ' : State} (h : Hangs σ.table D parent) (hg : Grows ids s σ σ')
    (hglobal : ∃ b, σ.table.scope? SymbolTable.globalScope = some b) : Hangs σ'.table D parent := by
  obtain ⟨b, hb, hk, hp⟩ := h.scope
  obtain ⟨names, hb', _⟩ := hg.scopes _ b hb
  exact ⟨(hg.resolveType? hglobal D.name).trans h.resolved, hg.symbols _ _ h.symbol, _, hb', hk, hp⟩

theorem classScope?_eq (h : Hangs t D parent) : classScope? t D.name = some D.scope := by
  rw [classScope?, h.resolved, Option.bind_some, h.symbol]
  rfl

theorem forM {σ : State} (bs : List MethodBody) (h : Hangs σ.table D parent)
    (hglobal : ∃ b, σ.table.scope? SymbolTable.globalScope = some b) :
    Hangs (bs.forM methodBody σ).2.table D parent := by
  induction bs generalizing σ with
  | nil          => exact h
  | cons b bs hi =>
    have hg := Grows.methodBody b σ
    obtain ⟨g, hgs⟩ := hglobal
    obtain ⟨names, hgs', _⟩ := hg.scopes _ g hgs
    rw [run_forM_cons]
    exact hi (h.grow hg ⟨g, hgs⟩) ⟨_, hgs'⟩

end Hangs

theorem Follows.super?_of_closes (h : Follows cs done ls) (hc : c ∈ cs) (hcl : Closes cs c) :
    super? cs ls c = none :=
  Option.eq_none_iff_forall_ne_some.mpr fun d hd => ((h c hc d).mp hd).2.1 hcl

theorem Follows.super?_of_not_closes (h : Follows cs cs ls) (hc : c ∈ cs) (hcl : ¬Closes cs c) :
    super? cs ls c = named? cs c :=
  Option.ext fun d => (h c hc d).trans (by simp [hc, hcl])

section

variable {p : Program}

theorem follows_stages (hn : p.nodeIds.Nodup) :
    Follows (classes p) (classes p) (links (classes p)) ∧
      ∃ closing, Closing (classes p) (classes p) closing ∧
        (stages p).linked.notices = closing.map cycleReport := by
  have hds := classes_stages hn
  obtain ⟨hf, closing, hc, hns⟩ := (linked_defined hn).follows_linkSuperclasses (stages p).classes
    (known_iff_stages hn) (List.Subset.refl _) (List.nil_append _).symm (.nil _) fun _ _ => rfl
  rw [hds] at hf hc
  have hq : (stages p).defined.notices = [] :=
    (Plain.mapM Plain.defineClass (allClasses p) start).quiet
  rw [hq, List.nil_append] at hns
  exact ⟨hf, closing, hc, hns⟩

theorem filter_isCyclic_final (hn : p.nodeIds.Nodup) :
    (stages p).final.diagnostics.toList.filter (·.isCyclic) = (stages p).linked.notices := by
  obtain ⟨_, closing, _, hl⟩ := follows_stages hn
  have hm : (stages p).members.notices = (stages p).linked.notices :=
    (Plain.mapM Plain.defineMembers (stages p).classes (stages p).linked).quiet
  have hc : (closing.map cycleReport).filter (·.isCyclic) = closing.map cycleReport := by
    refine List.filter_eq_self.mpr fun d hd => ?_
    obtain ⟨c, _, rfl⟩ := List.mem_map.mp hd
    rfl
  rw [← Resolve.filter_isCyclic_notices, (provides_stages hn).2, List.filter_append, hm, hl, hc]
  refine (congrArg _ (List.filter_eq_nil_iff.mpr fun d hd => ?_)).trans (List.append_nil _)
  obtain ⟨b, _, hd⟩ := List.mem_flatMap.mp hd
  obtain ⟨r, rfl⟩ := exists_of_mem_refusals hd
  exact Bool.false_ne_true

theorem hangs_final (hn : p.nodeIds.Nodup) (hD : D ∈ (stages p).classes) :
    Hangs (stages p).final.table D (linked? (stages p).classes (links (classes p)) D) := by
  obtain ⟨_, hd, _⟩ := outer_stages hn
  obtain ⟨g, hg, _⟩ := hd.progress.types.global
  exact (Hangs.of_members (hd.members hD)).forM (stages p).bodies ⟨g, hg⟩

theorem inherits_final (hn : p.nodeIds.Nodup) (hc : c ∈ classes p) :
    Inherits (stages p).final.table c (super? (classes p) (links (classes p)) c) := by
  rw [← classes_stages hn] at hc
  obtain ⟨D, hD, rfl⟩ := List.mem_map.mp hc
  have h := hangs_final hn hD
  obtain ⟨b, hb, hk, hp⟩ := h.scope
  rw [← classes_stages hn, super?_map, classes_stages hn]
  cases hl : linked? (stages p).classes (links (classes p)) D with
  | none   =>
    rw [hl] at h hp
    exact .root ⟨D.symbol, D.scope, b, h.resolved, h.symbol, hb, hk, hp⟩
  | some P =>
    rw [hl] at h hp
    have hP := hangs_final hn (mem_of_linked? hl)
    exact .extend hP.resolved hP.classScope?_eq
      ⟨D.symbol, D.scope, b, h.resolved, h.symbol, hb, hk, hp⟩

end

-- What becomes of the superclasses that the classes of a program name. Every class is linked with
-- the one that it names, but for one class of each cycle, which is reported.
structure Extended (p : Program) (r : ResolvedProgram) : Prop where
  reports : ∃ closing, Closing (classes p) (classes p) closing ∧
    r.diagnostics.filter (·.isCyclic) = closing.map cycleReport
  cycles  : ∀ c, Reaches (classes p) c c →
    ∃! d, Closes (classes p) d ∧ Reaches (classes p) c d ∧ Reaches (classes p) d c
  refused : ∀ c ∈ classes p, Closes (classes p) c → Inherits r.table c none
  linked  : ∀ c ∈ classes p, ¬Closes (classes p) c → Inherits r.table c (named? (classes p) c)

theorem extended_ofProgram (hn : p.nodeIds.Nodup) : Extended p (ResolvedProgram.ofProgram p) := by
  obtain ⟨hf, closing, hc, hl⟩ := follows_stages hn
  constructor
  case reports => exact ⟨closing, hc, (filter_isCyclic_final hn).trans hl⟩
  case cycles  => exact fun c => existsUnique_closes (List.Nodup.of_map _ (nodup_accepted _ _ _).1)
  case refused => exact fun c hc hcl => hf.super?_of_closes hc hcl ▸ inherits_final hn hc
  case linked  => exact fun c hc hcl => hf.super?_of_not_closes hc hcl ▸ inherits_final hn hc

end Binding

-- Of each cycle of superclasses one link is refused and reported, that of the class of the cycle
-- that comes last. All other classes extend the class that they name.
theorem ResolvedProgram.extended_ofStream (s : TokenStream) :
    Binding.Extended (ParsedProgram.ofStream s).program
      (ResolvedProgram.ofProgram (ParsedProgram.ofStream s).program) :=
  Binding.extended_ofProgram (ParsedProgram.nodup_nodeIds s)

end MiniJava
