import Mathlib.Data.List.Flatten
import MiniJava.Proofs.Resolve.Declared
import MiniJava.Proofs.Resolve.Faithful
import MiniJava.Proofs.Resolve.Nodes

namespace MiniJava.Resolve

open Typing

def start : State :=
  ⟨builtinTable, #[], 0, false⟩

def builtinScope : Scope :=
  let s : Scope := .empty .global none none
  ((s.insert .typeNames "int" 0).insert .typeNames "boolean" 1).insert .typeNames "void" 2

theorem scope?_builtinTable : builtinTable.scope? SymbolTable.globalScope = some builtinScope :=
  rfl

theorem resolveType?_builtinTable (name : String) :
    builtinTable.resolveType? name =
      if "void" = name then some 2 else if "boolean" = name then some 1
      else if "int" = name then some 0 else none := by
  rw [SymbolTable.resolveType?, scope?_builtinTable]
  simp [builtinScope, Scope.lookup_insert, Scope.lookup_empty]

theorem types_builtinTable : Types builtinTable [] where
  global       := ⟨_, scope?_builtinTable, rfl, rfl, fun name => by
    simp [builtinScope, Scope.lookup_insert, Scope.lookup_empty]⟩
  known name   := by
    rw [resolveType?_builtinTable]
    simp only [builtinTypes, List.mem_cons, List.not_mem_nil, or_false]
    grind
  builtin name := by
    intro hn
    simp only [builtinTypes, List.mem_cons, List.not_mem_nil, or_false] at hn
    obtain rfl | rfl | rfl := hn
    · exact ⟨0, resolveType?_builtinTable _, rfl⟩
    · exact ⟨1, resolveType?_builtinTable _, rfl⟩
    · exact ⟨2, resolveType?_builtinTable _, rfl⟩

theorem declarationOf?_builtinTable (s : SymbolId) : builtinTable.declarationOf? s = none := by
  have he : SymbolTable.empty.declarationOf? s = none := rfl
  simp [builtinTable, builtinTypes, SymbolTable.declarationOf?_addSymbol, he]

section Proper

variable {p : Program}

theorem name_of_proper (hp : p.Proper) (hc : c ∈ allClasses p) : c.name ∉ builtinTypes := by
  obtain ⟨m, hm, hmp⟩ := hp.mainClass
  cases mem_allClasses.mp hc with
  | inl h =>
    obtain ⟨m', hm', rfl⟩ := h
    obtain rfl := Option.some.inj (hm.symm.trans hm')
    exact hmp.name
  | inr h =>
    obtain ⟨r, hr, rfl⟩ := h
    exact (hp.classes r hr).name

theorem superclass_of_proper (hp : p.Proper) (hc : c ∈ allClasses p)
    (hs : c.superclass = some name) : name ∉ builtinTypes := by
  cases mem_allClasses.mp hc with
  | inl h =>
    obtain ⟨m, _, rfl⟩ := h
    cases hs
  | inr h =>
    obtain ⟨r, hr, rfl⟩ := h
    exact (hp.classes r hr).superclass name hs

theorem proper_of_mem (hp : p.Proper) (hc : c ∈ allClasses p) : c.Proper := by
  obtain ⟨m, hm, hmp⟩ := hp.mainClass
  cases mem_allClasses.mp hc with
  | inl h =>
    obtain ⟨m', hm', rfl⟩ := h
    obtain rfl := Option.some.inj (hm.symm.trans hm')
    exact hmp
  | inr h =>
    obtain ⟨r, hr, rfl⟩ := h
    exact hp.classes r hr

theorem body_of_proper {c : AnyClass} {b : Body} (hc : c.Proper) (hb : b ∈ c.bodies) :
    (∀ d ∈ b.parameters, d.storage = .formal) ∧ Statement.ProperAll b.statements := by
  cases c with
  | main c    =>
    rw [List.mem_singleton.mp hb]
    exact ⟨nofun, hc.body⟩
  | regular c =>
    obtain ⟨m, hm, rfl⟩ := List.mem_map.mp hb
    obtain ⟨member, hmem, hm⟩ := List.mem_filterMap.mp hm
    have hp := hc.members member hmem
    cases member with
    | method m' =>
      obtain rfl := Option.some.inj hm
      exact hp
    | field d | malformed q => cases hm

end Proper

namespace Declared

-- What happens in the scopes of methods does not matter.
theorem keep (h : Declared p ds σ.table) (hf : Fills ids s σ σ')
    (hs : s ≠ SymbolTable.globalScope ∧ ∀ D ∈ ds, D.scope ≠ s)
    (hi : ∀ D ∈ ds, D.declaration.id ∉ ids) : Declared p ds σ'.table :=
  { h with
    progress := { h.progress with
      types  := h.progress.types.keep hf hs.1
      filled := fun D hD =>
        (h.members hD).keep hf hs.1 (hs.2 D hD) (hi D hD) h.progress.types
      bare   := nofun } }

theorem forM (bs : List MethodBody) (h : Declared p ds σ.table)
    (hs : ∀ b ∈ bs, b.scope ≠ SymbolTable.globalScope ∧ ∀ D ∈ ds, D.scope ≠ b.scope)
    (hi : ∀ D ∈ ds, D.declaration.id ∉ bs.flatMap (·.nodeIds)) :
    Declared p ds (bs.forM methodBody σ).2.table := by
  induction bs generalizing σ with
  | nil           => exact h
  | cons b bs hbs =>
    obtain ⟨hsb, hs⟩ := List.forall_mem_cons.mp hs
    have hib (D) (hD : D ∈ ds) := not_or.mp (mt List.mem_append.mpr (hi D hD))
    rw [run_forM_cons]
    exact hbs (h.keep (Grows.methodBody b σ).fills hsb fun D hD => (hib D hD).1) hs
      fun D hD => (hib D hD).2

-- The scope of a method is neither that of a class nor the global one.
theorem scope_ne (h : Declared p ds t) (ho : Opens t s b) :
    b.scope ≠ SymbolTable.globalScope ∧ ∀ D ∈ ds, D.scope ≠ b.scope := by
  obtain ⟨owner, hb⟩ := ho
  constructor
  case left =>
    obtain ⟨g, hg, hk, _⟩ := h.progress.types.global
    intro he
    obtain rfl := Option.some.inj ((he ▸ hb).symm.trans hg)
    cases hk
  case right =>
    intro D hD he
    obtain ⟨b', hb', hk, _⟩ := (h.members hD).scope
    obtain rfl := Option.some.inj ((he ▸ hb').symm.trans hb)
    cases hk

end Declared

-- What the resolution of a program leaves if nothing is wrong.
structure Resolved (p : Program) (t : SymbolTable) : Prop where
  declared : ∃ ds, Declared p ds t
  passes   : ∀ c l, Lineage p c l → ∀ b ∈ c.bodies, Passes t (bodyContext p c l b) b
  faithful : t.Faithful

theorem Declared.classes_wellFormed (h : Declared p ds t)
    (hb : ∀ c l, Lineage p c l → ∀ b ∈ c.bodies, ChecksBody N (bodyContext p c l b) b) :
    WellFormed N p := by
  have hl (c) (hc : c ∈ allClasses p) : ∃ l, Lineage p c l := by
    obtain ⟨D, hD, rfl⟩ := h.exists_of_mem hc
    exact h.lineage D hD
  have hr (c) (hc : c ∈ p.classes) : .regular c ∈ allClasses p :=
    mem_allClasses.mpr (.inr ⟨c, hc, rfl⟩)
  have hok (c) (hc : c ∈ p.classes) := h.classOk (hr c hc)
  constructor
  case classes      => exact h.nodup
  case superclasses =>
    intro c hc name hs
    obtain ⟨l, hl⟩ := hl _ (hr c hc)
    cases hl with
    | root _ hn       => cases hn.symm.trans hs
    | extend _ hs' hl =>
      obtain rfl := Option.some.inj (hs'.symm.trans hs)
      exact List.mem_map_of_mem hl.mem
  case acyclic      => exact acyclic_of_lineage h.nodup hl
  case fields       => exact fun c hc => (hok c hc).fields
  case methods      =>
    intro c hc
    have hm := (hok c hc).methods
    rwa [AnyClass.signatures, List.map_map] at hm
  case fieldTypes   => exact fun c hc => (hok c hc).fieldTypes
  case returnTypes  => exact fun c hc => (hok c hc).returnTypes c rfl
  case bodies       => exact hb

theorem Resolved.wellFormed (h : Resolved p t) : WellFormed t.notes p :=
  have ⟨_, hd⟩ := h.declared
  hd.classes_wellFormed fun c l hl b hb => (h.passes c l hl b hb).checks

theorem classOk_of_wellFormed (h : WellFormed N p) (hc : c ∈ allClasses p) : ClassOk p c := by
  cases mem_allClasses.mp hc with
  | inl h =>
    obtain ⟨m, _, rfl⟩ := h
    exact ⟨.nil, List.nodup_singleton _, nofun, nofun⟩
  | inr hr =>
    obtain ⟨r, hr, rfl⟩ := hr
    refine ⟨h.fields r hr, ?methods, h.fieldTypes r hr, fun r' he => ?returns⟩
    case methods =>
      rw [AnyClass.signatures, List.map_map]
      exact h.methods r hr
    case returns =>
      cases he
      exact h.returnTypes r hr

-- The numbers of the nodes that are declared outside of bodies.
def outerIds (p : Program) : List NodeId :=
  (allClasses p).map (·.id) ++ (allClasses p).flatMap AnyClass.memberIds

inductive DeclarationsVerdict (p : Program) : List MethodBody × State → Prop
  | passed :
    Declared p ds σ.table → AllFilled p ds σ₀ σ bss → σ.size = 0 → Declares (outerIds p) start σ →
      DeclarationsVerdict p (bss.flatten, σ)
  | failed : ¬WellFormed .any p → 0 < out.2.size → DeclarationsVerdict p out

theorem Defines.links (h : Defines t ds) : Links t [] ds where
  types    := h.types
  linked   := nofun
  rest     := h.bare
  ancestry := fun D hD => ⟨_, .last (h.bare D hD).symbol rfl⟩

theorem Links.progress {ds : List DefinedClass} (h : Links t ds []) (hds : ds.map (·.declaration) = allClasses p)
    (hn : (ds.map (·.name)).Nodup)
    (hd : ((allClasses p).map (·.id)).Disjoint ((allClasses p).flatMap AnyClass.memberIds)) :
    Progress p (parent? ds) t [] ds := by
  have hl (D) (hD : D ∈ ds) := List.append_nil ds ▸ (h.linked D hD).1
  have hnames : (ds ++ []).map DefinedClass.name = classNames p := by
    rw [List.append_nil, classNames, ← hds, List.map_map]
    rfl
  have hc (D) (hD : D ∈ ds) : D.declaration ∈ allClasses p := hds ▸ List.mem_map_of_mem hD
  constructor
  case types    => exact hnames ▸ h.types
  case distinct => exact hn
  case filled   => exact List.forall_mem_nil _
  case bare     => exact fun D hD => (hl D hD).members
  case inner    => exact fun D hD => (hl D hD).scope_ne h.types
  case ids      =>
    intro D hD D' hD' hi
    exact hd (List.mem_map_of_mem (hc D hD)) (List.mem_flatMap.mpr ⟨_, hc D' hD', hi⟩)

theorem verdict_declarations (hp : p.Proper) (hn : p.nodeIds.Nodup) :
    DeclarationsVerdict p (declarations p start) := by
  obtain ⟨hids, hrest, hd⟩ := List.nodup_append'.mp ((nodeIds_perm p).nodup_iff.mp hn)
  obtain ⟨hmids, _, _⟩ := List.nodup_append'.mp hrest
  obtain ⟨hd, _⟩ := List.disjoint_append_right.mp hd
  have hadds (ds : List DefinedClass) (σ : State) :
      Adds σ (ds.mapM defineMembers (ds.forM linkSuperclass σ).2).2 :=
    (Adds.forM Adds.linkSuperclass ds σ).trans (Adds.mapM Adds.defineMembers ds _)
  have he : declarations p start =
      let out := (allClasses p).mapM defineClass start
      let ds := out.1.filterMap id
      let out := ds.mapM defineMembers (ds.forM linkSuperclass out.2).2
      (out.1.flatten, out.2) := rfl
  rw [he]
  have hstart : Defines start.table [] := ⟨types_builtinTable, nofun⟩
  have hc := verdict_defineClasses (allClasses p) hstart (fun _ => name_of_proper hp) .nil hids
  have hcd : Declares ((allClasses p).flatMap fun c => [c.id]) start _ :=
    Declares.mapM (fun c σ _ => Declares.defineClass c σ) (allClasses p) start
      (by rwa [← List.map_eq_flatMap])
  rw [← List.map_eq_flatMap] at hcd
  dsimp only
  generalize (allClasses p).mapM defineClass start = out at hc hcd ⊢
  cases hc with
  | failed hu hlt =>
    exact .failed (fun h => hu h.classes) (Nat.lt_of_lt_of_le hlt (hadds _ _).size_le)
  | @passed ds σ₁ hds hnames hdef hq₁ =>
    have hnames : (classNames p).Nodup := hnames
    have hdn : (ds.map (·.name)).Nodup := by
      rw [classNames, ← hds, List.map_map] at hnames
      exact hnames
    have hf : (ds.map some).filterMap id = ds := by simp
    rw [hf]
    have hl := verdict_linkSuperclasses ds hdef.links hds hnames
      fun _ hc _ hs => superclass_of_proper hp hc hs
    have hld := Declares.linkSuperclasses ds σ₁
    have hadds := Adds.mapM Adds.defineMembers ds
    generalize (ds.forM linkSuperclass σ₁).2 = σ₂ at hl hld ⊢
    cases hl with
    | failed hu hlt =>
      refine .failed (fun h => ?_) (Nat.lt_of_le_of_lt (Nat.zero_le _) (Nat.lt_of_lt_of_le hlt (hadds σ₂).size_le))
      obtain ⟨name, hx⟩ := hu fun c hc name hs => by
        cases mem_allClasses.mp hc with
        | inl hm =>
          obtain ⟨m, _, rfl⟩ := hm
          cases hs
        | inr hr =>
          obtain ⟨r, hr, rfl⟩ := hr
          exact h.superclasses r hr name hs
      exact h.acyclic name hx
    | passed hl hq₂ =>
      have hpr := hl.progress hds hdn hd
      have hv := verdict_defineAllMembers ds hpr fun D hD =>
        proper_of_mem hp (hds ▸ List.mem_map_of_mem hD)
      have hme : ds.flatMap (·.declaration.memberIds) = (allClasses p).flatMap AnyClass.memberIds := by
        rw [← hds, List.flatMap_map]
      have hmd : Declares (ds.flatMap (·.declaration.memberIds)) σ₂ _ :=
        Declares.mapM (fun D σ hn => Declares.defineMembers D σ hn) ds σ₂ (hme ▸ hmids)
      generalize ds.mapM defineMembers σ₂ = out at hv hmd ⊢
      cases hv with
      | failed hu hlt =>
        refine .failed (fun h => hu fun D hD => ?classOk) ?reported
        case classOk => exact classOk_of_wellFormed h (hds ▸ List.mem_map_of_mem hD)
        case reported => exact Nat.lt_of_le_of_lt (Nat.zero_le _) hlt
      | passed hpr' hfill =>
        have hdec : Declared p ds _ := ⟨hds, hpr', hfill.ok, fun D hD => hl.lineage hds hD⟩
        refine .passed hdec hfill (hfill.size.trans (hq₂.trans hq₁)) ?_
        rw [hme] at hmd
        exact hcd.append (hld.before hmd) hd

-- The bodies with the classes that they are in.
theorem exists_items {f : AnyClass → List Body} {ds : List DefinedClass}
    (h : List.Forall₂ (fun D bs => bs.map (·.toBody) = f D.declaration ∧
      ∀ b ∈ bs, Opens t D.scope b) ds bss) :
    ∃ items : List (DefinedClass × MethodBody), items.map (·.2) = bss.flatten ∧
      items.map (fun i => (i.1, i.2.toBody)) =
        ds.flatMap (fun D => (f D.declaration).map fun b => (D, b)) ∧
      ∀ i ∈ items, Opens t i.1.scope i.2 := by
  induction h with
  | nil => exact ⟨[], rfl, rfl, nofun⟩
  | @cons D bs ds bss hb _ hi =>
    obtain ⟨items, hf, hm, ho⟩ := hi
    refine ⟨bs.map (fun b => (D, b)) ++ items, ?bodies, ?classes, ?opens⟩
    case bodies => simp [hf, Function.comp_def]
    case classes => simp [hm, ← hb.1, Function.comp_def]
    case opens =>
      intro i hi
      cases List.mem_append.mp hi with
      | inl hi =>
        obtain ⟨b, hb', rfl⟩ := List.mem_map.mp hi
        exact hb.2 b hb'
      | inr hi => exact ho i hi

inductive ProgramVerdict (p : Program) (σ : State) : Prop
  | passed : Resolved p σ.table → σ.size = 0 → ProgramVerdict p σ
  | failed : ¬WellFormed .any p → 0 < σ.size → ProgramVerdict p σ

theorem verdict_program (hp : p.Proper) (hn : p.nodeIds.Nodup) :
    ProgramVerdict p (Resolve.program p start).2 := by
  have hv := verdict_declarations hp hn
  have he : (Resolve.program p start).2 =
      ((declarations p start).1.forM methodBody (declarations p start).2).2 := rfl
  rw [he]
  generalize declarations p start = out at hv ⊢
  cases hv with
  | failed hu hlt =>
    exact .failed hu (Nat.lt_of_lt_of_le hlt (Adds.forM Adds.methodBody _ _).size_le)
  | @passed ds σ₀ σ bss hdec hfill hq hdecl =>
    obtain ⟨items, hf, hm, ho⟩ := exists_items hfill.bodies
    have hc (i) (hi : i ∈ items) : i.1 ∈ ds ∧ i.2.toBody ∈ i.1.declaration.bodies := by
      have hi : (i.1, i.2.toBody) ∈ items.map fun i => (i.1, i.2.toBody) := List.mem_map_of_mem hi
      rw [hm] at hi
      obtain ⟨D, hD, hb⟩ := List.mem_flatMap.mp hi
      obtain ⟨b, hb, he⟩ := List.mem_map.mp hb
      obtain ⟨he₁, he₂⟩ := Prod.mk.inj he
      exact he₁ ▸ he₂ ▸ ⟨hD, hb⟩
    choose! L hL using hdec.lineage
    -- The nodes of the bodies are those of the program that have not been met.
    have hids : bss.flatten.flatMap (·.nodeIds) =
        ((allClasses p).flatMap AnyClass.bodies).flatMap Body.nodeIds := by
      have hb : (items.map fun i => (i.1, i.2.toBody)).flatMap (fun i => i.2.nodeIds) =
          bss.flatten.flatMap (·.nodeIds) := by
        rw [← hf, List.flatMap_map, List.flatMap_map]
        rfl
      rw [← hb, hm, ← hdec.classes, List.flatMap_map, List.flatMap_assoc, List.flatMap_assoc]
      exact congrArg (ds.flatMap ·) (funext fun D => List.flatMap_map ..)
    obtain ⟨_, hrest, hd⟩ := List.nodup_append'.mp ((nodeIds_perm p).nodup_iff.mp hn)
    obtain ⟨_, hbn, hmd⟩ := List.nodup_append'.mp hrest
    obtain ⟨_, hd⟩ := List.disjoint_append_right.mp hd
    rw [← hids] at hbn hmd hd
    have hscopes : (items.map fun i => i.2.scope).Nodup := by
      have hn := hfill.nodup
      rw [← hf, List.map_map] at hn
      exact hn
    have hnodes : (items.flatMap fun i => i.2.nodeIds).Nodup := by
      rwa [← hf, List.flatMap_map] at hbn
    have hv := verdict_bodies (σ := σ) (f := fun i => i.2)
      (Γ := fun i => bodyContext p i.1.declaration (L i.1) i.2.toBody) items
      (fun i hi => (body_of_proper (proper_of_mem hp (hdec.mem (hc i hi).1)) (hc i hi).2).2)
      hnodes hscopes (fun i hi => hdec.ready (hc i hi).1 (hL i.1 (hc i hi).1) (ho i hi))
    rw [hf] at hv
    dsimp only
    cases hv with
    | failed hu hlt =>
      obtain ⟨i, hi, hu⟩ := hu
      refine .failed (fun h => hu ?_) (hq ▸ hlt)
      exact h.bodies _ _ (hL i.1 (hc i hi).1) _ (hc i hi).2
    | passed hall hq' =>
      refine .passed ⟨⟨ds, ?declared⟩, fun c l hl b hb => ?bodies, ?faithful⟩ (hq'.trans hq)
      case declared =>
        refine hdec.forM bss.flatten (fun b hb => ?outside) fun D hD hi => ?inside
        case outside =>
          obtain ⟨i, hi, rfl⟩ := List.mem_map.mp (hf ▸ hb)
          exact hdec.scope_ne (ho i hi)
        case inside => exact hd (List.mem_map_of_mem (hdec.mem hD)) hi
      case bodies =>
        obtain ⟨D, hD, rfl⟩ := hdec.exists_of_mem hl.mem
        have hmem : (D, b) ∈ ds.flatMap fun D => D.declaration.bodies.map fun b => (D, b) :=
          List.mem_flatMap.mpr ⟨D, hD, List.mem_map_of_mem hb⟩
        rw [← hm] at hmem
        obtain ⟨i, hi, he⟩ := List.mem_map.mp hmem
        obtain ⟨rfl, rfl⟩ := Prod.mk.inj he
        rw [hl.unique hdec.nodup (hL i.1 hD)]
        exact hall i hi
      case faithful =>
        have hsub := List.Sublist.flatMap_right bss.flatten fun b _ => b.variableIds_sublist
        have hb := Declares.forM (fun b σ hn => Declares.methodBody b σ hn) bss.flatten σ
          (hbn.sublist hsub)
        have hd : (outerIds p).Disjoint (bss.flatten.flatMap MethodBody.variableIds) :=
          List.disjoint_of_subset_right hsub.subset (List.disjoint_append_left.mpr ⟨hd, hmd⟩)
        exact (hdecl.append hb hd).faithful
          (fun s i hi => by cases (declarationOf?_builtinTable s).symm.trans hi) (fun i _ => rfl)

end MiniJava.Resolve
