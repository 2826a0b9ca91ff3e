import MiniJava.Proofs.Binding.Members
import MiniJava.Proofs.Resolve.Scoping

namespace MiniJava

namespace Binding

open Resolve (AnyClass DefinedClass MethodBody State Members Types Fills Opens ClassOpened AllOpened
  Progress LineageScopes allClasses classScope? stages start linkSuperclass)
open Typing

-- All that is outside of the bodies has been declared.
structure Declared (p : Program) (ds : List DefinedClass) (t : SymbolTable) : Prop where
  classes  : ds.map (·.declaration) = classes p
  progress : Progress p (linked? ds (links (Binding.classes p))) t ds []
  ascends  : ∀ D ∈ ds, ∃ Ps, Ascends ds (links (Binding.classes p)) D Ps ∧ Ps.length ≤ ds.length

namespace Declared

variable {p : Program} {ds : List DefinedClass} {t : SymbolTable}

theorem names (h : Declared p ds t) : ds.map (·.name) = (Binding.classes p).map (·.name) := by
  rw [← h.classes, List.map_map]
  rfl

theorem distinct (h : Declared p ds t) : (ds.map (·.name)).Nodup :=
  h.names ▸ (nodup_accepted _ _ _).1

theorem known_iff (h : Declared p ds t) (name : String) :
    Known p name ↔ name ∈ builtinTypes ∨ name ∈ ds.map (·.name) := by
  rw [h.names]
  exact mem_names_accepted.symm

theorem members (h : Declared p ds t) (hD : D ∈ ds) :
    Members t D (linked? ds (links (Binding.classes p)) D) D.declaration.fields
      D.declaration.signatures :=
  h.progress.filled D hD

theorem lineageScopes_of_ascends (h : Declared p ds t)
    (hp : Ascends ds (links (Binding.classes p)) D Ps) :
    LineageScopes t D.scope (Ps.map (·.declaration)) := by
  induction hp with
  | root hD hl        => exact .root (hl ▸ h.members hD) h.progress.types
  | extend hD hl _ hi => exact .extend (hl ▸ h.members hD) hi

theorem lineageScopes (h : Declared p ds t) (hD : D ∈ ds) :
    LineageScopes t D.scope (lineage p D.declaration) := by
  obtain ⟨Ps, hp, hn⟩ := h.ascends D hD
  have hl := h.lineageScopes_of_ascends hp
  rwa [← hp.line_eq hn, h.classes, ← List.length_map (f := DefinedClass.declaration), h.classes] at hl

theorem class?_eq (h : Declared p ds t) (name : String) :
    class? (Binding.classes p) name = (ds.find? (·.name = name)).map (·.declaration) :=
  h.classes ▸ class?_map ds name

theorem knows (h : Declared p ds t) : Knows t p where
  global := by
    obtain ⟨g, hg, _⟩ := h.progress.types.global
    exact ⟨g, hg⟩
  known  := h.progress.types.known
  types name x hx := by
    have hk : Known p name := (h.progress.types.known name).mp (Option.isSome_iff_exists.mpr ⟨x, hx⟩)
    cases (h.known_iff name).mp hk with
    | inl hb =>
      obtain ⟨y, hy, hs⟩ := h.progress.types.builtin name hb
      exact ⟨_, Option.some.inj (hy.symm.trans hx) ▸ hs⟩
    | inr hn =>
      obtain ⟨D, hD, rfl⟩ := List.mem_map.mp hn
      exact ⟨_, Option.some.inj ((h.members hD).resolved.symm.trans hx) ▸ (h.members hD).symbol⟩
  classes className := by
    rw [h.class?_eq]
    cases hf : ds.find? (·.name = className) with
    | some D =>
      have hD := List.mem_of_find?_eq_some hf
      have hn := List.find?_some hf
      obtain rfl : D.name = className := of_decide_eq_true hn
      have hs : classScope? t D.name = some D.scope := by
        rw [classScope?, (h.members hD).resolved, Option.bind_some, (h.members hD).symbol]
        rfl
      rw [hs]
      exact .some ⟨(h.lineageScopes hD).chain, (h.lineageScopes hD).resolve?_method⟩
    | none   =>
      have hn : className ∉ ds.map (·.name) := find?_eq_none_iff.mp hf
      have hs : classScope? t className = none := by
        by_cases hb : className ∈ builtinTypes
        case pos =>
          obtain ⟨x, hx, hs⟩ := h.progress.types.builtin className hb
          rw [classScope?, hx, Option.bind_some, hs]
          rfl
        case neg =>
          have hu := mt (h.known_iff className).mp (not_or.mpr ⟨hb, hn⟩)
          have hr := Option.not_isSome_iff_eq_none.mp (mt (h.progress.types.known className).mp hu)
          rw [classScope?, hr]
          rfl
      rw [hs]
      exact .none

theorem around (h : Declared p ds t) (hD : D ∈ ds) {b : MethodBody} (ho : Opens t D.scope b) :
    Around t b.scope ((context p D.declaration b.toBody).push []) where
  self   := (h.lineageScopes hD).selfType (h.members hD) ho
  frames := (h.lineageScopes hD).frames ho

end Declared

theorem bodies_sublist (c : AnyClass) : (bodies c).Sublist c.bodies := by
  cases c with
  | main c    => exact .refl _
  | regular c => exact (accepted_sublist _ _ _).map _

-- The names that are looked up outside of the bodies.
def outerSites (p : Program) : List Site :=
  (classes p).flatMap (superclassSites p) ++ (classes p).flatMap (classSites p)

section

variable {p : Program}

theorem collects_stages (hn : p.nodeIds.Nodup) :
    Collects [] builtinTypes (allClasses p) start ((allClasses p).mapM Resolve.defineClass start) := by
  obtain ⟨hids, _, _⟩ := List.nodup_append'.mp ((Resolve.nodeIds_perm p).nodup_iff.mp hn)
  exact collects_defineClass (allClasses p) ⟨Resolve.types_builtinTable, nofun⟩
    (fun name => by simp) hids

theorem classes_stages (hn : p.nodeIds.Nodup) :
    (stages p).classes.map (·.declaration) = classes p :=
  (collects_stages hn).classes

theorem known_iff_stages (hn : p.nodeIds.Nodup) (name : String) :
    Known p name ↔ name ∈ builtinTypes ∨ name ∈ (stages p).classes.map (·.name) := by
  have hnames : (stages p).classes.map (·.name) = (classes p).map (·.name) := by
    rw [← classes_stages hn, List.map_map]
    rfl
  rw [hnames]
  exact mem_names_accepted.symm

-- Before any class is linked.
theorem linked_defined (hn : p.nodeIds.Nodup) :
    Linked (stages p).defined.table (stages p).classes [] := by
  have hc := collects_stages hn
  have hd : Resolve.Defines (stages p).defined.table (stages p).classes := hc.defines
  have hnd : ((stages p).classes.map (·.name)).Nodup := by
    have hnd := (nodup_accepted AnyClass.name builtinTypes (allClasses p)).1
    rwa [← hc.classes, List.map_map] at hnd
  exact ⟨hd.types, hnd, hd.bare, fun D hD => ⟨_, .last (hd.bare D hD).symbol rfl⟩⟩

theorem linked_stages (hn : p.nodeIds.Nodup) :
    Linked (stages p).linked.table (stages p).classes (links (classes p)) ∧
      LooksUp ((classes p).flatMap (superclassSites p)) start (stages p).linked := by
  have h₀ := linked_defined hn
  obtain ⟨hl, hs⟩ := h₀.linkSuperclasses (stages p).classes (known_iff_stages hn)
    (List.Subset.refl _) h₀.distinct fun _ _ => rfl
  have hs := (collects_stages hn).declares.trans hs
  rw [classes_stages hn] at hl
  have hf : (stages p).classes.flatMap (fun D => superclassSites p D.declaration) =
      (classes p).flatMap (superclassSites p) := by
    rw [← classes_stages hn, List.flatMap_map]
  exact ⟨hl, hf ▸ hs⟩

theorem progress_stages (hn : p.nodeIds.Nodup) :
    Progress p (linked? (stages p).classes (links (classes p))) (stages p).linked.table []
      (stages p).classes := by
  obtain ⟨hl, _⟩ := linked_stages hn
  obtain ⟨_, _, hd⟩ := List.nodup_append'.mp ((Resolve.nodeIds_perm p).nodup_iff.mp hn)
  obtain ⟨hd, _⟩ := List.disjoint_append_right.mp hd
  have hc (D) (hD : D ∈ (stages p).classes) : D.declaration ∈ allClasses p :=
    (accepted_sublist _ _ _).subset (classes_stages hn ▸ List.mem_map_of_mem hD)
  constructor
  case types    =>
    exact ⟨hl.types.global, fun name => (hl.types.known name).trans (known_iff_stages hn name).symm,
      hl.types.builtin⟩
  case distinct => exact hl.distinct
  case filled   => exact List.forall_mem_nil _
  case bare     => exact fun D hD => (hl.bare D hD).members
  case inner    => exact fun D hD => (hl.bare D hD).scope_ne hl.types
  case ids      =>
    intro D hD D' hD' hi
    exact hd (List.mem_map_of_mem (hc D hD)) (List.mem_flatMap.mpr ⟨_, hc D' hD', hi⟩)

-- What the passes before the bodies leave.
structure Outer (p : Program) (bss : List (List MethodBody)) : Prop where
  declared : Declared p (stages p).classes (stages p).members.table
  flatten  : (stages p).bodies = bss.flatten
  opened   : AllOpened bodies (stages p).classes (stages p).linked (stages p).members bss
  looksUp  : LooksUp (outerSites p) start (stages p).members

theorem outer_stages (hn : p.nodeIds.Nodup) : ∃ bss, Outer p bss := by
  obtain ⟨hl, hs⟩ := linked_stages hn
  obtain ⟨hp, ho, hm⟩ := opened_defineAllMembers (stages p).classes (progress_stages hn)
  have hf : (stages p).classes.flatMap (fun D => classSites p D.declaration) =
      (classes p).flatMap (classSites p) := by
    rw [← classes_stages hn, List.flatMap_map]
  refine ⟨_, ⟨classes_stages hn, hp, fun D hD => ?_⟩, rfl, ho, hs.trans (hf ▸ hm)⟩
  obtain ⟨_, Ps, _, hP, _, hlen⟩ := hl.ascends hD
  exact ⟨Ps, hP, hlen⟩

-- All that is visited in the bodies of a program.
def allVisits (p : Program) : List Visit :=
  (classes p).flatMap fun c => (bodies c).flatMap fun b => visitsOf (context p c b) b

-- The numbers of the nodes in these bodies.
def bodyIds (p : Program) : List NodeId :=
  (classes p).flatMap fun c => (bodies c).flatMap Body.nodeIds

theorem bodyIds_sublist (p : Program) :
    (bodyIds p).Sublist (((allClasses p).flatMap AnyClass.bodies).flatMap Body.nodeIds) := by
  have hs : (bodyIds p).Sublist ((classes p).flatMap fun c => c.bodies.flatMap Body.nodeIds) :=
    .flatMap_right _ fun c _ => (bodies_sublist c).flatMap _
  rw [List.flatMap_assoc]
  exact hs.trans ((accepted_sublist _ _ _).flatMap _)

theorem nodup_bodyIds (hn : p.nodeIds.Nodup) : (bodyIds p).Nodup := by
  obtain ⟨_, hrest, _⟩ := List.nodup_append'.mp ((Resolve.nodeIds_perm p).nodup_iff.mp hn)
  obtain ⟨_, hb, _⟩ := List.nodup_append'.mp hrest
  exact hb.sublist (bodyIds_sublist p)

theorem binds_stages (hn : p.nodeIds.Nodup) :
    Binds (bodyIds p) (allVisits p) (stages p).members (stages p).final := by
  obtain ⟨bss, hd, hf, ho, _⟩ := outer_stages hn
  obtain ⟨items, hi, hm, hopens⟩ := Resolve.exists_items ho.bodies
  have hc (i) (hi : i ∈ items) : i.1 ∈ (stages p).classes := by
    have hi : (i.1, i.2.toBody) ∈ items.map fun i => (i.1, i.2.toBody) := List.mem_map_of_mem hi
    rw [hm] at hi
    obtain ⟨D, hD, hb⟩ := List.mem_flatMap.mp hi
    obtain ⟨b, _, he⟩ := List.mem_map.mp hb
    exact (Prod.mk.inj he).1 ▸ hD
  have hg {β : Type} (g : AnyClass → Body → List β) :
      items.flatMap (fun i => g i.1.declaration i.2.toBody) =
        (classes p).flatMap fun c => (bodies c).flatMap (g c) := by
    calc
      items.flatMap (fun i => g i.1.declaration i.2.toBody)
      _ = (items.map fun i => (i.1, i.2.toBody)).flatMap fun j => g j.1.declaration j.2 := by
        rw [List.flatMap_map]
      _ = (stages p).classes.flatMap fun D => (bodies D.declaration).flatMap (g D.declaration) := by
        rw [hm, List.flatMap_assoc]
        exact congrArg (List.flatMap · _) (funext fun D => List.flatMap_map ..)
      _ = (classes p).flatMap fun c => (bodies c).flatMap (g c) := by
        rw [← classes_stages hn, List.flatMap_map]
  have hids : items.flatMap (fun i => i.2.nodeIds) = bodyIds p := hg fun _ b => b.nodeIds
  have hscopes : (items.map fun i => i.2.scope).Nodup := by
    have hn := ho.nodup
    rwa [← hi, List.map_map] at hn
  have hb := binds_bodies (σ := (stages p).members) (f := fun i => i.2)
    (Γ := fun i => context p i.1.declaration i.2.toBody) items hd.knows (fun _ _ => rfl)
    (hids ▸ nodup_bodyIds hn) hscopes fun i hi => ⟨hd.around (hc i hi) (hopens i hi),
      (hd.lineageScopes (hc i hi)).outermost (hopens i hi)⟩
  have hfinal : ((items.map (·.2)).forM Resolve.methodBody (stages p).members).2 =
      (stages p).final := by
    rw [hi, ← hf]
    rfl
  rw [hids, hg fun c b => visitsOf (context p c b) b, hfinal] at hb
  exact hb

-- The names that are looked up.
def sites (p : Program) : List Site :=
  outerSites p ++ (allVisits p).flatMap Visit.sites

-- The names that are reported are those that are not found.
theorem missing_final (hn : p.nodeIds.Nodup) : (stages p).final.missing = missing (sites p) := by
  obtain ⟨_, _, _, _, hl⟩ := outer_stages hn
  rw [(binds_stages hn).missing, hl.missing, sites, missing_append]
  rfl

theorem noted_final (hn : p.nodeIds.Nodup) (h : .expression Γ e ∈ allVisits p) :
    Noted (stages p).final.table Γ e := by
  obtain ⟨_, _, _, _, hl⟩ := outer_stages hn
  refine (binds_stages hn).noted (fun i _ => ⟨?types, ?references⟩) Γ e h
  case types =>
    rw [SymbolTable.typeOf?, hl.types]
    rfl
  case references =>
    rw [SymbolTable.referenced?, hl.references]
    rfl

end

end Binding

end MiniJava
