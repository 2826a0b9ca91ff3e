import Mathlib.Data.List.Nodup
import MiniJava.Proofs.Binding.Program
import MiniJava.Proofs.Binding.Slots
import MiniJava.Proofs.Reading.Program

namespace MiniJava

namespace Binding

open Resolve (AnyClass MethodBody Declares Plain allClasses outerIds stages start)
open Typing

-- The slots of the variables of a body.
structure Allotted (t : SymbolTable) (b : Body) : Prop where
  formals  : ∀ (i : Nat) d, b.parameters[i]? = some d →
    t.slot? d = if isFree (b.parameters.take i) d then some (index (i + 1)) else none
  locals   : (Statement.localsOf b.statements).filterMap t.slot? =
    (List.range ((localTrials b).countP (·.free))).map index
  defined  : ∀ a ∈ localTrials b, (t.slot? a.declaration).isSome = a.free
  distinct : ((Statement.localsOf b.statements).filterMap fun d => (t.slot? d).join).Nodup

theorem index_eq_some (h : index n = some k) : n = k := by
  rw [index] at h
  split at h
  case isTrue  => exact Option.some.inj h
  case isFalse => cases h

theorem allotted_of_granted (h : ∀ r ∈ requests b, Granted t r) : Allotted t b := by
  obtain ⟨hf, hl⟩ := List.forall_mem_append.mp h
  have hlocals : (Statement.localsOf b.statements).filterMap t.slot? =
      (List.range ((localTrials b).countP (·.free))).map index := by
    rw [List.range_eq_range', ← filterMap_slot? _ hl, localTrials, map_declaration_trialsAll]
  constructor
  case formals  =>
    intro i d hd
    have hi := getElem?_formalRequests 1 [] b.parameters i
    rw [hd, Option.map_some, List.nil_append, Nat.add_comm] at hi
    exact (hf _ (List.mem_of_getElem? hi)).slot?_eq
  case locals   => exact hlocals
  case defined  =>
    intro a ha
    rw [← map_toTrial_localRequests 0 (localTrials b)] at ha
    obtain ⟨r, hr, rfl⟩ := List.mem_map.mp ha
    rw [(hl r hr).slot?_eq]
    cases r.free <;> rfl
  case distinct =>
    have hj : ((Statement.localsOf b.statements).filterMap fun d => (t.slot? d).join) =
        (List.range ((localTrials b).countP (·.free))).filterMap index := by
      have hl := congrArg (·.filterMap id) hlocals
      rwa [List.filterMap_filterMap, List.filterMap_map] at hl
    rw [hj]
    refine List.nodup_range.filterMap fun n n' k hn hn' => ?_
    exact (index_eq_some hn).trans (index_eq_some hn').symm

theorem id_mem_memberIds {c : AnyClass} (h : d ∈ c.fields) : d.id ∈ c.memberIds := by
  cases c with
  | main _    => cases h
  | regular c =>
    obtain ⟨m, hm, hd⟩ := List.mem_filterMap.mp h
    refine List.mem_flatMap.mpr ⟨m, hm, ?_⟩
    cases m with
    | field _     =>
      obtain rfl := Option.some.inj hd
      exact List.mem_singleton_self _
    | method _    => cases hd
    | malformed _ => cases hd

section

variable {p : Program}

theorem map_toBody_stages (hn : p.nodeIds.Nodup) :
    (stages p).bodies.map (·.toBody) = (classes p).flatMap bodies := by
  obtain ⟨bss, _, hf, ho, _⟩ := outer_stages hn
  obtain ⟨items, hi, hm, _⟩ := Resolve.exists_items ho.bodies
  calc
    (stages p).bodies.map (·.toBody)
    _ = (items.map fun i => (i.1, i.2.toBody)).map (·.2) := by
      rw [hf, ← hi, List.map_map, List.map_map]
      rfl
    _ = (stages p).classes.flatMap fun D => bodies D.declaration := by
      rw [hm, List.map_flatMap]
      simp [Function.comp_def]
    _ = (classes p).flatMap bodies := by
      rw [← classes_stages hn, List.flatMap_map]

theorem declares_members (hn : p.nodeIds.Nodup) :
    Declares (outerIds p) start (stages p).members := by
  obtain ⟨hids, hrest, hd⟩ := List.nodup_append'.mp ((Resolve.nodeIds_perm p).nodup_iff.mp hn)
  obtain ⟨hmids, _, _⟩ := List.nodup_append'.mp hrest
  obtain ⟨hd, _⟩ := List.disjoint_append_right.mp hd
  have hsub : ((classes p).flatMap AnyClass.memberIds).Sublist
      ((allClasses p).flatMap AnyClass.memberIds) := (accepted_sublist _ _ _).flatMap _
  have hm : (stages p).classes.flatMap (·.declaration.memberIds) =
      (classes p).flatMap AnyClass.memberIds := by
    rw [← classes_stages hn, List.flatMap_map]
  have hclasses : Declares ((allClasses p).flatMap fun c => [c.id]) start (stages p).defined :=
    .mapM (fun c σ _ => Declares.defineClass c σ) (allClasses p) start (by rwa [← List.map_eq_flatMap])
  have hlinked := Declares.linkSuperclasses (stages p).classes (stages p).defined
  have hmembers : Declares ((stages p).classes.flatMap (·.declaration.memberIds)) (stages p).linked
      (stages p).members :=
    .mapM Declares.defineMembers (stages p).classes (stages p).linked (hm ▸ hmids.sublist hsub)
  rw [← List.map_eq_flatMap] at hclasses
  rw [hm] at hmembers
  have hall := hclasses.append (hlinked.before hmembers) fun _ h h' => hd h (hsub.subset h')
  exact hall.mono (List.append_subset.mpr
    ⟨List.subset_append_left _ _, List.subset_append_of_subset_right _ hsub.subset⟩)

-- The formals and the locals of the bodies.
def variableIds (p : Program) : List NodeId :=
  (stages p).bodies.flatMap MethodBody.variableIds

theorem variableIds_sublist (hn : p.nodeIds.Nodup) : (variableIds p).Sublist (bodyIds p) := by
  have hs : (variableIds p).Sublist ((stages p).bodies.flatMap (·.nodeIds)) :=
    .flatMap_right _ fun b _ => b.variableIds_sublist
  have hb : (stages p).bodies.flatMap (·.nodeIds) = bodyIds p := by
    rw [bodyIds, ← List.flatMap_assoc, ← map_toBody_stages hn, List.flatMap_map]
    rfl
  exact hb ▸ hs

theorem disjoint_variableIds (hn : p.nodeIds.Nodup) : (outerIds p).Disjoint (variableIds p) := by
  obtain ⟨_, hrest, hd⟩ := List.nodup_append'.mp ((Resolve.nodeIds_perm p).nodup_iff.mp hn)
  obtain ⟨_, _, hmd⟩ := List.nodup_append'.mp hrest
  obtain ⟨_, hd⟩ := List.disjoint_append_right.mp hd
  have hs := ((variableIds_sublist hn).trans (bodyIds_sublist p)).subset
  exact List.disjoint_of_subset_right hs (List.disjoint_append_left.mpr ⟨hd, hmd⟩)

theorem plain_members (p : Program) :
    (stages p).members.notices.filter (·.isExhausted) = [] ∧ (stages p).members.table.Unslotted := by
  have hc : Plain start (stages p).defined := .mapM Plain.defineClass (allClasses p) start
  have hm : Plain (stages p).linked (stages p).members :=
    .mapM Plain.defineMembers (stages p).classes (stages p).linked
  obtain ⟨hl, hu⟩ := Resolve.plain_linkSuperclasses (stages p).classes (stages p).defined
  refine ⟨?_, hm.unslotted (hu (hc.unslotted nofun))⟩
  calc
    (stages p).members.notices.filter (·.isExhausted)
    _ = (stages p).linked.notices.filter (·.isExhausted)  := congrArg _ hm.quiet
    _ = (stages p).defined.notices.filter (·.isExhausted) := hl
    _ = start.notices.filter (·.isExhausted)              := congrArg _ hc.quiet
    _ = []                                                := rfl

theorem provides_stages (hn : p.nodeIds.Nodup) :
    (∀ b ∈ (stages p).bodies, ∀ r ∈ requests b.toBody, Granted (stages p).final.table r) ∧
      (stages p).final.notices =
        (stages p).members.notices ++
          (stages p).bodies.flatMap fun b => refusals (requests b.toBody) := by
  obtain ⟨bss, _, hf, ho, _⟩ := outer_stages hn
  obtain ⟨items, hi, _, hopens⟩ := Resolve.exists_items ho.bodies
  refine provides_bodies (stages p).bodies (hf ▸ ho.nodup) (fun b hb => ?framed) ?nodup
    fun i hi => ?fresh
  case framed =>
    rw [hf, ← hi] at hb
    obtain ⟨i, hi, rfl⟩ := List.mem_map.mp hb
    obtain ⟨_, ho⟩ := hopens i hi
    exact .of_empty ho
  case nodup => exact (nodup_bodyIds hn).sublist (variableIds_sublist hn)
  case fresh =>
    exact (declares_members hn).declaredBy? i fun h => disjoint_variableIds hn h hi

theorem allotted_final (hn : p.nodeIds.Nodup) (hc : c ∈ classes p) (hb : b ∈ bodies c) :
    Allotted (stages p).final.table b := by
  have hm : b ∈ (stages p).bodies.map (·.toBody) :=
    map_toBody_stages hn ▸ List.mem_flatMap.mpr ⟨c, hc, hb⟩
  obtain ⟨b', hb', rfl⟩ := List.mem_map.mp hm
  exact allotted_of_granted ((provides_stages hn).1 b' hb')

theorem exhausted_final (hn : p.nodeIds.Nodup) :
    (stages p).final.diagnostics.toList.filter (·.isExhausted) =
      (classes p).flatMap fun c => (bodies c).flatMap fun b => refusals (requests b) := by
  have hr : (stages p).bodies.flatMap (fun b => refusals (requests b.toBody)) =
      (classes p).flatMap fun c => (bodies c).flatMap fun b => refusals (requests b) := by
    rw [← List.flatMap_assoc, ← map_toBody_stages hn, List.flatMap_map]
  rw [← Resolve.filter_isExhausted_notices, (provides_stages hn).2, List.filter_append,
    (plain_members p).1, List.nil_append, hr]
  refine List.filter_eq_self.mpr fun d hd => ?_
  obtain ⟨c, _, hd⟩ := List.mem_flatMap.mp hd
  obtain ⟨b, _, hd⟩ := List.mem_flatMap.mp hd
  obtain ⟨r, rfl⟩ := exists_of_mem_refusals hd
  rfl

theorem declaredBy?_final (hn : p.nodeIds.Nodup) (hi : i ∈ outerIds p) :
    (stages p).final.table.declaredBy? i = (stages p).members.table.declaredBy? i :=
  have hv := (nodup_bodyIds hn).sublist (variableIds_sublist hn)
  (declares_bodies (stages p).bodies hv).declaredBy? i (disjoint_variableIds hn hi)

theorem id_mem_outerIds (hc : c ∈ allClasses p) (hd : d ∈ c.fields) : d.id ∈ outerIds p :=
  List.mem_append_right _ (List.mem_flatMap.mpr ⟨c, hc, id_mem_memberIds hd⟩)

theorem fields_final (hn : p.nodeIds.Nodup) (hc : c ∈ allClasses p) (hd : d ∈ c.fields)
    (hs : (stages p).final.table.slot? d = some slot) : slot = none :=
  (plain_members p).2.slot?_eq_none (keeps_bodies _ _)
    (declaredBy?_final hn (id_mem_outerIds hc hd)) slot hs

-- The first field of a name is defined.
theorem isSome_slot?_final (hn : p.nodeIds.Nodup) (hc : c ∈ classes p)
    (hf : c.fields.find? (·.name = name) = some d) :
    ((stages p).final.table.slot? d).isSome := by
  have hi : d.id ∈ outerIds p :=
    id_mem_outerIds ((accepted_sublist _ _ _).subset hc) (List.mem_of_find?_eq_some hf)
  obtain ⟨_, hdeclared, _⟩ := outer_stages hn
  rw [← classes_stages hn] at hc
  obtain ⟨D, hD, rfl⟩ := List.mem_map.mp hc
  obtain ⟨b, _, _, _, _, hh, _⟩ := (hdeclared.members hD).scope
  have hh := hh name
  rw [hf] at hh
  cases hx : b.lookup .variableNames name with
  | none   => rw [hx] at hh; cases hh
  | some x =>
    rw [hx] at hh
    cases hh with
    | some hv =>
      obtain ⟨slot, hs⟩ := hv
      have hfaithful : (stages p).members.table.Faithful :=
        (declares_members hn).faithful
          (fun s i hi => by cases (Resolve.declarationOf?_builtinTable s).symm.trans hi) fun i _ => rfl
      have hdx : (stages p).members.table.declarationOf? x = some d.id := by
        rw [SymbolTable.declarationOf?, hs]
        rfl
      have ha : (stages p).final.table.Allots d slot :=
        ⟨x, (declaredBy?_final hn hi).trans (hfaithful x d.id hdx), keeps_bodies _ _ x _ hs⟩
      rw [ha.slot?_eq]
      rfl

end

-- What is found out of the slots of a program. The first field of a name is defined, too.
structure Slotted (p : Program) (r : ResolvedProgram) : Prop where
  bodies      : ∀ c ∈ classes p, ∀ b ∈ Binding.bodies c, Allotted r.table b
  fields      : ∀ c ∈ allClasses p, ∀ d ∈ c.fields, ∀ slot, r.table.slot? d = some slot → slot = none
  found       : ∀ c ∈ classes p, ∀ name d, c.fields.find? (·.name = name) = some d →
    (r.table.slot? d).isSome
  diagnostics : r.diagnostics.filter (·.isExhausted) =
    (classes p).flatMap fun c => (Binding.bodies c).flatMap fun b => refusals (requests b)

theorem slotted_ofProgram (hn : p.nodeIds.Nodup) : Slotted p (ResolvedProgram.ofProgram p) where
  bodies _ hc _ hb      := allotted_final hn hc hb
  fields _ hc _ hd _ hs := fields_final hn hc hd hs
  found _ hc _ _ hf     := isSome_slot?_final hn hc hf
  diagnostics           := exhausted_final hn

end Binding

-- In every body the formals have the slots from one on and the locals that are defined those from
-- zero on, whatever blocks they are in.
theorem ResolvedProgram.slotted_ofStream (s : TokenStream) :
    Binding.Slotted (ParsedProgram.ofStream s).program
      (ResolvedProgram.ofProgram (ParsedProgram.ofStream s).program) :=
  Binding.slotted_ofProgram (ParsedProgram.nodup_nodeIds s)

end MiniJava
