import MiniJava.Proofs.Emit.Likeness
import MiniJava.Proofs.Emit.Numbering
import MiniJava.Proofs.Typing.Counterparts

namespace MiniJava

open Resolve Typing

namespace Program

variable {p p' : Program}

-- The fields and methods of a program by the names of their classes and their own, in the order of
-- their handles.
def fieldKeys (p : Program) : List (String × String) :=
  (allClasses p).flatMap fun c => c.fields.map fun d => (c.name, d.name)

def methodKeys (p : Program) : List (String × String) :=
  (allClasses p).flatMap fun c => c.signatures.map fun m => (c.name, m.name)

end Program

-- The map sends the handles of one program to the handles that the same names have in the other.
structure HandleMap.Links (ρ : HandleMap) (p p' : Program) : Prop where
  types   : p.typeNames[k]? = some name → ∃ k', p'.typeNames[k']? = some name ∧
    ρ.types ⟨k⟩ = ⟨k'⟩ ∧ ρ.constructors ⟨k⟩ = ⟨k'⟩
  fields  : p.fieldKeys[k]? = some key → ∃ k', p'.fieldKeys[k']? = some key ∧ ρ.fields ⟨k⟩ = ⟨k'⟩
  methods : p.methodKeys[k]? = some key → ∃ k', p'.methodKeys[k']? = some key ∧ ρ.methods ⟨k⟩ = ⟨k'⟩

theorem index_unique {l : List α} (hn : l.Nodup) {i j : Nat} (hi : l[i]? = some a)
    (hj : l[j]? = some a) : i = j :=
  (List.getElem?_inj (List.getElem?_eq_some_iff.mp hi).1 hn).mp (hi.trans hj.symm)

section

variable {cs : List AnyClass} {f : AnyClass → List β} {g : β → String}

-- What the names of the class and its own tell apart.
theorem nodup_names (hcs : (cs.map (·.name)).Nodup) (hf : ∀ c ∈ cs, ((f c).map g).Nodup) :
    (cs.flatMap fun c => (f c).map fun b => (c.name, g b)).Nodup := by
  refine List.nodup_flatMap.mpr ⟨fun c hc => ?within, ?across⟩
  case within =>
    have h := (hf c hc).map (Prod.mk_right_injective c.name)
    rwa [List.map_map] at h
  case across =>
    refine (List.pairwise_map.mp hcs).imp fun hne k hk hk' => ?_
    obtain ⟨_, _, rfl⟩ := List.mem_map.mp hk
    obtain ⟨_, _, he⟩ := List.mem_map.mp hk'
    exact hne (Prod.mk.inj he).1.symm

theorem exists_name (hc : c ∈ cs) (hb : b ∈ f c) :
    ∃ k : Nat, (cs.flatMap fun c => (f c).map fun b => (c.name, g b))[k]? = some (c.name, g b) :=
  List.mem_iff_getElem?.mp (List.mem_flatMap.mpr ⟨c, hc, List.mem_map_of_mem hb⟩)

theorem getElem?_of_name (hn : (cs.flatMap fun c => (f c).map fun b => (c.name, g b)).Nodup)
    (hc : c ∈ cs) (hb : b ∈ f c) {k : Nat}
    (hk : (cs.flatMap fun c => (f c).map fun b => (c.name, g b))[k]? = some (c.name, g b)) :
    (cs.flatMap f)[k]? = some b := by
  let pairs := cs.flatMap fun c => (f c).map fun b => (c, b)
  have hkeys : (cs.flatMap fun c => (f c).map fun b => (c.name, g b)) =
      pairs.map fun q => (q.1.name, g q.2) := by
    simp [pairs, List.map_flatMap, Function.comp_def]
  have hall : cs.flatMap f = pairs.map (·.2) := by
    simp [pairs, List.map_flatMap, Function.comp_def]
  have hmem : (c, b) ∈ pairs := List.mem_flatMap.mpr ⟨c, hc, List.mem_map_of_mem hb⟩
  obtain ⟨j, hj⟩ := List.mem_iff_getElem?.mp hmem
  rw [hkeys] at hn hk
  have hj' : (pairs.map fun q => (q.1.name, g q.2))[j]? = some (c.name, g b) := by
    rw [List.getElem?_map, hj]
    rfl
  obtain rfl := index_unique hn hj' hk
  rw [hall, List.getElem?_map, hj]
  rfl

end

namespace Accepted

variable {p : Program} {t : SymbolTable}

theorem nodup_fieldKeys (h : Accepted p t) : p.fieldKeys.Nodup := by
  have hw := h.resolved.wellFormed
  refine nodup_names hw.classes fun c hc => ?_
  rcases mem_allClasses.mp hc with ⟨c, _, rfl⟩ | ⟨c, hclass, rfl⟩
  case inl => exact .nil
  case inr => exact hw.fields c hclass

theorem nodup_methodKeys (h : Accepted p t) : p.methodKeys.Nodup := by
  have hw := h.resolved.wellFormed
  refine nodup_names hw.classes fun c hc => ?_
  rcases mem_allClasses.mp hc with ⟨c, _, rfl⟩ | ⟨c, hclass, rfl⟩
  case inl => exact List.nodup_singleton _
  case inr =>
    have hm := hw.methods c hclass
    rwa [AnyClass.signatures, List.map_map]

-- The handle of a field or method is told by its names.
theorem exists_fieldHandle (h : Accepted p t) (ho : t.outlines = p.outerOutlines ++ p.innerOutlines)
    (hc : c ∈ allClasses p) (hd : d ∈ c.fields) (hs : t.declarationOf? s = some d.id) :
    ∃ k, p.fieldKeys[k]? = some (c.name, d.name) ∧
      (Environment.sequential t).fieldHandle s = .ok ⟨k⟩ := by
  obtain ⟨k, hk⟩ := exists_name (g := (·.name)) hc hd
  exact ⟨k, hk, h.fieldHandle_eq ho (getElem?_of_name h.nodup_fieldKeys hc hd hk) hs⟩

theorem exists_methodHandle_of_mem (h : Accepted p t)
    (ho : t.outlines = p.outerOutlines ++ p.innerOutlines) (hc : c ∈ allClasses p)
    (hm : m ∈ c.signatures) (hs : t.HasMethod s m) :
    ∃ k, p.methodKeys[k]? = some (c.name, m.name) ∧
      (Environment.sequential t).methodHandle s = .ok ⟨k⟩ := by
  obtain ⟨k, hk⟩ := exists_name (g := (·.name)) hc hm
  exact ⟨k, hk, h.methodHandle_eq ho (getElem?_of_name h.nodup_methodKeys hc hm hk) hs⟩

end Accepted

-- Two programs with the tables that accept them, and how the handles correspond.
structure Pair (p p' : Program) (t t' : SymbolTable) (ρ : HandleMap) : Prop where
  accepted  : Accepted p t
  accepted' : Accepted p' t'
  outlines  : t.outlines = p.outerOutlines ++ p.innerOutlines
  outlines' : t'.outlines = p'.outerOutlines ++ p'.innerOutlines
  links     : ρ.Links p p'

theorem Pair.of_accepted {p p' : Program} {t t' : SymbolTable} {ρ : HandleMap} (ha : Accepted p t)
    (ht : SymbolTable.ofProgram p = .ok t) (ha' : Accepted p' t')
    (ht' : SymbolTable.ofProgram p' = .ok t') (hρ : ρ.Links p p') : Pair p p' t t' ρ :=
  ⟨ha, ha', outlines_ofProgram ha.proper ha.nodup ht, outlines_ofProgram ha'.proper ha'.nodup ht', hρ⟩

-- A local of two bodies that stands at the same place in both.
inductive SameVariable (b b' : Body) (d d' : VariableDeclaration) : Prop
  | formal (k : Nat) : b.parameters[k]? = some d → b'.parameters[k]? = some d' →
    SameVariable b b' d d'
  | localSlot (k : Nat) : (Statement.localsOf b.statements)[k]? = some d →
    (Statement.localsOf b'.statements)[k]? = some d' → SameVariable b b' d d'

theorem exists_variableAt {t : SymbolTable} (h : t.notes.refersTo i d) :
    ∃ s slot, Emit.variableAt (.sequential t) i = .ok (s, ⟨staticType d.type, d.storage, slot⟩) ∧
      t.symbol? s = some (d.symbol slot) := by
  obtain ⟨s, hs, slot, hx⟩ := h
  exact ⟨s, slot, by simp [Emit.variableAt, Emit.Context.sequential, hs, hx,
    VariableDeclaration.symbol, Symbol.asVariable?], hx⟩

theorem declarationOf?_of_symbol? {t : SymbolTable} {d : VariableDeclaration}
    (h : t.symbol? s = some (d.symbol slot)) : t.declarationOf? s = some d.id := by
  rw [SymbolTable.declarationOf?, h]
  rfl

-- What is related in turn stands at the same place.
theorem forall₂_indexed {R : α → β → Prop} {l : List α} {l' : List β} (h : List.Forall₂ R l l') :
    List.Forall₂ (fun a b => R a b ∧ ∃ k : Nat, l[k]? = some a ∧ l'[k]? = some b) l l' := by
  obtain ⟨hlen, hR⟩ := List.forall₂_iff_get.mp h
  refine List.forall₂_iff_get.mpr ⟨hlen, fun i hi hi' => ⟨hR i hi hi', i, ?left, ?right⟩⟩
  case left => exact List.getElem?_eq_getElem hi
  case right => exact List.getElem?_eq_getElem hi'

namespace Pair

variable {p p' : Program} {t t' : SymbolTable} {ρ : HandleMap}

theorem fieldHandle (h : Pair p p' t t' ρ) (hd : SameField p p' d d')
    (hs : t.declarationOf? s = some d.id) (hs' : t'.declarationOf? s' = some d'.id)
    (hf : (Environment.sequential t).fieldHandle s = .ok f) :
    (Environment.sequential t').fieldHandle s' = .ok (ρ.fields f) := by
  cases hd with | intro hc hc' hname hd hd' hn =>
  obtain ⟨k, hk, hh⟩ := h.accepted.exists_fieldHandle h.outlines hc hd hs
  obtain ⟨k', hk', hh'⟩ := h.accepted'.exists_fieldHandle h.outlines' hc' hd' hs'
  obtain ⟨k'', hk'', hρ⟩ := h.links.fields hk
  rw [hname, hn] at hk'
  obtain rfl := index_unique h.accepted'.nodup_fieldKeys hk' hk''
  obtain rfl := Except.ok.inj (hh.symm.trans hf)
  rw [hρ, hh']

theorem methodHandle (h : Pair p p' t t' ρ) (hm : SameMethod p p' m m') (hs : t.HasMethod s m)
    (hs' : t'.HasMethod s' m') (hh : (Environment.sequential t).methodHandle s = .ok handle) :
    (Environment.sequential t').methodHandle s' = .ok (ρ.methods handle) := by
  cases hm with | intro hc hc' hname hm hm' hn =>
  obtain ⟨k, hk, hk₁⟩ := h.accepted.exists_methodHandle_of_mem h.outlines hc hm hs
  obtain ⟨k', hk', hh'⟩ := h.accepted'.exists_methodHandle_of_mem h.outlines' hc' hm' hs'
  obtain ⟨k'', hk'', hρ⟩ := h.links.methods hk
  rw [hname, hn] at hk'
  obtain rfl := index_unique h.accepted'.nodup_methodKeys hk' hk''
  obtain rfl := Except.ok.inj (hk₁.symm.trans hh)
  rw [hρ, hh']

theorem typeHandle (h : Pair p p' t t' ρ) (hh : (Environment.sequential t).typeHandle name = .ok τ) :
    (Environment.sequential t').typeHandle name = .ok (ρ.types τ) := by
  obtain ⟨k', hk', hρ, _⟩ := h.links.types ((h.accepted.typeHandle_eq_ok h.outlines).mp hh)
  exact (h.accepted'.typeHandle_eq_ok h.outlines').mpr (hρ ▸ hk')

theorem constructor (h : Pair p p' t t' ρ)
    (hh : (Environment.sequential t).typeHandle name = .ok τ)
    (hc : (Environment.sequential t).constructor τ = .ok c) :
    (Environment.sequential t').constructor (ρ.types τ) = .ok (ρ.constructors c) := by
  have hk := (h.accepted.typeHandle_eq_ok h.outlines).mp hh
  obtain ⟨hn, hcn⟩ := (h.accepted.constructor_eq_ok h.outlines hk).mp hc
  obtain ⟨k', hk', hρ, hρc⟩ := h.links.types hk
  obtain rfl : c = ⟨τ.number⟩ := congrArg ConstructorHandle.mk hcn
  rw [hρ, hρc]
  exact (h.accepted'.constructor_eq_ok h.outlines' (τ := ⟨k'⟩) hk').mpr ⟨hn, rfl⟩

section

variable {b b' : Body} {P : Position → Position → Prop}

theorem storage_eq (h : Pair p p' t t' ρ) (hb : Slotted t b) (hb' : Slotted t' b')
    (hA : SameField p p' d d' ∨ SameVariable b b' d d') : d'.storage = d.storage := by
  rcases hA with hA | hA
  case inl =>
    cases hA with | intro hc hc' _ hd hd' _ =>
    rw [h.accepted.storage_of_field hc hd, h.accepted'.storage_of_field hc' hd']
  case inr =>
    cases hA with
    | formal _ hd hd'    =>
      rw [hb.formal d (List.mem_of_getElem? hd), hb'.formal d' (List.mem_of_getElem? hd')]
    | localSlot _ hd hd' =>
      rw [hb.localSlot d (List.mem_of_getElem? hd), hb'.localSlot d' (List.mem_of_getElem? hd')]

theorem slot_eq (h : Pair p p' t t' ρ) (hb : Slotted t b) (hb' : Slotted t' b')
    (hA : SameField p p' d d' ∨ SameVariable b b' d d') (hd : d.storage ≠ .field)
    (hs : HasSlot t d slot) (hs' : HasSlot t' d' slot') : slot' = slot := by
  rcases hA with hA | hA
  case inl =>
    cases hA with | intro hc _ _ hd' _ _ => exact absurd (h.accepted.storage_of_field hc hd') hd
  case inr =>
    cases hA with
    | formal k hk hk'    =>
      rw [hasSlot_unique hb.faithful hs (hb.formals k d hk),
        hasSlot_unique hb'.faithful hs' (hb'.formals k d' hk')]
    | localSlot k hk hk' =>
      rw [hasSlot_unique hb.faithful hs (hb.locals k d hk),
        hasSlot_unique hb'.faithful hs' (hb'.locals k d' hk')]

-- What is noted of the nodes of two bodies agrees, so the code does.
theorem agreement (h : Pair p p' t t' ρ) (hb : Slotted t b) (hb' : Slotted t' b') :
    Emit.Agreement (noted P (fun d d' => SameField p p' d d' ∨ SameVariable b b' d d')
      (SameMethod p p') t.notes t'.notes) ρ (.sequential t) (.sequential t') where
  types {k i i' τ} hk hn ht := by
    have hτ : ∃ τ, t.typeOf? i = some τ ∧ t'.typeOf? i' = some τ := by
      cases k with
      | expression       => exact hn
      | reference | call => exact hn.1
      | other            => exact absurd rfl hk
    obtain ⟨υ, hυ, hυ'⟩ := hτ
    obtain rfl := Option.some.inj (ht.symm.trans hυ)
    show _ = some (τ.rename id)
    rwa [StaticType.rename_id]
  refers {i i' s v} hn hv := by
    obtain ⟨_, d, d', hA, hr, hr'⟩ := hn
    obtain ⟨s₁, slot, hv₁, hx⟩ := exists_variableAt hr
    obtain ⟨s', slot', hv', hx'⟩ := exists_variableAt hr'
    obtain ⟨rfl, rfl⟩ := Prod.mk.inj (Except.ok.inj (hv₁.symm.trans hv))
    refine ⟨s', _, hv', h.storage_eq hb hb' hA, fun hd => ?slot, fun f hd hf => ?field⟩
    case slot => exact h.slot_eq hb hb' hA hd ⟨_, hx⟩ ⟨_, hx'⟩
    case field =>
      refine h.fieldHandle (hA.resolve_right fun hv => ?_) (declarationOf?_of_symbol? hx)
        (declarationOf?_of_symbol? hx') hf
      cases hv with
      | formal _ hd' _    => cases hd.symm.trans (hb.formal d (List.mem_of_getElem? hd'))
      | localSlot _ hd' _ => cases hd.symm.trans (hb.localSlot d (List.mem_of_getElem? hd'))
  calls hn hs hm := by
    obtain ⟨_, m, m', hmm, ⟨s₁, hs₁, hx⟩, s', hs', hx'⟩ := hn
    obtain rfl := Option.some.inj (hs₁.symm.trans hs)
    exact ⟨s', hs', h.methodHandle hmm hx hx' hm⟩
  objects hh hc := ⟨_, h.typeHandle hh, h.constructor hh hc⟩
  arrays hh := h.typeHandle hh

-- Bodies that are alike, in classes that are counterparts, have chunks that are alike.
theorem chunk_like (h : Pair p p' t t' ρ) (hclasses : ClassesLike P p p')
    (hc : Counterparts P p p' c c') (hb : b ∈ c.bodies) (hb' : b' ∈ c'.bodies)
    (hl : b.Like P b') (hchunk : Emit.chunk (.sequential t) b.statements = .ok k) :
    ∃ k', Emit.chunk (.sequential t') b'.statements = .ok k' ∧ k.Like P ρ k' := by
  let A d d' := SameField p p' d d' ∨ SameVariable b b' d d'
  obtain ⟨l, hlineage⟩ := h.accepted.exists_lineage hc.mem
  obtain ⟨l', hlineage', hll⟩ := hlineage.move hclasses hc
  obtain ⟨F, hF⟩ := (h.accepted.resolved.passes c l hlineage b hb).checks.statements
  obtain ⟨F', hF'⟩ := (h.accepted'.resolved.passes c' l' hlineage' b' hb').checks.statements
  have hΓ : Context.Like P A (SameMethod p p') (bodyContext p c l b) (bodyContext p' c' l' b') :=
    bodyContext_like hclasses h.accepted'.resolved.wellFormed.classes (fun _ _ => .inl) hll hc hl.inMain
  have hformals : List.Forall₂ (Matches P A) b.parameters.reverse b'.parameters.reverse :=
    List.forall₂_reverse_iff.mpr ((forall₂_indexed hl.parameters).imp
      fun _ _ ⟨hd, k, hk, hk'⟩ => ⟨hd, .inr (.formal k hk hk')⟩)
  have hlocals : List.Forall₂ A (Statement.localsOf b.statements) (Statement.localsOf b'.statements) :=
    (forall₂_indexed hl.statements.locals).imp fun _ _ ⟨_, k, hk, hk'⟩ => .inr (.localSlot k hk hk')
  have hslotted := h.accepted.slotted hc.mem hb
  have hslotted' := h.accepted'.slotted hc.mem' hb'
  have hn := (h.accepted.nodup_body hc.mem hb).of_append_right
  have hn' := (h.accepted'.nodup_body hc.mem' hb').of_append_right
  exact Emit.chunk_like (h.agreement hslotted hslotted') hchunk hF
    (hF.like hΓ hF' hl.statements hformals hlocals) hn hn'

-- Both codes have an entry for a method, with chunks that are alike.
inductive EntriesLike (P : Position → Position → Prop) (ρ : HandleMap) (t t' : SymbolTable)
    (code code' : ProgramCode) (task task' : Emit.MethodTask) : Prop
  | intro {handle entry entry'} :
    (Environment.sequential t).methodHandle task.symbol = .ok handle →
    (Environment.sequential t').methodHandle task'.symbol = .ok (ρ.methods handle) →
    code[handle.number]? = some entry → code'[(ρ.methods handle).number]? = some entry' →
    entry'.name = entry.name → entry.chunk.Like P ρ entry'.chunk →
    EntriesLike P ρ t t' code code' task task'

theorem entries (h : Pair p p' t t' ρ) (hclasses : ClassesLike P p p')
    (hcode : ProgramCode.generate t (.sequential t) p = .ok code)
    (hcode' : ProgramCode.generate t' (.sequential t') p' = .ok code')
    (ht : Emit.IsTask (.sequential t) p task) (ht' : Emit.IsTask (.sequential t') p' task')
    (hof : Emit.MethodOf p t task c m b) (hof' : Emit.MethodOf p' t' task' c' m' b')
    (hc : Counterparts P p p' c c') (hclass : task'.className = task.className)
    (hname : m'.name = m.name) (hl : b.Like P b') :
    EntriesLike P ρ t t' code code' task task' := by
  obtain ⟨handle, entry, hh, he, hchunk⟩ := h.accepted.exists_entry hcode ht
  obtain ⟨handle', entry', hh', he', hchunk'⟩ := h.accepted'.exists_entry hcode' ht'
  have hsame : SameMethod p p' m m' :=
    .intro hc.mem hc.mem' hc.like.name hof.signature hof'.signature hname
  obtain rfl := Except.ok.inj (hh'.symm.trans (h.methodHandle hsame hof.symbol hof'.symbol hh))
  obtain ⟨k, hk, hlike⟩ :=
    h.chunk_like hclasses hc hof.body hof'.body hl (hof.statements ▸ hchunk.chunk)
  rw [hof'.statements] at hk
  obtain rfl := Except.ok.inj (hk.symm.trans hchunk'.chunk)
  refine .intro hh hh' he he' ?_ hlike
  obtain ⟨_, _, hx⟩ := hof.symbol
  obtain ⟨_, _, hx'⟩ := hof'.symbol
  rw [h.accepted.name_of_entry hcode ht hh he, h.accepted'.name_of_entry hcode' ht' hh' he',
    Emit.MethodTask.title, Emit.MethodTask.title, hclass]
  simp [Emit.Context.sequential, hx, hx', hname]

-- Whatever order classes and members stand in, every method that is not exempt has its entry.
theorem exists_entries (h : Pair p p' t t' ρ) (hl : p.Permuted P e p')
    (hcode : ProgramCode.generate t (.sequential t) p = .ok code)
    (hcode' : ProgramCode.generate t' (.sequential t') p' = .ok code')
    (ht : Emit.IsTask (.sequential t) p task) (hx : t.symbol? task.symbol = some x)
    (he : ¬e task.className x.name) :
    ∃ task' x', Emit.IsTask (.sequential t') p' task' ∧ task'.className = task.className ∧
      t'.symbol? task'.symbol = some x' ∧ x'.name = x.name ∧
      EntriesLike P ρ t t' code code' task task' := by
  have hw := h.accepted.resolved.wellFormed
  have hclasses := classesLike hl hw.fields hw.methods
  cases ht with
  | main hc hs =>
    obtain ⟨c', hc', hlike, hcp⟩ := counterparts_main hl hc
    obtain ⟨s', hs', _, _, hx'⟩ := h.accepted'.exists_mainSymbol hc'
    have hof := h.accepted.methodOf_main hc hs
    have hof' := h.accepted'.methodOf_main hc' hs'
    obtain ⟨_, _, hx₁⟩ := hof.symbol
    obtain rfl := Option.some.inj (hx₁.symm.trans hx)
    exact ⟨_, _, .main hc' hs', hlike.name, hx', rfl, h.entries hclasses hcode hcode' (.main hc hs)
      (.main hc' hs') hof hof' hcp hlike.name rfl ⟨rfl, .nil, hlike.body he⟩⟩
  | method hc hm hs =>
    obtain ⟨c', hc', hcc, hcp⟩ := counterparts_regular hl hc (hw.fields _ hc) (hw.methods _ hc)
    obtain ⟨m', hm', hlike⟩ := counterpart_method hcc hm
    obtain ⟨s', hs', _, _, hx'⟩ := h.accepted'.exists_methodSymbol hc' hm'
    have hof := h.accepted.methodOf_method hc hm hs
    have hof' := h.accepted'.methodOf_method hc' hm' hs'
    obtain ⟨_, _, hx₁⟩ := hof.symbol
    obtain rfl := Option.some.inj (hx₁.symm.trans hx)
    exact ⟨_, _, .method hc' hm' hs', hcp.like.name, hx', hlike.name,
      h.entries hclasses hcode hcode' (.method hc hm hs) (.method hc' hm' hs') hof hof' hcp
        hcp.like.name hlike.name ⟨rfl, hlike.parameters, hlike.body he⟩⟩

end

end Pair

end MiniJava
