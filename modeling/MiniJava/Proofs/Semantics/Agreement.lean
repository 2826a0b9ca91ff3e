import MiniJava.Proofs.Emit.Accepted
import MiniJava.Proofs.Semantics.Evaluation
import MiniJava.Proofs.Semantics.Machine

namespace MiniJava

open Resolve (HasSlot Slots allClasses)

-- The formals and the locals.
def Body.variables (b : Body) : List VariableDeclaration :=
  b.parameters ++ Statement.localsOf b.statements

-- The formals and the locals of a body have slots.
structure Slotted (t : SymbolTable) (b : Body) : Prop where
  faithful  : t.Faithful
  formals   : Slots t b.parameters 1
  locals    : Slots t (Statement.localsOf b.statements) 0
  formal    : ∀ d ∈ b.parameters, d.storage = .formal
  localSlot : ∀ d ∈ Statement.localsOf b.statements, d.storage = .localSlot
  nodup     : (b.variables.map (·.id)).Nodup

-- The registers hold what the memory holds.
structure Agrees (t : SymbolTable) (b : Body) (object : V) (σ : Memory V) (f : Registers V) :
    Prop where
  object  : f.arguments 0 = object
  formals : ∀ d ∈ b.parameters, ∀ k, HasSlot t d (some k) → f.arguments k = σ d.id
  locals  : ∀ d ∈ Statement.localsOf b.statements, ∀ k, HasSlot t d (some k) →
    f.locals k = σ d.id

section

variable {t : SymbolTable} {b : Body} {ds : List VariableDeclaration}

theorem hasSlot_unique (h : t.Faithful) (hs : HasSlot t d slot) (hs' : HasSlot t d slot') :
    slot = slot' := by
  obtain ⟨s, hx⟩ := hs
  obtain ⟨s', hx'⟩ := hs'
  have hdecl {s slot} (hx : t.symbol? s = some (d.symbol slot)) : t.declarationOf? s = some d.id := by
    rw [SymbolTable.declarationOf?, hx]
    rfl
  obtain rfl := h.unique (hdecl hx) (hdecl hx')
  simpa [VariableDeclaration.symbol] using Option.some.inj (hx.symm.trans hx')

-- The slot of a declaration tells where the declaration stands.
theorem getElem?_of_slot (h : t.Faithful) (hs : Slots t ds next) (hd : d ∈ ds)
    (hk : HasSlot t d (some k)) : ∃ j, k = next + j ∧ ds[j]? = some d := by
  obtain ⟨j, hj⟩ := List.mem_iff_getElem?.mp hd
  exact ⟨j, Option.some.inj (hasSlot_unique h hk (hs j d hj)), hj⟩

theorem eq_of_slot (h : t.Faithful) (hs : Slots t ds next) (hd : d ∈ ds) (hd' : d' ∈ ds)
    (hk : HasSlot t d (some k)) (hk' : HasSlot t d' (some k)) : d = d' := by
  obtain ⟨j, hj, hdj⟩ := getElem?_of_slot h hs hd hk
  obtain ⟨j', hj', hdj'⟩ := getElem?_of_slot h hs hd' hk'
  obtain rfl : j = j' := by omega
  exact Option.some.inj (hdj.symm.trans hdj')

end

namespace Body

variable {b : Body}

theorem mem_variables : d ∈ b.variables ↔ d ∈ b.parameters ∨ d ∈ Statement.localsOf b.statements :=
  List.mem_append

end Body

section

variable {t : SymbolTable} {b : Body} {object : V} {σ : Memory V} {f : Registers V}

namespace Slotted

theorem eq_of_id (h : Slotted t b) (hd : d ∈ b.variables) (hd' : d' ∈ b.variables)
    (he : d.id = d'.id) : d = d' :=
  List.inj_on_of_nodup_map h.nodup hd hd' he

theorem mem_parameters (h : Slotted t b) (hd : d ∈ b.variables) (hs : d.storage = .formal) :
    d ∈ b.parameters := by
  rcases Body.mem_variables.mp hd with hd | hd
  case inl => exact hd
  case inr => cases hs.symm.trans (h.localSlot d hd)

theorem mem_locals (h : Slotted t b) (hd : d ∈ b.variables) (hs : d.storage = .localSlot) :
    d ∈ Statement.localsOf b.statements := by
  rcases Body.mem_variables.mp hd with hd | hd
  case inl => cases hs.symm.trans (h.formal d hd)
  case inr => exact hd

theorem id_ne (h : Slotted t b) (hd : d ∈ b.parameters) (hd' : d' ∈ Statement.localsOf b.statements) :
    d.id ≠ d'.id := by
  intro he
  obtain rfl := h.eq_of_id (Body.mem_variables.mpr (.inl hd)) (Body.mem_variables.mpr (.inr hd')) he
  cases (h.formal d hd).symm.trans (h.localSlot d hd')

end Slotted

namespace Agrees

theorem setArgument (hs : Slotted t b) (ha : Agrees t b object σ f) (hd : d ∈ b.parameters)
    (hk : HasSlot t d (some k)) (v : V) :
    Agrees t b object (Function.update σ d.id v) (f.setArgument k v) where
  object := by
    obtain ⟨j, hj, _⟩ := getElem?_of_slot hs.faithful hs.formals hd hk
    rw [Registers.arguments_setArgument, Function.update_of_ne (by omega), ha.object]
  formals d' hd' k' hk' := by
    by_cases he : k' = k
    case pos =>
      subst he
      obtain rfl := eq_of_slot hs.faithful hs.formals hd hd' hk hk'
      simp
    case neg =>
      have hne : d'.id ≠ d.id := fun hi => he <| by
        obtain rfl := hs.eq_of_id (Body.mem_variables.mpr (.inl hd'))
          (Body.mem_variables.mpr (.inl hd)) hi
        exact Option.some.inj (hasSlot_unique hs.faithful hk' hk)
      rw [Registers.arguments_setArgument, Function.update_of_ne he, Function.update_of_ne hne,
        ha.formals d' hd' k' hk']
  locals d' hd' k' hk' := by
    rw [Registers.locals_setArgument, Function.update_of_ne (hs.id_ne hd hd').symm]
    exact ha.locals d' hd' k' hk'

theorem setLocal (hs : Slotted t b) (ha : Agrees t b object σ f)
    (hd : d ∈ Statement.localsOf b.statements) (hk : HasSlot t d (some k)) (v : V) :
    Agrees t b object (Function.update σ d.id v) (f.setLocal k v) where
  object := ha.object
  formals d' hd' k' hk' := by
    rw [Registers.arguments_setLocal, Function.update_of_ne (hs.id_ne hd' hd)]
    exact ha.formals d' hd' k' hk'
  locals d' hd' k' hk' := by
    by_cases he : k' = k
    case pos =>
      subst he
      obtain rfl := eq_of_slot hs.faithful hs.locals hd hd' hk hk'
      simp
    case neg =>
      have hne : d'.id ≠ d.id := fun hi => he <| by
        obtain rfl := hs.eq_of_id (Body.mem_variables.mpr (.inr hd'))
          (Body.mem_variables.mpr (.inr hd)) hi
        exact Option.some.inj (hasSlot_unique hs.faithful hk' hk)
      rw [Registers.locals_setLocal, Function.update_of_ne he, Function.update_of_ne hne,
        ha.locals d' hd' k' hk']

end Agrees

-- The memory that registers stand for.
def Body.memory (b : Body) (f : Registers V) : Memory V := fun i =>
  let formals := b.parameters.map (·.id)
  if i ∈ formals then f.arguments (1 + formals.idxOf i)
  else f.locals (((Statement.localsOf b.statements).map (·.id)).idxOf i)

theorem idxOf_id {ds : List VariableDeclaration} (hn : (ds.map (·.id)).Nodup)
    (hj : ds[j]? = some d) : (ds.map (·.id)).idxOf d.id = j := by
  obtain ⟨hlt, rfl⟩ := List.getElem?_eq_some_iff.mp hj
  have hi := hn.idxOf_getElem j (by simpa using hlt)
  rwa [List.getElem_map] at hi

theorem agrees_memory (hs : Slotted t b) (f : Registers V) :
    Agrees t b (f.arguments 0) (b.memory f) f where
  object := rfl
  formals d hd k hk := by
    obtain ⟨j, rfl, hj⟩ := getElem?_of_slot hs.faithful hs.formals hd hk
    have hn : (b.parameters.map (·.id)).Nodup := hs.nodup.sublist
      ((List.sublist_append_left _ _).map _)
    simp only [Body.memory, if_pos (List.mem_map_of_mem hd), idxOf_id hn hj]
  locals d hd k hk := by
    obtain ⟨j, rfl, hj⟩ := getElem?_of_slot hs.faithful hs.locals hd hk
    have hn : ((Statement.localsOf b.statements).map (·.id)).Nodup := hs.nodup.sublist
      ((List.sublist_append_right _ _).map _)
    have hne : d.id ∉ b.parameters.map (·.id) := fun hi =>
      have ⟨_, hd', he⟩ := List.mem_map.mp hi
      hs.id_ne hd' hd he
    simp only [Body.memory, if_neg hne, idxOf_id hn hj, Nat.zero_add]

-- There are registers for every memory.
theorem exists_agrees (hs : Slotted t b) (object : V) (σ : Memory V) : ∃ f, Agrees t b object σ f := by
  let argument (k : Nat) : V :=
    if k = 0 then object else (b.parameters[k - 1]?.map fun d => σ d.id).getD object
  let slot (k : Nat) : V := ((Statement.localsOf b.statements)[k]?.map fun d => σ d.id).getD object
  refine ⟨⟨argument, slot⟩, rfl, fun d hd k hk => ?formals, fun d hd k hk => ?locals⟩
  case formals =>
    obtain ⟨j, rfl, hj⟩ := getElem?_of_slot hs.faithful hs.formals hd hk
    simp [argument, hj]
  case locals =>
    obtain ⟨j, rfl, hj⟩ := getElem?_of_slot hs.faithful hs.locals hd hk
    simp [slot, hj]

end

mutual

theorem Statement.storage_of_proper : (s : Statement) → s.Proper → ∀ d ∈ s.locals,
    d.storage = .localSlot
  | .declare _, hp, d, hd => by
    obtain rfl := List.mem_singleton.mp hd
    exact hp
  | .block _ body _, hp, d, hd => Statement.storageOf_of_proper body hp d hd
  | .ifThen _ _ onTrue _, hp, d, hd => onTrue.storage_of_proper hp.2 d hd
  | .ifThenElse _ _ onTrue onFalse _, hp, d, hd => by
    rcases List.mem_append.mp hd with hd | hd
    case inl => exact onTrue.storage_of_proper hp.2.1 d hd
    case inr => exact onFalse.storage_of_proper hp.2.2 d hd
  | .loop _ _ body _, hp, d, hd => body.storage_of_proper hp.2 d hd
  | .print .., _, _, hd | .ret .., _, _, hd | .assert .., _, _, hd | .assign .., _, _, hd
  | .call .., _, _, hd | .malformed _, _, _, hd => by cases hd

theorem Statement.storageOf_of_proper : (ss : List Statement) → Statement.ProperAll ss →
    ∀ d ∈ Statement.localsOf ss, d.storage = .localSlot
  | [], _, _, hd => by cases hd
  | s :: ss, hp, d, hd => by
    rcases List.mem_append.mp hd with hd | hd
    case inl => exact s.storage_of_proper hp.1 d hd
    case inr => exact Statement.storageOf_of_proper ss hp.2 d hd

end

theorem Body.variables_sublist (b : Body) : (b.variables.map (·.id)).Sublist b.nodeIds := by
  rw [Body.variables, List.map_append, Body.nodeIds]
  exact (List.Sublist.refl _).append (Statement.localsOf_sublist b.statements)

namespace Accepted

variable {p : Program} {t : SymbolTable}

theorem nodup_body (h : Accepted p t) (hc : c ∈ allClasses p) (hb : b ∈ c.bodies) :
    b.nodeIds.Nodup := by
  have hn := (Resolve.nodeIds_perm p).nodup_iff.mp h.nodup
  exact (List.nodup_flatMap.mp hn.of_append_right.of_append_right).1 b
    (List.mem_flatMap.mpr ⟨c, hc, hb⟩)

theorem slotted (h : Accepted p t) (hc : c ∈ allClasses p) (hb : b ∈ c.bodies) : Slotted t b := by
  obtain ⟨l, hl⟩ := h.exists_lineage hc
  have hpass := h.resolved.passes c l hl b hb
  have hp := Resolve.body_of_proper (Resolve.proper_of_mem h.proper hc) hb
  exact ⟨h.resolved.faithful, hpass.formals, hpass.locals, hp.1,
    Statement.storageOf_of_proper b.statements hp.2, (h.nodup_body hc hb).sublist b.variables_sublist⟩

end Accepted

end MiniJava
