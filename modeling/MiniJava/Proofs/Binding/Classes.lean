import MiniJava.Proofs.Binding.Expression
import MiniJava.Proofs.Resolve.Inheritance

namespace MiniJava

namespace Binding

open Resolve (AnyClass DefinedClass State Bare Types Defines classSymbol defineClass
  withSuperclass report run_mapM_cons run_forM_cons)
open Typing

section

variable {f : α → String} {taken : List String} {l : List α}

theorem accepted_sublist (f : α → String) (taken : List String) (l : List α) :
    (accepted f taken l).Sublist l := by
  induction l generalizing taken with
  | nil         => exact .slnil
  | cons a l hi =>
    rw [accepted]
    split
    case isTrue  => exact (hi taken).cons a
    case isFalse => exact (hi (f a :: taken)).cons_cons a

-- What is not accepted has a name that is taken by then.
theorem mem_names_accepted :
    name ∈ taken ∨ name ∈ (accepted f taken l).map f ↔ name ∈ taken ∨ name ∈ l.map f := by
  induction l generalizing taken with
  | nil         => rfl
  | cons a l hi =>
    rw [accepted, List.map_cons]
    split
    case isTrue ha  =>
      rw [hi, List.mem_cons]
      constructor
      case mp  => exact Or.imp_right .inr
      case mpr =>
        rintro (h | rfl | h)
        case inl     => exact .inl h
        case inr.inl => exact .inl ha
        case inr.inr => exact .inr h
    case isFalse =>
      have hi : name ∈ f a :: taken ∨ name ∈ (accepted f (f a :: taken) l).map f ↔
          name ∈ f a :: taken ∨ name ∈ l.map f := hi
      rw [List.mem_cons] at hi
      rw [List.map_cons, List.mem_cons, List.mem_cons, ← or_assoc, ← or_assoc,
        or_comm (a := name ∈ taken)]
      exact hi

theorem nodup_accepted (f : α → String) (taken : List String) (l : List α) :
    ((accepted f taken l).map f).Nodup ∧ ∀ name ∈ (accepted f taken l).map f, name ∉ taken := by
  induction l generalizing taken with
  | nil         => exact ⟨.nil, nofun⟩
  | cons a l hi =>
    rw [accepted]
    split
    case isTrue     => exact hi taken
    case isFalse ha =>
      obtain ⟨hn, ht⟩ := hi (f a :: taken)
      rw [List.map_cons]
      refine ⟨List.nodup_cons.mpr ⟨fun hm => ht _ hm List.mem_cons_self, hn⟩, ?_⟩
      exact List.forall_mem_cons.mpr ⟨ha, fun name hm h => ht name hm (List.mem_cons_of_mem _ h)⟩

end

theorem missing_append (l l' : List Site) : missing (l ++ l') = missing l ++ missing l' := by
  rw [missing, List.filter_append, List.map_append]
  rfl

-- A pass that notes nothing of any node. The names of `l` are looked up in it.
structure LooksUp (l : List Site) (σ σ' : State) : Prop where
  types      : σ'.table.types = σ.table.types
  references : σ'.table.references = σ.table.references
  missing    : σ'.missing = σ.missing ++ Binding.missing l

namespace LooksUp

theorem refl (σ : State) : LooksUp [] σ σ :=
  ⟨rfl, rfl, (List.append_nil _).symm⟩

theorem trans (h : LooksUp l σ σ₁) (h' : LooksUp l' σ₁ σ') : LooksUp (l ++ l') σ σ' where
  types      := h'.types.trans h.types
  references := h'.references.trans h.references
  missing    := by rw [h'.missing, h.missing, missing_append, List.append_assoc]

theorem report (error : SemanticError) (p : Position) (σ : State)
    (he : [Diagnostic.semantic error p].filter (·.isUnresolved) = [] := by rfl) :
    LooksUp [] σ (Resolve.report error p σ).2 := by
  refine ⟨rfl, rfl, ?_⟩
  rw [Resolve.State.missing_report, he]
  rfl

-- A name that is found is not reported.
theorem found (h : LooksUp [] σ σ') (hs : s.found = true) : LooksUp [s] σ σ' := by
  refine ⟨h.types, h.references, h.missing.trans ?_⟩
  rw [Binding.missing, Binding.missing, List.filter_singleton, hs]
  rfl

end LooksUp

-- The classes among `cs` whose names are not taken have been defined.
structure Collects (ds : List DefinedClass) (taken : List String) (cs : List AnyClass) (σ : State)
    (out : List (Option DefinedClass) × State) : Prop where
  classes  : (out.1.filterMap id).map (·.declaration) = accepted (·.name) taken cs
  defines  : Defines out.2.table (ds ++ out.1.filterMap id)
  declares : LooksUp [] σ out.2

theorem Collects.cons {σ : State} {D : DefinedClass}
    (h : Collects (ds ++ [D]) (D.name :: taken) cs { σ with table := t } out) (hD : D.name ∉ taken)
    (ht : t.types = σ.table.types) (hr : t.references = σ.table.references) :
    Collects ds taken (D.declaration :: cs) σ (some D :: out.1, out.2) where
  classes  := by
    rw [accepted, if_neg hD, ← h.classes]
    rfl
  defines  := by
    have hd := h.defines
    rwa [List.append_assoc] at hd
  declares := ⟨h.declares.types.trans ht, h.declares.references.trans hr, h.declares.missing⟩

theorem collects_defineClass {σ : State} (cs : List AnyClass) (h : Defines σ.table ds)
    (ht : ∀ name, name ∈ taken ↔ name ∈ builtinTypes ∨ name ∈ ds.map (·.name))
    (hn : (ds.map (·.declaration.id) ++ cs.map (·.id)).Nodup) :
    Collects ds taken cs σ (cs.mapM defineClass σ) := by
  induction cs generalizing ds taken σ with
  | nil          =>
    refine ⟨rfl, ?_, .refl σ⟩
    show Defines σ.table (ds ++ [])
    rwa [List.append_nil]
  | cons c cs hi =>
    have ha := Resolve.accepts_class_iff (c := c) h.types
    rw [← ht] at ha
    rw [run_mapM_cons]
    by_cases hc : c.name ∈ taken
    case pos =>
      rw [Resolve.defineClass_of_not_accepts (mt ha.mp (not_not.mpr hc))]
      let σ₁ := (report (.duplicate .aClass c.name) c.position σ).2
      have hn : (ds.map (·.declaration.id) ++ cs.map (·.id)).Nodup :=
        hn.sublist ((List.sublist_cons_self c.id _).append_left _)
      obtain ⟨hcs, hd, hm⟩ := hi (σ := σ₁) h ht hn
      refine ⟨?_, hd, (LooksUp.report _ _ σ).trans hm⟩
      rw [accepted, if_pos hc, ← hcs]
      rfl
    case neg =>
      rw [Resolve.defineClass_of_accepts (ha.mpr hc)]
      obtain ⟨hb, hds⟩ := not_or.mp (mt (ht c.name).mpr hc)
      let D : DefinedClass := ⟨c, σ.table.symbols.size, σ.table.scopes.size⟩
      have hid (D') (hD' : D' ∈ ds) : c.id ≠ D'.declaration.id := fun he =>
        (List.nodup_append'.mp hn).2.2 (List.mem_map_of_mem hD') (he ▸ List.mem_cons_self)
      have hn : ((ds ++ [D]).map (·.declaration.id) ++ cs.map (·.id)).Nodup := by
        simpa [D] using hn
      have ht (name) : name ∈ c.name :: taken ↔
          name ∈ builtinTypes ∨ name ∈ (ds ++ [D]).map (·.name) := by
        rw [List.mem_cons, ht, List.map_append, List.mem_append, List.map_singleton,
          List.mem_singleton]
        tauto
      have hi := hi (σ := { σ with table := Resolve.withClass σ.table c }) (h.withClass hb hds hid) ht hn
      exact hi.cons hc rfl rfl

-- The class that a class is linked with.
def linked? (ds : List DefinedClass) (ls : Links) (D : DefinedClass) : Option DefinedClass :=
  (ls.lookup D.name).bind fun name => ds.find? (·.name = name)

-- The classes have been linked as far as `ls` goes.
structure Linked (t : SymbolTable) (ds : List DefinedClass) (ls : Links) : Prop where
  types    : Types t (ds.map (·.name))
  distinct : (ds.map (·.name)).Nodup
  bare     : ∀ D ∈ ds, Bare t D (linked? ds ls D)
  ancestry : ∀ D ∈ ds, ∃ l, t.Ancestry D.symbol l

theorem find?_eq_none_iff {f : α → String} {l : List α} :
    l.find? (f · = name) = none ↔ name ∉ l.map f := by
  simp

theorem class?_map (ds : List DefinedClass) (name : String) :
    class? (ds.map (·.declaration)) name = (ds.find? (·.name = name)).map (·.declaration) := by
  rw [class?, List.find?_map]
  rfl

theorem mem_of_linked? (h : linked? ds ls D = some P) : P ∈ ds := by
  obtain ⟨name, _, hf⟩ := Option.bind_eq_some_iff.mp h
  exact List.mem_of_find?_eq_some hf

theorem line_succ (ds : List DefinedClass) (ls : Links) (n : Nat) (D : DefinedClass) :
    line (ds.map (·.declaration)) ls (n + 1) D.declaration =
      D.declaration :: ((linked? ds ls D).map fun P =>
        line (ds.map (·.declaration)) ls n P.declaration).getD [] := by
  have hc : (ls.lookup D.name).bind (class? (ds.map (·.declaration))) =
      (linked? ds ls D).map (·.declaration) := by
    rw [linked?, Option.map_bind]
    exact congrArg _ (funext fun name => class?_map ds name)
  rw [line, hc, Option.map_map]
  rfl

-- A class with those that it extends, the nearest first.
inductive Ascends (ds : List DefinedClass) (ls : Links) : DefinedClass → List DefinedClass → Prop
  | root   : D ∈ ds → linked? ds ls D = none → Ascends ds ls D [D]
  | extend : D ∈ ds → linked? ds ls D = some P → Ascends ds ls P Ps → Ascends ds ls D (D :: Ps)

theorem Ascends.subset (h : Ascends ds ls D Ps) : Ps ⊆ ds := by
  induction h with
  | root hD _        => exact List.cons_subset.mpr ⟨hD, List.nil_subset _⟩
  | extend hD _ _ hi => exact List.cons_subset.mpr ⟨hD, hi⟩

theorem Ascends.line_eq (h : Ascends ds ls D Ps) (hn : Ps.length ≤ n) :
    line (ds.map (·.declaration)) ls n D.declaration = Ps.map (·.declaration) := by
  induction h generalizing n with
  | root _ hp        =>
    obtain ⟨n, rfl⟩ := Nat.exists_eq_add_of_le' hn
    rw [List.length_singleton, line_succ, hp]
    rfl
  | extend _ hp _ hi =>
    obtain ⟨n, rfl⟩ := Nat.exists_eq_add_of_le' (Nat.le_of_add_left_le hn)
    rw [line_succ, hp, Option.map_some, hi (Nat.le_of_succ_le_succ hn)]
    rfl

namespace Linked

-- A class is the only one with its symbol.
theorem eq_of_symbol (h : Linked t ds ls) (hD : D ∈ ds) (hD' : D' ∈ ds)
    (hs : D.symbol = D'.symbol) : D = D' := by
  have hx := hs ▸ (h.bare D hD).symbol
  have hn : D.name = D'.name :=
    congrArg Symbol.name (Option.some.inj (hx.symm.trans (h.bare D' hD').symbol))
  exact List.inj_on_of_nodup_map h.distinct hD hD' hn

theorem ascends_of_ancestry (h : Linked t ds ls) (hl : t.Ancestry i l) (hD : D ∈ ds)
    (hi : D.symbol = i) : ∃ Ps, Ascends ds ls D Ps ∧ l.map Prod.fst = Ps.map (·.symbol) := by
  induction hl generalizing D with
  | last hv hp      =>
    subst hi
    obtain rfl := Option.some.inj ((h.bare D hD).symbol.symm.trans hv)
    exact ⟨[D], .root hD (Option.map_eq_none_iff.mp hp), rfl⟩
  | step hv hp _ hj =>
    subst hi
    obtain rfl := Option.some.inj ((h.bare D hD).symbol.symm.trans hv)
    obtain ⟨P, hP, hs⟩ := Option.map_eq_some_iff.mp hp
    obtain ⟨Ps, hPs, hl⟩ := hj (mem_of_linked? hP) hs
    exact ⟨D :: Ps, .extend hD hP hPs, congrArg (D.symbol :: ·) hl⟩

-- No class is twice among those that a class extends, so there are at most as many as there are
-- classes.
theorem ascends (h : Linked t ds ls) (hD : D ∈ ds) :
    ∃ l Ps, t.Ancestry D.symbol l ∧ Ascends ds ls D Ps ∧ l.map Prod.fst = Ps.map (·.symbol) ∧
      Ps.length ≤ ds.length := by
  obtain ⟨l, hl⟩ := h.ancestry D hD
  obtain ⟨Ps, hPs, he⟩ := h.ascends_of_ancestry hl hD rfl
  have hn : Ps.Nodup := List.Nodup.of_map DefinedClass.symbol (he ▸ hl.nodup)
  exact ⟨l, Ps, hl, hPs, he, (hn.subperm hPs.subset).length_le⟩

theorem inherits_iff (h : Linked t ds ls) (hD : D ∈ ds) (hP : P ∈ ds) :
    t.inherits P.symbol D.symbol = true ↔
      (line (ds.map (·.declaration)) ls (ds.map (·.declaration)).length P.declaration).any
        (·.name = D.name) = true := by
  obtain ⟨l, Ps, hl, hPs, he, hlen⟩ := h.ascends hP
  rw [SymbolTable.inherits_iff hl, hPs.line_eq (by rwa [List.length_map]), List.any_eq_true]
  constructor
  case mp  =>
    rintro ⟨e, hm, hs⟩
    have hm : D.symbol ∈ Ps.map (·.symbol) := he ▸ hs ▸ List.mem_map_of_mem hm
    obtain ⟨D', hD', hs⟩ := List.mem_map.mp hm
    obtain rfl := h.eq_of_symbol (hPs.subset hD') hD hs
    exact ⟨_, List.mem_map_of_mem hD', decide_eq_true rfl⟩
  case mpr =>
    rintro ⟨c, hc, hn⟩
    obtain ⟨D', hD', rfl⟩ := List.mem_map.mp hc
    obtain rfl := List.inj_on_of_nodup_map h.distinct (hPs.subset hD') hD (of_decide_eq_true hn)
    have hm : D'.symbol ∈ l.map Prod.fst := he ▸ List.mem_map_of_mem hD'
    obtain ⟨e, hm, hs⟩ := List.mem_map.mp hm
    exact ⟨e, hm, hs⟩

-- A link that closes no cycle.
theorem withSuperclass {t : SymbolTable} (h : Linked t ds ls) (hD : D ∈ ds) (hP : P ∈ ds)
    (hl : ls.lookup D.name = none) (hi : ¬t.inherits P.symbol D.symbol = true) :
    Linked (Resolve.withSuperclass t D P) ds ((D.name, P.name) :: ls) := by
  have hb : Bare t D none := by
    have hb := h.bare D hD
    rwa [linked?, hl] at hb
  have hD₀ := hb.scope_ne h.types
  have hb' := hb.withSuperclass (P := P) hD₀
  obtain ⟨lP, hlP⟩ := h.ancestry P hP
  constructor
  case types    => exact h.types.withSuperclass hD₀ hb
  case distinct => exact h.distinct
  case bare     =>
    intro D' hD'
    by_cases hn : D'.name = D.name
    case pos =>
      obtain rfl := List.inj_on_of_nodup_map h.distinct hD' hD hn
      have hp : linked? ds ((D'.name, P.name) :: ls) D' = some P := by
        rw [linked?, List.lookup_cons_self, Option.bind_some]
        exact (Resolve.find?_eq_some_iff_of_nodup h.distinct).mpr ⟨hP, rfl⟩
      rwa [hp]
    case neg =>
      have hp : linked? ds ((D.name, P.name) :: ls) D' = linked? ds ls D' := by
        rw [linked?, List.lookup_cons, beq_false_of_ne hn]
        rfl
      rw [hp]
      refine (h.bare D' hD').withSuperclass_of_ne hb hD₀ fun hs => hn ?_
      rw [h.eq_of_symbol hD' hD hs]
  case ancestry =>
    intro D' hD'
    obtain ⟨l, hl⟩ := h.ancestry D' hD'
    have hx (e) (he : e ∈ lP) : e.1 ≠ D.symbol :=
      fun hs => hi ((SymbolTable.inherits_iff hlP _).mpr ⟨e, he, hs⟩)
    exact Resolve.ancestry_link hl hlP hx (fun _ => Resolve.symbol?_withSuperclass_of_ne) hb'.symbol rfl

end Linked

-- Where a class names its superclass.
def superclassSites (p : Program) (c : AnyClass) : List Site :=
  c.superclass.toList.map fun name => ⟨.superclass, name, c.position, Known p name⟩

theorem link_of_class {D P : DefinedClass} {ds : List DefinedClass} (h : D.declaration.superclass = some name)
    (hf : ds.find? (·.name = name) = some P) :
    link (ds.map (·.declaration)) ls D.declaration =
      if (line (ds.map (·.declaration)) ls (ds.map (·.declaration)).length P.declaration).any
          (·.name = D.name) then ls
      else (D.name, name) :: ls := by
  rw [link, h]
  dsimp only
  rw [class?_map, hf]
  rfl

theorem Linked.linkSuperclass {σ : State} (h : Linked σ.table ds ls)
    (hk : ∀ name, Known p name ↔ name ∈ builtinTypes ∨ name ∈ ds.map (·.name)) (hD : D ∈ ds)
    (hl : ls.lookup D.name = none) :
    Linked (Resolve.linkSuperclass D σ).2.table ds
        (link (ds.map (·.declaration)) ls D.declaration) ∧
      LooksUp (superclassSites p D.declaration) σ (Resolve.linkSuperclass D σ).2 := by
  cases hs : D.declaration.superclass with
  | none      =>
    rw [Resolve.linkSuperclass_of_none hs, link, superclassSites, hs]
    exact ⟨h, .refl σ⟩
  | some name =>
    have hsites : superclassSites p D.declaration =
        [⟨.superclass, name, D.declaration.position, Known p name⟩] := by
      rw [superclassSites, hs]
      rfl
    rw [hsites]
    cases hf : ds.find? (·.name = name) with
    | none   =>
      have hlink : link (ds.map (·.declaration)) ls D.declaration = ls := by
        rw [link, hs]
        dsimp only
        rw [class?_map, hf]
        rfl
      have hn : name ∉ ds.map (·.name) := find?_eq_none_iff.mp hf
      rw [hlink]
      by_cases hb : name ∈ builtinTypes
      case pos =>
        obtain ⟨x, hr, hx⟩ := h.types.builtin name hb
        rw [Resolve.linkSuperclass_of_builtin hs hr hx]
        exact ⟨h, (LooksUp.report _ _ σ).found (decide_eq_true ((hk name).mpr (.inl hb)))⟩
      case neg =>
        have hu : ¬(name ∈ builtinTypes ∨ name ∈ ds.map (·.name)) := not_or.mpr ⟨hb, hn⟩
        have hr : σ.table.resolveType? name = none :=
          Option.not_isSome_iff_eq_none.mp (mt (h.types.known name).mp hu)
        rw [Resolve.linkSuperclass_of_undeclared hs hr]
        refine ⟨h, rfl, rfl, ?_⟩
        rw [Resolve.State.missing_report, decide_eq_false (mt (hk name).mp hu)]
        rfl
    | some P =>
      have hP := List.mem_of_find?_eq_some hf
      have hn := List.find?_some hf
      obtain rfl : P.name = name := of_decide_eq_true hn
      have hkP : Known p P.name := (hk _).mpr (.inr (List.mem_map_of_mem hP))
      rw [Resolve.linkSuperclass_of_bare hs (h.bare P hP), link_of_class hs hf, decide_eq_true hkP]
      by_cases hi : σ.table.inherits P.symbol D.symbol = true
      case pos =>
        rw [if_pos hi, if_pos ((h.inherits_iff hD hP).mp hi)]
        exact ⟨h, (LooksUp.report _ _ σ).found rfl⟩
      case neg =>
        rw [if_neg hi, if_neg (mt (h.inherits_iff hD hP).mpr hi)]
        exact ⟨h.withSuperclass hD hP hl hi, LooksUp.found ⟨rfl, rfl, (List.append_nil _).symm⟩ rfl⟩

theorem lookup_link (cs : List AnyClass) (ls : Links) (h : c.name ≠ name) :
    (link cs ls c).lookup name = ls.lookup name := by
  have hc (superclass : String) : ((c.name, superclass) :: ls).lookup name = ls.lookup name := by
    rw [List.lookup_cons, beq_false_of_ne h.symm]
  unfold link
  split
  case h_1 => rfl
  case h_2 =>
    split
    case h_1 => rfl
    case h_2 =>
      split
      case isTrue  => rfl
      case isFalse => exact hc _

theorem Linked.linkSuperclasses {σ : State} (todo : List DefinedClass) (h : Linked σ.table ds ls)
    (hk : ∀ name, Known p name ↔ name ∈ builtinTypes ∨ name ∈ ds.map (·.name)) (hd : todo ⊆ ds)
    (hn : (todo.map (·.name)).Nodup) (hl : ∀ D ∈ todo, ls.lookup D.name = none) :
    Linked (todo.forM Resolve.linkSuperclass σ).2.table ds
        ((todo.map (·.declaration)).foldl (link (ds.map (·.declaration))) ls) ∧
      LooksUp (todo.flatMap fun D => superclassSites p D.declaration) σ
        (todo.forM Resolve.linkSuperclass σ).2 := by
  induction todo generalizing ls σ with
  | nil            => exact ⟨h, .refl σ⟩
  | cons D todo hi =>
    obtain ⟨hD, hd⟩ := List.cons_subset.mp hd
    obtain ⟨hnD, hn⟩ := List.nodup_cons.mp hn
    obtain ⟨hlD, hl⟩ := List.forall_mem_cons.mp hl
    obtain ⟨h₁, hs₁⟩ := h.linkSuperclass hk hD hlD
    have hl (D') (hD' : D' ∈ todo) :
        (link (ds.map (·.declaration)) ls D.declaration).lookup D'.name = none := by
      rw [lookup_link _ _ fun he => hnD (List.mem_map.mpr ⟨D', hD', he.symm⟩)]
      exact hl D' hD'
    obtain ⟨h₂, hs₂⟩ := hi h₁ hd hn hl
    rw [run_forM_cons]
    exact ⟨h₂, hs₁.trans hs₂⟩

end Binding

end MiniJava
