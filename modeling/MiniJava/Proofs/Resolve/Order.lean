import Mathlib.Data.List.Perm.Basic
import MiniJava.Proofs.Resolve.Exact
import MiniJava.Proofs.Typing.Counterparts

namespace MiniJava

variable {P : Position → Position → Prop}

mutual

theorem Expression.Like.proper {e e' : Expression} : e.Like (.upTo P) e' → e.Proper → e'.Proper
  | .call _ hr ha _, ⟨hrp, hap, hn⟩ => ⟨hr.proper hrp, ha.proper hap, fun he => by
    cases hn he
    cases ha with | nil => rfl⟩
  | .newObject _ _, hp                            => hp
  | .newArray _ hs _, hp                          => hs.proper hp
  | .not _ ho _, hp                               => ho.proper hp
  | .binary _ hl hr _, hp                         => ⟨hl.proper hp.1, hr.proper hp.2⟩
  | .index _ ha hs _, hp                          => ⟨ha.proper hp.1, hs.proper hp.2⟩
  | .boolean _ _, _ | .integer _ _, _ | .self _ _, _ | .reference _ _, _ => trivial

theorem Expression.LikeAll.proper {es es' : List Expression} :
    Expression.LikeAll (.upTo P) es es' → Expression.ProperAll es → Expression.ProperAll es'
  | .nil, _        => trivial
  | .cons h hs, hp => ⟨h.proper hp.1, hs.proper hp.2⟩

end

mutual

theorem Statement.Like.proper {s s' : Statement} : s.Like (.upTo P) s' → s.Proper → s'.Proper
  | .declare hd, hp               => hd.storage.trans hp
  | .print _ he _, hp | .ret _ he _, hp | .assert _ he _, hp => he.proper hp
  | .block _ hb _, hp             => hb.proper hp
  | .assign _ ht hv _, hp         => ⟨ht.proper hp.1, hv.proper hp.2⟩
  | .ifThen _ he ht _, hp         => ⟨he.proper hp.1, ht.proper hp.2⟩
  | .ifThenElse _ he ht hf _, hp  => ⟨he.proper hp.1, ht.proper hp.2.1, hf.proper hp.2.2⟩
  | .loop _ he hb _, hp           => ⟨he.proper hp.1, hb.proper hp.2⟩
  | .call he, hp                  => he.proper hp

theorem Statement.LikeAll.proper {ss ss' : List Statement} :
    Statement.LikeAll (.upTo P) ss ss' → Statement.ProperAll ss → Statement.ProperAll ss'
  | .nil, _        => trivial
  | .cons h hs, hp => ⟨h.proper hp.1, hs.proper hp.2⟩

end

theorem Member.Like.proper {m m' : Member} (h : m.Like (.upTo P) (fun _ => False) m')
    (hp : m.Proper) : m'.Proper := by
  cases h with
  | field hd    => exact hd.storage.trans hp
  | method hm   =>
    refine ⟨fun d' hd' => ?_, (hm.body not_false).proper hp.2⟩
    obtain ⟨d, hd, hdd⟩ := exists_of_forall₂ hm.parameters hd'
    exact hdd.storage.trans (hp.1 d hd)
  | malformed _ => exact hp

-- The same program but for the order of classes and members, for numbers and for positions.
abbrev Program.Reordered (P : Position → Position → Prop) (p p' : Program) : Prop :=
  p.Permuted P (fun _ _ => False) p'

open Resolve Typing

namespace ClassDeclaration.Permuted

variable {e : String → Prop} {c c' : ClassDeclaration}

theorem symm (h : c.Permuted P e c') : c'.Permuted (flip P) e c := by
  obtain ⟨ms, hms, hl⟩ := h.members
  obtain ⟨ms', hl', hms'⟩ := List.perm_comp_forall₂ hms.symm hl
  exact ⟨h.name.symm, h.superclass.symm, ms', hms', hl'.flip.imp fun _ _ hm => hm.symm⟩

theorem exists_member (h : c.Permuted P e c') (hm : m' ∈ c'.members) :
    ∃ m ∈ c.members, m.Like (.upTo P) e m' := by
  obtain ⟨ms, hms, hl⟩ := h.members
  obtain ⟨m, hmem, hlike⟩ := exists_of_forall₂ hl hm
  exact ⟨m, hms.mem_iff.mp hmem, hlike⟩

theorem fields_perm (h : c.Permuted P e c') : (c'.fields.map (·.name)).Perm (c.fields.map (·.name)) := by
  obtain ⟨ms, hms, hl⟩ := h.members
  have he : c'.fields.map (·.name) = (ms.filterMap Member.field?).map (·.name) :=
    map_eq_of_forall₂ (fun _ _ hd => hd.name) (fields_like hl)
  rw [he]
  exact (hms.filterMap _).map _

theorem methods_perm (h : c.Permuted P e c') :
    (c'.methods.map (·.name)).Perm (c.methods.map (·.name)) := by
  obtain ⟨ms, hms, hl⟩ := h.members
  have he : c'.methods.map (·.name) = (ms.filterMap Member.method?).map (·.name) :=
    map_eq_of_forall₂ (fun _ _ hm => hm.name) (methods_like hl)
  rw [he]
  exact (hms.filterMap _).map _

theorem exists_field (h : c.Permuted P e c') (hd : d' ∈ c'.fields) :
    ∃ d ∈ c.fields, d.Like (.upTo P) d' := by
  obtain ⟨m', hm', hd⟩ := List.mem_filterMap.mp hd
  obtain ⟨m, hm, hl⟩ := h.exists_member hm'
  cases hl with
  | field hl               => exact ⟨_, List.mem_filterMap.mpr ⟨_, hm, rfl⟩, Option.some.inj hd ▸ hl⟩
  | method _ | malformed _ => cases hd

theorem exists_method (h : c.Permuted P e c') (hm : m' ∈ c'.methods) :
    ∃ m ∈ c.methods, m.Like (.upTo P) (e m.name) m' := by
  obtain ⟨member', hm', hd⟩ := List.mem_filterMap.mp hm
  obtain ⟨member, hm, hl⟩ := h.exists_member hm'
  cases hl with
  | method hl             => exact ⟨_, List.mem_filterMap.mpr ⟨_, hm, rfl⟩, Option.some.inj hd ▸ hl⟩
  | field _ | malformed _ => cases hd

end ClassDeclaration.Permuted

-- The same names in a class, whatever the order.
structure NamesPermuted (c c' : AnyClass) : Prop where
  name       : c'.name = c.name
  fields     : (c'.fields.map (·.name)).Perm (c.fields.map (·.name))
  signatures : (c'.signatures.map (·.name)).Perm (c.signatures.map (·.name))

namespace Program.Permuted

variable {e : String → String → Prop} {p p' : Program}

theorem symm (h : p.Permuted P e p') : p'.Permuted (flip P) e p where
  mainClass := by
    have hm := h.mainClass
    revert hm
    generalize p.mainClass = o
    generalize p'.mainClass = o'
    intro hm
    cases hm with
    | none    => exact .none
    | some hc => exact .some ((hc.name : _ = _) ▸ hc.symm)
  classes   := by
    obtain ⟨cs, hcs, hl⟩ := h.classes
    obtain ⟨cs', hl', hcs'⟩ := List.perm_comp_forall₂ hcs.symm hl
    exact ⟨cs', hcs', hl'.flip.imp fun _ _ hc => hc.name ▸ hc.symm⟩

theorem exists_class (h : p.Permuted P e p') (hc : c' ∈ p'.classes) :
    ∃ c ∈ p.classes, c.Permuted P (e c.name) c' := by
  obtain ⟨cs, hcs, hl⟩ := h.classes
  obtain ⟨c, hmem, hcc⟩ := exists_of_forall₂ hl hc
  exact ⟨c, hcs.mem_iff.mp hmem, hcc⟩

theorem proper (h : p.Reordered P p') (hp : p.Proper) : p'.Proper where
  mainClass := by
    obtain ⟨c, hc, hcp⟩ := hp.mainClass
    obtain ⟨c', hc', hl⟩ := exists_of_rel h.mainClass hc
    exact ⟨c', hc', hl.name ▸ hcp.name, (hl.body not_false).proper hcp.body⟩
  classes c' hc' := by
    obtain ⟨c, hc, hcc⟩ := h.exists_class hc'
    have hcp := hp.classes c hc
    refine ⟨hcc.name ▸ hcp.name, hcc.superclass ▸ hcp.superclass, fun m' hm' => ?_⟩
    obtain ⟨m, hm, hl⟩ := hcc.exists_member hm'
    exact hl.proper (hcp.members m hm)

-- The names in all classes, whatever the order.
theorem exists_allClasses (h : p.Permuted P e p') :
    ∃ cs, cs.Perm (allClasses p) ∧ List.Forall₂ NamesPermuted cs (allClasses p') := by
  obtain ⟨cs, hcs, hl⟩ := h.classes
  refine ⟨p.mainClass.toList.map .main ++ cs.map .regular, (hcs.map _).append_left _,
    List.rel_append ?mainClass ?classes⟩
  case mainClass =>
    have hm := h.mainClass
    revert hm
    generalize p.mainClass = o
    generalize p'.mainClass = o'
    intro hm
    cases hm with
    | none    => exact .nil
    | some hc => exact .cons ⟨hc.name, .refl _, .refl _⟩ .nil
  case classes =>
    refine List.forall₂_map_left_iff.mpr (List.forall₂_map_right_iff.mpr (hl.imp fun c c' hc => ?_))
    refine ⟨hc.name, hc.fields_perm, ?_⟩
    rw [AnyClass.signatures, AnyClass.signatures, List.map_map, List.map_map]
    exact hc.methods_perm

theorem classNames_perm (h : p.Permuted P e p') : (classNames p').Perm (classNames p) := by
  obtain ⟨cs, hcs, hl⟩ := h.exists_allClasses
  rw [classNames, map_eq_of_forall₂ (fun _ _ hc => hc.name) hl]
  exact hcs.map _

theorem extends_of (h : p.Permuted P e p') (he : Extends p' name superclass) :
    Extends p name superclass := by
  obtain ⟨c', hc', hn, hs⟩ := he
  obtain ⟨c, hc, hcc⟩ := h.exists_class hc'
  exact ⟨c, hc, hcc.name.symm.trans hn, hcc.superclass.symm.trans hs⟩

theorem known_iff (h : p.Permuted P e p') : Known p' name ↔ Known p name :=
  or_congr_right h.classNames_perm.mem_iff

-- The other way round classes and their bodies have counterparts as well.
theorem exists_counterparts (h : p.Reordered P p') (hw : WellFormed N p) (hc : c' ∈ allClasses p') :
    ∃ c, Counterparts P p p' c c' ∧ ∀ b' ∈ c'.bodies, ∃ b ∈ c.bodies, b.Like P b' := by
  rcases mem_allClasses.mp hc with ⟨c', hmain, rfl⟩ | ⟨c', hclass, rfl⟩
  case inl =>
    obtain ⟨c, hc, _, _⟩ := counterparts_main h.symm hmain
    obtain ⟨c'', hc'', hl, hcp⟩ := counterparts_main h hc
    obtain rfl := Option.some.inj (hc''.symm.trans hmain)
    refine ⟨_, hcp, fun b' hb' => ⟨_, List.mem_singleton_self _, ?_⟩⟩
    rw [List.mem_singleton.mp hb']
    exact ⟨rfl, .nil, hl.body not_false⟩
  case inr =>
    obtain ⟨c, hc, hcc⟩ := h.exists_class hclass
    refine ⟨.regular c, ⟨mem_allClasses.mpr (.inr ⟨c, hc, rfl⟩), mem_allClasses.mpr (.inr ⟨c', hclass, rfl⟩),
      class_like (hw.fields c hc) (hw.methods c hc) hcc⟩, fun b' hb' => ?_⟩
    obtain ⟨m', hm', rfl⟩ := List.mem_map.mp hb'
    obtain ⟨m, hm, hl⟩ := hcc.exists_method hm'
    exact ⟨_, List.mem_map_of_mem hm, rfl, hl.parameters, hl.body not_false⟩

theorem fields_nodup (h : p.Permuted P e p') (hw : WellFormed N p) (c' : ClassDeclaration)
    (hc' : c' ∈ p'.classes) : (c'.fields.map (·.name)).Nodup := by
  obtain ⟨c, hc, hcc⟩ := h.exists_class hc'
  exact hcc.fields_perm.nodup_iff.mpr (hw.fields c hc)

theorem methods_nodup (h : p.Permuted P e p') (hw : WellFormed N p) (c' : ClassDeclaration)
    (hc' : c' ∈ p'.classes) : (c'.methods.map (·.name)).Nodup := by
  obtain ⟨c, hc, hcc⟩ := h.exists_class hc'
  exact hcc.methods_perm.nodup_iff.mpr (hw.methods c hc)

-- The lineage of a class is that of its counterpart.
theorem exists_lineage (h : p.Permuted P e p') (hw : WellFormed N p) (hc : Counterparts P p p' c c')
    (hl' : Lineage p' c' l') : ∃ l, Lineage p c l ∧ List.Forall₂ (Counterparts P p p') l l' := by
  have hn' : (classNames p').Nodup := h.classNames_perm.nodup_iff.mpr hw.classes
  have hback := classesLike h.symm (h.fields_nodup hw) (h.methods_nodup hw)
  obtain ⟨d, hd⟩ := hback c' hc.mem'
  obtain rfl : d = c := eq_of_name hw.classes hd.mem' hc.mem (hd.like.name.trans hc.like.name)
  obtain ⟨l, hl, _⟩ := hl'.move hback hd
  obtain ⟨l'', hl'', hll⟩ := hl.move (classesLike h hw.fields hw.methods) hc
  exact ⟨l, hl, hl'.unique hn' hl'' ▸ hll⟩

theorem checksBody {A : VariableDeclaration → VariableDeclaration → Prop}
    (hΓ : Context.Like P A M Γ Γ') (hA : ∀ d d', A d d') (hl : b.Like P b')
    (hb : ChecksBody .any Γ b) : ChecksBody .any Γ' b' where
  distinct   := by
    rw [map_eq_of_forall₂ (fun _ _ hd => hd.name) hl.parameters]
    exact hb.distinct
  known d' hd' := by
    obtain ⟨d, hd, hdd⟩ := exists_of_forall₂ hl.parameters hd'
    rw [show d'.type = d.type from hdd.type]
    exact hΓ.known (hb.known d hd)
  formals    := hl.parameters.length_eq ▸ hb.formals
  locals     := hl.statements.locals.length_eq ▸ hb.locals
  statements := by
    obtain ⟨F, hF⟩ := hb.statements
    have hformals : List.Forall₂ (Matches P A) b.parameters.reverse b'.parameters.reverse :=
      List.forall₂_reverse_iff.mpr (hl.parameters.imp fun _ _ hd => ⟨hd, hA _ _⟩)
    obtain ⟨F', hF', _⟩ :=
      hF.move hΓ hl.statements hformals (hl.statements.locals.imp fun _ _ _ => hA _ _)
    exact ⟨F', hF'⟩

theorem wellFormed (h : p.Reordered P p') (hw : WellFormed .any p) : WellFormed .any p' where
  classes                    := h.classNames_perm.nodup_iff.mpr hw.classes
  superclasses c' hc' name hs := by
    obtain ⟨c, hc, hcc⟩ := h.exists_class hc'
    exact h.classNames_perm.mem_iff.mpr (hw.superclasses c hc name (hcc.superclass.symm.trans hs))
  acyclic name ht            := hw.acyclic name (Relation.TransGen.mono (fun _ _ he => h.extends_of he) _ _ ht)
  fields                     := h.fields_nodup hw
  methods                    := h.methods_nodup hw
  fieldTypes c' hc' d' hd'   := by
    obtain ⟨c, hc, hcc⟩ := h.exists_class hc'
    obtain ⟨d, hd, hl⟩ := hcc.exists_field hd'
    rw [show d'.type = d.type from hl.type]
    exact h.known_iff.mpr (hw.fieldTypes c hc d hd)
  returnTypes c' hc' m' hm'  := by
    obtain ⟨c, hc, hcc⟩ := h.exists_class hc'
    obtain ⟨m, hm, hl⟩ := hcc.exists_method hm'
    rw [show m'.returns = m.returns from hl.returns]
    exact h.known_iff.mpr (hw.returnTypes c hc m hm)
  bodies c' l' hl' b' hb'    := by
    obtain ⟨c, hc, hbodies⟩ := h.exists_counterparts hw hl'.mem
    obtain ⟨b, hb, hbb⟩ := hbodies b' hb'
    obtain ⟨l, hl, hll⟩ := h.exists_lineage hw hc hl'
    have hn' : (classNames p').Nodup := h.classNames_perm.nodup_iff.mpr hw.classes
    exact checksBody (A := fun _ _ => True) (bodyContext_like (classesLike h hw.fields hw.methods)
      hn' (fun _ _ _ => trivial) hll hc hbb.inMain) (fun _ _ => trivial) hbb (hw.bodies c l hl b hb)

theorem wellFormed_iff (h : p.Reordered P p') : WellFormed .any p' ↔ WellFormed .any p :=
  ⟨h.symm.wellFormed, h.wellFormed⟩

end Program.Permuted

theorem SymbolTable.exists_iff_wellFormed (hp : p.Proper) (hn : p.nodeIds.Nodup) :
    (∃ t, SymbolTable.ofProgram p = .ok t) ↔ WellFormed .any p := by
  have hv := verdict_ofProgram hp hn
  generalize SymbolTable.ofProgram p = out at hv ⊢
  cases hv with
  | accepted hr     =>
    have hw := hr.wellFormed
    refine iff_of_true ⟨_, rfl⟩ { hw with bodies := fun c l hl b hb => ?_ }
    exact (hw.bodies c l hl b hb).keep (Notes.keeps_any _ _)
  | rejected hu _ _ => exact iff_of_false nofun hu

-- Whether a program is accepted does not depend on the order of its classes and members.
theorem Program.Permuted.accepts_iff (h : p.Reordered P p') (hp : p.Proper) (hn : p.nodeIds.Nodup)
    (hn' : p'.nodeIds.Nodup) :
    (∃ t, SymbolTable.ofProgram p = .ok t) ↔ ∃ t, SymbolTable.ofProgram p' = .ok t := by
  rw [SymbolTable.exists_iff_wellFormed hp hn, SymbolTable.exists_iff_wellFormed (h.proper hp) hn',
    h.wellFormed_iff]

end MiniJava
