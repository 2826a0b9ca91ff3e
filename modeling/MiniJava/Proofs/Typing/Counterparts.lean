import MiniJava.Proofs.Resolve.Declarations
import MiniJava.Proofs.Typing.Likeness

namespace MiniJava

-- The same class up to numbers and positions, with the members in another order.
structure ClassDeclaration.Permuted (P : Position → Position → Prop) (exempt : String → Prop)
    (c c' : ClassDeclaration) : Prop where
  name       : c'.name = c.name
  superclass : c'.superclass = c.superclass
  members    : ∃ ms, ms.Perm c.members ∧ List.Forall₂ (Member.Like (.upTo P) exempt) ms c'.members

-- The same program up to numbers and positions, with the classes in another order.
structure Program.Permuted (P : Position → Position → Prop) (exempt : String → String → Prop)
    (p p' : Program) : Prop where
  mainClass : Option.Rel (fun c c' => MainClass.Like (.upTo P) (exempt c.name "main") c c')
    p.mainClass p'.mainClass
  classes   : ∃ cs, cs.Perm p.classes ∧
    List.Forall₂ (fun c c' => ClassDeclaration.Permuted P (exempt c.name) c c') cs p'.classes

theorem Program.Like.permuted {P : Position → Position → Prop} (h : Program.Like (.upTo P) e p p') :
    p.Permuted P e p' where
  mainClass := h.mainClass
  classes   := ⟨_, .refl _, h.classes.imp fun _ _ hc =>
    ⟨hc.name, hc.superclass.trans (congrFun Option.map_id _), _, .refl _, hc.members⟩⟩

namespace Typing

open Resolve (AnyClass allClasses staticType find?_perm)

theorem map_eq_of_forall₂ {R : α → β → Prop} {f : α → γ} {g : β → γ} (hR : ∀ a b, R a b → g b = f a)
    (h : List.Forall₂ R l l') : l'.map g = l.map f := by
  induction h with
  | nil         => rfl
  | cons h _ hi => rw [List.map_cons, List.map_cons, hR _ _ h, hi]

section

variable {P : Position → Position → Prop} {e : String → Prop}

theorem fields_like (h : List.Forall₂ (Member.Like (.upTo P) e) ms ms') :
    List.Forall₂ (VariableDeclaration.Like (.upTo P)) (ms.filterMap Member.field?)
      (ms'.filterMap Member.field?) := by
  induction h with
  | nil          => exact .nil
  | cons h _ hi  =>
    cases h with
    | field hd            => exact .cons hd hi
    | method | malformed  => exact hi

theorem methods_like (h : List.Forall₂ (Member.Like (.upTo P) e) ms ms') :
    List.Forall₂ (fun m m' => MethodDeclaration.Like (.upTo P) (e m.name) m m')
      (ms.filterMap Member.method?) (ms'.filterMap Member.method?) := by
  induction h with
  | nil         => exact .nil
  | cons h _ hi =>
    cases h with
    | method hm         => exact .cons hm hi
    | field | malformed => exact hi

theorem signature_like {e : Prop} (h : MethodDeclaration.Like (.upTo P) e m m') :
    m.signature.Like m'.signature where
  name       := h.name
  returns    := congrArg staticType h.returns
  parameters := map_eq_of_forall₂ (fun _ _ hd => congrArg staticType hd.type) h.parameters

theorem signatures_like (h : List.Forall₂ (Member.Like (.upTo P) e) ms ms') :
    List.Forall₂ Signature.Like ((ms.filterMap Member.method?).map (·.signature))
      ((ms'.filterMap Member.method?).map (·.signature)) :=
  List.forall₂_map_left_iff.mpr (List.forall₂_map_right_iff.mpr
    ((methods_like h).imp fun _ _ => signature_like))

-- The names in a class stand for the same, whatever the order.
theorem class_like {c c' : ClassDeclaration} (hf : (c.fields.map (·.name)).Nodup)
    (hm : (c.methods.map (·.name)).Nodup) (h : c.Permuted P e c') :
    (AnyClass.regular c).Like P (.regular c') := by
  obtain ⟨ms, hms, hl⟩ := h.members
  have hfields : (ms.filterMap Member.field?).Perm c.fields := hms.filterMap _
  have hmethods : ((ms.filterMap Member.method?).map (·.signature)).Perm
      (c.methods.map (·.signature)) := (hms.filterMap _).map _
  have hn : ((c.methods.map (·.signature)).map (·.name)).Nodup := by rwa [List.map_map]
  refine ⟨h.name, h.superclass, fun name => ?fields, fun name => ?methods⟩
  case fields =>
    show Option.Rel _ (c.fields.find? _) (c'.fields.find? _)
    rw [← find?_perm (f := VariableDeclaration.name) hfields hf name]
    exact rel_find? (R := VariableDeclaration.Like (.upTo P)) (fun _ _ hd => hd.name)
      (fields_like hl) name
  case methods =>
    show Option.Rel _ ((c.methods.map _).find? _) ((c'.methods.map (·.signature)).find? _)
    rw [← find?_perm (f := Signature.name) hmethods hn name]
    exact rel_find? (R := Signature.Like) (fun _ _ hs => hs.name) (signatures_like hl) name

theorem main_like {e : Prop} {c c' : MainClass} (h : c.Like (.upTo P) e c') :
    (AnyClass.main c).Like P (.main c') where
  name            := h.name
  superclass      := rfl
  fields _        := .none
  signatures name := rel_find? (R := Signature.Like) (fun _ _ hs => hs.name)
    (.cons ⟨rfl, rfl, rfl⟩ .nil) name

end

section

variable {P : Position → Position → Prop} {e : String → String → Prop} {p p' : Program}

theorem counterparts_main (h : p.Permuted P e p') (hc : p.mainClass = some c) :
    ∃ c', p'.mainClass = some c' ∧ c.Like (.upTo P) (e c.name "main") c' ∧
      Counterparts P p p' (.main c) (.main c') := by
  obtain ⟨c', hc', hlike⟩ := exists_of_rel h.mainClass hc
  exact ⟨c', hc', hlike, mem_allClasses.mpr (.inl ⟨c, hc, rfl⟩),
    mem_allClasses.mpr (.inl ⟨c', hc', rfl⟩), main_like hlike⟩

theorem counterparts_regular (h : p.Permuted P e p') (hc : c ∈ p.classes)
    (hf : (c.fields.map (·.name)).Nodup) (hm : (c.methods.map (·.name)).Nodup) :
    ∃ c' ∈ p'.classes, c.Permuted P (e c.name) c' ∧
      Counterparts P p p' (.regular c) (.regular c') := by
  obtain ⟨cs, hcs, hl⟩ := h.classes
  obtain ⟨c', hc', hcc⟩ := exists_of_forall₂ hl.flip (hcs.mem_iff.mpr hc)
  exact ⟨c', hc', hcc, mem_allClasses.mpr (.inr ⟨c, hc, rfl⟩),
    mem_allClasses.mpr (.inr ⟨c', hc', rfl⟩), class_like hf hm hcc⟩

theorem counterpart_method {e : String → Prop} {c c' : ClassDeclaration} (h : c.Permuted P e c')
    (hm : .method m ∈ c.members) :
    ∃ m', .method m' ∈ c'.members ∧ m.Like (.upTo P) (e m.name) m' := by
  obtain ⟨ms, hms, hl⟩ := h.members
  obtain ⟨member, hmem, hlike⟩ := exists_of_forall₂ hl.flip (hms.mem_iff.mpr hm)
  cases hlike with | method hlike => exact ⟨_, hmem, hlike⟩

theorem classesLike (h : p.Permuted P e p')
    (hf : ∀ c ∈ p.classes, (c.fields.map (·.name)).Nodup)
    (hm : ∀ c ∈ p.classes, (c.methods.map (·.name)).Nodup) : ClassesLike P p p' := by
  intro c hc
  rcases mem_allClasses.mp hc with ⟨c, hmain, rfl⟩ | ⟨c, hclass, rfl⟩
  case inl =>
    obtain ⟨c', _, _, hcp⟩ := counterparts_main h hmain
    exact ⟨_, hcp⟩
  case inr =>
    obtain ⟨c', _, _, hcp⟩ := counterparts_regular h hclass (hf c hclass) (hm c hclass)
    exact ⟨_, hcp⟩

end

end Typing

end MiniJava
