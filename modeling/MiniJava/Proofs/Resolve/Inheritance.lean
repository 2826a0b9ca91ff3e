import MiniJava.Proofs.Resolve.Classes
import MiniJava.Proofs.Typing.Lineage

namespace MiniJava.Resolve

open Typing

theorem find?_eq_some_iff_of_nodup {α : Type} {f : α → String} {l : List α} {a : α}
    (hn : (l.map f).Nodup) : l.find? (f · = name) = some a ↔ a ∈ l ∧ f a = name := by
  constructor
  case mp =>
    intro h
    have hf := List.find?_some h
    exact ⟨List.mem_of_find?_eq_some h, of_decide_eq_true hf⟩
  case mpr =>
    intro ⟨ha, hf⟩
    obtain ⟨b, hb⟩ : ∃ b, l.find? (f · = name) = some b := by
      rw [← Option.isSome_iff_exists, List.find?_isSome]
      exact ⟨a, ha, decide_eq_true hf⟩
    have hfb := List.find?_some hb
    have hfb : f b = name := of_decide_eq_true hfb
    rw [hb, List.inj_on_of_nodup_map hn (List.mem_of_find?_eq_some hb) ha (hfb.trans hf.symm)]

-- The class that a class extends.
def parent? (ds : List DefinedClass) (D : DefinedClass) : Option DefinedClass :=
  D.declaration.superclass.bind fun name => ds.find? (·.name = name)

theorem mem_of_parent? (h : parent? ds D = some P) :
    P ∈ ds ∧ D.declaration.superclass = some P.name := by
  obtain ⟨name, hs, hf⟩ := Option.bind_eq_some_iff.mp h
  have hn := List.find?_some hf
  exact ⟨List.mem_of_find?_eq_some hf, hs.trans (congrArg some (of_decide_eq_true hn).symm)⟩

-- The classes in `done` have been linked, those in `todo` not yet.
structure Links (t : SymbolTable) (done todo : List DefinedClass) : Prop where
  types    : Types t ((done ++ todo).map (·.name))
  linked   : ∀ D ∈ done, Bare t D (parent? (done ++ todo) D) ∧
    (D.declaration.superclass.isSome = true → (parent? (done ++ todo) D).isSome = true)
  rest     : ∀ D ∈ todo, Bare t D none
  ancestry : ∀ D ∈ done ++ todo, ∃ l, t.Ancestry D.symbol l

namespace Links

theorem bare (h : Links t done todo) (hD : D ∈ done ++ todo) : ∃ parent, Bare t D parent := by
  cases List.mem_append.mp hD with
  | inl hD => exact ⟨_, (h.linked D hD).1⟩
  | inr hD => exact ⟨_, h.rest D hD⟩

theorem name_eq (h : Links t done todo) (hD : D ∈ done ++ todo) (hD' : D' ∈ done ++ todo)
    (hs : D.symbol = D'.symbol) : D.name = D'.name := by
  obtain ⟨_, hb⟩ := h.bare hD
  obtain ⟨_, hb'⟩ := h.bare hD'
  have hx := hs ▸ hb.symbol
  exact congrArg Symbol.name (Option.some.inj (hx.symm.trans hb'.symbol))

-- What is met on the way up are superclasses.
theorem extends_of_ancestry (h : Links t done todo)
    (hds : (done ++ todo).map (·.declaration) = allClasses p) (hP : P ∈ done ++ todo)
    (hl : t.Ancestry P.symbol l) (hD : D ∈ done ++ todo) (he : ∃ e ∈ l, e.1 = D.symbol) :
    Relation.ReflTransGen (Extends p) P.name D.name := by
  generalize hi : P.symbol = i at hl
  induction hl generalizing P with
  | last hv hp =>
    obtain ⟨e, he, hs⟩ := he
    rw [List.mem_singleton.mp he] at hs
    exact h.name_eq hP hD (hi.trans hs) ▸ .refl
  | @step i b j l hv hp hl hj =>
    obtain ⟨e, he, hs⟩ := he
    cases List.mem_cons.mp he with
    | inl he =>
      rw [he] at hs
      exact h.name_eq hP hD (hi.trans hs) ▸ .refl
    | inr he' =>
      subst hi
      cases List.mem_append.mp hP with
      | inr hP =>
        rw [(h.rest P hP).symbol] at hv
        obtain rfl := Option.some.inj hv
        cases hp
      | inl hP' =>
        rw [(h.linked P hP').1.symbol] at hv
        obtain rfl := Option.some.inj hv
        obtain ⟨Q, hQ, rfl⟩ := Option.map_eq_some_iff.mp hp
        obtain ⟨hQ', hs'⟩ := mem_of_parent? hQ
        have hc : P.declaration ∈ allClasses p := hds ▸ List.mem_map_of_mem hP
        have hx : Extends p P.name Q.name := extends_iff.mpr ⟨_, hc, rfl, hs'⟩
        exact .head hx (hj hQ' ⟨e, he', hs⟩ rfl)

end Links

-- The new link is at the end of every path that it is on.
theorem ancestry_link {t t' : SymbolTable} {b : Symbol} (hl : t.Ancestry i l) (hj : t.Ancestry j lj) (hx : ∀ e ∈ lj, e.1 ≠ x)
    (hv : ∀ i ≠ x, t'.symbol? i = t.symbol? i) (hb : t'.symbol? x = some b)
    (hp : b.asType?.bind (·.superclass) = some j) : ∃ l', t'.Ancestry i l' := by
  have hj' : t'.Ancestry j lj := hj.congr fun e he => (hv e.1 (hx e he)).trans (hj.view_of_mem he)
  induction hl with
  | @last i b hv' hp' =>
    by_cases hi : i = x
    case pos => exact ⟨_, .step (hi ▸ hb) hp hj'⟩
    case neg => exact ⟨_, .last ((hv i hi).trans hv') hp'⟩
  | @step i b k l hv' hp' _ hi' =>
    by_cases hi : i = x
    case pos => exact ⟨_, .step (hi ▸ hb) hp hj'⟩
    case neg =>
      obtain ⟨l', hl'⟩ := hi'
      exact ⟨_, .step ((hv i hi).trans hv') hp' hl'⟩

def withSuperclass (t : SymbolTable) (D P : DefinedClass) : SymbolTable :=
  (t.setSuperclass D.symbol P.symbol).setParent D.scope P.scope

theorem symbol?_withSuperclass_of_ne (h : i ≠ D.symbol) :
    (withSuperclass t D P).symbol? i = t.symbol? i := by
  show (t.setSuperclass _ _).symbol? i = _
  rw [SymbolTable.symbol?_setSuperclass, if_neg h.symm]

theorem scope?_withSuperclass_of_ne (h : i ≠ D.scope) :
    (withSuperclass t D P).scope? i = t.scope? i := by
  rw [withSuperclass, SymbolTable.scope?_setParent, if_neg h.symm]
  rfl

theorem Types.withSuperclass (h : Types t names) (hD : D.scope ≠ SymbolTable.globalScope)
    (hb : Bare t D parent) : Types (Resolve.withSuperclass t D P) names := by
  have hg := scope?_withSuperclass_of_ne (t := t) (P := P) hD.symm
  have hr (name) : (Resolve.withSuperclass t D P).resolveType? name = t.resolveType? name := by
    rw [SymbolTable.resolveType?, hg, SymbolTable.resolveType?]
  constructor
  case global => exact hg ▸ h.global
  case known => exact fun name => hr name ▸ h.known name
  case builtin =>
    intro name hname
    obtain ⟨x, hx, hs⟩ := h.builtin name hname
    refine ⟨x, (hr name).trans hx, ?_⟩
    rw [symbol?_withSuperclass_of_ne, hs]
    rintro rfl
    cases hs.symm.trans hb.symbol

theorem Bare.withSuperclass_of_ne (h : Bare t D' parent') (hb : Bare t D parent)
    (hD : D.scope ≠ SymbolTable.globalScope) (hn : D'.symbol ≠ D.symbol) :
    Bare (Resolve.withSuperclass t D P) D' parent' where
  resolved := by
    rw [SymbolTable.resolveType?, scope?_withSuperclass_of_ne hD.symm]
    exact h.resolved
  symbol   := (symbol?_withSuperclass_of_ne hn).trans h.symbol
  scope    := by
    rw [scope?_withSuperclass_of_ne, h.scope]
    intro hs
    have hx := hs ▸ h.scope
    exact hn (Option.some.inj (congrArg Scope.owner (Option.some.inj (hx.symm.trans hb.scope))))
  node     := h.node

theorem Bare.withSuperclass (h : Bare t D none) (hD : D.scope ≠ SymbolTable.globalScope) :
    Bare (Resolve.withSuperclass t D P) D (some P) where
  resolved := by
    rw [SymbolTable.resolveType?, scope?_withSuperclass_of_ne hD.symm]
    exact h.resolved
  symbol   := by
    show (t.setSuperclass _ _).symbol? D.symbol = _
    rw [SymbolTable.symbol?_setSuperclass, if_pos rfl, h.symbol]
    rfl
  scope    := by
    rw [Resolve.withSuperclass, SymbolTable.scope?_setParent, if_pos rfl]
    show (t.scope? D.scope).map _ = _
    rw [h.scope]
    rfl
  node     := h.node

-- A class is put from the one list to the other.
theorem Links.move (h : Links t done (D :: todo)) (ht : Types t' ((done ++ D :: todo).map (·.name)))
    (hD : Bare t' D (parent? (done ++ D :: todo) D) ∧
      (D.declaration.superclass.isSome = true → (parent? (done ++ D :: todo) D).isSome = true))
    (hb : ∀ D' parent, D' ∈ done ++ todo → Bare t D' parent → Bare t' D' parent)
    (hl : ∀ i l, t.Ancestry i l → ∃ l', t'.Ancestry i l') : Links t' (done ++ [D]) todo := by
  have he : done ++ [D] ++ todo = done ++ D :: todo := by simp
  constructor
  case types => rwa [he]
  case linked =>
    rw [he]
    intro D' hD'
    cases List.mem_append.mp hD' with
    | inl hD' =>
      obtain ⟨hl, hs⟩ := h.linked D' hD'
      exact ⟨hb D' _ (List.mem_append_left _ hD') hl, hs⟩
    | inr hD' =>
      rw [List.mem_singleton.mp hD']
      exact hD
  case rest =>
    intro D' hD'
    exact hb D' _ (List.mem_append_right _ hD') (h.rest D' (List.mem_cons_of_mem _ hD'))
  case ancestry =>
    rw [he]
    intro D' hD'
    obtain ⟨l, hl'⟩ := h.ancestry D' hD'
    exact hl _ _ hl'

theorem linkSuperclass_of_none (h : D.declaration.superclass = none) (σ : State) :
    linkSuperclass D σ = ((), σ) := by
  obtain ⟨c, x, s⟩ := D
  unfold linkSuperclass
  cases c with
  | main m    => rfl
  | regular c =>
    dsimp only
    rw [show c.superclass = none from h]
    rfl

theorem linkSuperclass_of_undeclared {σ : State} (h : D.declaration.superclass = some name)
    (hr : σ.table.resolveType? name = none) :
    linkSuperclass D σ = report (.unresolved .superclass name) D.declaration.position σ := by
  obtain ⟨c, x, s⟩ := D
  unfold linkSuperclass
  cases c with
  | main m    => cases h
  | regular c =>
    dsimp only
    rw [show c.superclass = some name from h]
    dsimp only
    rw [run_bind, run_get]
    dsimp only
    rw [hr]
    rfl

theorem linkSuperclass_of_builtin {σ : State} (h : D.declaration.superclass = some name)
    (hr : σ.table.resolveType? name = some y)
    (hy : σ.table.symbol? y = some ⟨name, .ofType ⟨true, none, none⟩, none⟩) :
    linkSuperclass D σ = report (.extendsBuiltin D.name name) D.declaration.position σ := by
  have he : extensibleScope? σ.table y = none := by
    rw [extensibleScope?, hy]
    rfl
  obtain ⟨c, x, s⟩ := D
  unfold linkSuperclass
  cases c with
  | main m    => cases h
  | regular c =>
    dsimp only
    rw [show c.superclass = some name from h]
    dsimp only
    rw [run_bind, run_get]
    dsimp only
    rw [hr]
    dsimp only
    rw [he]
    rfl

theorem linkSuperclass_of_bare {σ : State} (h : D.declaration.superclass = some P.name)
    (hb : Bare σ.table P parent) :
    linkSuperclass D σ =
      if σ.table.inherits P.symbol D.symbol = true then
        report (.cyclicInheritance D.name) D.declaration.position σ
      else ((), { σ with table := withSuperclass σ.table D P }) := by
  have he : extensibleScope? σ.table P.symbol = some P.scope := by
    rw [extensibleScope?, hb.symbol]
    rfl
  obtain ⟨c, x, s⟩ := D
  unfold linkSuperclass
  cases c with
  | main m    => cases h
  | regular c =>
    dsimp only
    rw [show c.superclass = some P.name from h]
    dsimp only
    rw [run_bind, run_get]
    dsimp only
    rw [hb.resolved]
    dsimp only
    rw [he]
    dsimp only
    split <;> rfl

theorem Adds.linkSuperclass (D : DefinedClass) (σ : State) :
    Adds σ (Resolve.linkSuperclass D σ).2 := by
  unfold Resolve.linkSuperclass
  cases D.declaration with
  | main m    => exact .refl σ
  | regular c =>
    dsimp only
    cases c.superclass with
    | none      => exact .refl σ
    | some name =>
      dsimp only
      rw [run_bind, run_get]
      dsimp only
      cases σ.table.resolveType? name with
      | none   => exact .report _ _ _
      | some x =>
        dsimp only
        cases extensibleScope? σ.table x with
        | none   => exact .report _ _ _
        | some s =>
          dsimp only
          split
          case isTrue  => exact .report _ _ _
          case isFalse => exact .of_eq rfl

inductive LinksVerdict (p : Program) (ds : List DefinedClass) (σ σ' : State) : Prop
  | passed : Links σ'.table ds [] → σ'.size = σ.size → LinksVerdict p ds σ σ'
  | failed :
    ((∀ c ∈ allClasses p, ∀ name, c.superclass = some name → name ∈ classNames p) →
      ∃ name, Relation.TransGen (Extends p) name name) →
      σ.size < σ'.size → LinksVerdict p ds σ σ'

theorem Links.linkSuperclass {σ : State} (h : Links σ.table done (D :: todo))
    (hds : (done ++ D :: todo).map (·.declaration) = allClasses p) (hn : (classNames p).Nodup)
    (hb : ∀ c ∈ allClasses p, ∀ name, c.superclass = some name → name ∉ builtinTypes) :
    Links (Resolve.linkSuperclass D σ).2.table (done ++ [D]) todo ∧
        (Resolve.linkSuperclass D σ).2.size = σ.size ∨
      ((∀ c ∈ allClasses p, ∀ name, c.superclass = some name → name ∈ classNames p) →
        ∃ name, Relation.TransGen (Extends p) name name) ∧
        σ.size < (Resolve.linkSuperclass D σ).2.size := by
  have hD : D ∈ done ++ D :: todo := by simp
  have hc : D.declaration ∈ allClasses p := hds ▸ List.mem_map_of_mem hD
  have hnames : (done ++ D :: todo).map (·.name) = classNames p := by
    rw [classNames, ← hds, List.map_map]
    rfl
  cases hs : D.declaration.superclass with
  | none      =>
    rw [linkSuperclass_of_none hs]
    have hp : parent? (done ++ D :: todo) D = none := by rw [parent?, hs]; rfl
    have hbare := h.rest D List.mem_cons_self
    exact .inl ⟨h.move h.types ⟨hp ▸ hbare, by simp [hs]⟩ (fun _ _ _ => id) (fun _ l hl => ⟨l, hl⟩), rfl⟩
  | some name =>
    have hk := h.types.known name
    rw [hnames] at hk
    by_cases hd : name ∈ classNames p
    case neg =>
      have hr : σ.table.resolveType? name = none := by
        rw [← Option.not_isSome_iff_eq_none, hk]
        simp [hb _ hc name hs, hd]
      rw [linkSuperclass_of_undeclared hs hr]
      exact .inr ⟨fun hall => absurd (hall _ hc name hs) hd, lt_size_report _ _ _⟩
    case pos =>
      obtain ⟨P, hP⟩ : ∃ P, parent? (done ++ D :: todo) D = some P := by
        rw [← hnames] at hd
        obtain ⟨P, hP, hPn⟩ := List.mem_map.mp hd
        rw [parent?, hs, Option.bind_some, ← Option.isSome_iff_exists, List.find?_isSome]
        exact ⟨P, hP, decide_eq_true hPn⟩
      obtain ⟨hPm, hPs⟩ := mem_of_parent? hP
      obtain ⟨_, hPb⟩ := h.bare hPm
      obtain ⟨lP, hlP⟩ := h.ancestry P hPm
      have hi := SymbolTable.inherits_iff hlP D.symbol
      rw [linkSuperclass_of_bare hPs hPb]
      by_cases hc' : σ.table.inherits P.symbol D.symbol = true
      case pos =>
        rw [if_pos hc']
        have hx : Extends p D.name P.name := extends_iff.mpr ⟨_, hc, rfl, hPs⟩
        have hr := h.extends_of_ancestry hds hPm hlP hD (hi.mp hc')
        exact .inr ⟨fun _ => ⟨D.name, .head' hx hr⟩, lt_size_report _ _ _⟩
      case neg =>
        rw [if_neg hc']
        have hbare := h.rest D List.mem_cons_self
        have hD₀ := hbare.scope_ne h.types
        have hbare' := hbare.withSuperclass (P := P) hD₀
        have hlP' (e) (he : e ∈ lP) : e.1 ≠ D.symbol := fun hs => hc' (hi.mpr ⟨e, he, hs⟩)
        have hne (D') (hD' : D' ∈ done ++ todo) : D'.symbol ≠ D.symbol := by
          have hn := hnames ▸ hn
          rw [List.map_append, List.map_cons, List.nodup_middle, ← List.map_append] at hn
          have hm : D' ∈ done ++ D :: todo := by
            cases List.mem_append.mp hD' with
            | inl hD' => exact List.mem_append_left _ hD'
            | inr hD' => exact List.mem_append_right _ (List.mem_cons_of_mem _ hD')
          intro hs
          exact (List.nodup_cons.mp hn).1 (h.name_eq hm hD hs ▸ List.mem_map_of_mem hD')
        refine .inl ⟨h.move (h.types.withSuperclass hD₀ hbare) ?linked ?others ?ancestry, rfl⟩
        case linked => exact ⟨hP ▸ hbare', fun _ => hP ▸ rfl⟩
        case others => exact fun D' _ hD' hb => hb.withSuperclass_of_ne hbare hD₀ (hne D' hD')
        case ancestry =>
          exact fun _ _ hl => ancestry_link hl hlP hlP' (fun _ => symbol?_withSuperclass_of_ne)
            hbare'.symbol rfl

theorem verdict_linkSuperclasses (todo : List DefinedClass) (h : Links σ.table done todo)
    (hds : (done ++ todo).map (·.declaration) = allClasses p) (hn : (classNames p).Nodup)
    (hb : ∀ c ∈ allClasses p, ∀ name, c.superclass = some name → name ∉ builtinTypes) :
    LinksVerdict p (done ++ todo) σ (todo.forM linkSuperclass σ).2 := by
  induction todo generalizing done σ with
  | nil            =>
    rw [List.append_nil]
    exact .passed h rfl
  | cons D todo hi =>
    rw [run_forM_cons]
    have he : done ++ D :: todo = done ++ [D] ++ todo := by simp
    cases h.linkSuperclass hds hn hb with
    | inr hf =>
      exact .failed hf.1 (Nat.lt_of_lt_of_le hf.2 (Adds.forM Adds.linkSuperclass todo _).size_le)
    | inl hl =>
      rw [he] at hds ⊢
      cases hi hl.1 hds with
      | passed h hq    => exact .passed h (hq.trans hl.2)
      | failed hu hlt  => exact .failed hu (hl.2 ▸ hlt)

-- Once all classes are linked, each of them has a lineage.
theorem Links.lineage (h : Links t ds []) (hds : ds.map (·.declaration) = allClasses p)
    (hD : D ∈ ds) : ∃ l, Lineage p D.declaration l := by
  obtain ⟨l, hl⟩ := h.ancestry D (List.mem_append_left _ hD)
  generalize hi : D.symbol = i at hl
  induction hl generalizing D with
  | last hv hp =>
    subst hi
    obtain ⟨hb, hs⟩ := h.linked D hD
    have hc : D.declaration ∈ allClasses p := hds ▸ List.mem_map_of_mem hD
    rw [hb.symbol] at hv
    obtain rfl := Option.some.inj hv
    rw [Option.map_eq_none_iff.mp hp] at hs
    exact ⟨_, .root hc (Option.not_isSome_iff_eq_none.mp fun hs' => by simpa using hs hs')⟩
  | step hv hp _ hj =>
    subst hi
    have hc : D.declaration ∈ allClasses p := hds ▸ List.mem_map_of_mem hD
    rw [(h.linked D hD).1.symbol] at hv
    obtain rfl := Option.some.inj hv
    obtain ⟨P, hP, rfl⟩ := Option.map_eq_some_iff.mp hp
    obtain ⟨hPm, hs⟩ := mem_of_parent? hP
    obtain ⟨l, hl⟩ := hj (List.append_nil ds ▸ hPm) rfl
    exact ⟨_, .extend hc hs hl⟩

end MiniJava.Resolve
