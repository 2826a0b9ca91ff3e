import Mathlib.Logic.Relation
import MiniJava.Proofs.Binding.Program
import MiniJava.Proofs.Resolve.Notices

namespace MiniJava

namespace Binding

open Resolve (AnyClass DefinedClass State report run_forM_cons)
open Relation (ReflTransGen TransGen)
open Typing

-- The class that a class names as its superclass.
def named? (cs : List AnyClass) (c : AnyClass) : Option AnyClass :=
  c.superclass.bind (class? cs)

abbrev Wants (cs : List AnyClass) (c d : AnyClass) : Prop :=
  named? cs c = some d

def Reaches (cs : List AnyClass) : AnyClass → AnyClass → Prop :=
  TransGen (Wants cs)

-- The class of a cycle that comes last.
structure Closes (cs : List AnyClass) (c : AnyClass) : Prop where
  cycle : Reaches cs c c
  last  : ∀ d, Reaches cs c d → Reaches cs d c → ¬[c, d].Sublist cs

-- The class that a class has been linked with.
def super? (cs : List AnyClass) (ls : Links) (c : AnyClass) : Option AnyClass :=
  (ls.lookup c.name).bind (class? cs)

abbrev LinkedTo (cs : List AnyClass) (ls : Links) (c d : AnyClass) : Prop :=
  super? cs ls c = some d

section

variable {cs : List AnyClass} {c d : AnyClass}

theorem Wants.eq (h : Wants cs c d) (h' : Wants cs c d') : d = d' :=
  Option.some.inj (h.symm.trans h')

theorem class?_of_wants (h : Wants cs c d) : class? cs d.name = some d := by
  obtain ⟨name, _, hd⟩ := Option.bind_eq_some_iff.mp h
  have hname := List.find?_some hd
  obtain rfl : d.name = name := of_decide_eq_true hname
  exact hd

theorem mem_of_wants (h : Wants cs c d) : d ∈ cs := by
  obtain ⟨name, _, hd⟩ := Option.bind_eq_some_iff.mp h
  exact List.mem_of_find?_eq_some hd

theorem mem_of_reaches (h : Reaches cs c d) : d ∈ cs := by
  cases h with
  | single h => exact mem_of_wants h
  | tail _ h => exact mem_of_wants h

-- From a class on a cycle the way leads on along the cycle.
theorem Reaches.of_wants (h : Reaches cs c d) (hn : Wants cs c c') :
    ReflTransGen (Wants cs) c' d := by
  obtain ⟨b, hb, h⟩ := TransGen.head'_iff.mp h
  exact hn.eq hb ▸ h

end

section

variable {l m : List α} {a b : α}

theorem pair_sublist (ha : a ∈ l) (hb : b ∈ m) : [a, b].Sublist (l ++ m) :=
  (List.singleton_sublist.mpr ha).append (List.singleton_sublist.mpr hb)

theorem mem_of_pair_sublist (hn : (l ++ a :: m).Nodup) (h : [a, b].Sublist (l ++ a :: m)) :
    b ∈ m := by
  induction l with
  | nil         =>
    obtain ⟨ha, _⟩ := List.nodup_cons.mp hn
    cases h with
    | cons _ h      => exact absurd (h.subset List.mem_cons_self) ha
    | cons_cons _ h => exact List.singleton_sublist.mp h
  | cons c l hi =>
    obtain ⟨hc, hn⟩ := List.nodup_cons.mp hn
    cases h with
    | cons _ h      => exact hi hn h
    | cons_cons _ h => exact absurd (List.mem_append_right _ List.mem_cons_self) hc

theorem pair_sublist_or (ha : a ∈ l) (hb : b ∈ l) (hn : a ≠ b) :
    [a, b].Sublist l ∨ [b, a].Sublist l := by
  induction l with
  | nil         => cases ha
  | cons c l hi =>
    cases List.mem_cons.mp ha with
    | inl hac =>
      subst hac
      have hb := (List.mem_cons.mp hb).resolve_left hn.symm
      exact .inl ((List.singleton_sublist.mpr hb).cons_cons a)
    | inr hal =>
      cases List.mem_cons.mp hb with
      | inl hbc =>
        subst hbc
        exact .inr ((List.singleton_sublist.mpr hal).cons_cons b)
      | inr hbl => exact (hi hal hbl).imp (.cons c) (.cons c)

theorem exists_last {p : α → Prop} (hn : l.Nodup) (h : ∃ a ∈ l, p a) :
    ∃ a ∈ l, p a ∧ ∀ b, p b → ¬[a, b].Sublist l := by
  induction l with
  | nil         => obtain ⟨_, ha, _⟩ := h; cases ha
  | cons c l hi =>
    obtain ⟨hc, hnl⟩ := List.nodup_cons.mp hn
    by_cases hl : ∃ a ∈ l, p a
    case pos =>
      obtain ⟨a, ha, hpa, hlast⟩ := hi hnl hl
      refine ⟨a, List.mem_cons_of_mem c ha, hpa, fun b hb hs => ?_⟩
      cases hs with
      | cons _ hs      => exact hlast b hb hs
      | cons_cons _ hs => exact hc ha
    case neg =>
      obtain ⟨a, ha, hpa⟩ := h
      have hac : a = c := (List.mem_cons.mp ha).resolve_right fun ha => hl ⟨a, ha, hpa⟩
      subst hac
      refine ⟨a, ha, hpa, fun b hb hs => hl ⟨b, ?_, hb⟩⟩
      exact mem_of_pair_sublist (l := []) hn hs

end

-- Of the classes of a cycle one comes last.
theorem existsUnique_closes (hn : cs.Nodup) (h : Reaches cs c c) :
    ∃! d, Closes cs d ∧ Reaches cs c d ∧ Reaches cs d c := by
  obtain ⟨d, _, ⟨hcd, hdc⟩, hlast⟩ :=
    exists_last (p := fun d => Reaches cs c d ∧ Reaches cs d c) hn ⟨c, mem_of_reaches h, h, h⟩
  refine ⟨d, ⟨⟨hdc.trans hcd, fun e hde hed => ?last⟩, hcd, hdc⟩, ?unique⟩
  case last => exact hlast e ⟨hcd.trans hde, hed.trans hdc⟩
  case unique =>
    rintro e ⟨he, hce, hec⟩
    by_contra hne
    have hde : Reaches cs d e := hdc.trans hce
    have hed : Reaches cs e d := hec.trans hcd
    cases pair_sublist_or (mem_of_reaches hed) (mem_of_reaches hde) (Ne.symm hne) with
    | inl hs => exact hlast e ⟨hce, hec⟩ hs
    | inr hs => exact he.last d hed hde hs

-- The classes in `done` have been linked as they ask for, but for those that close a cycle.
def Follows (cs done : List AnyClass) (ls : Links) : Prop :=
  ∀ c ∈ cs, ∀ d, LinkedTo cs ls c d ↔ c ∈ done ∧ ¬Closes cs c ∧ Wants cs c d

namespace Follows

variable {cs done m : List AnyClass} {ls : Links} {c d : AnyClass}

theorem nil (cs : List AnyClass) : Follows cs [] [] := by
  intro c _ d
  constructor
  case mp  => exact nofun
  case mpr => exact fun h => absurd h.1 List.not_mem_nil

theorem wants (h : Follows cs done ls) (hc : c ∈ cs) (hd : LinkedTo cs ls c d) : Wants cs c d :=
  ((h c hc d).mp hd).2.2

theorem wants_of_linkedTo (h : Follows cs done ls) (hd : d ∈ cs)
    (hr : ReflTransGen (LinkedTo cs ls) d e) : ReflTransGen (Wants cs) d e := by
  induction hr using ReflTransGen.head_induction_on with
  | refl           => exact .refl
  | head hab _ hi =>
    have hn := h.wants hd hab
    exact .head hn (hi (mem_of_wants hn))

-- The way up from the class that `c` names comes to `c` if and only if `c` closes a cycle.
theorem closes_iff (h : Follows (done ++ c :: m) done ls) (hn : (done ++ c :: m).Nodup)
    (hd : Wants (done ++ c :: m) c d) :
    ReflTransGen (LinkedTo (done ++ c :: m) ls) d c ↔ Closes (done ++ c :: m) c := by
  have hds := mem_of_wants hd
  generalize hcs : done ++ c :: m = cs at h hd hds ⊢
  constructor
  case mp  =>
    intro hr
    have hcycle : Reaches cs c c := .head' hd (h.wants_of_linkedTo hds hr)
    refine ⟨hcycle, fun e he hec hs => ?_⟩
    -- All that is reached from `c` has links that lead back to it.
    have hback (e) (he : ReflTransGen (Wants cs) d e) :
        e ∈ cs ∧ ReflTransGen (LinkedTo cs ls) e c := by
      induction he with
      | refl             => exact ⟨hds, hr⟩
      | @tail e f _ hf hi =>
        obtain ⟨he, hec⟩ := hi
        refine ⟨mem_of_wants hf, ?_⟩
        obtain rfl | ⟨g, hg, hgc⟩ := ReflTransGen.cases_head hec
        case inl => exact hd.eq hf ▸ hr
        case inr => exact (h.wants he hg).eq hf ▸ hgc
    obtain ⟨_, hback⟩ := hback e (he.of_wants hd)
    have hem : e ∈ m := mem_of_pair_sublist hn (hcs ▸ hs)
    obtain ⟨hnd, hnm, hdm⟩ := List.nodup_append'.mp hn
    obtain rfl | ⟨g, hg, _⟩ := ReflTransGen.cases_head hback
    case inl => exact (List.nodup_cons.mp hnm).1 hem
    case inr =>
      have hed := (h e (mem_of_reaches he) g).mp hg
      exact hdm hed.1 (List.mem_cons_of_mem _ hem)
  case mpr =>
    intro hc
    -- The other classes of the cycle come before `c`, so all of their links are there.
    have hall (e) (he : ReflTransGen (Wants cs) e c) (hce : Reaches cs c e) :
        ReflTransGen (LinkedTo cs ls) e c := by
      induction he using ReflTransGen.head_induction_on with
      | refl              => exact .refl
      | @head e f hef hfc hi =>
        by_cases hne : e = c
        case pos => exact hne ▸ .refl
        case neg =>
          have hec : Reaches cs e c := .head' hef hfc
          have hecs : e ∈ done ++ c :: m := hcs ▸ mem_of_reaches hce
          have hed : e ∈ done := by
            cases List.mem_append.mp hecs with
            | inl he => exact he
            | inr he =>
              have hem := (List.mem_cons.mp he).resolve_left hne
              have hs : [c, e].Sublist cs :=
                hcs ▸ (((List.singleton_sublist.mpr hem).cons_cons c).trans
                  (List.sublist_append_right done _))
              exact absurd hs (hc.last e hce hec)
          have hopen : ¬Closes cs e := fun hcl =>
            hcl.last c hec hce (hcs ▸ pair_sublist hed List.mem_cons_self)
          exact .head ((h e (mem_of_reaches hce) f).mpr ⟨hed, hopen, hef⟩) (hi (hce.tail hef))
    exact hall d (hc.cycle.of_wants hd) (.single hd)

end Follows

-- The link that a class asks for would close a cycle.
def loops (cs : List AnyClass) (ls : Links) (c : AnyClass) : Bool :=
  (named? cs c).any fun d => (line cs ls cs.length d).any (·.name = c.name)

theorem super?_link_of_ne (cs : List AnyClass) (ls : Links) (h : c.name ≠ d.name) :
    super? cs (link cs ls c) d = super? cs ls d := by
  rw [super?, lookup_link cs ls h]
  rfl

theorem link_of_none (h : named? cs c = none) : link cs ls c = ls := by
  rw [named?] at h
  rw [link]
  cases hs : c.superclass with
  | none      => rfl
  | some name =>
    rw [hs] at h
    dsimp only
    rw [show class? cs name = none from h]

theorem link_of_wants (h : Wants cs c d) :
    link cs ls c = if loops cs ls c = true then ls else (c.name, d.name) :: ls := by
  obtain ⟨name, hs, hd⟩ := Option.bind_eq_some_iff.mp h
  have hname := List.find?_some hd
  obtain rfl : d.name = name := of_decide_eq_true hname
  rw [link, hs]
  dsimp only
  rw [hd, loops, h]
  rfl

theorem super?_map (ds : List DefinedClass) (ls : Links) (D : DefinedClass) :
    super? (ds.map (·.declaration)) ls D.declaration = (linked? ds ls D).map (·.declaration) := by
  rw [super?, linked?, Option.map_bind]
  exact congrArg _ (funext fun name => class?_map ds name)

-- The classes that a class extends are those that it is linked with.
theorem Ascends.mem_iff (h : Ascends ds ls D Ps) :
    c ∈ Ps.map (·.declaration) ↔
      ReflTransGen (LinkedTo (ds.map (·.declaration)) ls) D.declaration c := by
  induction h with
  | @root D _ hl           =>
    have hs : super? (ds.map (·.declaration)) ls D.declaration = none := by
      rw [super?_map, hl]
      rfl
    rw [List.map_singleton, List.mem_singleton]
    constructor
    case mp  => exact fun h => h ▸ .refl
    case mpr =>
      intro h
      obtain h | ⟨e, he, _⟩ := ReflTransGen.cases_head h
      case inl => exact h.symm
      case inr => cases hs.symm.trans he
  | @extend D P Ps _ hl _ hi =>
    have hs : super? (ds.map (·.declaration)) ls D.declaration = some P.declaration := by
      rw [super?_map, hl]
      rfl
    rw [List.map_cons, List.mem_cons, hi]
    constructor
    case mp  =>
      rintro (rfl | h)
      case inl => exact .refl
      case inr => exact .head hs h
    case mpr =>
      intro h
      obtain h | ⟨e, he, h⟩ := ReflTransGen.cases_head h
      case inl => exact .inl h.symm
      case inr =>
        obtain rfl := Option.some.inj (hs.symm.trans he)
        exact .inr h

theorem Follows.step {cs : List AnyClass} (h : Follows cs done ls) (hcs : cs = done ++ c :: m)
    (hn : (cs.map (·.name)).Nodup) (hl : loops cs ls c = true ↔ Closes cs c) :
    Follows cs (done ++ [c]) (link cs ls c) := by
  have hc : c ∈ cs := hcs ▸ List.mem_append_right _ List.mem_cons_self
  have hcd : c ∉ done := fun hd => by
    have hn : (done ++ c :: m).Nodup := hcs ▸ List.Nodup.of_map _ hn
    exact (List.nodup_append'.mp hn).2.2 hd List.mem_cons_self
  intro c' hc' d
  by_cases he : c' = c
  case neg =>
    have hne : c.name ≠ c'.name := fun hne => he (List.inj_on_of_nodup_map hn hc' hc hne.symm)
    rw [LinkedTo, super?_link_of_ne cs ls hne, List.mem_append, List.mem_singleton, or_iff_left he]
    exact h c' hc' d
  case pos =>
    subst he
    have hfree : ¬LinkedTo cs ls c' d := fun hx => hcd ((h c' hc d).mp hx).1
    have hm : c' ∈ done ++ [c'] := List.mem_append_right _ (List.mem_singleton_self _)
    rw [and_iff_right hm, ← hl]
    cases hx : named? cs c' with
    | none   =>
      rw [link_of_none hx]
      exact iff_of_false hfree fun h => by cases hx.symm.trans h.2
    | some e =>
      rw [link_of_wants hx]
      split
      case isTrue hlt  => exact iff_of_false hfree fun h => h.1 hlt
      case isFalse hlf =>
        rw [and_iff_right hlf, LinkedTo, super?, List.lookup_cons_self, Option.bind_some,
          class?_of_wants hx, Wants, hx]

section

variable {p : Program} {ds : List DefinedClass} {ls : Links} {σ : State} {D : DefinedClass}

theorem Linked.nodup (h : Linked t ds ls) : ((ds.map (·.declaration)).map (·.name)).Nodup := by
  rw [List.map_map]
  exact h.distinct

theorem Linked.loops_iff (h : Linked t ds ls) (hD : D ∈ ds)
    (hf : Follows (ds.map (·.declaration)) done ls)
    (hds : ds.map (·.declaration) = done ++ D.declaration :: m) :
    loops (ds.map (·.declaration)) ls D.declaration = true ↔
      Closes (ds.map (·.declaration)) D.declaration := by
  have hn : (ds.map (·.declaration)).Nodup := List.Nodup.of_map _ h.nodup
  cases hx : named? (ds.map (·.declaration)) D.declaration with
  | none   =>
    refine iff_of_false (fun hl => ?loops) fun hc => ?closes
    case loops =>
      rw [loops, hx] at hl
      cases hl
    case closes =>
      obtain ⟨b, hb, _⟩ := TransGen.head'_iff.mp hc.cycle
      cases hx.symm.trans hb
  | some d =>
    obtain ⟨P, hP, rfl⟩ := List.mem_map.mp (mem_of_wants hx)
    obtain ⟨_, Ps, _, hPs, _, hlen⟩ := h.ascends hP
    have hcl : ReflTransGen (LinkedTo (ds.map (·.declaration)) ls) P.declaration D.declaration ↔
        Closes (ds.map (·.declaration)) D.declaration := by
      rw [hds] at hf hx hn ⊢
      exact hf.closes_iff hn hx
    rw [← hcl, ← hPs.mem_iff, loops, hx, Option.any_some,
      hPs.line_eq (by rwa [List.length_map]), List.any_eq_true]
    constructor
    case mp  =>
      rintro ⟨c, hc, hname⟩
      obtain ⟨Q, hQ, rfl⟩ := List.mem_map.mp hc
      obtain rfl := List.inj_on_of_nodup_map h.distinct (hPs.subset hQ) hD (of_decide_eq_true hname)
      exact hc
    case mpr => exact fun hc => ⟨_, hc, decide_eq_true rfl⟩

end

def cycleReport (c : AnyClass) : Diagnostic :=
  .semantic (.cyclicInheritance c.name) c.position

-- A link that would close a cycle is reported.
theorem Linked.notices_linkSuperclass {σ : State} (h : Linked σ.table ds ls) (hD : D ∈ ds) :
    (Resolve.linkSuperclass D σ).2.notices = σ.notices ++
      if loops (ds.map (·.declaration)) ls D.declaration = true then [cycleReport D.declaration]
      else [] := by
  cases hs : D.declaration.superclass with
  | none      =>
    rw [Resolve.linkSuperclass_of_none hs, loops, named?, hs]
    exact (List.append_nil _).symm
  | some name =>
    have hnamed : named? (ds.map (·.declaration)) D.declaration =
        (ds.find? (·.name = name)).map (·.declaration) := by
      rw [named?, hs, Option.bind_some, class?_map]
    rw [loops, hnamed]
    cases hf : ds.find? (·.name = name) with
    | none   =>
      have hn : name ∉ ds.map (·.name) := find?_eq_none_iff.mp hf
      refine Eq.trans ?_ (List.append_nil _).symm
      by_cases hb : name ∈ builtinTypes
      case pos =>
        obtain ⟨x, hr, hx⟩ := h.types.builtin name hb
        rw [Resolve.linkSuperclass_of_builtin hs hr hx]
        exact Resolve.Quiet.report (.extendsBuiltin D.name name) D.declaration.position σ
      case neg =>
        have hu : ¬(name ∈ builtinTypes ∨ name ∈ ds.map (·.name)) := not_or.mpr ⟨hb, hn⟩
        have hr : σ.table.resolveType? name = none :=
          Option.not_isSome_iff_eq_none.mp (mt (h.types.known name).mp hu)
        rw [Resolve.linkSuperclass_of_undeclared hs hr]
        exact Resolve.Quiet.report (.unresolved .superclass name) D.declaration.position σ
    | some P =>
      have hP := List.mem_of_find?_eq_some hf
      have hn := List.find?_some hf
      obtain rfl : P.name = name := of_decide_eq_true hn
      rw [Resolve.linkSuperclass_of_bare hs (h.bare P hP), Option.map_some, Option.any_some]
      by_cases hi : σ.table.inherits P.symbol D.symbol = true
      case pos =>
        rw [if_pos hi, if_pos ((h.inherits_iff hD hP).mp hi), State.notices_report]
        rfl
      case neg =>
        rw [if_neg hi, if_neg (mt (h.inherits_iff hD hP).mpr hi)]
        exact (List.append_nil _).symm

-- Those of the classes `todo` that close a cycle. A class names one superclass at most, so the
-- classes that are reached from a cycle are those of the cycle, and the link that is refused is
-- that of the class of the cycle that comes last.
structure Closing (cs todo closing : List AnyClass) : Prop where
  sublist : closing.Sublist todo
  mem_iff : ∀ c ∈ todo, c ∈ closing ↔ Closes cs c

theorem Closing.cons {cs todo closing : List AnyClass} (h : Closing cs todo closing) (hc : c ∉ todo)
    (hl : b = true ↔ Closes cs c) :
    Closing cs (c :: todo) ((if b = true then [c] else []) ++ closing) := by
  have hm (c') (hc' : c' ∈ todo) : c' ≠ c := fun he => hc (he ▸ hc')
  split
  case isTrue hb  =>
    refine ⟨h.sublist.cons_cons c, List.forall_mem_cons.mpr ⟨?head, fun c' hc' => ?tail⟩⟩
    case head => exact iff_of_true List.mem_cons_self (hl.mp hb)
    case tail =>
      rw [List.singleton_append, List.mem_cons, or_iff_right (hm c' hc')]
      exact h.mem_iff c' hc'
  case isFalse hb =>
    refine ⟨h.sublist.cons c, List.forall_mem_cons.mpr ⟨?_, h.mem_iff⟩⟩
    exact iff_of_false (fun hm => hc (h.sublist.subset hm)) (mt hl.mpr hb)

theorem Linked.follows_linkSuperclasses {σ : State} (todo : List DefinedClass)
    (h : Linked σ.table ds ls)
    (hk : ∀ name, Known p name ↔ name ∈ builtinTypes ∨ name ∈ ds.map (·.name))
    (hd : todo ⊆ ds) (hds : ds.map (·.declaration) = done ++ todo.map (·.declaration))
    (hf : Follows (ds.map (·.declaration)) done ls) (hl : ∀ D ∈ todo, ls.lookup D.name = none) :
    Follows (ds.map (·.declaration)) (ds.map (·.declaration))
        ((todo.map (·.declaration)).foldl (link (ds.map (·.declaration))) ls) ∧
      ∃ closing, Closing (ds.map (·.declaration)) (todo.map (·.declaration)) closing ∧
        (todo.forM Resolve.linkSuperclass σ).2.notices = σ.notices ++ closing.map cycleReport := by
  induction todo generalizing done ls σ with
  | nil            =>
    rw [List.map_nil, List.append_nil] at hds
    exact ⟨hds ▸ hf, [], ⟨.slnil, nofun⟩, (List.append_nil _).symm⟩
  | cons D todo hi =>
    rw [List.map_cons] at hds
    obtain ⟨hlD, hl⟩ := List.forall_mem_cons.mp hl
    obtain ⟨hD, hd⟩ := List.cons_subset.mp hd
    have hloops := h.loops_iff hD hf hds
    have hlink := (h.linkSuperclass hk hD hlD).1
    have hn := h.nodup
    rw [hds] at hn
    have hnD : D.declaration.name ∉ (todo.map (·.declaration)).map (·.name) := by
      rw [List.map_append, List.map_cons] at hn
      exact (List.nodup_cons.mp (List.nodup_append'.mp hn).2.1).1
    have hl (D') (hD' : D' ∈ todo) :
        (link (ds.map (·.declaration)) ls D.declaration).lookup D'.name = none := by
      rw [lookup_link _ _ fun he => hnD (he ▸ List.mem_map_of_mem (List.mem_map_of_mem hD'))]
      exact hl D' hD'
    obtain ⟨hf, closing, hc, hns⟩ := hi hlink hd (by rw [hds, List.append_cons])
      (hf.step hds h.nodup hloops) hl
    refine ⟨hf, _, hc.cons (fun hm => hnD (List.mem_map_of_mem hm)) hloops, ?_⟩
    rw [run_forM_cons, hns, h.notices_linkSuperclass hD, List.map_append, List.append_assoc]
    split
    case isTrue  => rfl
    case isFalse => rfl

end Binding

end MiniJava
