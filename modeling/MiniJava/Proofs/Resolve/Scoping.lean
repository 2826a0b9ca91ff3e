import Mathlib.Data.List.Chain
import MiniJava.Proofs.Resolve.Program
import MiniJava.Proofs.Resolve.Skeleton

namespace MiniJava

def Walk.Ends (w : Walk α) : Prop :=
  w = .exhausted ∨ ∃ a, w = .found a

namespace SymbolTable

structure ScopeTree (t : SymbolTable) : Prop where
  global   : ∃ g, t.scope? globalScope = some g ∧ g.kind = .global
  root     : ∀ s b, t.scope? s = some b → (b.parent = none ↔ s = globalScope)
  ofClass  : ∀ s b, t.scope? s = some b → b.kind = .ofClass →
    ∃ x τ, b.owner = some x ∧ t.type? x = some τ ∧
      (b.parent = some globalScope ∨ ∃ y υ q, τ.superclass = some y ∧ t.type? y = some υ ∧
        υ.scope = some q ∧ b.parent = some q)
  ofMethod : ∀ s b, t.scope? s = some b → b.kind = .ofMethod →
    ∃ q x, b.parent = some q ∧ t.IsClassScope q x ∧
      ∀ m, b.owner = some m → ∃ μ, t.method? m = some μ ∧ μ.scope = s ∧ μ.owner = x
  ofBlock  : ∀ s b, t.scope? s = some b → b.kind = .ofBlock →
    ∃ q c, b.parent = some q ∧ t.scope? q = some c ∧ (c.kind = .ofMethod ∨ c.kind = .ofBlock)
  chain    : ∀ s b, t.scope? s = some b → ∃ l, t.Chain s l ∧ (l.map Prod.fst).Nodup
  ancestry : ∀ x a, t.symbol? x = some a → ∃ l, t.Ancestry x l ∧ (l.map Prod.fst).Nodup
  names    : ∀ s b, t.scope? s = some b → ∀ space name, (t.walkName s space name).Ends
  classes  : ∀ s b, t.scope? s = some b → (t.walkClass s).Ends
  inherits : ∀ x a, t.symbol? x = some a → ∀ y,
    (Walk.along t.symbol? (fun a => a.asType?.bind (·.superclass))
      (fun z _ => if z = y then some () else none) (t.symbols.size + 1) x).Ends

variable {t : SymbolTable}

theorem Chain.ends (h : t.Chain s l) (stop : Scope → Option α) : (t.walkScopes stop s).Ends :=
  h.along_ends _ (Nat.le_succ_of_le (h.length_le fun _ _ => lt_of_scope?))

theorem Tree.scopeTree (h : t.Tree) : t.ScopeTree where
  global            := h.global
  root _ _          := h.parent_eq_none_iff
  ofClass s b hb hk := by
    cases h.placed s b hb with
    | global _ hk' | ofMethod hk' | ofBlock hk' => cases hk.symm.trans hk'
    | root _ ho hx hp                           => exact ⟨_, _, ho, hx, .inl hp⟩
    | derived _ ho hx hy hυ hq hp => exact ⟨_, _, ho, hx, .inr ⟨_, _, _, hy, hυ, hq, hp⟩⟩
  ofMethod s b hb hk := by
    cases h.placed s b hb with
    | global _ hk' | root hk' | derived hk' | ofBlock hk' => cases hk.symm.trans hk'
    | ofMethod _ hp hq _ ho                               => exact ⟨_, _, hp, hq, ho⟩
  ofBlock s b hb hk := by
    cases h.placed s b hb with
    | global _ hk' | root hk' | derived hk' | ofMethod hk' => cases hk.symm.trans hk'
    | ofBlock _ hp hq hc                                   => exact ⟨_, _, hp, hq, hc⟩
  chain _ _ hb      := by
    obtain ⟨l, hl⟩ := h.chain hb
    exact ⟨l, hl, hl.nodup⟩
  ancestry x a ha   := by
    obtain ⟨l, hl⟩ := h.ancestry x a ha
    exact ⟨l, hl, hl.nodup⟩
  names _ _ hb _ _  := by
    obtain ⟨l, hl⟩ := h.chain hb
    exact Chain.ends hl _
  classes _ _ hb    := by
    obtain ⟨l, hl⟩ := h.chain hb
    exact Chain.ends hl _
  inherits x a ha y := by
    obtain ⟨l, hl⟩ := h.ancestry x a ha
    exact hl.along_ends _ (Nat.le_succ_of_le (hl.length_le fun _ _ => lt_of_symbol?))

-- The class around a scope of a body is settled with the scope.
theorem Tree.enclosingClass?_persist (h : t.Tree) (h' : t'.Tree) (hp : Persists t t')
    (hb : t.scope? s = some b) (hk : b.kind = .ofMethod ∨ b.kind = .ofBlock) :
    t'.enclosingClass? s = t.enclosingClass? s := by
  induction s using Nat.strongRecOn generalizing b with
  | ind s hi =>
    obtain ⟨b', hb', hk', hpar, _⟩ := hp.scope s b hb
    have hne : b.kind ≠ .ofClass := by rcases hk with hk | hk <;> simp [hk]
    have he {q} (hq : b.parent = some q) := h.enclosingClass?_of_parent hb hne hq
    have he' {q} (hq : b.parent = some q) :=
      h'.enclosingClass?_of_parent hb' (hk' ▸ hne) ((hpar hne).trans hq)
    cases h.placed s b hb with
    | global _ hk' => simp [hk'] at hk
    | root hk' | derived hk' => exact absurd hk' hne
    | ofMethod _ hq hc =>
      rw [he hq, he' hq, h.enclosingClass?_of_class hc,
        h'.enclosingClass?_of_class (hp.isClassScope hc)]
    | ofBlock _ hq hc hck hlt =>
      rw [he hq, he' hq]
      exact hi _ hlt hc hck

-- The tables on the way from one to another.
theorem exists_tables (h : Relation.ReflTransGen Operation t t') (ht : t.Tree) :
    ∃ ts : List SymbolTable, ts.head? = some t ∧ ts.getLast? = some t' ∧ ts.IsChain Operation ∧
      t'.Tree ∧ ∀ u ∈ ts, u.Tree ∧ Persists u t' := by
  induction h with
  | refl => exact ⟨[t], rfl, rfl, .singleton t, ht, by simpa using ⟨ht, .refl t⟩⟩
  | @tail u u' _ hs hi =>
    obtain ⟨ts, hhead, hlast, hts, hu, hall⟩ := hi
    have hc := hs.change hu
    have hu' := hc.tree hu
    refine ⟨ts ++ [u'], ?first, by simp, ?chain, hu', fun w hw => ?all⟩
    case first => simp [hhead]
    case chain => exact List.isChain_append.mpr ⟨hts, .singleton u', by simp [hlast, hs]⟩
    case all =>
      rcases List.mem_append.mp hw with hw | hw
      case inl => exact ⟨(hall w hw).1, (hall w hw).2.trans hc.toPersists⟩
      case inr =>
        obtain rfl := List.mem_singleton.mp hw
        exact ⟨hu', .refl _⟩

end SymbolTable

namespace Resolve

open SymbolTable (Operation Persists Tree ScopeTree)

-- In a run over a list, `f` comes to `a` in the state `τ`.
inductive Comes (f : α → Action β) : List α → State → α → State → Prop
  | head : Comes f (a :: l) σ a σ
  | tail : Comes f l (f a σ).2 b τ → Comes f (a :: l) σ b τ

-- The scopes that an action opens.
def Opened (x : Action α) (σ : State) (s : ScopeId) : Prop :=
  σ.table.scopes.size ≤ s ∧ s < (x σ).2.table.scopes.size

theorem Comes.mem {f : α → Action β} (h : Comes f l σ a τ) : a ∈ l := by
  induction h with
  | head      => exact List.mem_cons_self
  | tail _ hi => exact List.mem_cons_of_mem _ hi

section

variable {f : α → Action β} {Q : SymbolTable → α → Prop}

-- A run over a list that keeps what each of its steps asks for.
structure Keeps (f : α → Action β) (Q : SymbolTable → α → Prop) : Prop where
  path    : ∀ a σ, σ.table.Tree → Q σ.table a → Path (fun _ _ => True) σ.table (f a σ).2.table
  persist : ∀ a t t', Persists t t' → Q t a → Q t' a

theorem Keeps.mapM {l : List α} {σ : State} (hf : Keeps f Q) (ht : σ.table.Tree)
    (hq : ∀ a ∈ l, Q σ.table a) :
    Path (fun _ _ => True) σ.table (l.mapM f σ).2.table := by
  induction l generalizing σ with
  | nil => exact .refl
  | cons a l hi =>
    obtain ⟨ha, hl⟩ := List.forall_mem_cons.mp hq
    have hp := hf.path a σ ht ha
    obtain ⟨ht', hps⟩ := hp.keeps ht
    rw [run_mapM_cons]
    exact hp.trans (hi ht' fun b hb => hf.persist b _ _ hps (hl b hb))

theorem Keeps.comes {l : List α} (hf : Keeps f Q) (h : Comes f l σ a τ) (ht : σ.table.Tree)
    (hq : ∀ a ∈ l, Q σ.table a) :
    τ.table.Tree ∧ Q τ.table a ∧ Persists σ.table τ.table ∧
      Persists (f a τ).2.table (l.mapM f σ).2.table := by
  induction h with
  | @head a l σ =>
    obtain ⟨ha, hl⟩ := List.forall_mem_cons.mp hq
    obtain ⟨ht', hps⟩ := (hf.path a σ ht ha).keeps ht
    rw [run_mapM_cons]
    refine ⟨ht, ha, .refl _, ?_⟩
    exact ((hf.mapM ht' fun b hb => hf.persist b _ _ hps (hl b hb)).keeps ht').2
  | @tail l a σ b τ _ hi =>
    obtain ⟨ha, hl⟩ := List.forall_mem_cons.mp hq
    obtain ⟨ht', hps⟩ := (hf.path a σ ht ha).keeps ht
    obtain ⟨htτ, hb, hps', hend⟩ := hi ht' fun c hc => hf.persist c _ _ hps (hl c hc)
    rw [run_mapM_cons]
    exact ⟨htτ, hb, hps.trans hps', hend⟩

end

theorem exists_comes {f : α → Action β} (h : Opened (l.mapM f) σ s) :
    ∃ a τ, Comes f l σ a τ ∧ Opened (f a) τ s := by
  induction l generalizing σ with
  | nil => exact absurd h.2 (Nat.not_lt.mpr h.1)
  | cons a l hi =>
    by_cases hs : s < (f a σ).2.table.scopes.size
    case pos => exact ⟨a, σ, .head, h.1, hs⟩
    case neg =>
      obtain ⟨hle, hlt⟩ := h
      rw [run_mapM_cons] at hlt
      obtain ⟨b, τ, hb, ho⟩ := hi ⟨Nat.not_lt.mp hs, hlt⟩
      exact ⟨b, τ, .tail hb, ho⟩

theorem run_forM_eq_mapM (f : α → Action Unit) (l : List α) (σ : State) :
    (l.forM f σ).2 = (l.mapM f σ).2 := by
  induction l generalizing σ with
  | nil => rfl
  | cons a l hi =>
    rw [run_forM_cons, run_mapM_cons]
    exact hi _

theorem exists_of_mem_mapM {f : α → Action β} (h : b ∈ (l.mapM f σ).1) :
    ∃ a τ, Comes f l σ a τ ∧ (f a τ).1 = b := by
  induction l generalizing σ with
  | nil => cases h
  | cons a l hi =>
    rw [run_mapM_cons] at h
    cases List.mem_cons.mp h with
    | inl h => exact ⟨a, σ, .head, h.symm⟩
    | inr h =>
      obtain ⟨c, τ, hc, he⟩ := hi h
      exact ⟨c, τ, .tail hc, he⟩

theorem keeps_defineMembers : Keeps defineMembers IsClass where
  path _ _ ht h      := (Methods.defineMembers ht h).path.mono fun _ _ _ => trivial
  persist _ _ _ hp h := h.persist hp

theorem keeps_methodBody : Keeps methodBody fun t b => InBody t b.scope where
  path b σ ht h      := (Builds.methodBody b σ h ht).mono fun _ _ _ => trivial
  persist _ _ _ hp h := h.persist hp

-- The bodies of a class are those of its methods.
theorem toBody_mem (h : b ∈ (defineMembers D σ).1) : b.toBody ∈ D.declaration.bodies := by
  obtain ⟨c, x, s⟩ := D
  unfold defineMembers at h
  cases c with
  | main c    =>
    have h : (defineMain c ⟨.main c, x, s⟩ σ).1 = some b := Option.mem_toList.mp h
    unfold defineMain at h
    rw [run_bind, run_bind] at h
    generalize define _ _ _ = out at h
    obtain ⟨_ | symbol, σ'⟩ := out
    case none => cases h
    case some =>
      obtain rfl := Option.some.inj h
      exact List.mem_singleton_self _
  | regular c =>
    have h : b ∈ (c.members.mapM (defineMember ⟨.regular c, x, s⟩) σ).1.filterMap id := h
    obtain ⟨r, hr, rfl⟩ := List.mem_filterMap.mp h
    obtain ⟨m, τ, hm, hr⟩ := exists_of_mem_mapM hr
    cases m with
    | field d     => cases hr
    | malformed p => cases hr
    | method m    =>
      refine List.mem_map.mpr ⟨m, List.mem_filterMap.mpr ⟨_, hm.mem, rfl⟩, ?_⟩
      have hr : (defineMethod m ⟨.regular c, x, s⟩ τ).1 = some b := hr
      unfold defineMethod at hr
      rw [run_bind] at hr
      dsimp only at hr
      rw [run_bind, run_bind] at hr
      generalize define _ _ _ = out at hr
      obtain ⟨_ | symbol, σ'⟩ := out
      case none => cases hr
      case some =>
        obtain rfl := Option.some.inj hr
        rfl

-- The states between the passes of a resolution.
structure Stages (p : Program) where
  classes : List DefinedClass
  defined : State
  linked  : State
  bodies  : List MethodBody
  members : State
  final   : State

def stages (p : Program) : Stages p :=
  let classes := (allClasses p).mapM defineClass start
  let ds      := classes.1.filterMap id
  let linked  := (ds.forM linkSuperclass classes.2).2
  let members := ds.mapM defineMembers linked
  let final   := (members.1.flatten.forM methodBody members.2).2
  ⟨ds, classes.2, linked, members.1.flatten, members.2, final⟩

theorem final_stages (p : Program) :
    (stages p).final.table = (ResolvedProgram.ofProgram p).table :=
  rfl

theorem tree_empty : SymbolTable.empty.Tree where
  global       := ⟨_, rfl, rfl⟩
  placed s b h := by
    cases s with
    | zero   => exact Option.some.inj h ▸ .global rfl rfl rfl
    | succ s => cases h
  scopes       := nofun
  supers       := nofun
  ancestry     := nofun
  builtins     := nofun

theorem path_builtinTable : Path Nothing .empty builtinTable := by
  have h (t : SymbolTable) {name : String} (hn : name ∈ builtinTypes) :
      Path Nothing t (t.addSymbol SymbolTable.globalScope
        ⟨name, .ofType ⟨true, none, none⟩, none⟩).2 := by
    refine .addSymbol t _ fun τ hτ => ?_
    obtain rfl := Option.some.inj hτ
    exact ⟨rfl, rfl, fun _ => hn⟩
  have hfold (names : List String) (t : SymbolTable) (hn : ∀ name ∈ names, name ∈ builtinTypes) :
      Path Nothing t (names.foldl (fun table name => (table.addSymbol SymbolTable.globalScope
        ⟨name, .ofType ⟨true, none, none⟩, none⟩).2) t) := by
    induction names generalizing t with
    | nil => exact .refl
    | cons name names hi =>
      obtain ⟨hname, hn⟩ := List.forall_mem_cons.mp hn
      exact (h t hname).trans (hi _ hn)
  exact hfold builtinTypes _ fun _ h => h

theorem tree_builtinTable : builtinTable.Tree :=
  (path_builtinTable.keeps tree_empty).1

section

variable (p : Program)

theorem classes_defined : Classes builtinTable (stages p).defined.table (stages p).classes :=
  .defineClass (σ := start) (allClasses p) tree_builtinTable

theorem path_linked : Path (OfKind .ofClass) builtinTable (stages p).linked.table := by
  have hc := classes_defined p
  have ht := (hc.path.keeps tree_builtinTable).1
  have hl := hc.linkable.path ht
  exact hc.path.trans (hl.mono fun _ _ => False.elim)

theorem tree_linked : (stages p).linked.table.Tree :=
  ((path_linked p).keeps tree_builtinTable).1

theorem isClass_linked : ∀ D ∈ (stages p).classes, IsClass (stages p).linked.table D := by
  have hc := classes_defined p
  have ht := (hc.path.keeps tree_builtinTable).1
  have hl := hc.linkable.path ht
  exact fun D hD => (hc.isClass D hD).persist (hl.keeps ht).2

-- Neither methods nor blocks have scopes before members are defined.
theorem kind_linked (hb : (stages p).linked.table.scope? s = some b) :
    b.kind = .global ∨ b.kind = .ofClass := by
  by_cases hs : builtinTable.scopes.size ≤ s
  case pos =>
    have ho := (path_linked p).opening tree_builtinTable fun _ _ h => .inr fun _ => h
    exact .inr (ho s b hs hb)
  case neg =>
    obtain ⟨g, hg, hk⟩ := (tree_linked p).global
    obtain rfl : s = SymbolTable.globalScope := Nat.lt_one_iff.mp (Nat.not_le.mp hs)
    exact .inl (Option.some.inj (hb.symm.trans hg) ▸ hk)

theorem path_members :
    Path (fun _ _ => True) (stages p).linked.table (stages p).members.table :=
  keeps_defineMembers.mapM (tree_linked p) (isClass_linked p)

theorem tree_members : (stages p).members.table.Tree :=
  ((path_members p).keeps (tree_linked p)).1

theorem exists_class_of_body (hb : b ∈ (stages p).bodies) :
    ∃ D σ, Comes defineMembers (stages p).classes (stages p).linked D σ ∧
      b ∈ (defineMembers D σ).1 := by
  obtain ⟨bs, hbs, hb⟩ := List.mem_flatten.mp hb
  obtain ⟨D, σ, hD, rfl⟩ := exists_of_mem_mapM hbs
  exact ⟨D, σ, hD, hb⟩

theorem inBody_members : ∀ b ∈ (stages p).bodies, InBody (stages p).members.table b.scope := by
  intro b hb
  obtain ⟨D, σ, hD, hb⟩ := exists_class_of_body p hb
  obtain ⟨ht, hc, _, hp⟩ := keeps_defineMembers.comes hD (tree_linked p) (isClass_linked p)
  exact (((Methods.defineMembers ht hc).bodies b hb).1).persist hp

theorem path_final : Path (fun _ _ => True) (stages p).members.table (stages p).final.table := by
  have he : (stages p).final = ((stages p).bodies.mapM methodBody (stages p).members).2 :=
    run_forM_eq_mapM methodBody _ _
  rw [he]
  exact keeps_methodBody.mapM (tree_members p) (inBody_members p)

theorem tree_final : (stages p).final.table.Tree :=
  ((path_final p).keeps (tree_members p)).1

end

-- What a scope of the end was before.
theorem exists_scope_before (hp : Persists t t') (hb : t'.scope? s = some b)
    (hs : s < t.scopes.size) :
    ∃ b', t.scope? s = some b' ∧ b.kind = b'.kind ∧ (b'.kind ≠ .ofClass → b.parent = b'.parent) := by
  have hb' : t.scope? s = some t.scopes[s] := Array.getElem?_eq_getElem hs
  obtain ⟨b₁, hb₁, hk, hpar, _⟩ := hp.scope s _ hb'
  obtain rfl := Option.some.inj (hb.symm.trans hb₁)
  exact ⟨_, hb', hk, hpar⟩

section

variable {p : Program}

-- The scopes that are opened for the members of a class are in the scope of the class.
theorem scope_of_opened_member
    (hD : Comes defineMembers (stages p).classes (stages p).linked D σ)
    (hs : Opened (defineMembers D) σ s) (hb : (stages p).final.table.scope? s = some b) :
    b.kind = .ofMethod ∧ b.parent = some D.scope ∧
      (stages p).final.table.enclosingClass? s = some D.symbol := by
  obtain ⟨ht, hc, _, hp⟩ := keeps_defineMembers.comes hD (tree_linked p) (isClass_linked p)
  have hm := Methods.defineMembers ht hc
  have hf := ((path_final p).keeps (tree_members p)).2
  obtain ⟨b', hb', hk, hpar⟩ := exists_scope_before (hp.trans hf) hb hs.2
  obtain ⟨hk', hp'⟩ := hm.path.opening ht (fun _ _ h => .inl (by simp [h.1])) s b' hs.1 hb'
  have hk := hk.trans hk'
  have hpar := (hpar (by simp [hk'])).trans hp'
  have hc := hc.persist ((hm.path.keeps ht).2.trans (hp.trans hf))
  refine ⟨hk, hpar, ?_⟩
  rw [(tree_final p).enclosingClass?_of_parent hb (by simp [hk]) hpar]
  exact (tree_final p).enclosingClass?_of_class hc.scope

-- The scopes that are opened in a body are those of blocks, and are in the scope of the body.
theorem scope_of_opened_block
    (hD : Comes defineMembers (stages p).classes (stages p).linked D σ)
    (hbody : body ∈ (defineMembers D σ).1)
    (hτ : Comes methodBody (stages p).bodies (stages p).members body τ)
    (hs : Opened (methodBody body) τ s) (hb : (stages p).final.table.scope? s = some b) :
    b.kind = .ofBlock ∧
      (∃ q, b.parent = some q ∧ (q = body.scope ∨ Opened (methodBody body) τ q)) ∧
      (stages p).final.table.enclosingClass? s = some D.symbol := by
  obtain ⟨ht, hin, _, hp⟩ := keeps_methodBody.comes hτ (tree_members p) (inBody_members p)
  have hpath := Builds.methodBody body τ hin ht
  have he : (stages p).final = ((stages p).bodies.mapM methodBody (stages p).members).2 :=
    run_forM_eq_mapM methodBody _ _
  rw [← he] at hp
  induction s using Nat.strongRecOn generalizing b with
  | ind s hi =>
    obtain ⟨b', hb', hk, hpar⟩ := exists_scope_before hp hb hs.2
    obtain ⟨hk', q, hq, hin⟩ := hpath.opening ht (fun _ _ h => .inl (by simp [h.1])) s b' hs.1 hb'
    have hk := hk.trans hk'
    have hpar := (hpar (by simp [hk'])).trans hq
    obtain ⟨q', c, hq', hc, hlt⟩ : ∃ q' c, b.parent = some q' ∧
        (stages p).final.table.scope? q' = some c ∧ q' < s := by
      cases (tree_final p).placed s b hb with
      | global _ hk' | root hk' | derived hk' | ofMethod hk' => cases hk.symm.trans hk'
      | ofBlock _ hp hq _ hlt                                => exact ⟨_, _, hp, hq, hlt⟩
    obtain rfl := Option.some.inj (hpar.symm.trans hq')
    have he := (tree_final p).enclosingClass?_of_parent hb (by simp [hk]) hpar
    rcases hin with rfl | hle
    case inl =>
      refine ⟨hk, ⟨_, hpar, .inl rfl⟩, he.trans ?_⟩
      obtain ⟨htD, hcD, _⟩ := keeps_defineMembers.comes hD (tree_linked p) (isClass_linked p)
      obtain ⟨_, hle, hlt⟩ := (Methods.defineMembers htD hcD).bodies body hbody
      exact (scope_of_opened_member hD ⟨hle, hlt⟩ hc).2.2
    case inr =>
      have ho : Opened (methodBody body) τ q := ⟨hle, Nat.lt_trans hlt hs.2⟩
      exact ⟨hk, ⟨q, hpar, .inr ho⟩, he.trans (hi q hlt ho hc).2.2⟩

end

-- Every scope has been opened by some stage.
theorem opened_cases (hb : (stages p).final.table.scope? s = some b) :
    (b.kind = .global ∨ b.kind = .ofClass) ∨
    (∃ D σ, Comes defineMembers (stages p).classes (stages p).linked D σ ∧
      Opened (defineMembers D) σ s) ∨
    ∃ body τ, Comes methodBody (stages p).bodies (stages p).members body τ ∧
      Opened (methodBody body) τ s := by
  have hf := ((path_final p).keeps (tree_members p)).2
  have hm := ((path_members p).keeps (tree_linked p)).2
  by_cases hl : s < (stages p).linked.table.scopes.size
  case pos =>
    obtain ⟨b', hb', hk, _⟩ := exists_scope_before (hm.trans hf) hb hl
    exact .inl (hk ▸ kind_linked p hb')
  case neg =>
    by_cases hs : s < (stages p).members.table.scopes.size
    case pos => exact .inr (.inl (exists_comes ⟨Nat.not_lt.mp hl, hs⟩))
    case neg =>
      refine .inr (.inr (exists_comes ⟨Nat.not_lt.mp hs, ?_⟩))
      have he : (stages p).final = ((stages p).bodies.mapM methodBody (stages p).members).2 :=
        run_forM_eq_mapM methodBody _ _
      rw [← he]
      exact SymbolTable.lt_of_scope? hb

theorem declaration_mem (hD : D ∈ (stages p).classes) : D.declaration ∈ allClasses p := by
  obtain ⟨r, hr, rfl⟩ := List.mem_filterMap.mp hD
  obtain ⟨c, τ, hc, hr⟩ := exists_of_mem_mapM hr
  by_cases ha : τ.table.accepts SymbolTable.globalScope (classSymbol c) = true
  case pos =>
    rw [defineClass_of_accepts ha] at hr
    obtain rfl := Option.some.inj hr
    exact hc.mem
  case neg =>
    rw [defineClass_of_not_accepts ha] at hr
    cases hr

theorem isClass_final (hD : D ∈ (stages p).classes) : IsClass (stages p).final.table D :=
  (isClass_linked p D hD).persist
    (((path_members p).keeps (tree_linked p)).2.trans ((path_final p).keeps (tree_members p)).2)

-- A class of the program with a scope of its own in the table.
structure HasScope (p : Program) (t : SymbolTable) (D : DefinedClass) : Prop where
  declaration : D.declaration ∈ allClasses p
  isClass     : IsClass t D

-- A scope that has been opened for a member of the class `D`.
structure OfMember (p : Program) (t : SymbolTable) (D : DefinedClass) (s : ScopeId) (b : Scope) :
    Prop where
  opened    : ∃ σ, Comes defineMembers (stages p).classes (stages p).linked D σ ∧
    Opened (defineMembers D) σ s
  parent    : b.parent = some D.scope
  enclosing : t.enclosingClass? s = some D.symbol

-- A scope that has been opened in a body of the class `D`.
structure OfBody (p : Program) (t : SymbolTable) (D : DefinedClass) (s : ScopeId) (b : Scope) :
    Prop where
  opened    : ∃ σ body τ, Comes defineMembers (stages p).classes (stages p).linked D σ ∧
    body ∈ (defineMembers D σ).1 ∧ body.toBody ∈ D.declaration.bodies ∧
    Comes methodBody (stages p).bodies (stages p).members body τ ∧
    Opened (methodBody body) τ s ∧
    ∃ q, b.parent = some q ∧ (q = body.scope ∨ Opened (methodBody body) τ q)
  enclosing : t.enclosingClass? s = some D.symbol

-- From the empty table on, every operation leaves a tree of scopes. At the end, the scopes of
-- methods and blocks are in those of the classes that they have been opened for.
theorem ofProgram_scopeTree (p : Program) :
    let t := (ResolvedProgram.ofProgram p).table
    (∃ ts : List SymbolTable, ts.head? = some .empty ∧ ts.getLast? = some t ∧
      ts.IsChain Operation ∧ ∀ u ∈ ts, u.ScopeTree ∧ ∀ s b, u.scope? s = some b →
        b.kind = .ofMethod ∨ b.kind = .ofBlock → u.enclosingClass? s = t.enclosingClass? s) ∧
    (∀ s b, t.scope? s = some b → b.kind = .ofMethod →
      ∃ D, HasScope p t D ∧ OfMember p t D s b) ∧
    ∀ s b, t.scope? s = some b → b.kind = .ofBlock → ∃ D, HasScope p t D ∧ OfBody p t D s b := by
  intro t
  have ht : (stages p).final.table = t := rfl
  have hall : Path (fun _ _ => True) .empty t :=
    .trans (path_builtinTable.mono fun _ _ => False.elim) <|
    .trans ((path_linked p).mono fun _ _ _ => trivial) <|
    .trans (path_members p) (path_final p)
  have hops : Relation.ReflTransGen Operation .empty t :=
    Relation.ReflTransGen.mono (fun _ _ h => h.1) _ _ hall
  refine ⟨?tables, fun s b hb hk => ?classScopes, fun s b hb hk => ?methodScopes⟩
  case tables =>
    obtain ⟨ts, hhead, hlast, hts, htree, hall⟩ := SymbolTable.exists_tables hops tree_empty
    refine ⟨ts, hhead, hlast, hts, fun u hu => ?_⟩
    obtain ⟨hu, hp⟩ := hall u hu
    exact ⟨hu.scopeTree, fun s b hb hk => (hu.enclosingClass?_persist htree hp hb hk).symm⟩
  case classScopes =>
    rcases opened_cases hb with hk' | ⟨D, σ, hD, ho⟩ | ⟨body, τ, hτ, ho⟩
    case inl => rcases hk' with hk' | hk' <;> cases hk.symm.trans hk'
    case inr.inl =>
      obtain ⟨_, hp, he⟩ := scope_of_opened_member hD ho hb
      exact ⟨D, ⟨declaration_mem hD.mem, isClass_final hD.mem⟩, ⟨σ, hD, ho⟩, hp, he⟩
    case inr.inr =>
      obtain ⟨D, σ, hD, hbody⟩ := exists_class_of_body p hτ.mem
      cases hk.symm.trans (scope_of_opened_block hD hbody hτ ho hb).1
  case methodScopes =>
    rcases opened_cases hb with hk' | ⟨D, σ, hD, ho⟩ | ⟨body, τ, hτ, ho⟩
    case inl => rcases hk' with hk' | hk' <;> cases hk.symm.trans hk'
    case inr.inl => cases hk.symm.trans (scope_of_opened_member hD ho hb).1
    case inr.inr =>
      obtain ⟨D, σ, hD, hbody⟩ := exists_class_of_body p hτ.mem
      obtain ⟨_, hq, he⟩ := scope_of_opened_block hD hbody hτ ho hb
      exact ⟨D, ⟨declaration_mem hD.mem, isClass_final hD.mem⟩,
        ⟨σ, body, τ, hD, hbody, toBody_mem hbody, hτ, ho, hq⟩, he⟩

end Resolve

end MiniJava
