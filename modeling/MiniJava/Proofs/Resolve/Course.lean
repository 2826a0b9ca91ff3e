import MiniJava.Proofs.Resolve.Scoping

namespace MiniJava.Resolve

open SymbolTable (Operation Persists Tree ScopeTree)

-- The jobs of a resolution are done one after another and one inside another, each with the state
-- in which it is begun.
inductive Job
  | defineClass (c : AnyClass)
  | linkSuperclass (D : DefinedClass)
  | defineMembers (D : DefinedClass)
  | defineMember (D : DefinedClass) (m : Member)
  | methodBody (b : MethodBody)
  | parameters (s : ScopeId) (number : Nat) (ds : List VariableDeclaration)
  | statement (place : Place) (s : Statement)
  | statements (place : Place) (ss : List Statement)
  | expression (place : Place) (e : Expression)
  | expressions (place : Place) (es : List Expression)

namespace Job

-- The state after a job.
def after : Job → State → State
  | defineClass c, σ          => (Resolve.defineClass c σ).2
  | linkSuperclass D, σ       => (Resolve.linkSuperclass D σ).2
  | defineMembers D, σ        => (Resolve.defineMembers D σ).2
  | defineMember D m, σ       => (Resolve.defineMember D m σ).2
  | methodBody b, σ           => (Resolve.methodBody b σ).2
  | parameters s number ds, σ => (Resolve.parameters s number ds σ).2
  | statement place s, σ      => (Resolve.statement place s σ).2
  | statements place ss, σ    => (Resolve.statements place ss σ).2
  | expression place e, σ     => (Resolve.expression place e σ).2
  | expressions place es, σ   => (Resolve.expressions place es σ).2

-- The state in which the first of the jobs inside of a job is begun.
def enter : Job → State → State
  | methodBody _, σ                       => { σ with nextLocal := 0, slotsReported := false }
  | parameters s number (d :: _), σ       =>
    let slot := slotOf number .parameters d.position σ
    (defineVariable d s slot.1 slot.2).2
  | statement _ (.assign _ target _ _), σ =>
    if isAssignable target.form then σ
    else (report (.cannotAssign target.form) target.position σ).2
  | statement place (.block i _ _), σ     =>
    let opened := addScope .ofBlock place.scope none σ
    (modifyTable (·.bindScope i opened.1) opened.2).2
  | expression place (.call i ..), σ | expression place (.newArray i ..), σ =>
    (modifyTable (·.bindScope i place.scope) σ).2
  | _, σ                                  => σ

def ofClass (D : DefinedClass) : List Job :=
  match D.declaration with
  | .main _    => []
  | .regular c => c.members.map (defineMember D)

def ofStatement (place : Place) (σ : State) : Statement → List Job
  | .declare _ | .malformed _                 => []
  | .print _ e _ | .ret _ e _ | .assert _ e _ => [expression place e]
  | .assign _ target value _                  => [expression place target, expression place value]
  | .ifThen _ e onTrue _                      => [expression place e, statement place onTrue]
  | .ifThenElse _ e onTrue onFalse _          =>
    [expression place e, statement place onTrue, statement place onFalse]
  | .loop _ e body _                          => [expression place e, statement place body]
  | .call i receiver name arguments p         =>
    [expression place (.call i receiver name arguments p)]
  | .block _ body _                           =>
    [statements { place with scope := (addScope .ofBlock place.scope none σ).1 } body]

def ofExpression (place : Place) : Expression → List Job
  | .newObject .. | .boolean .. | .integer .. | .self .. | .reference .. | .malformed _ => []
  | .newArray _ _ e _ | .not _ e _       => [expression place e]
  | .binary _ _ e e' _ | .index _ e e' _ => [expression place e, expression place e']
  | .call _ receiver _ arguments _       =>
    [expression place receiver, expressions place arguments]

-- The jobs inside of a job that is begun in the state `σ`.
def parts (σ : State) : Job → List Job
  | defineClass _ | linkSuperclass _ | defineMember .. => []
  | defineMembers D                                    => ofClass D
  | methodBody b                                       =>
    [parameters b.scope 1 b.parameters, statements ⟨b.scope, b.isMain⟩ b.statements]
  | parameters _ _ []                                  => []
  | parameters s number (_ :: ds)                      => [parameters s (number + 1) ds]
  | statement place s                                  => ofStatement place σ s
  | statements _ []                                    => []
  | statements place (s :: ss)                         => [statement place s, statements place ss]
  | expression place e                                 => ofExpression place e
  | expressions _ []                                   => []
  | expressions place (e :: es)                        => [expression place e, expressions place es]

-- What a job needs of the table.
def Fits (t : SymbolTable) : Job → Prop
  | linkSuperclass D                       => IsClass t D ∧ Unlinked t D
  | defineMembers D | defineMember D _     => IsClass t D
  | methodBody b                           => InBody t b.scope
  | statement place _ | statements place _ => InBody t place.scope
  | _                                      => True

end Job

-- The state after all the jobs, one after another.
def run (xs : List Job) (σ : State) : State :=
  xs.foldl (fun σ x => x.after σ) σ

-- Each of the jobs with the state in which it is begun.
def inTurn : List Job → State → List (Job × State)
  | [], _      => []
  | x :: xs, σ => (x, σ) :: inTurn xs (x.after σ)

-- The passes of a resolution, taken apart.
def passes (p : Program) : List Job :=
  (allClasses p).map .defineClass ++ (stages p).classes.map .linkSuperclass ++
    (stages p).classes.map .defineMembers ++ (stages p).bodies.map .methodBody

-- The resolution of the program comes to a job in a state.
inductive Reached (p : Program) : Job → State → Prop
  | pass (h : (x, σ) ∈ inTurn (passes p) start) : Reached p x σ
  | part (h : Reached p x σ) (hy : (y, τ) ∈ inTurn (x.parts σ) (x.enter σ)) : Reached p y τ

-- Each of the jobs fits when its turn comes.
inductive Suits : List Job → State → Prop
  | nil : Suits [] σ
  | cons (hx : x.Fits σ.table)
      (hxs : (x.after σ).table.Tree → Persists σ.table (x.after σ).table → Suits xs (x.after σ)) :
    Suits (x :: xs) σ

section

variable {xs ys : List Job} {x : Job} {σ τ : State}

theorem run_append : run (xs ++ ys) σ = run ys (run xs σ) :=
  List.foldl_append

theorem run_map {f : α → Action β} {j : α → Job} (hj : ∀ a σ, (j a).after σ = (f a σ).2)
    (l : List α) (σ : State) : run (l.map j) σ = (l.mapM f σ).2 := by
  induction l generalizing σ with
  | nil         => rfl
  | cons a l hi =>
    rw [run_mapM_cons]
    exact (congrArg (run (l.map j)) (hj a σ)).trans (hi _)

-- New scopes may be of any kind.
def Any (_ : ScopeKind) (_ : Option ScopeId) : Prop :=
  True

theorem Builds.any (h : Builds R σ τ) : Builds Any σ τ :=
  fun ht => (h ht).mono fun _ _ _ => trivial

theorem path_defineClass (c : AnyClass) (σ : State) :
    Path (OfKind .ofClass) σ.table (defineClass c σ).2.table := by
  by_cases ha : σ.table.accepts SymbolTable.globalScope (classSymbol c) = true
  case pos =>
    rw [defineClass_of_accepts ha]
    exact path_withClass σ.table c
  case neg =>
    rw [defineClass_of_not_accepts ha]
    exact .refl

-- A job changes the table by single operations.
theorem Job.builds (x : Job) (h : x.Fits σ.table) : Builds Any σ (x.after σ) :=
  match x with
  | .defineClass c          => Builds.any fun _ => path_defineClass c σ
  | .linkSuperclass _       => Builds.any fun _ => (linkSuperclass_cases h.1 h.2).1
  | .defineMembers _        => Builds.any fun ht => (Methods.defineMembers ht h).path
  | .defineMember _ m       => Builds.any fun ht => (Methods.defineMember m ht h).path
  | .methodBody b           => (Builds.methodBody b σ h).any
  | .parameters s number ds => .parameters s number ds σ
  | .statement place s      => (Builds.statement place s σ h (.inl rfl) (Nat.zero_le _)).any
  | .statements place ss    => (Builds.statements place ss σ h (.inl rfl) (Nat.zero_le _)).any
  | .expression place e     => .annotate (.expression place e σ)
  | .expressions place es   => .annotate (.expressions place es σ)

namespace Suits

theorem builds (h : Suits xs σ) : Builds Any σ (run xs σ) := by
  induction h with
  | nil          => exact .refl _
  | cons hx _ hi =>
    intro ht
    have hp := Job.builds _ hx ht
    obtain ⟨ht', hps⟩ := hp.keeps ht
    exact hp.trans (hi ht' hps ht')

theorem append (h : Suits xs σ) (h' : Suits ys (run xs σ)) : Suits (xs ++ ys) σ := by
  induction h with
  | nil          => exact h'
  | cons hx _ hi => exact .cons hx fun ht hp => hi ht hp h'

-- What does not depend on what has been done before suits in any order.
theorem of_forall (h : ∀ x ∈ xs, ∀ t, Persists σ.table t → x.Fits t) : Suits xs σ := by
  induction xs generalizing σ with
  | nil          => exact .nil
  | cons x xs hi =>
    obtain ⟨hx, h⟩ := List.forall_mem_cons.mp h
    exact .cons (hx _ (.refl _)) fun _ hp => hi fun y hy t ht => h y hy t (hp.trans ht)

end Suits

-- A job is begun properly in the state `τ`, and what it leaves is kept in the table `t`.
structure Begun (t : SymbolTable) (x : Job) (τ : State) : Prop where
  tree    : τ.table.Tree
  fits    : x.Fits τ.table
  persist : Persists (x.after τ).table t

theorem Suits.begun (h : Suits xs σ) (ht : σ.table.Tree) (hx : (x, τ) ∈ inTurn xs σ) :
    Begun (run xs σ).table x τ := by
  induction h with
  | nil               => cases hx
  | cons hfits hxs hi =>
    obtain ⟨ht', hp⟩ := (Job.builds _ hfits ht).keeps ht
    cases List.mem_cons.mp hx with
    | inl hx =>
      obtain ⟨rfl, rfl⟩ := Prod.mk.inj hx
      exact ⟨ht, hfits, (((hxs ht' hp).builds ht').keeps ht').2⟩
    | inr hx => exact hi ht' hp ht' hx

theorem builds_assignable (e : Expression) (σ : State) :
    Builds R σ (if isAssignable e.form then σ
      else (report (.cannotAssign e.form) e.position σ).2) := by
  split
  case isTrue  => exact .refl _
  case isFalse => exact .of_table rfl

theorem Job.builds_enter (x : Job) (h : x.Fits σ.table) : Builds Any σ (x.enter σ) := by
  cases x with
  | methodBody b => exact .of_table rfl
  | parameters s number ds =>
    cases ds with
    | nil       => exact .refl σ
    | cons d ds => exact .trans (.slotOf _ _ _ σ) fun _ => .defineVariable _ _ _ _
  | statement place s =>
    cases s with
    | assign _ target => exact builds_assignable target σ
    | block i         =>
      obtain ⟨b, hb, hk⟩ := h
      have ho : Builds Any σ (addScope .ofBlock place.scope none σ).2 := fun _ =>
        .single ⟨.openBlock hb hk, fun _ _ _ _ => trivial⟩
      exact .trans ho fun _ => .note rfl rfl
    | _ => exact .refl σ
  | expression place e =>
    cases e with
    | call | newArray => exact .note rfl rfl
    | _               => exact .refl σ
  | _ => exact .refl σ

theorem Job.suits_parts (x : Job) (h : x.Fits σ.table) (ht : σ.table.Tree) :
    Suits (x.parts σ) (x.enter σ) := by
  have hp := ((x.builds_enter h ht).keeps ht).2
  apply Suits.of_forall
  cases x with
  | defineClass | linkSuperclass | defineMember => simp [parts]
  | defineMembers D =>
    obtain ⟨c, x, s⟩ := D
    cases c with
    | main    => simp [parts, ofClass]
    | regular =>
      simp only [parts, ofClass, List.forall_mem_map]
      exact fun _ _ _ ht' => IsClass.persist h (hp.trans ht')
  | methodBody b =>
    have hb t (ht' : Persists _ t) := InBody.persist h (hp.trans ht')
    simpa [parts, Fits] using hb
  | parameters s number ds => cases ds <;> simp [parts, Fits]
  | statement place s =>
    have hs t (ht' : Persists _ t) := InBody.persist h (hp.trans ht')
    cases s with
    | declare | malformed | print | ret | assert | assign | call => simp [parts, ofStatement, Fits]
    | ifThen | ifThenElse | loop => simpa [parts, ofStatement, Fits] using hs
    | block i body               =>
      refine List.forall_mem_singleton.mpr fun t ht' => InBody.persist ?_ ht'
      exact ⟨_, (SymbolTable.scope?_addScope ..).trans (if_pos rfl), .inr rfl⟩
  | statements place ss =>
    have hs t (ht' : Persists _ t) := InBody.persist h (hp.trans ht')
    cases ss with
    | nil  => simp [parts]
    | cons => simpa [parts, Fits] using hs
  | expression place e => cases e <;> simp [parts, ofExpression, Fits]
  | expressions place es => cases es <;> simp [parts, Fits]

-- Expressions leave scopes and symbols as they are.
theorem run_ofExpression (place : Place) (e : Expression) (σ : State) :
    (run (Job.ofExpression place e) σ).table.scopes = σ.table.scopes ∧
      (run (Job.ofExpression place e) σ).table.symbols = σ.table.symbols := by
  have he (e : Expression) (σ : State) := Annotates.expression place e σ
  have hes (es : List Expression) (σ : State) := Annotates.expressions place es σ
  cases e with
  | newObject | boolean | integer | self | reference | malformed => exact ⟨rfl, rfl⟩
  | newArray _ _ e | not _ e => exact ⟨(he e σ).scopes, (he e σ).symbols⟩
  | binary _ _ e e' | index _ e e' =>
    have h := he e' (expression place e σ).2
    exact ⟨h.scopes.trans (he e σ).scopes, h.symbols.trans (he e σ).symbols⟩
  | call _ e _ es =>
    have h := hes es (expression place e σ).2
    exact ⟨h.scopes.trans (he e σ).scopes, h.symbols.trans (he e σ).symbols⟩

theorem Job.builds_after_expression (place : Place) (e : Expression) (σ : State) :
    Builds R (run (ofExpression place e) ((Job.expression place e).enter σ))
      (Resolve.expression place e σ).2 := by
  obtain ⟨hs, hx⟩ := run_ofExpression place e ((Job.expression place e).enter σ)
  have hn : ((Job.expression place e).enter σ).table.scopes = σ.table.scopes ∧
      ((Job.expression place e).enter σ).table.symbols = σ.table.symbols := by
    cases e <;> exact ⟨rfl, rfl⟩
  have ha := Annotates.expression place e σ
  exact .note (ha.scopes.trans (hs.trans hn.1).symm) (ha.symbols.trans (hx.trans hn.2).symm)

theorem Job.builds_after_statement (place : Place) (s : Statement) (σ : State) :
    Builds R (run (ofStatement place σ s) ((Job.statement place s).enter σ))
      (Resolve.statement place s σ).2 := by
  rw [Resolve.statement.eq_def]
  cases s with
  | declare d               => exact .declareLocal place d σ
  | assign i target value p =>
    dsimp only [Job.enter]
    by_cases ha : isAssignable target.form = true
    all_goals
      simp only [ha]
      exact .refl _
  | _ => exact .refl _

-- The rest of a job after the jobs inside of it.
theorem Job.builds_after (x : Job) (h : x.Fits σ.table) :
    Builds Any (run (x.parts σ) (x.enter σ)) (x.after σ) := by
  cases x with
  | defineClass | linkSuperclass | defineMember => exact Job.builds _ h
  | defineMembers D        =>
    obtain ⟨c, x, s⟩ := D
    cases c with
    | main      => exact Job.builds _ h
    | regular c =>
      have he : run (c.members.map (defineMember ⟨.regular c, x, s⟩)) σ = _ :=
        run_map (fun _ _ => rfl) c.members σ
      exact .of_table (congrArg State.table he.symm)
  | methodBody             => exact .refl _
  | parameters s number ds => cases ds <;> exact .refl _
  | statement place s      => exact builds_after_statement place s σ
  | statements place ss    => cases ss <;> exact .refl _
  | expression place e     => exact builds_after_expression place e σ
  | expressions place es   => cases es <;> exact .refl _

theorem Job.begun_part {y : Job} (h : x.Fits σ.table) (ht : σ.table.Tree)
    (hy : (y, τ) ∈ inTurn (x.parts σ) (x.enter σ)) : Begun (x.after σ).table y τ := by
  have hs := x.suits_parts h ht
  have ht' := ((x.builds_enter h ht).keeps ht).1
  have hr := ((hs.builds ht').keeps ht').1
  obtain ⟨hτ, hf, hp⟩ := hs.begun ht' hy
  exact ⟨hτ, hf, hp.trans ((x.builds_after h hr).keeps hr).2⟩

end

theorem Linkable.suits {σ : State} (h : Linkable σ.table ds) :
    Suits (ds.map .linkSuperclass) σ := by
  induction ds generalizing σ with
  | nil          => exact .nil
  | cons D ds hi =>
    have hD := h.isClass D List.mem_cons_self
    have hu := h.unlinked D List.mem_cons_self
    exact .cons ⟨hD, hu⟩ fun _ hp => hi (h.tail hp)

section

variable (p : Program)

theorem run_classes : run ((allClasses p).map .defineClass) start = (stages p).defined :=
  run_map (fun _ _ => rfl) _ _

theorem run_links :
    run ((stages p).classes.map .linkSuperclass) (stages p).defined = (stages p).linked :=
  (run_map (fun _ _ => rfl) _ _).trans (run_forM_eq_mapM linkSuperclass _ _).symm

theorem run_members :
    run ((stages p).classes.map .defineMembers) (stages p).linked = (stages p).members :=
  run_map (fun _ _ => rfl) _ _

theorem run_bodies :
    run ((stages p).bodies.map .methodBody) (stages p).members = (stages p).final :=
  (run_map (fun _ _ => rfl) _ _).trans (run_forM_eq_mapM methodBody _ _).symm

theorem run_passes : run (passes p) start = (stages p).final := by
  simp only [passes, run_append, run_classes, run_links, run_members, run_bodies]

theorem suits_passes : Suits (passes p) start := by
  have h₁ : Suits ((allClasses p).map .defineClass) start := .of_forall (by simp [Job.Fits])
  have h₂ := (classes_defined p).linkable.suits
  have h₃ : Suits ((stages p).classes.map .defineMembers) (stages p).linked := by
    refine .of_forall (List.forall_mem_map.mpr fun D hD _ ht => ?_)
    exact (isClass_linked p D hD).persist ht
  have h₄ : Suits ((stages p).bodies.map .methodBody) (stages p).members := by
    refine .of_forall (List.forall_mem_map.mpr fun b hb _ ht => ?_)
    exact (inBody_members p b hb).persist ht
  refine ((h₁.append ?_).append ?_).append ?_
  all_goals
    simp only [run_append, run_classes, run_links, run_members]
    assumption

variable {p}

theorem Reached.begun (h : Reached p x σ) :
    Begun (ResolvedProgram.ofProgram p).table x σ := by
  induction h with
  | pass h =>
    have hb := (suits_passes p).begun tree_builtinTable h
    rwa [run_passes, final_stages] at hb
  | part _ hy hi =>
    obtain ⟨hτ, hf, hp⟩ := Job.begun_part hi.fits hi.tree hy
    exact ⟨hτ, hf, hp.trans hi.persist⟩

end

-- Single operations lead from `t` to `t'`. All tables on the way have a tree of scopes, in which
-- the scopes of methods and blocks are where the table `final` has them.
def Through (final t t' : SymbolTable) : Prop :=
  ∃ ts : List SymbolTable, ts.head? = some t ∧ ts.getLast? = some t' ∧ ts.IsChain Operation ∧
    ∀ u ∈ ts, u.ScopeTree ∧ Persists u final ∧ ∀ s b, u.scope? s = some b →
      b.kind = .ofMethod ∨ b.kind = .ofBlock → u.enclosingClass? s = final.enclosingClass? s

theorem Path.through (h : Path R t t') (ht : t.Tree) (hp : Persists t' final) (hf : final.Tree) :
    Through final t t' := by
  have hops : Relation.ReflTransGen Operation t t' :=
    Relation.ReflTransGen.mono (fun _ _ h => h.1) _ _ h
  obtain ⟨ts, hhead, hlast, hts, _, hall⟩ := SymbolTable.exists_tables hops ht
  refine ⟨ts, hhead, hlast, hts, fun u hu => ?_⟩
  obtain ⟨hu, hpu⟩ := hall u hu
  have hpu := hpu.trans hp
  exact ⟨hu.scopeTree, hpu, fun s b hb hk => (hu.enclosingClass?_persist hf hpu hb hk).symm⟩

-- The passes lead from the built-in types to the table of the program. Of every job that is come to,
-- what is done before and after the jobs inside of it are single operations, and there is a tree of
-- scopes from the first to the last of them. At the end, the scopes of methods and blocks are in
-- those of the classes that they have been opened for.
theorem reached_scopeTree (p : Program) :
    let t := (ResolvedProgram.ofProgram p).table
    t.ScopeTree ∧ Through t .empty start.table ∧ (run (passes p) start).table = t ∧
    (∀ x σ, Reached p x σ → Through t σ.table (x.enter σ).table ∧
      Through t (run (x.parts σ) (x.enter σ)).table (x.after σ).table) ∧
    (∀ s b, t.scope? s = some b → b.kind = .ofMethod →
      ∃ D, HasScope p t D ∧ OfMember p t D s b) ∧
    ∀ s b, t.scope? s = some b → b.kind = .ofBlock → ∃ D, HasScope p t D ∧ OfBody p t D s b := by
  intro t
  have hrun : (run (passes p) start).table = t := by rw [run_passes, final_stages]
  have ht : t.Tree := tree_final p
  have hstart : Persists start.table t := by
    have hs := (suits_passes p).builds tree_builtinTable
    exact hrun ▸ (hs.keeps tree_builtinTable).2
  refine ⟨ht.scopeTree, path_builtinTable.through tree_empty hstart ht, hrun, fun x σ h => ?_,
    (ofProgram_scopeTree p).2⟩
  obtain ⟨hσ, hf, hp⟩ := h.begun
  have henter := x.builds_enter hf hσ
  have hτ := (henter.keeps hσ).1
  have hparts := (x.suits_parts hf hσ).builds hτ
  obtain ⟨hr, hps⟩ := hparts.keeps hτ
  have hafter := x.builds_after hf hr
  have hrest := (hafter.keeps hr).2.trans hp
  exact ⟨henter.through hσ (hps.trans hrest) ht, hafter.through hr hp ht⟩

-- Two classes that extend one another.
def ring : Program :=
  ⟨none, [⟨0, "A", "B", [], ⟨1, 1⟩⟩, ⟨1, "B", "A", [], ⟨2, 1⟩⟩]⟩

-- When the second class is to be linked, the first extends it already.
theorem reached_scopeTree_ring :
    let t := (ResolvedProgram.ofProgram ring).table
    ∃ D σ, D.name = "B" ∧ σ.table.inherits 3 D.symbol = true ∧ Reached ring (.linkSuperclass D) σ ∧
      Through t σ.table (linkSuperclass D σ).2.table := by
  intro t
  let A : DefinedClass := ⟨.regular ⟨0, "A", "B", [], ⟨1, 1⟩⟩, 3, 1⟩
  let B : DefinedClass := ⟨.regular ⟨1, "B", "A", [], ⟨2, 1⟩⟩, 4, 2⟩
  have hp : passes ring = [.defineClass A.declaration, .defineClass B.declaration,
      .linkSuperclass A, .linkSuperclass B, .defineMembers A, .defineMembers B] := rfl
  let σ := run [.defineClass A.declaration, .defineClass B.declaration, .linkSuperclass A] start
  have hi : σ.table.inherits 3 B.symbol = true := by decide +kernel
  have hr : Reached ring (.linkSuperclass B) σ :=
    .pass (hp ▸ .tail _ (.tail _ (.tail _ (.head _))))
  clear_value σ
  exact ⟨B, σ, rfl, hi, hr, ((reached_scopeTree ring).2.2.2.1 _ _ hr).2⟩

end MiniJava.Resolve
