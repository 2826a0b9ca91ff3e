import MiniJava.Proofs.Semantics.Evaluation
import MiniJava.Proofs.Semantics.Machine

namespace MiniJava

open Machine MiniJava.Computation

variable {V W X : Type} {g : Emit.Context}

-- Two computations that are stuck together, fail alike, or end in related results and one world.
inductive Alike (R : α → β → Prop) :
    Option (Except X (α × W)) → Option (Except X (β × W)) → Prop
  | stuck  : Alike R none none
  | failed : Alike R (some (.error x)) (some (.error x))
  | done   : R a b → Alike R (some (.ok (a, w))) (some (.ok (b, w)))

theorem Alike.pure {R : α → β → Prop} (h : R a b) (w : W) :
    Alike R ((Pure.pure a : Computation W X α) w) ((Pure.pure b : Computation W X β) w) :=
  .done h

theorem Alike.bind {R : α → β → Prop} {m : Computation W X γ} {k : γ → Computation W X α}
    {k' : γ → Computation W X β} (h : ∀ c w, Alike R (k c w) (k' c w)) (w : W) :
    Alike R ((m >>= k) w) ((m >>= k') w) := by
  rw [bind_apply, bind_apply]
  rcases m w with _ | _ | ⟨c, w'⟩
  case none       => exact .stuck
  case some.error => exact .failed
  case some.ok    => exact h c w'

-- The registers stand for the memory, and the stack is empty.
abbrev Settled (A : Memory V → Registers V → Prop) (σ : Memory V) (s : Registers V × List V) :
    Prop :=
  A σ s.1 ∧ s.2 = []

section

variable (r : Runtime g V W X) (object : V) (A : Memory V → Registers V → Prop) (c : Chunk)

-- The instructions from one index to another put the value of an expression on the stack.
structure Yields (e : Expression) (n m : Nat) (is : List Instruction) : Prop where
  has    : Has c n is
  plain  : ∀ i ∈ is, Emit.Plain i
  length : n + is.length = m
  value  : ∀ σ f, A σ f → ∀ st,
    execute r is (f, st) = r.evaluate object σ e >>= fun v => pure (f, v :: st)

-- The instructions from one index to another do to the registers what a statement does to the
-- memory.
structure Acts (s : Statement) (n m : Nat) (is : List Instruction) : Prop where
  has    : Has c n is
  plain  : ∀ i ∈ is, Emit.Plain i
  length : n + is.length = m
  effect : ∀ σ f, A σ f → ∀ w,
    Alike (Settled A) (r.act object σ s w) (execute r is (f, []) w)

-- The opcode at an index.
def OpcodeAt (c : Chunk) (n : Nat) (o : Opcode) : Prop :=
  ∃ p, c.instructions[n]? = some ⟨o, p⟩

mutual

-- A statement stands in the chunk from one index to another. `A` tells which registers stand for
-- which memory.
def Stands : Statement → (n m : Nat) → Prop
  | .declare d, n, m => ∃ is, Acts r object A c (.declare d) n m is
  | .print i e p, n, m => ∃ is, Acts r object A c (.print i e p) n m is
  | .assert i e p, n, m => ∃ is, Acts r object A c (.assert i e p) n m is
  | .assign i target value p, n, m => ∃ is, Acts r object A c (.assign i target value p) n m is
  | .call i receiver name arguments p, n, m =>
    ∃ is, Acts r object A c (.call i receiver name arguments p) n m is
  | .ret _ e _, n, m => ∃ k is, Yields r object A c e n k is ∧ OpcodeAt c k .ret ∧ m = k + 1
  | .block _ body _, n, m => StandsAll body n m
  | .ifThen _ e onTrue _, n, m => ∃ k j is l, Yields r object A c e n k is ∧
    OpcodeAt c k (.branchIfFalse l) ∧ Stands onTrue (k + 1) j ∧ OpcodeAt c j (.branch l) ∧
    c.target? l = some m
  | .ifThenElse _ e onTrue onFalse _, n, m => ∃ k j is l l', Yields r object A c e n k is ∧
    OpcodeAt c k (.branchIfFalse l) ∧ c.target? l = some (j + 1) ∧ Stands onTrue (k + 1) j ∧
    OpcodeAt c j (.branch l') ∧ c.target? l' = some m ∧ Stands onFalse (j + 1) m
  | .loop _ e body _, n, m => ∃ k j is l l', OpcodeAt c n (.branch l) ∧ c.target? l = some k ∧
    Stands body (n + 1) k ∧ Yields r object A c e k j is ∧ OpcodeAt c j (.branchIfTrue l') ∧
    c.target? l' = some (n + 1) ∧ n < m ∧ m = j + 1
  | .malformed _, _, _ => False

def StandsAll : List Statement → (n m : Nat) → Prop
  | [], n, m => n = m
  | s :: ss, n, m => ∃ k, Stands s n k ∧ StandsAll ss k m

end

-- The machine comes to where a statement leads: to an index, or to an end.
def Arrives (τ : StaticType) (s : Machine V W) (m : Nat) : Result V W X → Prop
  | .falls σ w => ∃ f, A σ f ∧ Reaches r τ c s ⟨m, [], f, w⟩
  | out => Runs r τ c s (out.ending τ)

end

section

variable {r : Runtime g V W X} {object : V} {A : Memory V → Registers V → Prop} {c : Chunk}
  {σ σ' : Memory V} {f : Registers V} {w w' : W} {st : List V} {out : Result V W X}

namespace Yields

theorem execute_apply (h : Yields r object A c e n m is) (ha : A σ f) (st : List V) (w : W) :
    execute r is (f, st) w = match r.evaluate object σ e w with
      | some (.ok (v, w')) => some (.ok ((f, v :: st), w'))
      | some (.error x)    => some (.error x)
      | none               => none := by
  rw [h.value σ f ha st, bind_apply]
  rcases r.evaluate object σ e w with _ | _ | ⟨v, w'⟩ <;> rfl

theorem reaches (h : Yields r object A c e n m is) (ha : A σ f)
    (he : r.evaluate object σ e w = some (.ok (v, w'))) :
    Reaches r τ c ⟨n, st, f, w⟩ ⟨m, v :: st, f, w'⟩ := by
  have hx := h.execute_apply ha st w
  rw [he] at hx
  exact h.length ▸ reaches_of_execute h.has h.plain hx

theorem runs (h : Yields r object A c e n m is) (ha : A σ f)
    (he : r.evaluate object σ e w = some (.error x)) : Runs r τ c ⟨n, st, f, w⟩ (.failed x) := by
  have hx := h.execute_apply ha st w
  rw [he] at hx
  exact runs_of_execute h.has h.plain hx

-- Where the machine ends, the expression fails or has a value from which the machine goes on.
theorem cases_of_runsIn (h : Yields r object A c e n m is) (ha : A σ f)
    (hr : RunsIn r τ c k ⟨n, st, f, w⟩ o) :
    (∃ x, r.evaluate object σ e w = some (.error x)) ∨
      ∃ v w', r.evaluate object σ e w = some (.ok (v, w')) ∧
        ∃ j ≤ k, RunsIn r τ c j ⟨m, v :: st, f, w'⟩ o := by
  have hx := h.execute_apply ha st w
  rcases he : r.evaluate object σ e w with _ | x | ⟨v, w'⟩
  case none       =>
    rw [he] at hx
    exact absurd hr (not_runsIn_of_execute h.has h.plain hx)
  case some.error => exact .inl ⟨x, rfl⟩
  case some.ok    => exact .inr ⟨v, w', rfl, hr.of_reaches (h.reaches ha he)⟩

end Yields

namespace Acts

theorem reaches (h : Acts r object A c s n m is) (ha : A σ f)
    (he : r.act object σ s w = some (.ok (σ', w'))) :
    ∃ f', A σ' f' ∧ Reaches r τ c ⟨n, [], f, w⟩ ⟨m, [], f', w'⟩ := by
  have hx := h.effect σ f ha w
  rw [he] at hx
  generalize hy : execute r is (f, []) w = y at hx
  cases hx with | @done _ y w' hx =>
  obtain ⟨f', st⟩ := y
  obtain ⟨ha', rfl⟩ := hx
  exact ⟨f', ha', h.length ▸ reaches_of_execute h.has h.plain hy⟩

theorem runs (h : Acts r object A c s n m is) (ha : A σ f)
    (he : r.act object σ s w = some (.error x)) : Runs r τ c ⟨n, [], f, w⟩ (.failed x) := by
  have hx := h.effect σ f ha w
  rw [he] at hx
  generalize hy : execute r is (f, []) w = y at hx
  cases hx with | failed => exact runs_of_execute h.has h.plain hy

theorem exists_eq_some (h : Acts r object A c s n m is) (ha : A σ f)
    (hr : RunsIn r τ c k ⟨n, [], f, w⟩ o) : ∃ res, r.act object σ s w = some res := by
  have hx := h.effect σ f ha w
  cases he : r.act object σ s w with
  | none     =>
    rw [he] at hx
    generalize hy : execute r is (f, []) w = y at hx
    cases hx with | stuck => exact absurd hr (not_runsIn_of_execute h.has h.plain hy)
  | some res => exact ⟨res, rfl⟩

end Acts

namespace OpcodeAt

theorem goes_branch (h : OpcodeAt c n (.branch l)) (ht : c.target? l = some m) :
    Goes r τ c ⟨n, st, f, w⟩ ⟨m, st, f, w⟩ := by
  obtain ⟨p, h⟩ := h
  simp [Goes, step, h, ht]

theorem goes_branchIfFalse (h : OpcodeAt c n (.branchIfFalse l)) (ht : c.target? l = some m)
    (hz : r.isZero v = true) : Goes r τ c ⟨n, v :: st, f, w⟩ ⟨m, st, f, w⟩ := by
  obtain ⟨p, h⟩ := h
  simp [Goes, step, step.conditional, h, ht, hz]

theorem passes_branchIfFalse (h : OpcodeAt c n (.branchIfFalse l)) (hz : r.isZero v = false) :
    Goes r τ c ⟨n, v :: st, f, w⟩ ⟨n + 1, st, f, w⟩ := by
  obtain ⟨p, h⟩ := h
  simp [Goes, step, step.conditional, h, hz]

theorem goes_branchIfTrue (h : OpcodeAt c n (.branchIfTrue l)) (ht : c.target? l = some m)
    (hz : r.isZero v = false) : Goes r τ c ⟨n, v :: st, f, w⟩ ⟨m, st, f, w⟩ := by
  obtain ⟨p, h⟩ := h
  simp [Goes, step, step.conditional, h, ht, hz]

theorem passes_branchIfTrue (h : OpcodeAt c n (.branchIfTrue l)) (hz : r.isZero v = true) :
    Goes r τ c ⟨n, v :: st, f, w⟩ ⟨n + 1, st, f, w⟩ := by
  obtain ⟨p, h⟩ := h
  simp [Goes, step, step.conditional, h, hz]

theorem runs_ret (h : OpcodeAt c n .ret) :
    Runs r τ c ⟨n, st, f, w⟩ (.returned (if τ = .void then none else st.head?) w) := by
  obtain ⟨p, h⟩ := h
  exact ⟨0, .last (by simp [step, h])⟩

end OpcodeAt

namespace Arrives

theorem of_reaches (h : Reaches r τ c s s') (ha : Arrives r A c τ s' m out) :
    Arrives r A c τ s m out := by
  cases out with
  | falls σ w              =>
    obtain ⟨f, hA, hr⟩ := ha
    exact ⟨f, hA, h.trans hr⟩
  | returns v w | fails x  => exact h.runs ha

-- The machine comes to where a statement leads from the next state already.
theorem of_goes (h : Goes r τ c s s') (hm : s.index ≠ m) (ha : Arrives r A c τ s m out) :
    Arrives r A c τ s' m out := by
  cases out with
  | falls σ w             =>
    obtain ⟨f, hA, hr⟩ := ha
    refine ⟨f, hA, ?_⟩
    cases hr.cases_head with
    | inl he => exact absurd (he ▸ rfl) hm
    | inr hr =>
      obtain ⟨s'', hs, hr⟩ := hr
      obtain rfl := Sum.inl.inj (Option.some.inj (h.symm.trans hs))
      exact hr
  | returns v w | fails x =>
    obtain ⟨k, hk⟩ := ha
    obtain ⟨j, _, hj⟩ := hk.of_goes h
    exact ⟨j, hj⟩

theorem andGoes (ha : Arrives r A c τ s n out)
    (hg : ∀ f w, Goes r τ c ⟨n, [], f, w⟩ ⟨m, [], f, w⟩) : Arrives r A c τ s m out := by
  cases out with
  | falls σ w             =>
    obtain ⟨f, hA, hr⟩ := ha
    exact ⟨f, hA, hr.tail (hg f w)⟩
  | returns v w | fails x => exact ha

-- What does not fall to one index does not fall to another.
theorem of_ne_falls (ho : ∀ σ w, out ≠ .falls σ w) (ha : Arrives r A c τ s m out) :
    Arrives r A c τ s n out := by
  cases out with
  | falls σ w             => exact absurd rfl (ho σ w)
  | returns v w | fails x => exact ha

end Arrives

theorem Stands.acts (hs : Stands r object A c s n m) (h : r.act object σ s w = some res) :
    ∃ is, Acts r object A c s n m is := by
  cases s <;> first | exact hs | cases h

-- The machine comes to the expression that a statement evaluates before control goes elsewhere.
theorem Stands.yields (τ : StaticType) (hs : Stands r object A c s n m) (h : s.head? = some e) :
    ∃ k j is, Yields r object A c e k j is ∧
      ∀ f w, Reaches r τ c ⟨n, [], f, w⟩ ⟨k, [], f, w⟩ := by
  cases s with
  | ret i e' p =>
    cases h
    obtain ⟨k, is, hy, _⟩ := hs
    exact ⟨n, k, is, hy, fun _ _ => .refl⟩
  | ifThen i e' onTrue p =>
    cases h
    obtain ⟨k, j, is, l, hy, _⟩ := hs
    exact ⟨n, k, is, hy, fun _ _ => .refl⟩
  | ifThenElse i e' onTrue onFalse p =>
    cases h
    obtain ⟨k, j, is, l, l', hy, _⟩ := hs
    exact ⟨n, k, is, hy, fun _ _ => .refl⟩
  | loop i e' body p =>
    cases h
    obtain ⟨k, j, is, l, l', hb, hl, _, hy, _⟩ := hs
    exact ⟨k, j, is, hy, fun _ _ => .single (hb.goes_branch hl)⟩
  | _ => cases h

mutual

-- Where a statement leads, the machine comes to.
theorem Executes.arrives {σ : Memory V} {w : W} {out : Result V W X} {n m : Nat}
    {f : Registers V} : Executes r object s σ w out → Stands r object A c s n m → A σ f →
    Arrives r A c τ ⟨n, [], f, w⟩ m out
  | .done hd, hs, ha => by
    obtain ⟨is, hs⟩ := hs.acts hd
    exact hs.reaches ha hd
  | .broken hd, hs, ha => by
    obtain ⟨is, hs⟩ := hs.acts hd
    exact hs.runs ha hd
  | .stopped hh he, hs, ha => by
    obtain ⟨k, j, is, hy, hr⟩ := hs.yields τ hh
    exact (hr f w).runs (hy.runs ha he)
  | .ret he, hs, ha => by
    obtain ⟨k, is, hy, hr, rfl⟩ := hs
    exact (hy.reaches ha he).runs hr.runs_ret
  | .block hb, hs, ha => hb.arrives hs ha
  | .ifThen he hz ht, hs, ha => by
    obtain ⟨k, j, is, l, hy, hf, hs, hb, hl⟩ := hs
    refine .of_reaches ((hy.reaches ha he).tail (hf.passes_branchIfFalse hz)) ?_
    exact (ht.arrives hs ha).andGoes fun _ _ => hb.goes_branch hl
  | .skip he hz, hs, ha => by
    obtain ⟨k, j, is, l, hy, hf, hs, hb, hl⟩ := hs
    exact ⟨f, ha, (hy.reaches ha he).tail (hf.goes_branchIfFalse hl hz)⟩
  | .ifTrue he hz ht, hs, ha => by
    obtain ⟨k, j, is, l, l', hy, hf, _, hs, hb, hl, _⟩ := hs
    refine .of_reaches ((hy.reaches ha he).tail (hf.passes_branchIfFalse hz)) ?_
    exact (ht.arrives hs ha).andGoes fun _ _ => hb.goes_branch hl
  | .ifFalse he hz hf, hs, ha => by
    obtain ⟨k, j, is, l, l', hy, hb, hl, _, _, _, hs⟩ := hs
    refine .of_reaches ((hy.reaches ha he).tail (hb.goes_branchIfFalse hl hz)) ?_
    exact hf.arrives hs ha
  | .exit he hz, hs, ha => by
    obtain ⟨k, j, is, l, l', hb, hl, _, hy, ht, _, _, rfl⟩ := hs
    exact ⟨f, ha, (hy.reaches ha he).tail (ht.passes_branchIfTrue hz) |>.head (hb.goes_branch hl)⟩
  | .again he hz hbody hloop, hs, ha => by
    have hloop (f') (ha') := hloop.arrives (f := f') (τ := τ) hs ha'
    obtain ⟨k, j, is, l, l', hb, hl, hs, hy, ht, hl', hne, rfl⟩ := hs
    obtain ⟨f', ha', hr⟩ := hbody.arrives (τ := τ) hs ha
    -- The next round starts at the condition already.
    have htest := (hloop f' ha').of_goes (hb.goes_branch hl) (Nat.ne_of_lt hne)
    have hround := ((hy.reaches ha he).tail (ht.goes_branchIfTrue hl' hz)).trans hr
    exact htest.of_reaches (hround.head (hb.goes_branch hl))
  | .leave he hz hbody hn, hs, ha => by
    obtain ⟨k, j, is, l, l', hb, hl, hs, hy, ht, hl', _, rfl⟩ := hs
    refine .of_reaches (.head (hb.goes_branch hl) ?_) ((hbody.arrives hs ha).of_ne_falls hn)
    exact (hy.reaches ha he).tail (ht.goes_branchIfTrue hl' hz)

theorem ExecutesAll.arrives {σ : Memory V} {w : W} {out : Result V W X} {n m : Nat}
    {f : Registers V} : ExecutesAll r object ss σ w out → StandsAll r object A c ss n m → A σ f →
    Arrives r A c τ ⟨n, [], f, w⟩ m out
  | .nil, hs, ha => ⟨f, ha, hs ▸ .refl⟩
  | .cons h hss, hs, ha => by
    obtain ⟨k, hs, hss'⟩ := hs
    obtain ⟨f', ha', hr⟩ := h.arrives hs ha
    exact .of_reaches hr (hss.arrives hss' ha')
  | .leave h hn, hs, ha => by
    obtain ⟨k, hs, hss'⟩ := hs
    exact (h.arrives hs ha).of_ne_falls hn

end

theorem Acts.exists_executes (h : Acts r object A c s n m is) (ha : A σ f)
    (hr : RunsIn r τ c k ⟨n, [], f, w⟩ o) : ∃ out, Executes r object s σ w out := by
  obtain ⟨res, he⟩ := h.exists_eq_some ha hr
  rcases res with x | ⟨σ', w'⟩
  case error => exact ⟨_, .broken he⟩
  case ok    => exact ⟨_, .done he⟩

-- A loop is left if the machine leaves it. The run from the condition on gets shorter with every
-- round.
theorem exists_executes_loop {f : Registers V} (hy : Yields r object A c e n m is)
    (ht : OpcodeAt c m (.branchIfTrue l)) (hl : c.target? l = some j)
    (hs : Stands r object A c body j n)
    (hb : ∀ {σ f w k}, A σ f → RunsIn r τ c k ⟨j, [], f, w⟩ o →
      ∃ out, Executes r object body σ w out)
    (ha : A σ f) (hr : RunsIn r τ c k ⟨n, [], f, w⟩ o) :
    ∃ out, Executes r object (.loop i e body p) σ w out := by
  induction k using Nat.strongRecOn generalizing σ f w with
  | ind k hi =>
    rcases hy.cases_of_runsIn ha hr with ⟨x, he⟩ | ⟨v, w', he, k₁, hk₁, hr⟩
    case inl => exact ⟨_, .stopped rfl he⟩
    case inr =>
      cases hz : r.isZero v with
      | true  => exact ⟨_, .exit he hz⟩
      | false =>
        obtain ⟨k₂, hk₂, hr⟩ := hr.of_goes (ht.goes_branchIfTrue hl hz)
        obtain ⟨out, hbody⟩ := hb ha hr
        cases out with
        | falls σ' w''           =>
          obtain ⟨f', ha', hreach⟩ := hbody.arrives (τ := τ) hs ha
          obtain ⟨k₃, hk₃, hr⟩ := hr.of_reaches hreach
          obtain ⟨out, hloop⟩ := hi k₃ (by omega) ha' hr
          exact ⟨out, .again he hz hbody hloop⟩
        | returns v w'' | fails x => exact ⟨_, .leave he hz hbody nofun⟩

mutual

-- A statement leads somewhere if the machine ends.
theorem exists_executes {σ : Memory V} {w : W} {n m k : Nat} {f : Registers V} (s : Statement)
    (hs : Stands r object A c s n m) (ha : A σ f) (hr : RunsIn r τ c k ⟨n, [], f, w⟩ o) :
    ∃ out, Executes r object s σ w out := by
  match s with
  | .declare _ | .print .. | .assert .. | .assign .. | .call .. =>
    obtain ⟨is, hs⟩ := hs
    exact hs.exists_executes ha hr
  | .ret i e p =>
    obtain ⟨k, is, hy, _⟩ := hs
    rcases hy.cases_of_runsIn ha hr with ⟨x, he⟩ | ⟨v, w', he, _⟩
    case inl => exact ⟨_, .stopped rfl he⟩
    case inr => exact ⟨_, .ret he⟩
  | .block i body p =>
    obtain ⟨out, hb⟩ := exists_executesAll body hs ha hr
    exact ⟨out, .block hb⟩
  | .ifThen i e onTrue p =>
    obtain ⟨k, j, is, l, hy, hf, hs, _⟩ := hs
    rcases hy.cases_of_runsIn ha hr with ⟨x, he⟩ | ⟨v, w', he, _, _, hr⟩
    case inl => exact ⟨_, .stopped rfl he⟩
    case inr =>
      cases hz : r.isZero v with
      | true  => exact ⟨_, .skip he hz⟩
      | false =>
        obtain ⟨_, _, hr⟩ := hr.of_goes (hf.passes_branchIfFalse hz)
        obtain ⟨out, ht⟩ := exists_executes onTrue hs ha hr
        exact ⟨out, .ifThen he hz ht⟩
  | .ifThenElse i e onTrue onFalse p =>
    obtain ⟨k, j, is, l, l', hy, hf, hl, hs, _, _, hs'⟩ := hs
    rcases hy.cases_of_runsIn ha hr with ⟨x, he⟩ | ⟨v, w', he, _, _, hr⟩
    case inl => exact ⟨_, .stopped rfl he⟩
    case inr =>
      cases hz : r.isZero v with
      | true  =>
        obtain ⟨_, _, hr⟩ := hr.of_goes (hf.goes_branchIfFalse hl hz)
        obtain ⟨out, hf⟩ := exists_executes onFalse hs' ha hr
        exact ⟨out, .ifFalse he hz hf⟩
      | false =>
        obtain ⟨_, _, hr⟩ := hr.of_goes (hf.passes_branchIfFalse hz)
        obtain ⟨out, ht⟩ := exists_executes onTrue hs ha hr
        exact ⟨out, .ifTrue he hz ht⟩
  | .loop i e body p =>
    obtain ⟨k, j, is, l, l', hb, hl, hs, hy, ht, hl', _, rfl⟩ := hs
    obtain ⟨_, _, hr⟩ := hr.of_goes (hb.goes_branch hl)
    exact exists_executes_loop hy ht hl' hs (exists_executes body hs) ha hr

theorem exists_executesAll {σ : Memory V} {w : W} {n m k : Nat} {f : Registers V}
    (ss : List Statement) (hs : StandsAll r object A c ss n m) (ha : A σ f)
    (hr : RunsIn r τ c k ⟨n, [], f, w⟩ o) : ∃ out, ExecutesAll r object ss σ w out := by
  match ss with
  | []      => exact ⟨_, .nil⟩
  | s :: ss =>
    obtain ⟨k, hs, hss⟩ := hs
    obtain ⟨out, h⟩ := exists_executes s hs ha hr
    cases out with
    | falls σ' w'            =>
      obtain ⟨f', ha', hreach⟩ := h.arrives (τ := τ) hs ha
      obtain ⟨_, _, hr⟩ := hr.of_reaches hreach
      obtain ⟨out, hss⟩ := exists_executesAll ss hss ha' hr
      exact ⟨out, .cons h hss⟩
    | returns v w' | fails x => exact ⟨_, .leave h nofun⟩

end

end

end MiniJava
