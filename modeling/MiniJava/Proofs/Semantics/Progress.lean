import MiniJava.Proofs.Emit.Discipline
import MiniJava.Proofs.Semantics.Machine

namespace MiniJava

open MiniJava.Computation

variable {V W X : Type} {t : SymbolTable} {r : Runtime (.sequential t) V W X}

-- A computation that never gets stuck and leaves a stack of that height.
def Computation.Leaves (height : Nat) (m : Computation W X (Registers V × List V)) : Prop :=
  ∀ w, ∃ res, m w = some res ∧ ∀ y w', res = .ok (y, w') → y.2.length = height

namespace Computation.Leaves

theorem pure {y : Registers V × List V} (h : y.2.length = height) :
    Leaves (W := W) (X := X) height (pure y) := fun w =>
  ⟨_, rfl, fun _ _ he => by cases he; exact h⟩

theorem perform {a : Primitive W X α} {k : α → Computation W X (Registers V × List V)}
    (h : ∀ v w w', a w = .ok (v, w') → Leaves height (k v)) :
    Leaves height (Computation.perform a >>= k) := fun w => by
  rw [bind_apply, Computation.perform]
  rcases ha : a w with x | ⟨v, w'⟩
  case error => exact ⟨_, rfl, fun _ _ he => by cases he⟩
  case ok    => exact h v w w' ha w'

end Computation.Leaves

namespace Machine

open Emit (HasEffect)

theorem leaves_apply (op : BinaryOperator) (h : 2 ≤ st.length) :
    Leaves (st.length - 2 + 1) (operate.apply r op (f, st)) := by
  match st with
  | y :: x :: st => exact .perform fun _ _ _ _ => .pure (by simp)

theorem exists_cons_cons {st : List V} (h : 2 ≤ st.length) : ∃ x y rest, st = x :: y :: rest := by
  obtain ⟨x, st, rfl⟩ := List.exists_cons_of_length_pos (Nat.zero_lt_of_lt h)
  obtain ⟨y, st, rfl⟩ := List.exists_cons_of_length_pos (Nat.le_of_succ_le_succ h)
  exact ⟨x, y, st, rfl⟩

theorem leaves_operate (he : HasEffect (.sequential t) o ε) (ht : o.target? = none)
    (hr : o ≠ .ret) (hp : ε.pops ≤ st.length) :
    Leaves (st.length - ε.pops + ε.pushes) (operate r o (f, st)) := by
  cases he with
  | @call s h m hh hm =>
    have hc := Emit.Context.callee?_sequential hh hm
    have hlt : 1 + m.parameters.length ≤ st.length := hp
    obtain ⟨x, rest, hx⟩ := List.exists_cons_of_length_pos (l := st.drop m.parameters.length)
      (by rw [List.length_drop]; omega)
    have hrest : rest.length = st.length - (1 + m.parameters.length) := by
      have := congrArg List.length hx
      simp at this
      omega
    simp only [operate, hc, required, pure_bind, hx]
    refine .perform fun v w w' hv => .pure ?_
    have hsome := r.isSome_call hc hv
    cases v <;> simp_all [MethodSymbol.effect]
  | plain he =>
    cases o
    case branch | branchIfFalse | branchIfTrue => cases ht
    case ret  => exact absurd rfl hr
    case call => cases he
    all_goals obtain rfl := Option.some.inj he
    case pushInt | loadArg | loadLocal => exact .pure rfl
    case newObject => exact .perform fun _ _ _ _ => .pure rfl
    case add | sub | mul | div | rem | lessThan | greaterThan | equal | and | or =>
      exact leaves_apply _ hp
    case storeArg | storeLocal | pop =>
      obtain ⟨_, _, rfl⟩ := List.exists_cons_of_length_pos hp
      exact .pure rfl
    case loadField | arrayLength | newArray | callPrintInt | callAssert =>
      obtain ⟨_, _, rfl⟩ := List.exists_cons_of_length_pos hp
      exact .perform fun _ _ _ _ => .pure rfl
    case loadElement | storeField =>
      obtain ⟨_, _, _, rfl⟩ := exists_cons_cons hp
      exact .perform fun _ _ _ _ => .pure rfl
    case storeElement =>
      obtain ⟨_, st, rfl⟩ := List.exists_cons_of_length_pos (Nat.zero_lt_of_lt hp)
      obtain ⟨_, _, _, rfl⟩ := exists_cons_cons (Nat.le_of_succ_le_succ hp)
      exact .perform fun _ _ _ _ => .pure rfl

section

variable {c : Chunk} {ss : List Statement} {heights : Nat → Nat} {effects : Nat → Effect}
  {s s' : Machine V W}

-- The index is inside, and the stack has the height that belongs to it.
structure Level (c : Chunk) (heights : Nat → Nat) (s : Machine V W) : Prop where
  index  : s.index < c.instructions.size
  height : s.stack.length = heights s.index

theorem Level.of_follows (hb : c.Balanced (.sequential t) ss heights effects) (hf : c.Follows n n')
    (hl : st.length = heights n - (effects n).pops + (effects n).pushes) :
    Level c heights (⟨n', st, f, w⟩ : Machine V W) :=
  have ⟨hn, he⟩ := hb.follows n n' hf
  ⟨hn, hl.trans he.symm⟩

theorem exists_conditional (hb : c.Balanced (.sequential t) ss heights effects)
    (he : effects n = ⟨1, 0⟩) (hl : Level c heights (⟨n, st, f, w⟩ : Machine V W))
    (hn : c.Follows n (n + 1)) (hm : c.Follows n m) (ht : c.target? l = some m) (test : V → Bool) :
    ∃ out, step.conditional (X := X) c l ⟨n, st, f, w⟩ test = some out ∧
      ∀ s', out = .inl s' → Level c heights s' := by
  have hp := hb.operands n _ (Array.getElem?_eq_getElem hl.index)
  have hh : st.length = heights n := hl.height
  rw [he, ← hh] at hp
  match st with
  | v :: st =>
    have hlevel {k} (hf : c.Follows n k) : Level c heights (⟨k, st, f, w⟩ : Machine V W) :=
      .of_follows hb hf (by simp [he, ← hh])
    cases hv : test v with
    | true  =>
      refine ⟨.inl ⟨m, st, f, w⟩, by simp [step.conditional, hv, ht], fun s' hs' => ?_⟩
      exact Sum.inl.inj hs' ▸ hlevel hm
    | false =>
      refine ⟨.inl ⟨n + 1, st, f, w⟩, by simp [step.conditional, hv], fun s' hs' => ?_⟩
      exact Sum.inl.inj hs' ▸ hlevel hn

-- A step is taken, and what is next is level again.
theorem exists_step (hs : c.Sound ss) (hb : c.Balanced (.sequential t) ss heights effects)
    (hl : Level c heights s) : ∃ out, step r τ c s = some out ∧ ∀ s', out = .inl s' → Level c heights s' := by
  obtain ⟨n, st, f, w⟩ := s
  obtain ⟨hn, hh⟩ := hl
  obtain ⟨i, hi⟩ : ∃ i, c.instructions[n]? = some i := ⟨_, Array.getElem?_eq_getElem hn⟩
  have he := hb.effect n i hi
  have hp := hb.operands n i hi
  cases ht : i.opcode.target? with
  | none   =>
    by_cases hr : i.opcode = .ret
    case pos =>
      have hret : step r τ c ⟨n, st, f, w⟩ =
          some (.inr (.returned (if τ = .void then none else st.head?) w)) := by simp [step, hi, hr]
      exact ⟨_, hret, fun _ he => by cases he⟩
    case neg =>
      have hf : c.Follows n (n + 1) := .next hi hr fun l hb => by simp [hb, Opcode.target?] at ht
      have hp : (effects n).pops ≤ st.length := hh ▸ hp
      obtain ⟨res, ho, hres⟩ := leaves_operate (r := r) (f := f) he ht hr hp w
      rw [step_of_plain hi ht hr, ho]
      rcases res with x | ⟨⟨f', st'⟩, w'⟩
      case error => exact ⟨_, rfl, fun _ he => by cases he⟩
      case ok    =>
        refine ⟨_, rfl, fun s' he => ?_⟩
        obtain rfl := Sum.inl.inj he
        exact .of_follows hb hf (hh ▸ hres _ _ rfl)
  | some l =>
    obtain ⟨m, hm, _⟩ := hs.branches n i l hi ht
    have hf : c.Follows n m := .branch hi ht hm
    obtain ⟨o, p⟩ := i
    have heffect {ε} (h : o.effect? = some ε) : effects n = ε := he.eq_of_effect? h
    have hnext (hne : ∀ l, o ≠ .branch l) : c.Follows n (n + 1) :=
      .next hi (fun hr => by cases hr.symm ▸ ht) hne
    cases o with
    | branch l'        =>
      obtain rfl := Option.some.inj ht
      refine ⟨.inl ⟨m, st, f, w⟩, by simp [step, hi, hm], fun s' hs' => ?_⟩
      obtain rfl := Sum.inl.inj hs'
      exact .of_follows hb hf (by simpa [heffect rfl] using hh)
    | branchIfFalse l' =>
      obtain rfl := Option.some.inj ht
      have hnext := hnext fun _ h => by cases h
      obtain ⟨out, ho, hout⟩ := exists_conditional hb (heffect rfl) ⟨hn, hh⟩ hnext hf hm fun v => r.isZero v
      exact ⟨out, by simpa [step, hi] using ho, hout⟩
    | branchIfTrue l'  =>
      obtain rfl := Option.some.inj ht
      have hnext := hnext fun _ h => by cases h
      obtain ⟨out, ho, hout⟩ := exists_conditional hb (heffect rfl) ⟨hn, hh⟩ hnext hf hm fun v => !r.isZero v
      exact ⟨out, by simpa [step, hi] using ho, hout⟩
    | _ => cases ht

-- No state that is reached from the start is a dead end.
theorem isSome_step_of_reaches (hs : c.Sound ss)
    (hb : c.Balanced (.sequential t) ss heights effects)
    (hr : Reaches r τ c ⟨0, [], f, w⟩ s) : (step r τ c s).isSome := by
  suffices hl : Level c heights s by
    obtain ⟨out, ho, _⟩ := exists_step (r := r) (τ := τ) hs hb hl
    exact ho ▸ rfl
  induction hr with
  | refl         => exact ⟨hs.size_pos, hb.start.symm⟩
  | tail _ hg hi =>
    obtain ⟨out, ho, hout⟩ := exists_step (r := r) (τ := τ) hs hb hi
    exact hout _ (Option.some.inj (ho.symm.trans hg))

end

end Machine

end MiniJava
