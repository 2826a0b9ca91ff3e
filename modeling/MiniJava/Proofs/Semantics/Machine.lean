import Mathlib.Logic.Relation
import MiniJava.Proofs.Emit.Direction
import MiniJava.Proofs.Semantics.Runtime

namespace MiniJava

-- The arguments and the locals of a call of a method. Argument `0` is the receiver.
structure Registers (V : Type) where
  arguments : Nat → V
  locals    : Nat → V

namespace Registers

def setArgument (f : Registers V) (k : Nat) (v : V) : Registers V :=
  { f with arguments := Function.update f.arguments k v }

def setLocal (f : Registers V) (k : Nat) (v : V) : Registers V :=
  { f with locals := Function.update f.locals k v }

variable {f : Registers V} {v : V}

@[simp]
theorem arguments_setArgument : (f.setArgument k v).arguments = Function.update f.arguments k v :=
  rfl

@[simp]
theorem locals_setArgument : (f.setArgument k v).locals = f.locals := rfl

@[simp]
theorem arguments_setLocal : (f.setLocal k v).arguments = f.arguments := rfl

@[simp]
theorem locals_setLocal : (f.setLocal k v).locals = Function.update f.locals k v := rfl

end Registers

-- What the machine is about to do: the instruction at an index, with the topmost value of the
-- stack first.
structure Machine (V W : Type) where
  index     : Nat
  stack     : List V
  registers : Registers V
  world     : W

variable {V W X : Type} {g : Emit.Context}

namespace Machine

open MiniJava.Computation

-- What an instruction does to the registers and the stack, if it does not branch or return.
def operate (r : Runtime g V W X) :
    Opcode → Registers V × List V → Computation W X (Registers V × List V)
  | .pushInt n, (f, st) => return (f, r.integer n :: st)
  | .loadArg k, (f, st) => return (f, f.arguments k :: st)
  | .storeArg k, (f, v :: st) => return (f.setArgument k v, st)
  | .loadLocal k, (f, st) => return (f, f.locals k :: st)
  | .storeLocal k, (f, v :: st) => return (f.setLocal k v, st)
  | .loadField field, (f, x :: st) => return (f, (← perform (r.loadField field x)) :: st)
  | .storeField field, (f, v :: x :: st) => do
    perform (r.storeField field x v)
    return (f, st)
  | .loadElement kind, (f, k :: x :: st) => return (f, (← perform (r.loadElement kind x k)) :: st)
  | .storeElement kind, (f, v :: k :: x :: st) => do
    perform (r.storeElement kind x k v)
    return (f, st)
  | .arrayLength, (f, x :: st) => return (f, (← perform (r.arrayLength x)) :: st)
  | .newArray type, (f, n :: st) => return (f, (← perform (r.newArray type n)) :: st)
  | .newObject constructor, (f, st) => return (f, (← perform (r.newObject constructor)) :: st)
  | .call method, (f, st) => do
    let m ← required (g.callee? method)
    match st.drop m.parameters.length with
    | x :: rest =>
      let v ← perform (r.call method x (st.take m.parameters.length).reverse)
      return (f, v.toList ++ rest)
    | [] => stuck
  | .callPrintInt, (f, v :: st) => do
    perform (r.print v)
    return (f, st)
  | .callAssert, (f, v :: st) => do
    perform (r.assert v)
    return (f, st)
  | .add, s => apply .add s
  | .sub, s => apply .sub s
  | .mul, s => apply .mul s
  | .div, s => apply .div s
  | .rem, s => apply .mod s
  | .lessThan, s => apply .less s
  | .greaterThan, s => apply .greater s
  | .equal, s => apply .equal s
  | .and, s => apply .and s
  | .or, s => apply .or s
  | .pop, (f, _ :: st) => return (f, st)
  | _, _ => stuck
where
  apply (op : BinaryOperator) : Registers V × List V → Computation W X (Registers V × List V)
    | (f, y :: x :: st) => return (f, (← perform (r.binary op x y)) :: st)
    | _ => stuck

@[simp]
theorem operate_binaryOpcode {r : Runtime g V W X} (op : BinaryOperator) :
    operate r (Emit.binaryOpcode op) = operate.apply r op := by
  cases op <;> rfl

-- The arguments of a call are on the stack, the last one on top, and the receiver below them.
theorem operate_call {r : Runtime g V W X} {f : Registers V} (hm : g.callee? h = some m)
    (hl : m.parameters.length = xs.length) (x : V) (st : List V) :
    operate r (.call h) (f, xs.reverse ++ x :: st) =
      perform (r.call h x xs) >>= fun v => pure (f, v.toList ++ st) := by
  have hlen : m.parameters.length = xs.reverse.length := by rw [hl, List.length_reverse]
  simp [operate, hm, required, hlen]

-- The machine goes on to an index with what an instruction has left, or ends if it has failed.
def proceed (n : Nat) :
    Option (Except X ((Registers V × List V) × W)) → Option (Machine V W ⊕ Ending V W X)
  | some (.ok ((f, st), w)) => some (.inl ⟨n, st, f, w⟩)
  | some (.error x)         => some (.inr (.failed x))
  | none                    => none

-- What the machine does next: it goes on, or it ends. It is stuck if an operand is missing.
def step (r : Runtime g V W X) (returns : StaticType) (c : Chunk) (s : Machine V W) :
    Option (Machine V W ⊕ Ending V W X) := do
  let i ← c.instructions[s.index]?
  match i.opcode with
  | .branch l => return .inl { s with index := ← c.target? l }
  | .branchIfFalse l => conditional l s fun v => r.isZero v
  | .branchIfTrue l => conditional l s fun v => !r.isZero v
  | .ret => return .inr (.returned (if returns = .void then none else s.stack.head?) s.world)
  | o => proceed (s.index + 1) (operate r o (s.registers, s.stack) s.world)
where
  conditional (l : Label) (s : Machine V W) (test : V → Bool) :
      Option (Machine V W ⊕ Ending V W X) :=
    match s.stack with
    | v :: st => do
      let index ← if test v then c.target? l else some (s.index + 1)
      return .inl { s with index, stack := st }
    | [] => none

section

variable {r : Runtime g V W X} {c : Chunk} {f f' : Registers V} {st st' : List V}

-- A state to which the machine goes on.
def Goes (r : Runtime g V W X) (returns : StaticType) (c : Chunk) (s s' : Machine V W) : Prop :=
  step r returns c s = some (.inl s')

abbrev Reaches (r : Runtime g V W X) (returns : StaticType) (c : Chunk) :
    Machine V W → Machine V W → Prop :=
  Relation.ReflTransGen (Goes r returns c)

-- The machine ends after so many steps, and one more.
inductive RunsIn (r : Runtime g V W X) (returns : StaticType) (c : Chunk) :
    Nat → Machine V W → Ending V W X → Prop
  | last : step r returns c s = some (.inr o) → RunsIn r returns c 0 s o
  | next : step r returns c s = some (.inl s') → RunsIn r returns c k s' o →
    RunsIn r returns c (k + 1) s o

-- How the run from a state ends.
def Runs (r : Runtime g V W X) (returns : StaticType) (c : Chunk) (s : Machine V W)
    (o : Ending V W X) : Prop :=
  ∃ k, RunsIn r returns c k s o

theorem Reaches.runs (h : Reaches r τ c s s') (hr : Runs r τ c s' o) : Runs r τ c s o := by
  induction h using Relation.ReflTransGen.head_induction_on with
  | refl         => exact hr
  | head hs _ hi =>
    obtain ⟨k, hk⟩ := hi
    exact ⟨k + 1, .next hs hk⟩

-- A run passes every state that it can reach.
theorem RunsIn.of_goes (h : Goes r τ c s s') (hr : RunsIn r τ c k s o) :
    ∃ j < k, RunsIn r τ c j s' o := by
  cases hr with
  | last hs     => cases hs.symm.trans h
  | next hs hr' =>
    obtain rfl := Sum.inl.inj (Option.some.inj (hs.symm.trans h))
    exact ⟨_, Nat.lt_succ_self _, hr'⟩

theorem RunsIn.of_reaches (h : Reaches r τ c s s') (hr : RunsIn r τ c k s o) :
    ∃ j ≤ k, RunsIn r τ c j s' o := by
  induction h with
  | refl         => exact ⟨k, le_rfl, hr⟩
  | tail _ hs hi =>
    obtain ⟨j, hj, hr'⟩ := hi
    obtain ⟨i, hi, hr'⟩ := hr'.of_goes hs
    exact ⟨i, by omega, hr'⟩

theorem RunsIn.unique (h : RunsIn r τ c k s o) (h' : RunsIn r τ c j s o') : o = o' := by
  induction h generalizing j with
  | last hs =>
    cases h' with
    | last hs'   => exact Sum.inr.inj (Option.some.inj (hs.symm.trans hs'))
    | next hs' _ => cases hs.symm.trans hs'
  | next hs _ hi =>
    cases h' with
    | last hs'    => cases hs.symm.trans hs'
    | next hs' hr =>
      obtain rfl := Sum.inl.inj (Option.some.inj (hs.symm.trans hs'))
      exact hi hr

theorem Runs.unique (h : Runs r τ c s o) (h' : Runs r τ c s o') : o = o' :=
  h.elim fun _ h => h'.elim fun _ h' => h.unique h'

-- What instructions do one after the other.
def execute (r : Runtime g V W X) (is : List Instruction) (s : Registers V × List V) :
    Computation W X (Registers V × List V) :=
  is.foldlM (fun s i => operate r i.opcode s) s

@[simp]
theorem execute_nil : execute r [] s = pure s := rfl

@[simp]
theorem execute_cons : execute r (i :: is) s = operate r i.opcode s >>= execute r is := rfl

@[simp]
theorem execute_append : execute r (is ++ js) s = execute r is s >>= execute r js :=
  List.foldlM_append

theorem step_of_plain (hi : c.instructions[n]? = some i) (ht : i.opcode.target? = none)
    (hr : i.opcode ≠ .ret) :
    step r τ c ⟨n, st, f, w⟩ = proceed (n + 1) (operate r i.opcode (f, st) w) := by
  obtain ⟨o, _⟩ := i
  simp only [step, hi]
  cases o <;> first | rfl | exact absurd rfl hr | cases ht

-- Instructions that stand in a chunk from an index on.
abbrev Has (c : Chunk) (n : Nat) (is : List Instruction) : Prop :=
  Each (fun n i => c.instructions[n]? = some i) n is

theorem has_extend : Has (Chunk.empty.extend is ts) 0 is :=
  .of_getElem? fun k i hk => by simpa using hk

theorem step_of_has (hc : Has c n (i :: is)) (hi : Emit.Plain i) (f : Registers V) (st : List V)
    (w : W) : step r τ c ⟨n, st, f, w⟩ = proceed (n + 1) (operate r i.opcode (f, st) w) :=
  step_of_plain hc.1 hi.target? hi.ne_ret

theorem reaches_of_execute (hc : Has c n is) (hp : ∀ i ∈ is, Emit.Plain i)
    (h : execute r is (f, st) w = some (.ok ((f', st'), w'))) :
    Reaches r τ c ⟨n, st, f, w⟩ ⟨n + is.length, st', f', w'⟩ := by
  induction is generalizing n f st w with
  | nil          =>
    cases h
    exact .refl
  | cons i is hi =>
    obtain ⟨hpi, hp⟩ := List.forall_mem_cons.mp hp
    have hs := step_of_has (r := r) (τ := τ) hc hpi f st w
    rw [execute_cons, bind_apply] at h
    rcases ho : operate r i.opcode (f, st) w with _ | _ | ⟨⟨f₁, st₁⟩, w₁⟩ <;> rw [ho] at h hs
    case none       => cases h
    case some.error => cases h
    case some.ok    =>
      rw [List.length_cons, Nat.add_comm is.length, ← Nat.add_assoc]
      exact .head hs (hi hc.2 hp h)

theorem runs_of_execute (hc : Has c n is) (hp : ∀ i ∈ is, Emit.Plain i)
    (h : execute r is (f, st) w = some (.error x)) :
    Runs r τ c ⟨n, st, f, w⟩ (.failed x) := by
  induction is generalizing n f st w with
  | nil          => cases h
  | cons i is hi =>
    obtain ⟨hpi, hp⟩ := List.forall_mem_cons.mp hp
    have hs := step_of_has (r := r) (τ := τ) hc hpi f st w
    rw [execute_cons, bind_apply] at h
    rcases ho : operate r i.opcode (f, st) w with _ | _ | ⟨⟨f₁, st₁⟩, w₁⟩ <;> rw [ho] at h hs
    case none       => cases h
    case some.error =>
      cases h
      exact ⟨0, .last hs⟩
    case some.ok    => exact Reaches.runs (.single hs) (hi hc.2 hp h)

theorem not_runsIn_of_execute (hc : Has c n is) (hp : ∀ i ∈ is, Emit.Plain i)
    (h : execute r is (f, st) w = none) : ¬RunsIn r τ c k ⟨n, st, f, w⟩ o := by
  induction is generalizing n f st w k with
  | nil          => cases h
  | cons i is hi =>
    obtain ⟨hpi, hp⟩ := List.forall_mem_cons.mp hp
    have hs := step_of_has (r := r) (τ := τ) hc hpi f st w
    rw [execute_cons, bind_apply] at h
    intro hr
    rcases ho : operate r i.opcode (f, st) w with _ | _ | ⟨⟨f₁, st₁⟩, w₁⟩ <;> rw [ho] at h hs
    case none       =>
      cases hr with
      | last hs' | next hs' => cases hs.symm.trans hs'
    case some.error => cases h
    case some.ok    =>
      obtain ⟨j, _, hr⟩ := hr.of_goes hs
      exact hi hc.2 hp h hr

end

end Machine

end MiniJava
