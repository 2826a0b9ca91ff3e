import Mathlib.Data.List.Basic
import MiniJava.Proofs.Emit.Method

namespace MiniJava

-- What holds of instructions that are laid out from an index on.
def Each (P : Nat → Instruction → Prop) (n : Nat) : List Instruction → Prop
  | []      => True
  | i :: is => P n i ∧ Each P (n + 1) is

namespace Each

variable {P Q : Nat → Instruction → Prop}

@[simp]
theorem nil : Each P n [] := trivial

@[simp]
theorem cons : Each P n (i :: is) ↔ P n i ∧ Each P (n + 1) is := Iff.rfl

@[simp]
theorem append : Each P n (is ++ js) ↔ Each P n is ∧ Each P (n + is.length) js := by
  induction is generalizing n with
  | nil          => simp
  | cons i is hi => simp [hi, and_assoc, Nat.add_right_comm, ← Nat.add_assoc]

theorem of_forall (h : ∀ i ∈ is, ∀ n, P n i) : Each P n is := by
  induction is generalizing n with
  | nil          => exact nil
  | cons i is hi =>
    exact ⟨h i List.mem_cons_self n, hi fun j hj => h j (List.mem_cons_of_mem i hj)⟩

theorem of_getElem? (h : ∀ k i, is[k]? = some i → P (n + k) i) : Each P n is := by
  induction is generalizing n with
  | nil          => exact nil
  | cons i is hi =>
    refine ⟨h 0 i rfl, hi fun k j hk => ?_⟩
    rw [Nat.add_assoc, Nat.add_comm 1 k]
    exact h (k + 1) j hk

theorem getElem? (h : Each P n is) (hk : is[k]? = some i) : P (n + k) i := by
  induction is generalizing n k with
  | nil          => cases hk
  | cons j js hi =>
    cases k with
    | zero   => exact Option.some.inj hk ▸ h.1
    | succ k =>
      have := hi h.2 hk
      rwa [Nat.add_assoc, Nat.add_comm 1 k] at this

end Each

-- Which indices labels are bound to, from a label on.
def Bound (T : Label → Option Nat) (l : Nat) : List Nat → Prop
  | []      => True
  | t :: ts => T ⟨l⟩ = some t ∧ Bound T (l + 1) ts

namespace Bound

variable {T : Label → Option Nat}

@[simp]
theorem nil : Bound T l [] := trivial

@[simp]
theorem cons : Bound T l (t :: ts) ↔ T ⟨l⟩ = some t ∧ Bound T (l + 1) ts := Iff.rfl

@[simp]
theorem append : Bound T l (ts ++ us) ↔ Bound T l ts ∧ Bound T (l + ts.length) us := by
  induction ts generalizing l with
  | nil          => simp
  | cons t ts hi => simp [hi, and_assoc, Nat.add_right_comm, ← Nat.add_assoc]

theorem of_getElem? (h : ∀ k t, ts[k]? = some t → T ⟨l + k⟩ = some t) : Bound T l ts := by
  induction ts generalizing l with
  | nil          => exact nil
  | cons t ts hi =>
    refine ⟨h 0 t rfl, hi fun k u hk => ?_⟩
    rw [Nat.add_assoc, Nat.add_comm 1 k]
    exact h (k + 1) u hk

end Bound

namespace Chunk

theorem bound_extend : Bound (empty.extend is ts).target? 0 ts := by
  refine .of_getElem? fun k t hk => ?_
  simp [target?, extend, empty, hk]

end Chunk

namespace Emit

-- A branch goes to an instruction behind it, at the end of a loop to one before it.
structure Aims (T : Label → Option Nat) (n : Nat) (i : Instruction) : Prop where
  branch        : i.opcode = .branch l → ∃ t, T l = some t ∧ n < t
  branchIfFalse : i.opcode = .branchIfFalse l → ∃ t, T l = some t ∧ n < t
  branchIfTrue  : i.opcode = .branchIfTrue l → ∃ t, T l = some t ∧ t < n

theorem Aims.of_target? (h : i.opcode.target? = none) : Aims T n i where
  branch ho        := by simp [ho, Opcode.target?] at h
  branchIfFalse ho := by simp [ho, Opcode.target?] at h
  branchIfTrue ho  := by simp [ho, Opcode.target?] at h

-- An instruction of an expression, which the source has a place for.
structure Plain (i : Instruction) : Prop where
  target?  : i.opcode.target? = none
  ne_ret   : i.opcode ≠ .ret
  position : i.position.isSome

theorem target?_binaryOpcode (op : BinaryOperator) : (binaryOpcode op).target? = none := by
  cases op <;> rfl

theorem binaryOpcode_ne_ret (op : BinaryOperator) : binaryOpcode op ≠ .ret := by
  cases op <;> exact nofun

mutual

theorem Value.plain : Value g e is → ∀ i ∈ is, Plain i
  | .length hr _ _             => by simpa [or_imp, forall_and] using ⟨hr.plain, ⟨rfl, nofun, rfl⟩⟩
  | .call hr _ _ _ ha _ _      => by
    simpa [or_imp, forall_and] using ⟨hr.plain, ha.plain, ⟨rfl, nofun, rfl⟩⟩
  | .newObject _ _             => by simpa using ⟨rfl, nofun, rfl⟩
  | .newArray _ hs             => by simpa [or_imp, forall_and] using ⟨hs.plain, ⟨rfl, nofun, rfl⟩⟩
  | .not he                    => by
    simpa [or_imp, forall_and] using ⟨he.plain, ⟨rfl, nofun, rfl⟩, ⟨rfl, nofun, rfl⟩⟩
  | .binary hl hr              => by
    simpa [or_imp, forall_and] using ⟨hl.plain, hr.plain, ⟨target?_binaryOpcode _, binaryOpcode_ne_ret _, rfl⟩⟩
  | .boolean | .integer | .self => by simpa using ⟨rfl, nofun, rfl⟩
  | .index ha hs _             => by
    simpa [or_imp, forall_and] using ⟨ha.plain, hs.plain, ⟨rfl, nofun, rfl⟩⟩
  | .field _ _ _               => by simpa using ⟨⟨rfl, nofun, rfl⟩, ⟨rfl, nofun, rfl⟩⟩
  | .formal _ _ _ | .localSlot _ _ _ => by simpa using ⟨rfl, nofun, rfl⟩

theorem Values.plain : Values g es is → ∀ i ∈ is, Plain i
  | .nil         => by simp
  | .cons he hes => by simpa [or_imp, forall_and] using ⟨he.plain, hes.plain⟩

end

theorem Address.plain : Address g e is → ∀ i ∈ is, Plain i
  | .field _ _     => by simpa using ⟨rfl, nofun, rfl⟩
  | .slot _ _      => by simp
  | .element ha hs => by simpa [or_imp, forall_and] using ⟨ha.plain, hs.plain⟩

theorem Store.target? : Store g e o → o.target? = none
  | .field _ _ _ | .formal _ _ _ | .localSlot _ _ _ | .element _ => rfl

-- Labels are bound in the code of their statement or right behind it.
mutual

theorem Code.targets_le : Code g s n l is ts → ∀ t ∈ ts, n ≤ t ∧ t ≤ n + is.length
  | .declare | .print _ | .ret _ | .assert _ | .assign _ _ _ | .drop _ _ _ | .call _ _ => by simp
  | .block h => h.targets_le
  | .ifThen _ ht => by
    have := ht.targets_le
    simp
    grind
  | .ifThenElse _ ht hf => by
    have := ht.targets_le
    have := hf.targets_le
    simp
    grind
  | .loop hs _ => by
    have := hs.targets_le
    simp
    grind

theorem CodeAll.targets_le : CodeAll g ss n l is ts → ∀ t ∈ ts, n ≤ t ∧ t ≤ n + is.length
  | .nil         => by simp
  | .cons hs hss => by
    have := hs.targets_le
    have := hss.targets_le
    simp
    grind

end

theorem Value.length_pos (h : Value g e is) : 0 < is.length := by
  cases h <;> simp +arith

-- An instruction of a statement.
structure Placed (T : Label → Option Nat) (n : Nat) (i : Instruction) : Prop where
  aims     : Aims T n i
  position : i.position.isSome

theorem placed_of_plain (h : ∀ i ∈ is, Plain i) : Each (Placed T) n is :=
  .of_forall fun i hi _ => ⟨.of_target? (h i hi).target?, (h i hi).position⟩

-- What a statement does when its operands are there does not branch.
theorem Placed.of_target? (h : o.target? = none) : Placed T n ⟨o, some p⟩ :=
  ⟨.of_target? h, rfl⟩

section

variable {T : Label → Option Nat}

theorem Placed.branch (h : T l = some t) (hn : n < t) : Placed T n ⟨.branch l, some p⟩ where
  aims     := ⟨fun ho => ⟨t, Opcode.branch.inj ho ▸ h, hn⟩, nofun, nofun⟩
  position := rfl

theorem Placed.branchIfFalse (h : T l = some t) (hn : n < t) :
    Placed T n ⟨.branchIfFalse l, some p⟩ where
  aims     := ⟨nofun, fun ho => ⟨t, Opcode.branchIfFalse.inj ho ▸ h, hn⟩, nofun⟩
  position := rfl

theorem Placed.branchIfTrue (h : T l = some t) (hn : t < n) :
    Placed T n ⟨.branchIfTrue l, some p⟩ where
  aims     := ⟨nofun, nofun, fun ho => ⟨t, Opcode.branchIfTrue.inj ho ▸ h, hn⟩⟩
  position := rfl

mutual

theorem Code.placed : Code g s n l is ts → Bound T l ts → Each (Placed T) n is
  | .declare, _            => .nil
  | .print he, _           => by simpa using ⟨placed_of_plain he.plain, .of_target? rfl⟩
  | .ret he, _             => by simpa using ⟨placed_of_plain he.plain, .of_target? rfl⟩
  | .assert he, _          => by simpa using ⟨placed_of_plain he.plain, .of_target? rfl⟩
  | .block h, hT           => h.placed hT
  | .assign ht hv hs, _    => by
    simpa using ⟨placed_of_plain ht.plain, placed_of_plain hv.plain, .of_target? hs.target?⟩
  | .ifThen hc ht, hT      => by
    obtain ⟨hexit, hT⟩ := hT
    have ht := ht.placed hT
    simp only [Each.append, placed_of_plain hc.plain, true_and, and_assoc]
    refine ⟨⟨.branchIfFalse hexit ?_, .nil⟩, by simpa +arith using ht, .branch hexit ?_, .nil⟩
    all_goals grind
  | .ifThenElse hc ht hf, hT => by
    obtain ⟨hexit, hother, hT⟩ := hT
    obtain ⟨hTt, hTf⟩ := Bound.append.mp hT
    have ht := ht.placed hTt
    have hf := hf.placed (by simpa +arith using hTf)
    simp only [Each.append, placed_of_plain hc.plain, true_and, and_assoc]
    refine ⟨⟨.branchIfFalse hother ?_, .nil⟩, by simpa +arith using ht,
      ⟨.branch hexit ?_, .nil⟩, by simpa +arith using hf⟩
    all_goals grind
  | .loop hs hc, hT        => by
    obtain ⟨htest, hagain, hT⟩ := hT
    have hs := hs.placed hT
    have := hc.length_pos
    simp only [Each.append, placed_of_plain hc.plain, true_and, and_assoc]
    refine ⟨⟨.branch htest ?_, .nil⟩, by simpa using hs, .branchIfTrue hagain ?_, .nil⟩
    all_goals grind
  | .drop hc _ _, _        => by simpa using ⟨placed_of_plain hc.plain, .of_target? rfl⟩
  | .call hc _, _          => placed_of_plain hc.plain

theorem CodeAll.placed : CodeAll g ss n l is ts → Bound T l ts → Each (Placed T) n is
  | .nil, _          => .nil
  | .cons hs hss, hT => by
    obtain ⟨hT, hT'⟩ := Bound.append.mp hT
    exact Each.append.mpr ⟨hs.placed hT, hss.placed hT'⟩

end

end

end Emit

end MiniJava
