import MiniJava.Proofs.Resolve.Standing

namespace MiniJava

theorem SymbolTable.keeps_addSymbol {t : SymbolTable} : t.Keeps (t.addSymbol s symbol).2 :=
  fun _ _ hx => (symbol?_addSymbol_of_lt (lt_of_symbol? hx)).trans hx

namespace Resolve

open Typing

def HasSlot (t : SymbolTable) (d : VariableDeclaration) (slot : Option Nat) : Prop :=
  ∃ x, t.symbol? x = some (d.symbol slot)

theorem slotOf_of_le (h : number ≤ maxSlot) (use : SlotUse) (p : Position) (σ : State) :
    slotOf number use p σ = (some number, σ) := by
  rw [slotOf, if_pos h]
  rfl

theorem lt_size_slotOf (h : ¬number ≤ maxSlot) (use : SlotUse) (p : Position) {σ : State}
    (hr : σ.slotsReported = false) : σ.size < (slotOf number use p σ).2.size := by
  unfold slotOf
  rw [if_neg h, run_bind, run_get]
  split
  case isTrue ht => simp [hr] at ht
  case isFalse   => exact lt_size_report (.slotsExhausted use) p { σ with slotsReported := true }

theorem accepts_variable {σ : State} (hb : σ.table.scope? s = some b) (hh : Holds σ.table b F)
    (v : VariableSymbol) (i : Option NodeId) :
    σ.table.accepts s ⟨name, .ofVariable v, i⟩ = true ↔ ∀ d ∈ F, d.name ≠ name := by
  have hl : σ.table.accepts s ⟨name, .ofVariable v, i⟩ = true ↔
      b.lookup .variableNames name = none := by
    simp [SymbolTable.accepts_iff, hb, SymbolKind.namespace]
  have hf : F.find? (·.name = name) = none ↔ ∀ d ∈ F, d.name ≠ name := by
    simp [List.find?_eq_none]
  rw [hl, ← hf]
  have hh := hh name
  generalize b.lookup .variableNames name = r at hh
  generalize F.find? (·.name = name) = v at hh
  cases hh <;> simp

inductive Defined (s : ScopeId) (F : Frame) (d : VariableDeclaration) (slot : Option Nat)
    (σ : State) : Option SymbolId × State → Prop
  | added :
    (σ.table.resolveType? d.type.name).isSome = true → (∀ d' ∈ F, d'.name ≠ d.name) →
      σ'.size = σ.size → σ'.nextLocal = σ.nextLocal → σ'.slotsReported = σ.slotsReported →
      (∀ b, σ'.table.scope? s = some b → Holds σ'.table b (d :: F)) → HasSlot σ'.table d slot →
      Defined s F d slot σ (some x, σ')
  | reported :
    ((σ.table.resolveType? d.type.name).isSome = true → ¬∀ d' ∈ F, d'.name ≠ d.name) →
      σ.size < out.2.size → Defined s F d slot σ out

-- A scope with one variable more, which is found under its name only.
theorem holds_addSymbol {t : SymbolTable} (hb : t.scope? s = some b) (hh : Holds t b F)
    (hb' : (t.addSymbol s (d.symbol slot)).2.scope? s = some b') :
    Holds (t.addSymbol s (d.symbol slot)).2 b' (d :: F) := by
  rw [SymbolTable.scope?_addSymbol, if_pos rfl, hb] at hb'
  obtain rfl := Option.some.inj hb'
  intro name
  rw [Scope.lookup_insert, List.find?_cons]
  by_cases hn : d.name = name
  case pos =>
    rw [if_pos ⟨rfl, hn⟩, decide_eq_true hn]
    exact .some ⟨slot, SymbolTable.symbol?_addSymbol_self _ _ _⟩
  case neg =>
    rw [if_neg fun h => hn h.2, decide_eq_false hn]
    exact (hh.keep SymbolTable.keeps_addSymbol) name

-- The name is checked, the node is bound to the scope, and then the symbol is defined.
theorem defineVariable_eq (d : VariableDeclaration) (s : ScopeId) (slot : Option Nat) (σ : State) :
    let σ₁ := (modifyTable (·.bindScope d.id s)
      (checkTypeName d.type.name d.position σ).2).2
    let out := define s (d.symbol slot) σ₁
    defineVariable d s slot σ =
      if out.1.isNone = true then
        (out.1, (report (.duplicate .aVariable d.name) d.position out.2).2)
      else out := by
  intro σ₁ out
  show (if out.1.isNone = true then _ else _ : Action _) _ = _
  split <;> rfl

theorem defined_defineVariable {σ : State} (hb : σ.table.scope? s = some b)
    (hh : Holds σ.table b F) (d : VariableDeclaration) (slot : Option Nat) :
    Defined s F d slot σ (defineVariable d s slot σ) := by
  rw [defineVariable_eq]
  by_cases hk : (σ.table.resolveType? d.type.name).isSome = true
  case neg =>
    rw [checkTypeName_of_none hk]
    apply Defined.reported fun h => absurd h hk
    have hlt := lt_size_report (.unresolved .aType d.type.name) d.position σ
    generalize (report (.unresolved .aType d.type.name) d.position σ).2 = σ₁ at hlt ⊢
    generalize hσ : (modifyTable (·.bindScope d.id s) σ₁).2 = σ₂
    have hq : σ₂.size = σ₁.size := hσ ▸ rfl
    have hd : Grows [] s σ₂ (define s (d.symbol slot) σ₂).2 := .define _ _ _ _
    have hle := hd.adds.size_le
    generalize define s (d.symbol slot) σ₂ = out at hle ⊢
    have hr := Adds.report (.duplicate .aVariable d.name) d.position out.2
    by_cases ho : out.1.isNone = true
    case pos =>
      rw [if_pos ho]
      exact Nat.lt_of_lt_of_le (hq ▸ hlt) (Nat.le_trans hle hr.size_le)
    case neg =>
      rw [if_neg ho]
      exact Nat.lt_of_lt_of_le (hq ▸ hlt) hle
  case pos =>
    rw [checkTypeName_of_some hk]
    generalize hσ : (modifyTable (·.bindScope d.id s) σ).2 = σ₁
    have ha : σ₁.table.accepts s (d.symbol slot) = true ↔ ∀ d' ∈ F, d'.name ≠ d.name := by
      subst hσ
      exact accepts_variable hb hh _ _
    by_cases hn : ∀ d' ∈ F, d'.name ≠ d.name
    case neg =>
      rw [define_of_not_accepts (mt ha.mp hn)]
      have hlt := lt_size_report (.duplicate .aVariable d.name) d.position σ₁
      exact .reported (fun _ => hn) (Nat.lt_of_le_of_lt (Nat.le_of_eq (hσ ▸ rfl)) hlt)
    case pos =>
      rw [define_of_accepts (ha.mpr hn)]
      rw [if_neg (by simp)]
      subst hσ
      exact .added hk hn rfl rfl rfl
        (fun b' => holds_addSymbol (t := σ.table.bindScope d.id s) hb hh)
        ⟨_, SymbolTable.symbol?_addSymbol_self _ _ _⟩

theorem declareLocal_eq (place : Place) (d : VariableDeclaration) (σ : State) :
    let slot := slotOf σ.nextLocal .locals d.position σ
    let out := defineVariable d place.scope slot.1 slot.2
    (declareLocal place d σ).2 =
      if (out.1.isSome && slot.1.isSome) = true then
        { out.2 with nextLocal := out.2.nextLocal + 1 }
      else out.2 := by
  intro slot out
  show ((if (out.1.isSome && slot.1.isSome) = true then _ else _ : Action _) _).2 = _
  split <;> rfl

end Resolve

end MiniJava
